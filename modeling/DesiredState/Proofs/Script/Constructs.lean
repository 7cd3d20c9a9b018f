/-
What the rules make of what is written.

Only a part of the language is ever written: atoms, comma lists of atoms in array
brackets, blocks with a name or without one, arrays of blocks, and keys with such values.
For each of these the rules are followed from the outermost one in, and the node that
comes of it is given; the rules in between add nothing.
-/
import DesiredState.Proofs.Script.Passage

namespace DesiredState

/-- Whether a kind is a value by itself. -/
def TokenKind.isAtom (kind : TokenKind) : Bool :=
  kind.isString || kind == .number || kind == .variableName

namespace Grammar

open Reading Cursor

/-- The expression of a token that is a value by itself. -/
def atom (source : Text) (t : Token) : Expression :=
  let extent := Extent.ofTokens source [t]
  if t.kind.isString then stringExpression t extent
  else if t.kind = .number then numberExpression t extent
  else .variable ⟨extent, variableName t.text⟩

section Rules

variable {source : Text} {below : Level} {consumed tokens rest : List Token}

/-! ### Values without signs and operators

Each rule asks whether something more follows: an access, an operator, a comma, a pipe.
These lemmas say that nothing does, from the inner rules to the outer ones.
-/

theorem passes_tokenExpression (build : Token → Extent → Expression) (t : Token) :
    Passes (tokenExpression source build) consumed [t] rest
      (· = ⟨build t (.ofTokens source [t]), []⟩) := by
  refine Passes.spanning (List.cons_ne_nil _ _) ?_
  refine Passes.map (Passes.token t) ?_
  intro a ha
  rw [ha]

theorem passes_atom {t : Token} (h : t.kind.isAtom) :
    Passes (primary source below) consumed [t] rest (· = ⟨atom source t, []⟩) := by
  unfold primary
  refine Passes.get ?_
  have hkind : Cursor.nextKind? ⟨consumed, [t] ++ rest⟩ = some t.kind := rfl
  rw [hkind]
  unfold TokenKind.isAtom at h
  unfold atom
  cases hk : t.kind <;> rw [hk] at h <;> first
    | exact absurd h (by decide)
    | exact passes_tokenExpression _ t

theorem accessFollows_of_endsElement (h : Meets rest endsElement) :
    Cursor.accessFollows ⟨consumed, rest⟩ = false := by
  refine h.accessFollows ?_
  intro kind hk
  cases kind <;> first | rfl | exact absurd hk (by decide)

/-- A value and what is accessed on it are an operand. -/
theorem passes_accessedOperand {t : Token} {more : List Token} {P : Marked Expression → Prop}
    {Q : List Access → Prop} (ht : t.kind.startsPrimary)
    (h : Passes (primary source below) consumed (t :: tokens) (more ++ rest) P)
    (hmore : Passes accesses ((t :: tokens).reverse ++ consumed) more rest Q) :
    Passes (operand source below) consumed (t :: tokens ++ more) rest fun e =>
      ∃ base followed, P base ∧ Q followed ∧ e = ⟨accessed base.node followed
        (.ofTokens source (t :: tokens ++ more)), base.marks⟩ := by
  have hnot : ∀ kind : TokenKind, (kind.startsPrimary = false) →
      Cursor.nextIs ⟨consumed, t :: tokens ++ more ++ rest⟩ (· == kind) = false := by
    intro kind hk
    refine beq_eq_false_iff_ne.mpr ?_
    intro he
    rw [he, hk] at ht
    exact absurd ht Bool.false_ne_true
  rw [operand_eq]
  refine Passes.spanning (List.cons_ne_nil _ _) (Passes.nextIs ?_)
  rw [hnot .operator rfl]
  refine Passes.bind (s := []) (t := t :: tokens ++ more) (Passes.pure (a := ()) trivial)
    (P := fun _ => True) ?_
  intro _ _
  refine Passes.nextIs ?_
  rw [List.reverse_nil, List.nil_append, hnot .typeLiteral rfl, if_neg Bool.false_ne_true]
  refine Passes.bind h fun base hbase => ?_
  exact Passes.map hmore fun followed hfollowed => ⟨base, followed, hbase, hfollowed, rfl⟩

/-- A value to which nothing is added is an operand. -/
theorem passes_operand {t : Token} {P : Marked Expression → Prop}
    (ht : t.kind.startsPrimary)
    (h : Passes (primary source below) consumed (t :: tokens) rest P)
    (haccess : Cursor.accessFollows ⟨(t :: tokens).reverse ++ consumed, rest⟩ = false) :
    Passes (operand source below) consumed (t :: tokens) rest P := by
  have hnone : Passes accesses ((t :: tokens).reverse ++ consumed) [] rest (· = []) :=
    Passes.readWhile_stop haccess rfl
  have hoperand := passes_accessedOperand ht h hnone
  rw [List.append_nil] at hoperand
  refine hoperand.mono ?_
  rintro _ ⟨base, _, hbase, rfl, rfl⟩
  exact hbase

/-- An operand without operators is all that there is between commas. -/
theorem passes_binary {t : Token} {P : Marked Expression → Prop}
    (h : Passes (operand source below) consumed (t :: tokens) rest P)
    (hrest : Meets rest endsElement) :
    Passes (binary source below) consumed (t :: tokens) rest P := by
  have hmore : (fun c : Cursor => c.onLine && c.nextIs fun kind =>
      kind == .operator || kind == .parameter) ⟨(t :: tokens).reverse ++ consumed, rest⟩ = false := by
    simp only []
    rw [hrest.nextIs, Bool.and_false]
    intro kind hk
    cases kind <;> first | rfl | exact absurd hk (by decide)
  refine Passes.spanning (List.cons_ne_nil _ _) ?_
  refine h.last ?_
  intro first hfirst
  refine Passes.map (Passes.readWhile_stop hmore rfl (P := (· = []))) ?_
  rintro _ rfl
  exact hfirst

/-- Values without commas between them. -/
theorem passes_expression {t : Token} {P : Marked Expression → Prop}
    (h : Passes (binary source below) consumed (t :: tokens) rest P)
    (hrest : Meets rest endsValue) :
    Passes (expression source below) consumed (t :: tokens) rest P := by
  have hmore : (fun c : Cursor => c.nextIs (· == .comma))
      ⟨(t :: tokens).reverse ++ consumed, rest⟩ = false := by
    refine hrest.nextIs ?_
    intro kind hk
    cases kind <;> first | rfl | exact absurd hk (by decide)
  refine Passes.spanning (List.cons_ne_nil _ _) ?_
  refine h.last ?_
  intro first hfirst
  refine Passes.map (Passes.readWhile_stop hmore rfl (P := (· = []))) ?_
  rintro _ rfl
  exact hfirst

/-- An expression that is neither assigned to nor piped is a statement by itself. -/
theorem passes_expressionOrAssignment {t : Token} {P : Marked Expression → Prop}
    (h : Passes (expression source below) consumed (t :: tokens) rest P)
    (hrest : Meets rest endsValue) :
    Passes (expressionOrAssignment source below) consumed (t :: tokens) rest fun s =>
      ∃ e, P e ∧ s = ⟨.pipeline (.ofTokens source (t :: tokens)) [.expression e.node],
        e.marks⟩ := by
  refine Passes.spanning (List.cons_ne_nil _ _) ?_
  refine h.last ?_
  intro first hfirst
  have hnot : ∀ kind : TokenKind, endsValue kind = false →
      Cursor.nextIs ⟨(t :: tokens).reverse ++ consumed, [] ++ rest⟩ (· == kind) = false := by
    intro kind hk
    refine hrest.nextIs ?_
    intro other ho
    refine beq_eq_false_iff_ne.mpr ?_
    intro he
    rw [he, hk] at ho
    exact absurd ho Bool.false_ne_true
  refine Passes.nextIs ?_
  rw [hnot .equals rfl, if_neg Bool.false_ne_true]
  have hpipes : Passes (pipes source below) ((t :: tokens).reverse ++ consumed) [] rest
      (· = ⟨[], []⟩) := by
    refine Passes.map (Passes.readWhile_stop (hnot .pipe rfl) rfl (P := (· = []))) ?_
    rintro _ rfl
    rfl
  refine Passes.map hpipes ?_
  rintro _ rfl
  exact ⟨first, hfirst, by rw [List.append_nil]⟩

/-! ### Statements one after another

How many statements there are is bounded by the tokens that are left, and it would be in
the way to say so each time.  `PassesItems` holds for every bound that is large enough.
-/

/-- Readings of statements that read just these tokens, however often they may go on. -/
def PassesItems (below : Level) (separates : TokenKind → Bool) (consumed tokens rest : List Token)
    (P : List Item → Prop) : Prop :=
  ∀ n, tokens.length ≤ n →
    Passes (whileAtMost (·.nextIs fun kind => kind.startsStatement || separates kind)
      (itemOr below separates) n) consumed tokens rest fun read => P (read.filterMap id)

variable {separates : TokenKind → Bool} {P : List Item → Prop}

theorem PassesItems.items (h : PassesItems below separates consumed tokens rest P) :
    Passes (items below separates) consumed tokens rest P :=
  Passes.map (Passes.readWhile h) fun _ ha => ha

theorem PassesItems.mono {weaker : List Item → Prop}
    (h : PassesItems below separates consumed tokens rest P)
    (hw : ∀ read, P read → weaker read) :
    PassesItems below separates consumed tokens rest weaker :=
  fun n hn => (h n hn).mono fun _ ha => hw _ ha

theorem PassesItems.stop
    (hrest : Meets rest fun kind => !(kind.startsStatement || separates kind)) (h : P []) :
    PassesItems below separates consumed [] rest P := by
  intro n _
  refine Passes.whileAtMost_stop n (hrest.nextIs ?_) h
  intro kind hk
  exact Bool.not_eq_true' _ ▸ hk

theorem PassesItems.step {t : Token} {more : List Token} {one : Item → Prop}
    (ht : t.kind.startsStatement) (hseparates : separates t.kind = false)
    (hfirst : Passes below.statement consumed (t :: tokens) (more ++ rest) one)
    (hmore : ∀ item, one item →
      PassesItems below separates ((t :: tokens).reverse ++ consumed) more rest
        fun read => P (item :: read)) :
    PassesItems below separates consumed (t :: tokens ++ more) rest P := by
  intro n hn
  rw [List.length_append, List.length_cons] at hn
  obtain ⟨n, rfl⟩ : ∃ k, n = k + 1 := ⟨n - 1, by omega⟩
  have henter : Cursor.nextIs ⟨consumed, t :: tokens ++ more ++ rest⟩
      (fun kind => kind.startsStatement || separates kind) = true := by
    change (t.kind.startsStatement || separates t.kind) = true
    rw [ht, Bool.true_or]
  have hone : Passes (itemOr below separates) consumed (t :: tokens) (more ++ rest)
      fun read => ∃ item, read = some item ∧ one item := by
    refine Passes.nextIs ?_
    rw [show Cursor.nextIs ⟨consumed, t :: tokens ++ (more ++ rest)⟩ separates = false from
      hseparates, if_neg Bool.false_ne_true]
    exact Passes.map hfirst fun item hitem => ⟨item, rfl, hitem⟩
  refine Passes.whileAtMost_step henter hone ?_
  rintro _ ⟨item, rfl, hitem⟩
  exact (hmore item hitem n (by omega)).mono fun read hread => hread

/-- One statement is all there is. -/
theorem PassesItems.one {t : Token} {P : Item → Prop} (ht : t.kind.startsStatement)
    (hseparates : separates t.kind = false)
    (h : Passes below.statement consumed (t :: tokens) rest P)
    (hrest : Meets rest fun kind => !(kind.startsStatement || separates kind)) :
    PassesItems below separates consumed (t :: tokens) rest fun read =>
      ∃ item, read = [item] ∧ P item := by
  rw [← List.append_nil (t :: tokens)]
  refine PassesItems.step ht hseparates h ?_
  intro item hitem
  exact PassesItems.stop hrest ⟨item, rfl, hitem⟩

/-- Statements in braces. -/
theorem passes_body {opener closer : Token} (ho : opener.kind = .braceOpen)
    (hc : closer.kind = .braceClose)
    (h : PassesItems below (· == .semicolon) (opener :: consumed) tokens (closer :: rest) P) :
    Passes (body source below) consumed (opener :: (tokens ++ [closer])) rest
      fun read => P read.1 := by
  refine Passes.spanning (List.cons_ne_nil _ _) ?_
  refine Passes.bind (s := [opener]) (Passes.expect ho) ?_
  intro _ _
  refine Passes.bind (s := tokens) h.items ?_
  intro read hread
  refine Passes.map (Passes.expect hc) ?_
  intro _ _
  exact hread

/-- Statements in array brackets. -/
theorem passes_bracketedArray {opener closer : Token} (ho : opener.kind = .arrayOpen)
    (hc : closer.kind = .parenClose)
    (h : PassesItems below (fun kind => kind == .semicolon || kind == .comma) (opener :: consumed)
      tokens (closer :: rest) P) :
    Passes (bracketedArray source below) consumed (opener :: (tokens ++ [closer])) rest fun e =>
      ∃ extent read, P read ∧
        e = ⟨.array extent true (read.flatMap fun item => contributed item.statement),
          read.flatMap (·.marks)⟩ := by
  refine Passes.spanning (List.cons_ne_nil _ _) ?_
  refine Passes.bind (s := [opener]) (Passes.expect ho) ?_
  intro _ _
  refine Passes.bind (s := tokens) h.items ?_
  intro read hread
  refine Passes.map (Passes.expect hc) ?_
  intro _ _
  exact ⟨_, read, hread, rfl⟩

/-! ### Comma lists of atoms -/

/-- Atoms behind commas. -/
def commaTokens (pairs : List (Token × Token)) : List Token := pairs.flatMap fun p => [p.1, p.2]

theorem startsPrimary_of_isAtom {kind : TokenKind} (h : kind.isAtom) : kind.startsPrimary := by
  cases kind <;> first | rfl | exact absurd h (by decide)

theorem passes_atomOperand {t : Token} (h : t.kind.isAtom) (hrest : Meets rest endsElement) :
    Passes (binary source below) consumed [t] rest (· = ⟨atom source t, []⟩) :=
  passes_binary (passes_operand (startsPrimary_of_isAtom h) (passes_atom h)
    (accessFollows_of_endsElement hrest)) hrest

theorem meets_commaTokens {pairs : List (Token × Token)}
    (h : ∀ p ∈ pairs, p.1.kind = .comma ∧ p.2.kind.isAtom) (hrest : Meets rest endsValue) :
    Meets (commaTokens pairs ++ rest) endsElement := by
  cases pairs with
  | nil => exact hrest.mono endsElement_of_endsValue
  | cons p pairs =>
    refine Meets.cons ?_
    rw [(h p List.mem_cons_self).1]
    rfl

theorem passes_commaLoop {pairs : List (Token × Token)}
    (hpairs : ∀ p ∈ pairs, p.1.kind = .comma ∧ p.2.kind.isAtom) (hrest : Meets rest endsValue)
    (n : Nat) (hn : (commaTokens pairs).length ≤ n) :
    Passes (whileAtMost (·.nextIs (· == .comma)) (commaAndValue source below) n) consumed
      (commaTokens pairs) rest (· = pairs.map fun p => ⟨atom source p.2, []⟩) := by
  induction pairs generalizing consumed n with
  | nil =>
    refine Passes.whileAtMost_stop n (hrest.nextIs ?_) rfl
    intro kind hk
    cases kind <;> first | rfl | exact absurd hk (by decide)
  | cons p pairs ih =>
    obtain ⟨hcomma, hatom⟩ := hpairs p List.mem_cons_self
    have hmore : ∀ p ∈ pairs, p.1.kind = .comma ∧ p.2.kind.isAtom :=
      fun q hq => hpairs q (List.mem_cons_of_mem p hq)
    have hlen : (commaTokens (p :: pairs)).length = 2 + (commaTokens pairs).length := by
      rw [commaTokens, List.flatMap_cons, List.length_append]
      rfl
    obtain ⟨n, rfl⟩ : ∃ k, n = k + 1 := ⟨n - 1, by omega⟩
    have hone : Passes (commaAndValue source below) consumed [p.1, p.2]
        (commaTokens pairs ++ rest) (· = ⟨atom source p.2, []⟩) := by
      refine Passes.bind (s := [p.1]) (Passes.token p.1) ?_
      intro _ _
      exact passes_atomOperand hatom (meets_commaTokens hmore hrest)
    refine Passes.whileAtMost_step (s := [p.1, p.2]) ?_ hone ?_
    · change (p.1.kind == .comma) = true
      rw [hcomma]
      rfl
    · rintro _ rfl
      refine (ih hmore n (by omega)).mono ?_
      rintro _ rfl
      rfl

/-- A comma list of atoms is one expression. -/
theorem passes_atomList {t : Token} {pairs : List (Token × Token)} (ht : t.kind.isAtom)
    (hpairs : ∀ p ∈ pairs, p.1.kind = .comma ∧ p.2.kind.isAtom) (hne : pairs ≠ [])
    (hrest : Meets rest endsValue) :
    Passes (expression source below) consumed (t :: commaTokens pairs) rest fun e =>
      ∃ extent, e = ⟨.array extent false
        ((t :: pairs.map (·.2)).map fun t => .expression (atom source t)), []⟩ := by
  refine Passes.spanning (List.cons_ne_nil _ _) ?_
  refine Passes.bind (s := [t]) (passes_atomOperand ht (meets_commaTokens hpairs hrest)) ?_
  rintro _ rfl
  refine Passes.map (Passes.readWhile fun n hn => passes_commaLoop hpairs hrest n hn) ?_
  rintro _ rfl
  refine ⟨.ofTokens source (t :: commaTokens pairs), ?_⟩
  simp [hne, List.map_map, Function.comp_def, List.flatMap_map]

/-- The terms of atoms. -/
def atomTerms (source : Text) (atoms : List Token) : List Term :=
  atoms.map fun t => .expression (atom source t)

/-- An atom is no list. -/
theorem contributed_atom (source : Text) (extent : Extent) (t : Token) :
    contributed (.pipeline extent [.expression (atom source t)]) =
      [.expression (atom source t)] := by
  unfold atom stringExpression numberExpression
  split
  · rfl
  · split
    · split <;> rfl
    · rfl

/-- A comma list of atoms, if it is not empty, is one statement, which contributes its atoms to the
array that it stands in. -/
theorem passes_atomStatement {t : Token} {pairs : List (Token × Token)} (ht : t.kind.isAtom)
    (hpairs : ∀ p ∈ pairs, p.1.kind = .comma ∧ p.2.kind.isAtom) (hrest : Meets rest endsValue) :
    Passes (expressionOrAssignment source below) consumed (t :: commaTokens pairs) rest fun s =>
      contributed s.node = atomTerms source (t :: pairs.map (·.2)) ∧ s.marks = [] := by
  by_cases hne : pairs = []
  · subst hne
    refine (passes_expressionOrAssignment (passes_expression (passes_atomOperand ht
      (hrest.mono endsElement_of_endsValue)) hrest) hrest).mono ?_
    rintro _ ⟨_, rfl, rfl⟩
    exact ⟨contributed_atom source _ t, rfl⟩
  · refine (passes_expressionOrAssignment (passes_atomList ht hpairs hne hrest) hrest).mono ?_
    rintro _ ⟨_, ⟨extent, rfl⟩, rfl⟩
    exact ⟨rfl, rfl⟩

/-! ### Statements and values -/

/-- A statement that starts with an atom is an expression. -/
theorem passes_statement_atom {t : Token} {P : Marked Statement → Prop} (ht : t.kind.isAtom)
    (h : Passes (expressionOrAssignment source below) consumed (t :: tokens) rest P) :
    Passes (statement source below) consumed (t :: tokens) rest fun item =>
      ∃ s, P s ∧ item = ⟨s.node, none, s.marks⟩ := by
  refine Passes.get ?_
  have hkind : Cursor.nextKind? ⟨consumed, t :: tokens ++ rest⟩ = some t.kind := rfl
  simp only [hkind]
  cases hk : t.kind <;> rw [hk] at ht <;> first
    | exact absurd ht (by decide)
    | exact Passes.map h fun s hs => ⟨s, hs, rfl⟩

/-- Atoms in array brackets. -/
theorem passes_atomArray {m : Nat} {opener closer : Token} {atoms : List Token}
    (ho : opener.kind = .arrayOpen) (hc : closer.kind = .parenClose)
    (hatoms : atoms = [] ∧ tokens = [] ∨ ∃ t pairs, t.kind.isAtom ∧
      (∀ p ∈ pairs, p.1.kind = .comma ∧ p.2.kind.isAtom) ∧ tokens = t :: commaTokens pairs ∧
      atoms = t :: pairs.map (·.2)) :
    Passes (bracketedArray source (level source (m + 1))) consumed (opener :: (tokens ++ [closer]))
      rest fun e => ∃ extent, e = ⟨.array extent true (atomTerms source atoms), []⟩ := by
  have hcloser : ∀ p : TokenKind → Bool, p .parenClose → Meets (closer :: rest) p := by
    intro p hp
    refine Meets.cons ?_
    rw [hc]
    exact hp
  have hitems : PassesItems (level source (m + 1)) (fun kind => kind == .semicolon || kind == .comma)
      (opener :: consumed) tokens (closer :: rest) fun read =>
        (read.flatMap fun item => contributed item.statement) = atomTerms source atoms ∧
          read.flatMap (·.marks) = [] := by
    rcases hatoms with ⟨rfl, rfl⟩ | ⟨t, pairs, ht, hpairs, rfl, rfl⟩
    · exact PassesItems.stop (hcloser _ rfl) ⟨rfl, rfl⟩
    · have hlist : Passes (expressionOrAssignment source (level source m)) (opener :: consumed)
          (t :: commaTokens pairs) (closer :: rest) fun s =>
            contributed s.node = atomTerms source (t :: pairs.map (·.2)) ∧ s.marks = [] :=
        passes_atomStatement ht hpairs (hcloser _ rfl)
      have hone := passes_statement_atom ht hlist
      have hstarts : t.kind.startsStatement := by
        cases hk : t.kind <;> rw [hk] at ht <;> first | rfl | exact absurd ht (by decide)
      have hnot : (t.kind == .semicolon || t.kind == .comma) = false := by
        cases hk : t.kind <;> rw [hk] at ht <;> first | rfl | exact absurd ht (by decide)
      rw [← List.append_nil (t :: commaTokens pairs)]
      refine PassesItems.step hstarts hnot hone ?_
      rintro _ ⟨s, ⟨hcontributed, hmarks⟩, rfl⟩
      refine PassesItems.stop (hcloser _ rfl) ?_
      simp [hcontributed, hmarks]
  refine (passes_bracketedArray ho hc hitems).mono ?_
  rintro _ ⟨extent, read, ⟨hterms, hmarks⟩, rfl⟩
  exact ⟨extent, by rw [hterms, hmarks]⟩

/-- A value that starts with no word is an expression. -/
theorem passes_value_expression {t : Token} {P : Marked Statement → Prop}
    (ht : t.kind.isName = false)
    (h : Passes (expressionOrAssignment source below) consumed (t :: tokens) rest P) :
    Passes (value source below) consumed (t :: tokens) rest P := by
  refine Passes.nextIs ?_
  rw [show Cursor.nextIs ⟨consumed, t :: tokens ++ rest⟩ TokenKind.isName = false from ht,
    if_neg Bool.false_ne_true]
  exact h

/-- An array in brackets is a value. -/
theorem passes_arrayValue {opener : Token} {P : Marked Expression → Prop}
    (ho : opener.kind = .arrayOpen)
    (h : Passes (bracketedArray source below) consumed (opener :: tokens) rest P)
    (hrest : Meets rest endsValue) :
    Passes (value source below) consumed (opener :: tokens) rest fun s =>
      ∃ e, P e ∧ s = ⟨.pipeline (.ofTokens source (opener :: tokens)) [.expression e.node],
        e.marks⟩ := by
  have hends := hrest.mono endsElement_of_endsValue
  have hstarts : opener.kind.startsPrimary := by rw [ho]; rfl
  have hprimary : Passes (primary source below) consumed (opener :: tokens) rest P := by
    unfold primary
    refine Passes.get ?_
    have hkind : Cursor.nextKind? ⟨consumed, opener :: tokens ++ rest⟩ = some .arrayOpen :=
      congrArg some ho
    rw [hkind]
    exact h
  refine passes_value_expression (by rw [ho]; rfl) (passes_expressionOrAssignment ?_ hrest)
  exact passes_expression (passes_binary (passes_operand hstarts hprimary
    (accessFollows_of_endsElement hends)) hends) hrest

/-- An atom is a value. -/
theorem passes_atomValue {t : Token} (ht : t.kind.isAtom) (hrest : Meets rest endsValue) :
    Passes (value source below) consumed [t] rest
      (· = ⟨.pipeline (.ofTokens source [t]) [.expression (atom source t)], []⟩) := by
  have hname : t.kind.isName = false := by
    cases hk : t.kind <;> rw [hk] at ht <;> first | rfl | exact absurd ht (by decide)
  refine passes_value_expression hname ?_
  refine (passes_expressionOrAssignment (passes_expression (passes_atomOperand ht
    (hrest.mono endsElement_of_endsValue)) hrest) hrest).mono ?_
  rintro _ ⟨_, rfl, rfl⟩
  rfl

end Rules

end Grammar

end DesiredState
