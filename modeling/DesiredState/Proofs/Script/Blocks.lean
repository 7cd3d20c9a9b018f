/-
Blocks, keys, and what stands around them.

A block is read by the rule for commands: a word, then its arguments, then a body in
which every statement is a key with its value.  With no argument it is a block of a
class, and with one it declares a resource.  Node blocks and configurations are keywords
with a body, and a script is one configuration.
-/
import DesiredState.Proofs.Script.Constructs

namespace DesiredState

namespace Grammar

open Reading Cursor

variable {source : Text} {below : Level} {consumed tokens rest : List Token}

/-! ### Keys -/

/-- What is made of a key and of a value that is read behind it. -/
def keyedItem (source : Text) (key equals : Token) (tokens : List Token) (v : Marked Statement) :
    Item :=
  ⟨.assignment (.ofTokens source (key :: equals :: tokens)) (bareString key) v.node,
    some (key, v.node), v.marks⟩

/-- A key, the sign of equality and a value. -/
theorem passes_keyed {key equals : Token} {P : Marked Statement → Prop}
    (he : equals.kind = .equals)
    (h : Passes below.value (equals :: key :: consumed) tokens rest P) :
    Passes (keyed source below) consumed (key :: equals :: tokens) rest fun item =>
      ∃ v, P v ∧ item = keyedItem source key equals tokens v := by
  refine Passes.spanning (List.cons_ne_nil _ _) ?_
  refine Passes.bind (s := [key]) (Passes.token key) ?_
  rintro _ rfl
  refine Passes.bind (s := [equals]) (Passes.expect he) ?_
  intro _ _
  exact Passes.map h fun v hv => ⟨v, hv, rfl⟩

/-- What is a word before the sign of equality is a key. -/
theorem passes_wordStatement_keyed {key equals : Token} {P : Item → Prop}
    (he : equals.kind = .equals)
    (h : Passes (keyed source below) consumed (key :: equals :: tokens) rest P) :
    Passes (wordStatement source below) consumed (key :: equals :: tokens) rest P := by
  refine Passes.get ?_
  simp only [List.cons_append]
  rw [if_pos]
  · exact h
  · rw [he]
    exact Bool.or_true _

/-- A key with its value is a statement, also if the key is a keyword. -/
theorem passes_statement_keyed {key equals : Token} {P : Marked Statement → Prop}
    (hk : key.kind.isName) (he : equals.kind = .equals)
    (h : Passes below.value (equals :: key :: consumed) tokens rest P) :
    Passes (statement source below) consumed (key :: equals :: tokens) rest fun item =>
      ∃ v, P v ∧ item = keyedItem source key equals tokens v := by
  have hkeyed : Passes (keyed source below) consumed (key :: equals :: tokens) rest _ :=
    passes_keyed he h
  have hword := passes_wordStatement_keyed he hkeyed
  refine Passes.get ?_
  have hkind : Cursor.nextKind? ⟨consumed, key :: equals :: tokens ++ rest⟩ = some key.kind := rfl
  have hsecond : ((List.drop 1 (key :: equals :: tokens ++ rest)).head?.map Token.kind) =
      some .equals := congrArg some he
  simp only [hkind, hsecond]
  cases hkey : key.kind <;> rw [hkey] at hk <;> first
    | exact absurd hk (by decide)
    | exact hword

/-! ### Blocks

Whether a word starts a block or a command is decided at the end, by its arguments and
the statements in its body.  So both are read the same way up to there.
-/

/-- Arguments that are none, before a brace. -/
theorem passes_noArguments {enter : Cursor → Bool} (he : enter ⟨consumed, rest⟩ = false) :
    Passes (commandArguments source below enter) consumed [] rest (· = ⟨[], []⟩) := by
  refine Passes.map (Passes.readWhile_stop he rfl (P := (· = []))) ?_
  rintro _ rfl
  rfl

/-- Whether the arguments of a command go on; a brace starts its body instead. -/
def entersArgument (c : Cursor) : Bool :=
  c.onLine && !c.nextIs (· == .braceOpen) && c.nextIs TokenKind.startsArgument

theorem entersArgument_brace {opener : Token} (ho : opener.kind = .braceOpen) :
    entersArgument ⟨consumed, opener :: rest⟩ = false := by
  unfold entersArgument Cursor.nextIs
  simp [ho]

/-- An operand on the line of its command is the only argument before a brace. -/
theorem passes_operandArgument {t opener head : Token} {e : Marked Expression}
    (ht : t.kind.isAtom) (hline : t.onLineOf head) (ho : opener.kind = .braceOpen)
    (h : Passes (operand source below) (head :: consumed) (t :: tokens) (opener :: rest) (· = e)) :
    Passes (commandArguments source below entersArgument) (head :: consumed) (t :: tokens)
      (opener :: rest) (· = ⟨[.value e.node], e.marks⟩) := by
  have henter : entersArgument ⟨head :: consumed, t :: tokens ++ [] ++ (opener :: rest)⟩ = true := by
    unfold entersArgument Cursor.nextIs Cursor.onLine
    simp only [List.append_nil, List.cons_append, hline, Bool.true_and]
    cases hk : t.kind <;> rw [hk] at ht <;> first | rfl | exact absurd ht (by decide)
  have hone : Passes (argument source below) (head :: consumed) (t :: tokens)
      ([] ++ (opener :: rest)) (· = ⟨.value e.node, e.marks⟩) := by
    unfold argument
    refine Passes.get ?_
    have hkind : Cursor.nextKind? ⟨head :: consumed, t :: tokens ++ ([] ++ (opener :: rest))⟩ =
        some t.kind := rfl
    rw [hkind]
    cases hk : t.kind <;> rw [hk] at ht <;> first
      | exact absurd ht (by decide)
      | exact Passes.map h fun a ha => by rw [ha]
  have hloop : Passes (readWhile entersArgument (argument source below)) (head :: consumed)
      (t :: tokens) (opener :: rest) (· = [⟨.value e.node, e.marks⟩]) := by
    refine Passes.readWhile fun n hn => ?_
    obtain ⟨n, rfl⟩ : ∃ k, n = k + 1 := ⟨n - 1, by rw [List.length_cons] at hn; omega⟩
    rw [← List.append_nil (t :: tokens)]
    refine Passes.whileAtMost_step henter hone ?_
    rintro _ rfl
    exact Passes.whileAtMost_stop n (entersArgument_brace ho) rfl
  refine Passes.map hloop ?_
  rintro _ rfl
  simp [foldArguments]

/-- A brace is no access behind anything but a member. -/
theorem accessFollows_brace {last opener : Token} (hl : last.kind.isName = false)
    (ho : opener.kind = .braceOpen) :
    Cursor.accessFollows ⟨last :: consumed, opener :: rest⟩ = false := by
  unfold Cursor.accessFollows Cursor.afterMember Cursor.nextIs
  cases consumed <;> simp [ho, hl]

/-- A string on the line of its command is the only argument before a brace. -/
theorem passes_nameArgument {name opener head : Token} (hn : name.kind.isString)
    (hline : name.onLineOf head) (ho : opener.kind = .braceOpen) :
    Passes (commandArguments source below entersArgument) (head :: consumed) [name] (opener :: rest)
      (· = ⟨[.value (atom source name)], []⟩) := by
  have hatom : name.kind.isAtom := by
    unfold TokenKind.isAtom
    rw [hn]
    rfl
  have hname : name.kind.isName = false := by
    cases hk : name.kind <;> rw [hk] at hn <;> first | rfl | exact absurd hn (by decide)
  exact passes_operandArgument hatom hline ho
    (passes_operand (startsPrimary_of_isAtom hatom) (passes_atom hatom)
      (accessFollows_brace hname ho))

/-- A word, its arguments and a body in braces are a block, if the arguments are at most one value
and the statements in the body are keys with values. -/
theorem passes_command {head opener closer : Token} {s : List Token}
    {name : Option Expression} {arguments : List Argument} {P : List Item → Prop}
    {both : List Entry → List Mark → Prop}
    (hargs : Passes (commandArguments source below entersArgument) (head :: consumed) s
      (opener :: (tokens ++ closer :: rest)) (· = ⟨arguments, []⟩))
    (hname : blockName? arguments = some name)
    (ho : opener.kind = .braceOpen) (hc : closer.kind = .braceClose)
    (hinner : PassesItems below (· == .semicolon) (opener :: (s.reverse ++ head :: consumed))
      tokens (closer :: rest) P)
    (hholds : ∀ read, P read → ∃ entries marks, entriesOf read = (some entries, marks) ∧
      both entries marks)
    (hrest : Meets rest endsValue) :
    Passes (command source below) consumed (head :: (s ++ opener :: (tokens ++ [closer]))) rest
      fun item => ∃ extent bodyExtent entries marks, both entries marks ∧
        item = { statement := .block ⟨extent, head.text, head.location, name,
                    ⟨bodyExtent, entries⟩⟩
                 keyed? := none
                 marks := marks ++
                    (if name.isSome then [⟨head.start.offset, .dynamicKeyword⟩] else []) } := by
  refine Passes.spanning (List.cons_ne_nil _ _) ?_
  refine Passes.bind (s := [head]) (Passes.token head) ?_
  rintro head rfl
  have hargs' : Passes (commandArguments source below entersArgument) (head :: consumed) s
      (opener :: (tokens ++ [closer]) ++ rest) (· = ⟨arguments, []⟩) := by
    simpa using hargs
  refine Passes.bind (s := s) hargs' ?_
  rintro _ rfl
  have hbody : Passes (optionalBody source below) (s.reverse ++ ([head].reverse ++ consumed))
      (opener :: (tokens ++ [closer])) rest
      fun read => ∃ inner extent, read = some (inner, extent) ∧ P inner := by
    refine Passes.nextIs ?_
    rw [if_pos]
    · refine Passes.map (passes_body ho hc hinner) ?_
      intro read hread
      exact ⟨read.1, read.2, rfl, hread⟩
    · change (opener.kind == .braceOpen) = true
      rw [ho]
      rfl
  refine hbody.last ?_
  rintro _ ⟨inner, bodyExtent, rfl, hinner⟩
  obtain ⟨entries, marks, hentries, hboth⟩ := hholds inner hinner
  have hpipe : Cursor.nextIs ⟨(opener :: (tokens ++ [closer])).reverse ++
      (s.reverse ++ ([head].reverse ++ consumed)), rest⟩ (· == .pipe) = false := by
    refine hrest.nextIs ?_
    intro kind hk
    cases kind <;> first | rfl | exact absurd hk (by decide)
  have hpipes : Passes (pipes source below) ((opener :: (tokens ++ [closer])).reverse ++
      (s.reverse ++ ([head].reverse ++ consumed))) [] rest (· = ⟨[], []⟩) := by
    refine Passes.map (Passes.readWhile_stop hpipe rfl (P := (· = []))) ?_
    rintro _ rfl
    rfl
  refine Passes.map hpipes ?_
  rintro _ rfl
  refine ⟨.ofTokens source (head :: (s ++ opener :: (tokens ++ [closer]))), bodyExtent, entries,
    marks, hboth, ?_⟩
  unfold commandOrBlock
  simp only [hname, hentries, List.nil_append]

/-- A bare word that is no key starts a command. -/
theorem passes_wordStatement_command {head second : Token} {P : Item → Prop}
    (hh : head.kind = .bareword) (hs : second.kind ≠ .equals)
    (h : Passes (command source below) consumed (head :: second :: tokens) rest P) :
    Passes (wordStatement source below) consumed (head :: second :: tokens) rest P := by
  refine Passes.get ?_
  simp only [List.cons_append]
  rw [if_neg]
  · exact h
  · rw [hh, beq_eq_false_iff_ne.mpr hs]
    exact Bool.false_ne_true

theorem passes_statement_word {head : Token} {P : Item → Prop} (hh : head.kind = .bareword)
    (h : Passes (wordStatement source below) consumed (head :: tokens) rest P) :
    Passes (statement source below) consumed (head :: tokens) rest P := by
  refine Passes.get ?_
  have hkind : Cursor.nextKind? ⟨consumed, head :: tokens ++ rest⟩ = some .bareword :=
    congrArg some hh
  simp only [hkind]
  exact h

theorem passes_value_word {head : Token} {P : Item → Prop} (hh : head.kind.isName)
    (h : Passes (wordStatement source below) consumed (head :: tokens) rest P) :
    Passes (value source below) consumed (head :: tokens) rest fun s =>
      ∃ item, P item ∧ s = ⟨item.statement, item.marks⟩ := by
  refine Passes.nextIs ?_
  rw [show Cursor.nextIs ⟨consumed, head :: tokens ++ rest⟩ TokenKind.isName = true from hh,
    if_pos rfl]
  exact Passes.map h fun item hitem => ⟨item, hitem, rfl⟩

/-! ### Around the blocks -/

/-- A node block whose target is a word. -/
theorem passes_node {head target opener closer : Token} {P : List Item → Prop}
    (hh : head.kind = .node) (ht : target.kind = .bareword) (ho : opener.kind = .braceOpen)
    (hc : closer.kind = .braceClose)
    (h : PassesItems below (· == .semicolon) (opener :: target :: head :: consumed) tokens
      (closer :: rest) P) :
    Passes (statement source below) consumed (head :: target :: opener :: (tokens ++ [closer])) rest
      fun item => ∃ extent target read, P read ∧
        item = ⟨.node extent target (read.map (·.statement)), none, read.flatMap (·.marks)⟩ := by
  refine Passes.get ?_
  have hkind : Cursor.nextKind? ⟨consumed, head :: target :: opener :: (tokens ++ [closer]) ++
      rest⟩ = some .node := congrArg some hh
  have hsecond : ((List.drop 1 (head :: target :: opener :: (tokens ++ [closer]) ++ rest)).head?.map
      Token.kind) = some .bareword := congrArg some ht
  simp only [hkind, hsecond]
  change Passes (node source below) _ _ _ _
  rw [node_eq]
  refine Passes.spanning (List.cons_ne_nil _ _) ?_
  refine Passes.bind (s := [head]) (Passes.token head) ?_
  intro _ _
  have htarget : Passes (Grammar.target source below) ([head].reverse ++ consumed) [target]
      (opener :: (tokens ++ [closer]) ++ rest) (fun e => e.marks = []) := by
    refine Passes.nextIs ?_
    rw [if_pos]
    · exact Passes.map (Passes.token target) fun _ _ => rfl
    · change (target.kind == .bareword) = true
      rw [ht]
      rfl
  refine Passes.bind (s := [target]) htarget ?_
  intro e he
  refine Passes.map (passes_body ho hc h) ?_
  intro read hread
  refine ⟨.ofTokens source (head :: target :: opener :: (tokens ++ [closer])), e.node, read.1, hread,
    ?_⟩
  rw [he, List.nil_append]

/-- A configuration whose name is a word. -/
theorem passes_configuration {head name opener closer : Token} {P : List Item → Prop}
    (hh : head.kind = .configuration) (hn : name.kind.isName) (ho : opener.kind = .braceOpen)
    (hc : closer.kind = .braceClose)
    (h : PassesItems below (· == .semicolon) (opener :: name :: head :: consumed) tokens
      (closer :: rest) P) :
    Passes (statement source below) consumed (head :: name :: opener :: (tokens ++ [closer])) rest
      fun item => ∃ extent text read, P read ∧
        item = ⟨.configuration extent text (read.map (·.statement)), none,
          read.flatMap (·.marks)⟩ := by
  refine Passes.get ?_
  have hkind : Cursor.nextKind? ⟨consumed, head :: name :: opener :: (tokens ++ [closer]) ++
      rest⟩ = some .configuration := congrArg some hh
  simp only [hkind]
  rw [if_pos]
  · refine Passes.spanning (List.cons_ne_nil _ _) ?_
    refine Passes.bind (s := [head]) (Passes.token head) ?_
    intro _ _
    refine Passes.bind (s := [name]) (Passes.token name) ?_
    rintro name rfl
    refine Passes.map (passes_body ho hc h) ?_
    intro read hread
    exact ⟨_, _, read.1, hread, rfl⟩
  · change (name.kind.isName || name.kind.isString) = true
    rw [hn]
    rfl

/-- Statements that are all there is make a script. -/
theorem script_of_passesItems {P : List Item → Prop}
    (h : PassesItems (level source tokens.length) (· == .semicolon) [] tokens [] P) :
    ∃ read, script source tokens = .ok read ∧ P read := by
  obtain ⟨read, hread, hholds⟩ := h.items
  refine ⟨read, ?_, hholds⟩
  unfold script
  rw [List.append_nil] at hread
  rw [hread]
  rfl

end Grammar

end DesiredState
