/-
Literals in a layout.

Strings that are quoted, integers, truth values and arrays of the first two are written
as atoms, an array with commas and brackets around them.  They fall into these atoms
wherever they stand, and are read as expressions that denote them.
-/
import DesiredState.Proofs.Layout.Parsed
import DesiredState.Proofs.Layout.Rendered
import DesiredState.Proofs.Number
import DesiredState.Value.Coercion

namespace DesiredState

/-- A string that is written in quotes. -/
def Text.IsPlain (t : Text) : Prop :=
  Text.startsWith t ['$'] = false ∧ Text.startsWith t "New-Object" = false

/-- An integer that no rounding moves. -/
def Binary64.IsSafe (x : Binary64) : Prop := ∃ n : Int, n.natAbs ≤ maxSafe ∧ x = ofInt n

/-- Values without blocks that are written as literals. -/
def Value.IsLiteral : Value → Prop
  | .string t => t.IsPlain
  | .integer x => x.IsSafe
  | .boolean _ => True
  | .stringArray texts => ∀ t ∈ texts, Text.IsPlain t
  | .integerArray numbers => ∀ x ∈ numbers, Binary64.IsSafe x
  | _ => False

/-- An expression denotes a value without blocks. -/
def Value.Denoted : Value → Expression → Prop
  | .string t, e => ∃ extent, e = .string extent t .double
  | .integer x, e => ∃ extent, e = .number extent x ∧ x.IsSafe
  | .boolean value, e => ∃ extent name, e = .variable ⟨extent, name⟩ ∧
      Text.lower name = if value then "true".toList else "false".toList
  | .stringArray texts, e => ∃ extent terms, e = .array extent true terms ∧
      (∀ term ∈ terms, term.isAtom) ∧ terms.map Term.atomText = texts
  | .integerArray numbers, e => ∃ extent terms, e = .array extent true terms ∧
      (∀ term ∈ terms, term.isAtom) ∧ terms.mapM Term.integer? = some numbers
  | _, _ => False

/-- A statement is one expression, and this denotes a value. -/
def Value.Stated (x : Value) (s : Statement) : Prop :=
  ∃ extent e, s = .pipeline extent [.expression e] ∧ x.Denoted e

namespace Layout

open Piece Grammar Reading Cursor

/-! ### The pieces of a literal -/

/-- A number. -/
def number (x : Binary64) : Piece := ⟨.number, x.toText⟩

/-- A truth value. -/
def truth (value : Bool) : Piece := ⟨.variableName, if value then "$true" else "$false"⟩

/-- Atoms with commas between them. -/
def commaSeparated : List Piece → List Piece
  | [] => []
  | atom :: rest => atom :: rest.flatMap fun other => [comma, other]

/-- Atoms in array brackets. -/
def bracketed (atoms : List Piece) : List Piece := arrayOpen :: (commaSeparated atoms ++ [parenClose])

/-- The pieces of a literal. -/
def literal : Value → List Piece
  | .string t => [quoted t]
  | .integer x => [number x]
  | .boolean value => [truth value]
  | .stringArray texts => bracketed (texts.map quoted)
  | .integerArray numbers => bracketed (numbers.map number)
  | _ => []

/-- A piece that is a value by itself, wherever it is delimited. -/
structure IsAtomPiece (piece : Piece) : Prop where
  isAtom : piece.kind.isAtom
  isNext : ∀ after, Text.Delimits after → piece.IsNext after

theorem isAtomPiece_quoted (t : Text) : IsAtomPiece (quoted t) :=
  ⟨rfl, fun _ ha => isNext_quoted t ha⟩

theorem isAtomPiece_number {x : Binary64} (h : x.IsSafe) : IsAtomPiece (number x) := by
  obtain ⟨n, hn, rfl⟩ := h
  refine ⟨rfl, ?_⟩
  intro after ha
  unfold Piece.IsNext number
  rw [Binary64.toText_ofInt hn]
  exact Token.next?_integer n ha

theorem isAtomPiece_truth (value : Bool) : IsAtomPiece (truth value) := by
  refine ⟨rfl, ?_⟩
  intro after ha
  cases value with
  | true =>
    have : Token.next? ('$' :: 't' :: "rue".toList ++ after) = some (.variableName, after) :=
      Token.next?_variable rfl (List.all_eq_true.mp rfl) ha
    exact this
  | false =>
    have : Token.next? ('$' :: 'f' :: "alse".toList ++ after) = some (.variableName, after) :=
      Token.next?_variable rfl (List.all_eq_true.mp rfl) ha
    exact this

/-- Atoms and commas, in front of what delimits. -/
theorem lexes_commaSeparated {atoms : List Piece} (h : ∀ p ∈ atoms, IsAtomPiece p) {after : Text}
    (ha : Text.Delimits after) : Lexes (commaSeparated atoms) after := by
  have hrest : ∀ rest : List Piece, (∀ p ∈ rest, IsAtomPiece p) →
      Lexes (rest.flatMap fun other => [comma, other]) after ∧
        Text.Delimits (textOf (rest.flatMap fun other => [comma, other]) ++ after) := by
    intro rest
    induction rest with
    | nil => exact fun _ => ⟨trivial, ha⟩
    | cons p rest ih =>
      intro hp
      obtain ⟨hlexes, hdelimits⟩ := ih fun q hq => hp q (List.mem_cons_of_mem p hq)
      refine ⟨?_, Text.Delimits.comma _⟩
      rw [List.flatMap_cons]
      exact ⟨Token.next?_comma _, (hp p List.mem_cons_self).isNext _ hdelimits, hlexes⟩
  cases atoms with
  | nil => trivial
  | cons p rest =>
    obtain ⟨hlexes, hdelimits⟩ := hrest rest fun q hq => h q (List.mem_cons_of_mem p hq)
    exact ⟨(h p List.mem_cons_self).isNext _ hdelimits, hlexes⟩

theorem lexes_bracketed {atoms : List Piece} (h : ∀ p ∈ atoms, IsAtomPiece p) (after : Text) :
    Lexes (bracketed atoms) after := by
  refine ⟨Token.next?_arrayOpen _, ?_⟩
  rw [lexes_append]
  exact ⟨lexes_commaSeparated h (Text.Delimits.parenClose _), Token.next?_parenClose _, trivial⟩

/-- A literal falls into its pieces wherever it is delimited. -/
theorem lexes_literal {x : Value} (h : x.IsLiteral) {after : Text} (ha : Text.Delimits after) :
    Lexes (literal x) after := by
  cases x with
  | string t => exact ⟨(isAtomPiece_quoted t).isNext _ ha, trivial⟩
  | integer x => exact ⟨(isAtomPiece_number h).isNext _ ha, trivial⟩
  | boolean value => exact ⟨(isAtomPiece_truth value).isNext _ ha, trivial⟩
  | stringArray texts =>
    refine lexes_bracketed ?_ after
    intro p hp
    obtain ⟨t, -, rfl⟩ := List.mem_map.mp hp
    exact isAtomPiece_quoted t
  | integerArray numbers =>
    refine lexes_bracketed ?_ after
    intro p hp
    obtain ⟨x, hx, rfl⟩ := List.mem_map.mp hp
    exact isAtomPiece_number (h x hx)
  | _ => exact h.elim

theorem textOf_commaSeparated (atoms : List Piece) :
    textOf (commaSeparated atoms) = Text.join [','] (atoms.map (·.text)) := by
  have hrest : ∀ (p : Piece) (rest : List Piece),
      p.text ++ textOf (rest.flatMap fun other => [comma, other]) =
        Text.join [','] ((p :: rest).map (·.text)) := by
    intro p rest
    induction rest generalizing p with
    | nil => simp [Text.join]
    | cons q rest ih =>
      have hjoin : Text.join [','] ((p :: q :: rest).map (·.text)) =
          p.text ++ [','] ++ Text.join [','] ((q :: rest).map (·.text)) :=
        List.intercalate_cons_cons
      rw [hjoin, ← ih q, List.flatMap_cons]
      simp [comma]
  cases atoms with
  | nil => rfl
  | cons p rest => exact hrest p rest

theorem textOf_bracketed (atoms : List Piece) :
    textOf (bracketed atoms) = arrayText (atoms.map (·.text)) := by
  rw [bracketed, textOf_cons, textOf_append, textOf_commaSeparated]
  simp [arrayText, arrayOpen, parenClose]

theorem writeString_of_isPlain {t : Text} (h : t.IsPlain) :
    Render.writeString t = Render.quoted t := by
  rw [Render.writeString, h.1, h.2]
  rfl

/-- The pieces of a literal make up its text. -/
theorem textOf_literal {x : Value} (h : x.IsLiteral) : textOf (literal x) = flatText x := by
  cases x with
  | string t => simp [literal, flatText, quoted, writeString_of_isPlain h]
  | integer x => simp [literal, flatText, number]
  | boolean value => cases value <;> simp [literal, flatText, truth]
  | stringArray texts =>
    have htexts : (texts.map quoted).map (·.text) = texts.map Render.writeString := by
      rw [List.map_map]
      refine List.map_congr_left ?_
      intro t ht
      exact (writeString_of_isPlain (h t ht)).symm
    rw [literal, flatText, textOf_bracketed, htexts]
  | integerArray numbers =>
    rw [literal, flatText, textOf_bracketed, List.map_map]
    rfl
  | _ => exact h.elim

/-- A literal falls into its pieces by itself. -/
theorem ofText_flatText {x : Value} (h : x.IsLiteral) : ofText (flatText x) = literal x := by
  rw [← textOf_literal h, ofText_textOf (lexes_literal h Text.Delimits.nil)]

/-- Literals end where lines end. -/
theorem endsBefore_literal {x : Value} (h : x.IsLiteral) {c : Char}
    (hc : c ∈ [' ', '\n', ',', ')', '\x7b']) : EndsBefore c x := by
  intro rest
  rw [ofText_flatText h]
  exact lexes_literal h (Text.Delimits.cons hc rest)

/-- The numbers in a literal are integers. -/
theorem hasIntegers_literal {x : Value} (h : x.IsLiteral) : HasIntegers x := by
  have hsafe : ∀ x : Binary64, x.IsSafe → x.isInteger := by
    rintro _ ⟨n, hn, rfl⟩
    exact Binary64.isInteger_ofInt hn
  cases x with
  | integer x => exact hsafe x h
  | integerArray numbers => exact fun x hx => hsafe x (h x hx)
  | _ => trivial

/-! ### What literals are read as

Atoms in brackets are read as one array with a comma between any two of them.  That its
elements are those atoms has to be said of tokens first, since the grammar looks at
tokens only.
-/

variable {source : Text}

/-- The string of a quoted text. -/
theorem atom_quoted (source t : Text) (start : Position) :
    ∃ extent, atom source ⟨.doubleQuoted, Render.quoted t, start⟩ = .string extent t .double := by
  refine ⟨.ofTokens source [⟨.doubleQuoted, Render.quoted t, start⟩], ?_⟩
  have hcontent : ((Render.quoted t).drop 1).dropLast = Text.escapeDouble t := by
    simp [Render.quoted]
  unfold atom stringExpression
  simp only [TokenKind.isString, if_true]
  unfold Literal.ofString
  simp only [hcontent, Text.decodeDouble_escapeDouble]

/-- The number of the text of an integer. -/
theorem atom_number (source : Text) {x : Binary64} (h : x.IsSafe) (start : Position) :
    ∃ extent, atom source ⟨.number, x.toText, start⟩ = .number extent x := by
  obtain ⟨n, hn, rfl⟩ := h
  refine ⟨.ofTokens source [⟨.number, (Binary64.ofInt n).toText, start⟩], ?_⟩
  unfold atom numberExpression
  simp [TokenKind.isString, Binary64.toText_ofInt hn, Literal.number?_textOfInt hn]

theorem isSignificant_of_isAtom {kind : TokenKind} (h : kind.isAtom) : kind.isSignificant := by
  cases kind <;> first | rfl | exact absurd h Bool.false_ne_true

/-- Atoms behind commas, as tokens. -/
theorem tokens_commas {atoms : List Piece} (h : ∀ p ∈ atoms, IsAtomPiece p) (start : Position) :
    ∃ pairs : List (Token × Token), (∀ p ∈ pairs, p.1.kind = .comma ∧ p.2.kind.isAtom) ∧
      tokens start (atoms.flatMap fun atom => [comma, atom]) = commaTokens pairs ∧
        pairs.map (fun p => (⟨p.2.kind, p.2.text⟩ : Piece)) = atoms := by
  induction atoms generalizing start with
  | nil => exact ⟨[], fun _ hp => absurd hp List.not_mem_nil, rfl, rfl⟩
  | cons atom rest ih =>
    have hatom := (h atom List.mem_cons_self).isAtom
    obtain ⟨pairs, hpairs, htokens, hpieces⟩ :=
      ih (fun p hp => h p (List.mem_cons_of_mem atom hp))
        ((start.advance comma.text).advance atom.text)
    refine ⟨(⟨.comma, [','], start⟩, ⟨atom.kind, atom.text, start.advance comma.text⟩) :: pairs,
      ?_, ?_, ?_⟩
    · intro p hp
      rcases List.mem_cons.mp hp with rfl | hp
      · exact ⟨rfl, hatom⟩
      · exact hpairs p hp
    · rw [List.flatMap_cons, List.cons_append, List.singleton_append, tokens_cons rfl,
        tokens_cons (isSignificant_of_isAtom hatom), htokens]
      rfl
    · rw [List.map_cons, hpieces]

theorem tokens_commaSeparated {atoms : List Piece} (h : ∀ p ∈ atoms, IsAtomPiece p)
    (start : Position) :
    ∃ ts : List Token, ts.map (fun t => (⟨t.kind, t.text⟩ : Piece)) = atoms ∧
      (ts = [] ∧ tokens start (commaSeparated atoms) = [] ∨ ∃ t pairs, t.kind.isAtom ∧
        (∀ p ∈ pairs, p.1.kind = .comma ∧ p.2.kind.isAtom) ∧
          tokens start (commaSeparated atoms) = t :: commaTokens pairs ∧
            ts = t :: pairs.map (·.2)) := by
  cases atoms with
  | nil => exact ⟨[], rfl, Or.inl ⟨rfl, rfl⟩⟩
  | cons atom rest =>
    have hatom := (h atom List.mem_cons_self).isAtom
    obtain ⟨pairs, hpairs, htokens, hpieces⟩ :=
      tokens_commas (fun p hp => h p (List.mem_cons_of_mem atom hp)) (start.advance atom.text)
    refine ⟨⟨atom.kind, atom.text, start⟩ :: pairs.map (·.2), ?_,
      Or.inr ⟨⟨atom.kind, atom.text, start⟩, pairs, hatom, hpairs, ?_, rfl⟩⟩
    · rw [List.map_cons, List.map_map]
      exact congrArg _ hpieces
    · rw [commaSeparated, tokens_cons (isSignificant_of_isAtom hatom), htokens]

/-- Atoms in brackets are read as an array of them. -/
theorem passes_bracketed {atoms : List Piece} (h : ∀ p ∈ atoms, IsAtomPiece p) {start : Position}
    {m : Nat} {consumed rest : List Token} (hm : (tokens start (bracketed atoms)).length ≤ m)
    (hrest : Meets rest endsValue) :
    ∃ ts : List Token, ts.map (fun t => (⟨t.kind, t.text⟩ : Piece)) = atoms ∧
      Passes (level source m).value consumed (tokens start (bracketed atoms)) rest fun v =>
        (∃ extent inner, v.node =
          .pipeline extent [.expression (.array inner true (atomTerms source ts))]) ∧
            v.marks = [] := by
  obtain ⟨ts, hts, hshape⟩ := tokens_commaSeparated h (start.advance arrayOpen.text)
  obtain ⟨closer, hcloser, htokens⟩ : ∃ closer : Token, closer.kind = .parenClose ∧
      tokens start (bracketed atoms) = ⟨.arrayOpen, ['@', '('], start⟩ ::
        (tokens (start.advance arrayOpen.text) (commaSeparated atoms) ++ [closer]) := by
    refine ⟨⟨.parenClose, [')'], stop (start.advance arrayOpen.text) (commaSeparated atoms)⟩, rfl, ?_⟩
    rw [bracketed, tokens_cons rfl, tokens_append]
    rfl
  refine ⟨ts, hts, ?_⟩
  rw [htokens] at hm ⊢
  obtain ⟨m, rfl⟩ : ∃ k, m = k + 2 := ⟨m - 2, by simp at hm; omega⟩
  refine (passes_arrayValue rfl (passes_atomArray rfl hcloser hshape) hrest).mono ?_
  rintro v ⟨e, ⟨inner, rfl⟩, rfl⟩
  exact ⟨⟨_, inner, rfl⟩, rfl⟩

theorem isAtom_atomTerms {atoms : List Piece} (h : ∀ p ∈ atoms, IsAtomPiece p) {ts : List Token}
    (hts : ts.map (fun t => (⟨t.kind, t.text⟩ : Piece)) = atoms)
    (hv : ∀ p ∈ atoms, p.kind ≠ .variableName) :
    ∀ term ∈ atomTerms source ts, term.isAtom := by
  intro term hterm
  obtain ⟨t, ht, rfl⟩ := List.mem_map.mp hterm
  have hp : (⟨t.kind, t.text⟩ : Piece) ∈ atoms := hts ▸ List.mem_map_of_mem ht
  have hatom : t.kind.isAtom := (h _ hp).isAtom
  have hnot : t.kind ≠ .variableName := hv _ hp
  unfold atom stringExpression numberExpression
  split
  · rfl
  · split
    · split <;> rfl
    · next hs hn =>
      unfold TokenKind.isAtom at hatom
      simp [hs, hn, hnot] at hatom

/-- The strings of quoted texts. -/
theorem atomText_atomTerms {texts : List Text} {ts : List Token}
    (hts : ts.map (fun t => (⟨t.kind, t.text⟩ : Piece)) = texts.map quoted) :
    (atomTerms source ts).map Term.atomText = texts := by
  induction texts generalizing ts with
  | nil => rw [List.map_eq_nil_iff.mp hts]; rfl
  | cons text texts ih =>
    obtain ⟨t, more, rfl, ht, hmore⟩ := List.map_eq_cons_iff.mp hts
    obtain ⟨kind, tokenText, start⟩ := t
    obtain ⟨rfl, rfl⟩ := Piece.mk.inj ht
    obtain ⟨extent, hatom⟩ := atom_quoted source text start
    rw [atomTerms, List.map_cons, List.map_cons, hatom]
    exact congrArg _ (ih hmore)

/-- The integers of their texts. -/
theorem integer?_atomTerms {numbers : List Binary64} (h : ∀ x ∈ numbers, x.IsSafe)
    {ts : List Token} (hts : ts.map (fun t => (⟨t.kind, t.text⟩ : Piece)) = numbers.map number) :
    (atomTerms source ts).mapM Term.integer? = some numbers := by
  induction numbers generalizing ts with
  | nil => rw [List.map_eq_nil_iff.mp hts]; rfl
  | cons x numbers ih =>
    obtain ⟨t, more, rfl, ht, hmore⟩ := List.map_eq_cons_iff.mp hts
    obtain ⟨kind, tokenText, start⟩ := t
    obtain ⟨rfl, rfl⟩ := Piece.mk.inj ht
    have hx := h x List.mem_cons_self
    obtain ⟨extent, hatom⟩ := atom_number source hx start
    obtain ⟨n, hn, rfl⟩ := hx
    have hlater := ih (fun y hy => h y (List.mem_cons_of_mem _ hy)) hmore
    unfold atomTerms at hlater ⊢
    rw [List.map_cons, hatom, List.mapM_cons, hlater]
    simp [Term.integer?, Binary64.toSafeInt?_ofInt hn]

/-- An atom is read as the expression that it is. -/
theorem passes_scalar {piece : Piece} (h : IsAtomPiece piece) {start : Position} {m : Nat}
    {consumed rest : List Token} (hm : (tokens start [piece]).length ≤ m)
    (hrest : Meets rest endsValue) :
    Passes (level source m).value consumed (tokens start [piece]) rest fun v =>
      (∃ extent, v.node =
        .pipeline extent [.expression (atom source ⟨piece.kind, piece.text, start⟩)]) ∧
          v.marks = [] := by
  rw [tokens_cons (isSignificant_of_isAtom h.isAtom), tokens_nil] at hm ⊢
  obtain ⟨m, rfl⟩ : ∃ k, m = k + 1 := ⟨m - 1, by simp at hm; omega⟩
  refine Passes.mono (passes_atomValue h.isAtom hrest) ?_
  rintro v rfl
  exact ⟨⟨_, rfl⟩, rfl⟩

/-- **A literal is read as an expression that denotes it**, and marks nothing. -/
theorem isFlatRead_literal {quiet : Prop} {x : Value} (h : x.IsLiteral) :
    IsFlatRead Value.Stated quiet x := by
  intro source start m consumed rest _ _ hm hends
  have hrest := hends.meets
  rw [ofText_flatText h] at hm ⊢
  cases x with
  | string t =>
    refine (passes_scalar (isAtomPiece_quoted t) hm hrest).mono ?_
    rintro v ⟨⟨extent, hv⟩, hmarks⟩
    obtain ⟨inner, hatom⟩ := atom_quoted source t start
    exact ⟨⟨extent, _, hv, inner, hatom⟩, fun _ => hmarks⟩
  | integer x =>
    refine (passes_scalar (isAtomPiece_number h) hm hrest).mono ?_
    rintro v ⟨⟨extent, hv⟩, hmarks⟩
    obtain ⟨inner, hatom⟩ := atom_number source h start
    exact ⟨⟨extent, _, hv, inner, hatom, h⟩, fun _ => hmarks⟩
  | boolean value =>
    refine (passes_scalar (isAtomPiece_truth value) hm hrest).mono ?_
    rintro v ⟨⟨extent, hv⟩, hmarks⟩
    refine ⟨⟨extent, _, hv, _, _, rfl, ?_⟩, fun _ => hmarks⟩
    change Text.lower (variableName (truth value).text) = _
    cases value <;> decide +kernel
  | stringArray texts =>
    have hatoms : ∀ p ∈ texts.map quoted, IsAtomPiece p ∧ p.kind ≠ .variableName := by
      intro p hp
      obtain ⟨t, -, rfl⟩ := List.mem_map.mp hp
      exact ⟨isAtomPiece_quoted t, fun h => by cases h⟩
    obtain ⟨ts, hts, hpasses⟩ := passes_bracketed (fun p hp => (hatoms p hp).1) hm hrest
    refine hpasses.mono ?_
    rintro v ⟨⟨extent, inner, hv⟩, hmarks⟩
    exact ⟨⟨extent, _, hv, inner, _, rfl, isAtom_atomTerms (fun p hp => (hatoms p hp).1) hts
      (fun p hp => (hatoms p hp).2), atomText_atomTerms hts⟩, fun _ => hmarks⟩
  | integerArray numbers =>
    have hatoms : ∀ p ∈ numbers.map number, IsAtomPiece p ∧ p.kind ≠ .variableName := by
      intro p hp
      obtain ⟨x, hx, rfl⟩ := List.mem_map.mp hp
      exact ⟨isAtomPiece_number (h x hx), fun h => by cases h⟩
    obtain ⟨ts, hts, hpasses⟩ := passes_bracketed (fun p hp => (hatoms p hp).1) hm hrest
    refine hpasses.mono ?_
    rintro v ⟨⟨extent, inner, hv⟩, hmarks⟩
    exact ⟨⟨extent, _, hv, inner, _, rfl, isAtom_atomTerms (fun p hp => (hatoms p hp).1) hts
      (fun p hp => (hatoms p hp).2), integer?_atomTerms h hts⟩, fun _ => hmarks⟩
  | _ => exact h.elim

end Layout

end DesiredState
