/-
Layouts are read piece by piece.

Each piece of a layout ends where the next one starts: names before a space or a brace,
comments before the end of their line, and everything else by itself.  Only of the
values without blocks this has to be known, in front of the end of a line and, where a
note follows, in front of a space.
-/
import DesiredState.Proofs.Layout

namespace DesiredState

namespace Layout

open Piece

/-- A comment that ends with its line. -/
def IsComment (comment : Piece) : Prop :=
  comment.kind.isComment ∧ ∀ rest, comment.IsNext ('\n' :: rest)

/-- Notes as they stand behind keys: none, or a comment. -/
def AreNotes (notes : List Piece) : Prop :=
  notes = [] ∨ ∃ comment, notes = note comment ∧ IsComment comment

/-- Pieces that fit between a space behind a value and the end of its line. -/
structure FitsLine (notes : List Piece) : Prop where
  spaced : notes ≠ [] → ∃ more, textOf notes = ' ' :: more
  spelt : ∀ rest, Spells notes ('\n' :: rest)

/-- A value without blocks that ends before the end of a line. -/
def EndsBefore (c : Char) (x : Value) : Prop :=
  ∀ rest, Lexes (ofText (flatText x)) (c :: rest)

theorem areNotes_nil : AreNotes [] := Or.inl rfl

theorem fitsLine_nil : FitsLine [] := ⟨fun h => absurd rfl h, fun _ => trivial⟩

theorem isGap_gap (n : Nat) {after : Text} : (gap n).IsGap after := by
  refine ⟨rfl, ?_, fun h => ?_⟩
  · change Pattern.skipBlanks (List.replicate n ' ') = []
    induction n with
    | zero => rfl
    | succ n ih => rw [List.replicate_succ, Pattern.skipBlanks, ih]
  · exact absurd (List.eq_of_mem_replicate (List.mem_of_getLast? h)) (by decide)

theorem isGap_lineEnd {after : Text} : lineEnd.IsGap after :=
  ⟨rfl, rfl, fun h => absurd h (by decide)⟩

theorem text_gap_succ (n : Nat) : (gap (n + 1)).text = ' ' :: Text.spaces n := rfl

theorem word_eq {kind : TokenKind} {name : Text} (h : Token.IsWord kind name) :
    word name = ⟨kind, name⟩ := by
  obtain ⟨-, -, -, -, -, hkind⟩ := h.shape
  rw [word, ← hkind]

theorem isNext_word {kind : TokenKind} {name after : Text} (h : Token.IsWord kind name)
    (ha : Text.Delimits after) : (word name).IsNext after := by
  rw [word_eq h]
  exact h.next? ha

theorem isNext_quoted (t : Text) {after : Text} (ha : Text.Delimits after) :
    (quoted t).IsNext after :=
  Token.next?_quoted t ha

/-- A comment fits behind a value. -/
theorem AreNotes.fitsLine {notes : List Piece} (h : AreNotes notes) : FitsLine notes := by
  rcases h with rfl | ⟨comment, rfl, -, hnext⟩
  · exact fitsLine_nil
  · exact ⟨fun _ => ⟨_, rfl⟩, fun rest => ⟨Or.inl (isGap_gap 1), Or.inr (hnext rest), trivial⟩⟩

/-- What notes and the end of a line start with. -/
theorem FitsLine.cases {notes : List Piece} (h : FitsLine notes) (rest : Text) :
    textOf notes ++ '\n' :: rest = '\n' :: rest ∧ notes = [] ∨
      ∃ more, textOf notes ++ '\n' :: rest = ' ' :: more ∧ notes ≠ [] := by
  cases notes with
  | nil => exact Or.inl ⟨rfl, rfl⟩
  | cons piece notes =>
    obtain ⟨more, hmore⟩ := h.spaced (List.cons_ne_nil _ _)
    exact Or.inr ⟨_, congrArg (· ++ '\n' :: rest) hmore, List.cons_ne_nil _ _⟩

/-- A key and its sign of equality. -/
theorem spells_key (n width : Nat) {name : Text} (h : IsKey name) (rest : Text) :
    Spells (key n width name) rest := by
  obtain ⟨kind, hword⟩ := h.isWord
  refine ⟨Or.inl (isGap_gap _), Or.inr (isNext_word hword ?_), Or.inl (isGap_gap _),
    Or.inr (Token.next?_equals _), Or.inl (isGap_gap 1), trivial⟩
  rw [textOf_cons, text_gap_succ]
  exact Text.Delimits.space _

/-- The lines of a block, if its values are read before the ends of their lines. -/
theorem spells_lines (n width : Nat) {notes : Text → List Piece} {fields : List (Text × Value)}
    (hkeys : ∀ p ∈ fields, IsKey p.1)
    (hvalues : ∀ p ∈ fields, ∀ rest, Spells (value n (notes p.1) p.2) ('\n' :: rest))
    (rest : Text) : Spells (lines n width notes fields) rest := by
  induction fields with
  | nil => trivial
  | cons p fields ih =>
    rw [lines, spells_append]
    refine ⟨spells_key n width (hkeys p List.mem_cons_self) _, ?_⟩
    rw [spells_append]
    refine ⟨?_, Or.inl isGap_lineEnd, ?_⟩
    · exact hvalues p List.mem_cons_self _
    · exact ih (fun q hq => hkeys q (List.mem_cons_of_mem p hq))
        fun q hq => hvalues q (List.mem_cons_of_mem p hq)

/-- A block, if its values are read before the ends of their lines. -/
theorem spells_block (n : Nat) {notes : List Piece} {b : SubObject} (hn : FitsLine notes)
    (hb : b.IsHeaded)
    (hvalues : ∀ p ∈ b.properties, ∀ rest, Spells (value n [] p.2) ('\n' :: rest))
    (rest : Text) : Spells (block n notes b) rest := by
  obtain ⟨⟨name, kind, hname, hword⟩, hkeys, -⟩ := hb
  obtain ⟨typeName, properties⟩ := b
  simp only at hname
  subst hname
  rw [block]
  refine ⟨Or.inr ?_, Or.inr (Token.next?_braceOpen _), ?_⟩
  · exact isNext_word hword (Text.Delimits.braceOpen _)
  · rw [spells_append]
    refine ⟨hn.spelt _, Or.inl isGap_lineEnd, ?_⟩
    rw [spells_append]
    exact ⟨spells_lines n _ hkeys hvalues _, Or.inl (isGap_gap _),
      Or.inr (Token.next?_braceClose _), trivial⟩

theorem spells_blocks (n : Nat) {items : List SubObject} (hb : ∀ b ∈ items, b.IsHeaded)
    (hvalues : ∀ b ∈ items, ∀ p ∈ b.properties, ∀ rest, Spells (value n [] p.2) ('\n' :: rest))
    (rest : Text) : Spells (blocks n items) rest := by
  induction items with
  | nil => trivial
  | cons b items ih =>
    rw [blocks]
    refine ⟨Or.inl (isGap_gap _), ?_⟩
    rw [spells_append]
    refine ⟨?_, Or.inl isGap_lineEnd, ?_⟩
    · exact spells_block n fitsLine_nil (hb b List.mem_cons_self)
        (hvalues b List.mem_cons_self) _
    · exact ih (fun c hc => hb c (List.mem_cons_of_mem b hc))
        fun c hc => hvalues c (List.mem_cons_of_mem b hc)

theorem value_flat {x : Value} (h : x.isFlat) (n : Nat) (notes : List Piece) :
    value n notes x = ofText (flatText x) ++ notes := by
  cases x <;> first | rfl | exact absurd h Bool.false_ne_true

/-- **A value is read before the end of its line**, if those without blocks are. -/
theorem spells_value {leaf : Value → Prop} (hleaf : ∀ x, leaf x → EndsBefore '\n' x)
    {x : Value} (h : x.IsShapedOf SubObject.IsHeaded leaf) (n : Nat) {notes : List Piece}
    (hn : FitsLine notes) (hspace : x.isFlat → notes ≠ [] → EndsBefore ' ' x) (rest : Text) :
    Spells (value n notes x) ('\n' :: rest) := by
  induction h generalizing n notes rest with
  | @flat x hx hflat =>
    rw [value_flat hflat, spells_append]
    refine ⟨?_, hn.spelt rest⟩
    rcases hn.cases rest with ⟨he, -⟩ | ⟨more, he, hne⟩
    · rw [he]
      exact (hleaf x hx rest).spells
    · rw [he]
      exact (hspace hflat hne more).spells
  | @block b hb _ ih =>
    rw [value]
    refine spells_block (n + 1) hn hb ?_ _
    intro p hp rest
    exact ih p hp (n + 1) fitsLine_nil (fun _ h => absurd rfl h) rest
  | @blocks items hb _ ih =>
    rw [value]
    by_cases hempty : items.isEmpty
    · rw [if_pos hempty]
      exact ⟨Or.inr (Token.next?_arrayOpen _), Or.inr (Token.next?_parenClose _),
        hn.spelt rest⟩
    · rw [if_neg hempty]
      refine ⟨Or.inr (Token.next?_arrayOpen _), ?_⟩
      rw [spells_append]
      refine ⟨hn.spelt _, Or.inl isGap_lineEnd, ?_⟩
      rw [spells_append]
      refine ⟨spells_blocks (n + 2) hb ?_ _, Or.inl (isGap_gap _),
        Or.inr (Token.next?_parenClose _), trivial⟩
      intro b hb p hp rest
      exact ih b hb p hp (n + 2) fitsLine_nil (fun _ h => absurd rfl h) rest

/-- What it takes for the block of an instance to be read piece by piece. -/
structure IsSpellable (leaf : Value → Prop) (notes : Text → List Piece) (i : Instance) : Prop where
  resourceName : ∃ kind, Token.IsWord kind i.resourceName
  isKey : ∀ p ∈ i.properties, IsKey p.1
  shaped : ∀ p ∈ i.properties, p.2.IsShapedOf SubObject.IsHeaded leaf
  noted : ∀ p ∈ i.properties, FitsLine (notes p.1)
  spaces : ∀ p ∈ i.properties, p.2.isFlat → notes p.1 ≠ [] → EndsBefore ' ' p.2

theorem spells_declaration {leaf : Value → Prop} (hleaf : ∀ x, leaf x → EndsBefore '\n' x)
    {notes : Text → List Piece} {i : Instance} (h : IsSpellable leaf notes i) (n : Nat) (rest : Text) :
    Spells (declaration n notes i) rest := by
  obtain ⟨kind, hresource⟩ := h.resourceName
  rw [declaration, spells_append]
  refine ⟨⟨Or.inl (isGap_gap _), Or.inr (isNext_word hresource ?_), Or.inl (isGap_gap 1),
    Or.inr (isNext_quoted _ ?_), Or.inl isGap_lineEnd, Or.inl (isGap_gap _),
    Or.inr (Token.next?_braceOpen _), Or.inl isGap_lineEnd, trivial⟩, ?_⟩
  · exact Text.Delimits.space _
  · exact Text.Delimits.lineFeed _
  · rw [spells_append]
    refine ⟨spells_lines n _ h.isKey ?_ _, Or.inl (isGap_gap _), Or.inr (Token.next?_braceClose _),
      Or.inl isGap_lineEnd, trivial⟩
    intro p hp rest
    exact spells_value hleaf (h.shaped p hp) n (h.noted p hp) (h.spaces p hp) rest

end Layout

end DesiredState
