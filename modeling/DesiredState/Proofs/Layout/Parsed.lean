/-
What a layout is parsed to.

The tokens of a value are read as a statement that carries it: blocks carry blocks, key
by key, and what a value without blocks is read as is left to be said.  The marks that
come with it are those of keys, all of them behind the notes of the value; so no comment
is ever marked.
-/
import DesiredState.Proofs.Layout.Spelled
import DesiredState.Proofs.Script.Blocks

namespace DesiredState

/-! ### Statements that carry values -/

mutual

/-- A statement carries a value; `leaf` says when it carries one without blocks. -/
def Value.Carried (leaf : Value → Statement → Prop) : Value → Statement → Prop
  | .subObject b, s => ∃ block, s = .block block ∧ b.Carried leaf block
  | .subObjectArray items, s => ∃ extent inner terms,
      s = .pipeline extent [.expression (.array inner true terms)] ∧
        SubObject.CarriedAll leaf items terms
  | flat, s => leaf flat s

/-- A block carries a block of a class. -/
def SubObject.Carried (leaf : Value → Statement → Prop) : SubObject → Block → Prop
  | ⟨typeName, properties⟩, block => typeName = some block.keyword ∧ block.instanceName = none ∧
      Value.CarriedFields leaf properties block.body.entries

/-- Terms carry blocks of a class, one by one. -/
def SubObject.CarriedAll (leaf : Value → Statement → Prop) : List SubObject → List Term → Prop
  | [], terms => terms = []
  | b :: rest, terms => ∃ block more, terms = .block block :: more ∧ b.Carried leaf block ∧
      SubObject.CarriedAll leaf rest more

/-- Entries carry properties, one by one. -/
def Value.CarriedFields (leaf : Value → Statement → Prop) :
    List (Text × Value) → List Entry → Prop
  | [], entries => entries = []
  | (key, x) :: rest, entries => ∃ e more, entries = e :: more ∧ e.key = key ∧
      x.Carried leaf e.value ∧ Value.CarriedFields leaf rest more

end

namespace Piece

/-! ### Tokens of pieces

Gaps, line ends and notes are pieces and no tokens of the grammar.  What they do is move
the place at which the next token stands.
-/

/-- The tokens that the grammar sees of pieces at a place. -/
def tokens (start : Position) (pieces : List Piece) : List Token :=
  Token.significant (place start pieces)

@[simp] theorem tokens_nil (start : Position) : tokens start [] = [] := rfl

theorem tokens_append (start : Position) (first second : List Piece) :
    tokens start (first ++ second) = tokens start first ++ tokens (stop start first) second := by
  unfold tokens Token.significant
  rw [place_append, List.filter_append]

theorem tokens_cons {piece : Piece} (h : piece.kind.isSignificant) (start : Position)
    (rest : List Piece) :
    tokens start (piece :: rest) =
      ⟨piece.kind, piece.text, start⟩ :: tokens (start.advance piece.text) rest := by
  unfold tokens Token.significant
  rw [place, List.filter_cons, if_pos h]

theorem tokens_cons_skip {piece : Piece} (h : piece.kind.isSignificant = false)
    (start : Position) (rest : List Piece) :
    tokens start (piece :: rest) = tokens (start.advance piece.text) rest := by
  unfold tokens Token.significant
  rw [place, List.filter_cons, if_neg (by rw [h]; exact Bool.false_ne_true)]

/-- Pieces stand at a place in a source. -/
def Stands (source : Text) (start : Position) (pieces : List Piece) : Prop :=
  ∃ before after, source = before ++ (textOf pieces ++ after) ∧ start.offset = before.size

theorem Stands.left {source : Text} {start : Position} {first second : List Piece}
    (h : Stands source start (first ++ second)) : Stands source start first := by
  obtain ⟨before, after, hs, ho⟩ := h
  exact ⟨before, textOf second ++ after, by simp [hs], ho⟩

theorem Stands.right {source : Text} {start : Position} {first second : List Piece}
    (h : Stands source start (first ++ second)) : Stands source (stop start first) second := by
  obtain ⟨before, after, hs, ho⟩ := h
  refine ⟨before ++ textOf first, after, by simp [hs], ?_⟩
  rw [stop_offset, ho, Text.size_append]

theorem Stands.tail {source : Text} {start : Position} {piece : Piece} {rest : List Piece}
    (h : Stands source start (piece :: rest)) :
    Stands source (start.advance piece.text) rest :=
  (show Stands source start ([piece] ++ rest) from h).right

end Piece

namespace Layout

open Piece Grammar Reading Cursor

theorem isSignificant_word {kind : TokenKind} {name : Text} (h : Token.IsWord kind name) :
    (word name).kind.isSignificant := by
  rw [word_eq h]
  exact TokenKind.isSignificant_of_isName h.1

/-- Notes are no tokens for the grammar. -/
theorem tokens_notes {notes : List Piece} (h : AreNotes notes) (start : Position)
    (rest : List Piece) :
    tokens start (notes ++ rest) = tokens (stop start notes) rest := by
  rcases h with rfl | ⟨comment, rfl, hk, -⟩
  · rfl
  · have hskip : comment.kind.isSignificant = false := by
      cases hkind : comment.kind <;> rw [hkind] at hk <;> first | rfl | exact absurd hk Bool.false_ne_true
    exact tokens_cons_skip hskip _ rest

/-! ### Marks

Marks are collected while a text is read and are looked up by offset later.  So the
marks of a part are kept within its offsets, and marks of other parts cannot be taken
for them.
-/

/-- Marks that keys have, between two offsets. -/
def MarksWithin (low high : Nat) (marks : List Mark) : Prop :=
  ∀ mark ∈ marks, mark.role = .identifier ∧ low ≤ mark.offset ∧ mark.offset < high

/-- The line of a property, from its key to its end. -/
def line (n width : Nat) (notes : Text → List Piece) (p : Text × Value) : List Piece :=
  key n width p.1 ++ (value n (notes p.1) p.2 ++ [lineEnd])

theorem lines_cons (n width : Nat) (notes : Text → List Piece) (p : Text × Value)
    (rest : List (Text × Value)) :
    lines n width notes (p :: rest) = line n width notes p ++ lines n width notes rest := by
  rw [lines, line]
  simp

/-- Where the key of a line stands. -/
def keyPlace (n : Nat) (start : Position) : Position := start.advance (gap (4 * (n + 1))).text

/-- Where the value of a line starts. -/
def valuePlace (n width : Nat) (start : Position) (name : Text) : Position :=
  stop start (key n width name)

/-- The offsets at which the lines of a block may have marks: at their keys, and within their
values behind the notes. -/
def Markable (n width : Nat) (notes : Text → List Piece) :
    Position → List (Text × Value) → Nat → Prop
  | _, [], _ => False
  | start, p :: rest, offset =>
    offset = (keyPlace n start).offset ∨
    ((stop (valuePlace n width start p.1) (opening p.2 ++ notes p.1)).offset ≤ offset ∧
      offset < (stop (valuePlace n width start p.1) (value n (notes p.1) p.2)).offset) ∨
    Markable n width notes (stop start (line n width notes p)) rest offset

/-- The offsets of the keys of a block. -/
def keyOffsets (n width : Nat) (notes : Text → List Piece) :
    Position → List (Text × Value) → List Nat
  | _, [] => []
  | start, p :: rest =>
    (keyPlace n start).offset ::
      keyOffsets n width notes (stop start (line n width notes p)) rest

/-- The marks of the lines of a block: only those of keys, and all of its own keys. -/
structure LineMarks (n width : Nat) (notes : Text → List Piece) (start : Position)
    (fields : List (Text × Value)) (marks : List Mark) : Prop where
  sound : ∀ mark ∈ marks, mark.role = .identifier ∧ Markable n width notes start fields mark.offset
  complete : ∀ offset ∈ keyOffsets n width notes start fields,
    ∃ mark ∈ marks, mark.offset = offset

/-- Marks of lines stand within them. -/
theorem Markable.bounds {n width : Nat} {notes : Text → List Piece} {start : Position}
    {fields : List (Text × Value)} {offset : Nat}
    (h : Markable n width notes start fields offset) :
    start.offset ≤ offset ∧ offset < (stop start (lines n width notes fields)).offset := by
  induction fields generalizing start with
  | nil => exact h.elim
  | cons p rest ih =>
    rw [lines_cons, stop_append]
    have hline : (stop start (line n width notes p)).offset ≤
        (stop (stop start (line n width notes p)) (lines n width notes rest)).offset :=
      offset_le_stop _ _
    have hvalue : (stop start (line n width notes p)).offset =
        (stop (valuePlace n width start p.1) (value n (notes p.1) p.2)).offset + 1 := by
      rw [line, stop_append, stop_append]
      exact Position.advance_offset _ _
    have hplace : (valuePlace n width start p.1).offset =
        start.offset + (textOf (key n width p.1)).size := stop_offset _ _
    have hkey : (keyPlace n start).offset = start.offset + (gap (4 * (n + 1))).text.size :=
      Position.advance_offset _ _
    have hsize : (gap (4 * (n + 1))).text.size + 1 ≤ (textOf (key n width p.1)).size := by
      simp [key, equals, Text.width]
      omega
    have hopen : (valuePlace n width start p.1).offset ≤
        (stop (valuePlace n width start p.1) (opening p.2 ++ notes p.1)).offset :=
      offset_le_stop _ _
    have hclose : (valuePlace n width start p.1).offset ≤
        (stop (valuePlace n width start p.1) (value n (notes p.1) p.2)).offset :=
      offset_le_stop _ _
    rcases h with h | ⟨hlow, hhigh⟩ | h
    · omega
    · omega
    · have := ih h
      have : start.offset ≤ (stop start (line n width notes p)).offset := offset_le_stop _ _
      omega

/-! ### Lines

Behind a line comes a token on a later line, or the brace of the block.  Without that
the value on the line could go on, since many of the rules stop only where a line does.
-/

variable {leaf : Value → Statement → Prop} {quiet : Prop}

/-- The value of a property is read as a statement that carries it.  Its marks matter only where
comments are read. -/
def IsRead (leaf : Value → Statement → Prop) (quiet : Prop) (n : Nat) (notes : List Piece)
    (x : Value) : Prop :=
  ∀ (source : Text) (start : Position) (m : Nat) (consumed rest : List Token),
    Stands source start (value n notes x) →
    (∃ t more, consumed = t :: more ∧ t.kind = .equals) →
    (tokens start (value n notes x)).length ≤ m →
    Ends (stop start (value n notes x)).line rest →
    Passes (level source m).value consumed (tokens start (value n notes x)) rest fun v =>
      x.Carried leaf v.node ∧ (quiet → MarksWithin (stop start (opening x ++ notes)).offset
        (stop start (value n notes x)).offset v.marks)

/-- Statements that are the entries of a body and carry its properties. -/
def AreEntries (leaf : Value → Statement → Prop) (quiet : Prop) (n width : Nat)
    (notes : Text → List Piece) (start : Position) (fields : List (Text × Value))
    (read : List Item) : Prop :=
  ∃ entries marks, entriesOf read = (some entries, marks) ∧
    Value.CarriedFields leaf fields entries ∧
    (quiet → LineMarks n width notes start fields marks)

/-- The sign of equality on a line. -/
def equalsOf (n width : Nat) (start : Position) (name : Text) : Token :=
  ⟨.equals, ['='], stop start [gap (4 * (n + 1)), word name, gap (width - name.size + 1)]⟩

theorem tokens_lineEnd (start : Position) (rest : List Piece) :
    tokens start (lineEnd :: rest) = tokens (start.advance lineEnd.text) rest :=
  tokens_cons_skip rfl start rest

theorem tokens_line {name : Text} (h : IsKey name) (n width : Nat) (notes : Text → List Piece)
    (start : Position) (x : Value) :
    tokens start (line n width notes (name, x)) =
      ⟨(word name).kind, name, keyPlace n start⟩ :: equalsOf n width start name ::
        tokens (valuePlace n width start name) (value n (notes name) x) := by
  obtain ⟨kind, hword⟩ := h.isWord
  rw [line, tokens_append, tokens_append, key, tokens_cons_skip rfl,
    tokens_cons (isSignificant_word hword), tokens_cons_skip rfl, tokens_cons rfl,
    tokens_cons_skip rfl, tokens_lineEnd, tokens_nil, tokens_nil, List.append_nil]
  rfl

/-- What comes after a line: the key of the next one, on a later line, or the end of the block. -/
theorem ends_lines {n width : Nat} {notes : Text → List Piece} {start : Position}
    {fields : List (Text × Value)} {rest : List Token} {number : Nat}
    (hkeys : ∀ p ∈ fields, IsKey p.1) (hnumber : number < start.line)
    (hrest : Meets rest (· == .braceClose)) :
    Ends number (tokens start (lines n width notes fields) ++ rest) := by
  cases fields with
  | nil =>
    rw [lines, tokens_nil, List.nil_append]
    intro t ht
    exact Or.inr (Or.inl (beq_iff_eq.mp (hrest t ht)))
  | cons p more =>
    obtain ⟨name, x⟩ := p
    have hkey : IsKey name := hkeys (name, x) List.mem_cons_self
    rw [lines_cons, tokens_append, tokens_line hkey]
    intro t ht
    cases ht
    refine Or.inr (Or.inr ⟨Token.isName_wordKind name, ?_⟩)
    exact Nat.lt_of_lt_of_le hnumber (Position.line_le_advance start _)

theorem areEntries_cons {n width : Nat} {notes : Text → List Piece} {start : Position}
    {p : Text × Value} {fields : List (Text × Value)} {key : Token} {v : Marked Statement}
    {item : Item} {read : List Item} (hkeyed : item.keyed? = some (key, v.node))
    (hmarks : item.marks = v.marks) (htext : key.text = p.1) (hstart : key.start = keyPlace n start)
    (hcarried : p.2.Carried leaf v.node)
    (hwithin : quiet → MarksWithin (stop (valuePlace n width start p.1)
      (opening p.2 ++ notes p.1)).offset (stop (valuePlace n width start p.1)
        (value n (notes p.1) p.2)).offset v.marks)
    (hread : AreEntries leaf quiet n width notes (stop start (line n width notes p)) fields read) :
    AreEntries leaf quiet n width notes start (p :: fields) (item :: read) := by
  obtain ⟨entries, marks, hentries, hfields, hline⟩ := hread
  unfold entriesOf at hentries
  split at hentries
  · next keyedItems hmapM =>
    cases hentries
    refine ⟨⟨key.text, key.location, v.node⟩ :: keyedItems.map fun entry =>
      ⟨entry.1.text, entry.1.location, entry.2⟩, item.marks ++ read.flatMap (·.marks) ++
        ⟨key.start.offset, .identifier⟩ :: keyedItems.map fun entry =>
          ⟨entry.1.start.offset, .identifier⟩, ?_, ?_, ?_⟩
    · unfold entriesOf
      simp [List.mapM_cons, hkeyed, hmapM]
    · exact ⟨_, _, rfl, htext, hcarried, hfields⟩
    · intro hq
      obtain ⟨hsound, hcomplete⟩ := hline hq
      have hvalue := hwithin hq
      refine ⟨?_, ?_⟩
      · intro mark hm
        rw [List.append_assoc, List.mem_append, List.mem_append, List.mem_cons] at hm
        rcases hm with hm | hm | rfl | hm
        · rw [hmarks] at hm
          exact ⟨(hvalue mark hm).1, Or.inr (Or.inl (hvalue mark hm).2)⟩
        · obtain ⟨hrole, hoffset⟩ := hsound mark (List.mem_append_left _ hm)
          exact ⟨hrole, Or.inr (Or.inr hoffset)⟩
        · exact ⟨rfl, Or.inl (by rw [hstart])⟩
        · obtain ⟨hrole, hoffset⟩ := hsound mark (List.mem_append_right _ hm)
          exact ⟨hrole, Or.inr (Or.inr hoffset)⟩
      · intro offset ho
        rw [keyOffsets] at ho
        rcases List.mem_cons.mp ho with rfl | ho
        · refine ⟨⟨key.start.offset, .identifier⟩, ?_, by rw [hstart]⟩
          exact List.mem_append_right _ List.mem_cons_self
        · obtain ⟨mark, hm, rfl⟩ := hcomplete offset ho
          refine ⟨mark, ?_, rfl⟩
          rcases List.mem_append.mp hm with hm | hm
          · exact List.mem_append_left _ (List.mem_append_right _ hm)
          · exact List.mem_append_right _ (List.mem_cons_of_mem _ hm)
  · cases hentries

/-- The lines of a block are read as its entries, if their values are read. -/
theorem passes_lines {n width : Nat} {notes : Text → List Piece} {fields : List (Text × Value)}
    (hkeys : ∀ p ∈ fields, IsKey p.1)
    (hvalues : ∀ p ∈ fields, IsRead leaf quiet n (notes p.1) p.2)
    {source : Text} {start : Position} {m : Nat} {consumed rest : List Token}
    (hstands : Stands source start (lines n width notes fields))
    (hm : (tokens start (lines n width notes fields)).length ≤ m)
    (hrest : Meets rest (· == .braceClose)) :
    PassesItems (level source m) (· == .semicolon) consumed
      (tokens start (lines n width notes fields)) rest
      (AreEntries leaf quiet n width notes start fields) := by
  induction fields generalizing start consumed with
  | nil =>
    refine PassesItems.stop ?_ ?_
    · refine hrest.mono ?_
      intro kind hk
      rw [beq_iff_eq.mp hk]
      rfl
    · exact ⟨[], [], rfl, rfl, fun _ => ⟨fun _ h => absurd h List.not_mem_nil,
        fun _ h => absurd h List.not_mem_nil⟩⟩
  | cons p fields ih =>
    obtain ⟨name, x⟩ := p
    have hkey : IsKey name := hkeys (name, x) List.mem_cons_self
    have hmore : ∀ p ∈ fields, IsKey p.1 := fun q hq => hkeys q (List.mem_cons_of_mem _ hq)
    rw [lines_cons] at hstands hm ⊢
    rw [tokens_append, tokens_line hkey] at hm ⊢
    rw [List.length_append, List.length_cons, List.length_cons] at hm
    obtain ⟨m, rfl⟩ : ∃ k, m = k + 1 := ⟨m - 1, by omega⟩
    have hread : IsRead leaf quiet n (notes name) x := hvalues (name, x) List.mem_cons_self
    have hvalue := hread source (valuePlace n width start name) m
      (equalsOf n width start name :: ⟨(word name).kind, name, keyPlace n start⟩ :: consumed)
      (tokens (stop start (line n width notes (name, x))) (lines n width notes fields) ++ rest)
      (by
        have := hstands.left
        rw [line] at this
        exact this.right.left)
      ⟨_, _, rfl, rfl⟩ (by omega)
      (by
        refine ends_lines hmore ?_ hrest
        rw [line, stop_append, stop_append]
        exact Position.line_lt_advance _ (List.mem_singleton.mpr rfl))
    refine PassesItems.step ?_ ?_ (passes_statement_keyed (Token.isName_wordKind name) rfl hvalue) ?_
    · have hname := Token.isName_wordKind name
      change (Token.wordKind name).startsStatement = true
      cases hk : Token.wordKind name <;> rw [hk] at hname <;> first
        | rfl
        | exact absurd hname Bool.false_ne_true
    · have hname := Token.isName_wordKind name
      change (Token.wordKind name == .semicolon) = false
      cases hk : Token.wordKind name <;> rw [hk] at hname <;> first
        | rfl
        | exact absurd hname Bool.false_ne_true
    · rintro _ ⟨v, ⟨hcarried, hwithin⟩, rfl⟩
      refine (ih hmore (fun q hq => hvalues q (List.mem_cons_of_mem _ hq)) hstands.right
        (by omega)).mono ?_
      intro read hread
      exact areEntries_cons rfl rfl rfl rfl hcarried hwithin hread

/-! ### Blocks -/

/-- The opening line of a block. -/
def blockOpening (b : SubObject) : List Piece := [word (b.typeName.getD []), braceOpen]

/-- Where the lines of a block of a class start. -/
def linesPlace (notes : List Piece) (start : Position) (b : SubObject) : Position :=
  stop start (blockOpening b ++ (notes ++ [lineEnd]))

theorem block_eq (n : Nat) (notes : List Piece) (b : SubObject) :
    block n notes b = (blockOpening b ++ (notes ++ [lineEnd])) ++
      (lines n (width (Fields.names b.properties)) (fun _ => []) b.properties ++
        [gap (4 * n), braceClose]) := by
  obtain ⟨typeName, properties⟩ := b
  simp [block, blockOpening]

theorem tokens_block {b : SubObject} (hb : b.IsNamed) (n : Nat) {notes : List Piece}
    (hn : AreNotes notes) (start : Position) :
    ∃ head opener closer : Token, head.kind = .bareword ∧ b.typeName = some head.text ∧
      opener.kind = .braceOpen ∧ closer.kind = .braceClose ∧
      tokens start (block n notes b) = head :: opener ::
        (tokens (linesPlace notes start b)
          (lines n (width (Fields.names b.properties)) (fun _ => []) b.properties) ++ [closer]) := by
  obtain ⟨⟨name, hname, hword⟩, -⟩ := hb
  have hsignificant := isSignificant_word hword
  rw [block_eq, tokens_append, tokens_append (stop start _)]
  have hclose : ∀ start, tokens start [gap (4 * n), braceClose] =
      [⟨.braceClose, ['\x7d'], start.advance (gap (4 * n)).text⟩] := fun start => rfl
  rw [hclose]
  have hopening : tokens start (blockOpening b ++ (notes ++ [lineEnd])) =
      [⟨.bareword, name, start⟩, ⟨.braceOpen, ['\x7b'], start.advance name⟩] := by
    rw [blockOpening, hname, Option.getD_some, List.cons_append, tokens_cons hsignificant,
      List.cons_append, tokens_cons rfl, List.nil_append, tokens_notes hn, tokens_lineEnd,
      tokens_nil, word_eq hword]
    rfl
  rw [hopening]
  exact ⟨_, _, _, rfl, hname, rfl, rfl, rfl⟩

/-- What a block is read as: a statement that is a block and carries it. -/
def IsReadAs (leaf : Value → Statement → Prop) (quiet : Prop) (n : Nat) (notes : List Piece)
    (start : Position) (b : SubObject) (item : Item) : Prop :=
  ∃ block, item.statement = .block block ∧ b.Carried leaf block ∧
    (quiet → MarksWithin (linesPlace notes start b).offset
      (stop start (Layout.block n notes b)).offset item.marks)

/-- A block of a class is read as a block, if the values of its properties are read. -/
theorem passes_block {b : SubObject} (hb : b.IsNamed) {n : Nat} {notes : List Piece}
    (hn : AreNotes notes) (hvalues : ∀ p ∈ b.properties, IsRead leaf quiet n [] p.2)
    {source : Text} {start : Position} {m : Nat} {consumed rest : List Token}
    (hstands : Stands source start (block n notes b))
    (hm : (tokens start (block n notes b)).length ≤ m + 2) (hrest : Meets rest endsValue) :
    ∃ head second more, tokens start (block n notes b) = head :: second :: more ∧
      head.kind = .bareword ∧ second.kind = .braceOpen ∧
      Passes (wordStatement source (level source m)) consumed (tokens start (block n notes b)) rest
        (IsReadAs leaf quiet n notes start b) := by
  obtain ⟨head, opener, closer, hhead, hname, hopener, hcloser, htokens⟩ :=
    tokens_block hb n hn start
  refine ⟨head, opener, _, htokens, hhead, hopener, ?_⟩
  rw [htokens] at hm ⊢
  rw [block_eq] at hstands
  have hlen : (tokens (linesPlace notes start b)
      (lines n (width (Fields.names b.properties)) (fun _ => []) b.properties)).length ≤ m := by
    simp at hm
    omega
  have hlines : PassesItems (level source m) (· == .semicolon) (opener :: head :: consumed)
      (tokens (linesPlace notes start b) _) (closer :: rest) _ :=
    passes_lines (fun p hp => hb.keys.of_mem hp) hvalues hstands.right.left hlen
      (Meets.cons (by rw [hcloser]; rfl))
  refine passes_wordStatement_command hhead (by rw [hopener]; decide) ?_
  refine (passes_command (s := []) (passes_noArguments (entersArgument_brace hopener)) rfl
    hopener hcloser hlines (fun read hread => hread) hrest).mono ?_
  rintro item ⟨extent, bodyExtent, entries, marks, ⟨hcarried, hmarks⟩, rfl⟩
  refine ⟨_, rfl, ?_, ?_⟩
  · obtain ⟨typeName, properties⟩ := b
    exact ⟨hname, rfl, hcarried⟩
  · intro hq mark hm
    simp only [Option.isSome_none, Bool.false_eq_true, if_false, List.append_nil] at hm
    obtain ⟨hrole, hoffset⟩ := (hmarks hq).sound mark hm
    obtain ⟨hlow, hhigh⟩ := hoffset.bounds
    refine ⟨hrole, hlow, Nat.lt_of_lt_of_le hhigh ?_⟩
    rw [block_eq, stop_append]
    change _ ≤ (stop (linesPlace notes start b) (_ ++ _)).offset
    rw [stop_append]
    exact offset_le_stop _ _

theorem MarksWithin.mono {low high less more : Nat} {marks : List Mark}
    (h : MarksWithin low high marks) (hl : less ≤ low) (hm : high ≤ more) :
    MarksWithin less more marks := by
  intro mark hmark
  obtain ⟨hrole, hlow, hhigh⟩ := h mark hmark
  exact ⟨hrole, Nat.le_trans hl hlow, Nat.lt_of_lt_of_le hhigh hm⟩

/-- Blocks of a class one after another, as the elements of an array. -/
theorem passes_blocks {n : Nat} {items : List SubObject} (hb : ∀ b ∈ items, b.IsNamed)
    (hvalues : ∀ b ∈ items, ∀ p ∈ b.properties, IsRead leaf quiet n [] p.2)
    {source : Text} {start : Position} {m : Nat} {consumed rest : List Token}
    (hstands : Stands source start (blocks n items))
    (hm : (tokens start (blocks n items)).length ≤ m) (hrest : Meets rest (· == .parenClose)) :
    PassesItems (level source m) (fun kind => kind == .semicolon || kind == .comma) consumed
      (tokens start (blocks n items)) rest fun read =>
        SubObject.CarriedAll leaf items (read.flatMap fun item => contributed item.statement) ∧
          (quiet → MarksWithin start.offset (stop start (blocks n items)).offset
            (read.flatMap (·.marks))) := by
  induction items generalizing start consumed with
  | nil =>
    refine PassesItems.stop ?_ ⟨rfl, fun _ _ h => absurd h List.not_mem_nil⟩
    refine hrest.mono ?_
    intro kind hk
    rw [beq_iff_eq.mp hk]
    rfl
  | cons b items ih =>
    have hnamed := hb b List.mem_cons_self
    rw [blocks] at hstands hm ⊢
    rw [tokens_cons_skip rfl, tokens_append, tokens_lineEnd] at hm ⊢
    rw [List.length_append] at hm
    have hmeets : Meets (tokens ((stop (start.advance (gap (4 * n)).text)
        (block n [] b)).advance lineEnd.text) (blocks n items) ++ rest) endsValue := by
      cases items with
      | nil => exact hrest.mono fun kind hk => by rw [beq_iff_eq.mp hk]; rfl
      | cons c items =>
        obtain ⟨head, _, _, hhead, -, -, -, htokens⟩ :=
          tokens_block (hb c (List.mem_cons_of_mem b List.mem_cons_self)) n areNotes_nil
            (((stop (start.advance (gap (4 * n)).text) (block n [] b)).advance
              lineEnd.text).advance (gap (4 * n)).text)
        rw [blocks, tokens_cons_skip rfl, tokens_append, htokens]
        exact Meets.cons (by rw [hhead]; rfl)
    obtain ⟨head, opener, closer, hhead, -, -, -, htokens⟩ :=
      tokens_block hnamed n areNotes_nil (start.advance (gap (4 * n)).text)
    obtain ⟨m, rfl⟩ : ∃ k, m = k + 1 := ⟨m - 1, by simp [htokens] at hm; omega⟩
    obtain ⟨head, second, more, htokens, hhead, -, hblock⟩ :=
      passes_block hnamed areNotes_nil (hvalues b List.mem_cons_self) hstands.tail.left
        (m := m) (by omega) hmeets
    rw [htokens] at hblock ⊢
    refine PassesItems.step (by rw [hhead]; rfl) (by rw [hhead]; rfl)
      (passes_statement_word hhead hblock) ?_
    rintro item ⟨blk, hstatement, hcarried, hwithin⟩
    rw [← htokens]
    refine (ih (fun c hc => hb c (List.mem_cons_of_mem b hc))
      (fun c hc => hvalues c (List.mem_cons_of_mem b hc)) hstands.tail.right.tail
      (by omega)).mono ?_
    rintro read ⟨hall, hmarks⟩
    refine ⟨?_, ?_⟩
    · rw [List.flatMap_cons, hstatement]
      exact ⟨blk, _, rfl, hcarried, hall⟩
    · intro hq mark hm
      rw [List.flatMap_cons, List.mem_append] at hm
      have hblocks : (stop start (gap (4 * n) :: (block n [] b ++ lineEnd :: blocks n items))).offset =
          (stop ((stop (start.advance (gap (4 * n)).text) (block n [] b)).advance lineEnd.text)
            (blocks n items)).offset := by
        rw [stop, stop_append]
        rfl
      have hstart := Position.offset_le_advance start (gap (4 * n)).text
      have hopen : (start.advance (gap (4 * n)).text).offset ≤
          (linesPlace [] (start.advance (gap (4 * n)).text) b).offset := offset_le_stop _ _
      have hblock := offset_le_stop (start.advance (gap (4 * n)).text) (block n [] b)
      have hend := Position.offset_le_advance
        (stop (start.advance (gap (4 * n)).text) (block n [] b)) lineEnd.text
      have hrest := offset_le_stop
        ((stop (start.advance (gap (4 * n)).text) (block n [] b)).advance lineEnd.text)
        (blocks n items)
      rw [hblocks]
      rcases hm with hm | hm
      · obtain ⟨hrole, hlow, hhigh⟩ := hwithin hq mark hm
        exact ⟨hrole, by omega, by omega⟩
      · obtain ⟨hrole, hlow, hhigh⟩ := hmarks hq mark hm
        exact ⟨hrole, by omega, by omega⟩

/-! ### Values

The induction is on the shape of a value.  Values without blocks come in from outside,
each with its own proof that it is read, and blocks are put together from lines.
-/

/-- A value without blocks is read, by itself, as a statement that carries it. -/
def IsFlatRead (leaf : Value → Statement → Prop) (quiet : Prop) (x : Value) : Prop :=
  ∀ (source : Text) (start : Position) (m : Nat) (consumed rest : List Token),
    Stands source start (ofText (flatText x)) →
    (∃ t more, consumed = t :: more ∧ t.kind = .equals) →
    (tokens start (ofText (flatText x))).length ≤ m →
    Ends (stop start (ofText (flatText x))).line rest →
    Passes (level source m).value consumed (tokens start (ofText (flatText x))) rest fun v =>
      leaf x v.node ∧ (quiet → v.marks = [])

theorem carried_of_isFlat {x : Value} (h : x.isFlat) {s : Statement} (hs : leaf x s) :
    x.Carried leaf s := by
  cases x <;> first | exact hs | exact absurd h Bool.false_ne_true

theorem isRead_flat {x : Value} (hflat : x.isFlat) (hx : IsFlatRead leaf quiet x) (n : Nat)
    {notes : List Piece} (hn : AreNotes notes) : IsRead leaf quiet n notes x := by
  intro source start m consumed rest hstands hconsumed hm hrest
  rw [value_flat hflat] at hstands hm hrest ⊢
  have htokens : tokens start (ofText (flatText x) ++ notes) =
      tokens start (ofText (flatText x)) := by
    rw [tokens_append, ← List.append_nil notes, tokens_notes hn, tokens_nil, List.append_nil]
  rw [htokens] at hm ⊢
  have hline : (stop start (ofText (flatText x))).line ≤
      (stop start (ofText (flatText x) ++ notes)).line := by
    rw [stop_append]
    exact line_le_stop _ _
  refine (hx source start m consumed rest hstands.left hconsumed hm (hrest.mono hline)).mono ?_
  rintro v ⟨hleaf, hmarks⟩
  refine ⟨carried_of_isFlat hflat hleaf, ?_⟩
  intro hq mark hmark
  rw [hmarks hq] at hmark
  exact absurd hmark List.not_mem_nil

theorem isRead_block {b : SubObject} (hb : b.IsNamed) {n : Nat} {notes : List Piece}
    (hn : AreNotes notes) (hvalues : ∀ p ∈ b.properties, IsRead leaf quiet (n + 1) [] p.2) :
    IsRead leaf quiet n notes (.subObject b) := by
  intro source start m consumed rest hstands _ hm hrest
  rw [value] at hstands hm hrest ⊢
  obtain ⟨head, opener, closer, hhead, -, -, -, htokens⟩ := tokens_block hb (n + 1) hn start
  obtain ⟨m, rfl⟩ : ∃ k, m = k + 1 := ⟨m - 1, by rw [htokens] at hm; simp at hm; omega⟩
  obtain ⟨head, second, more, htokens, hhead, -, hblock⟩ :=
    passes_block hb hn hvalues hstands (m := m) (by omega) hrest.meets
  rw [htokens] at hblock ⊢
  refine (passes_value_word (by rw [hhead]; rfl) hblock).mono ?_
  rintro v ⟨item, ⟨blk, hstatement, hcarried, hwithin⟩, rfl⟩
  refine ⟨⟨blk, hstatement, hcarried⟩, ?_⟩
  intro hq
  refine (hwithin hq).mono ?_ (Nat.le_refl _)
  rw [linesPlace, ← List.append_assoc]
  exact offset_le_stop_append start (opening (.subObject b) ++ notes) [lineEnd]

theorem isRead_noBlocks (n : Nat) {notes : List Piece} (hn : AreNotes notes) :
    IsRead leaf quiet n notes (.subObjectArray []) := by
  intro source start m consumed rest _ _ hm hrest
  have htokens : tokens start (value n notes (.subObjectArray [])) =
      [⟨.arrayOpen, ['@', '('], start⟩, ⟨.parenClose, [')'], start.advance ['@', '(']⟩] := by
    rw [value, if_pos List.isEmpty_nil, tokens_cons rfl, tokens_cons rfl, ← List.append_nil notes,
      tokens_notes hn, tokens_nil]
    rfl
  rw [htokens] at hm ⊢
  obtain ⟨m, rfl⟩ : ∃ k, m = k + 1 := ⟨m - 1, by simp at hm; omega⟩
  have hitems : PassesItems (level source m) (fun kind => kind == .semicolon || kind == .comma)
      (⟨.arrayOpen, ['@', '('], start⟩ :: consumed) []
      (⟨.parenClose, [')'], start.advance ['@', '(']⟩ :: rest) (· = []) :=
    PassesItems.stop (Meets.cons rfl) rfl
  refine (passes_arrayValue rfl (passes_bracketedArray rfl rfl hitems) hrest.meets).mono ?_
  rintro v ⟨e, ⟨extent, read, rfl, rfl⟩, rfl⟩
  exact ⟨⟨_, _, _, rfl, rfl⟩, fun _ _ h => absurd h List.not_mem_nil⟩

theorem isRead_blocks {items : List SubObject} (hne : items ≠ []) (hb : ∀ b ∈ items, b.IsNamed)
    {n : Nat} {notes : List Piece} (hn : AreNotes notes)
    (hvalues : ∀ b ∈ items, ∀ p ∈ b.properties, IsRead leaf quiet (n + 2) [] p.2) :
    IsRead leaf quiet n notes (.subObjectArray items) := by
  intro source start m consumed rest hstands _ hm hrest
  have hempty : items.isEmpty = false := by
    cases items with
    | nil => exact absurd rfl hne
    | cons b rest => rfl
  have hvalue : value n notes (.subObjectArray items) = (arrayOpen :: (notes ++ [lineEnd])) ++
      (blocks (n + 2) items ++ [gap (4 * (n + 1)), parenClose]) := by
    rw [value, hempty]
    simp
  have hopening : tokens start (arrayOpen :: (notes ++ [lineEnd])) =
      [⟨.arrayOpen, ['@', '('], start⟩] := by
    rw [tokens_cons rfl, tokens_notes hn, tokens_lineEnd, tokens_nil]
    rfl
  obtain ⟨closer, hclosing, hcloser⟩ : ∃ closer : Token, closer.kind = .parenClose ∧
      tokens (stop (stop start (arrayOpen :: (notes ++ [lineEnd]))) (blocks (n + 2) items))
        [gap (4 * (n + 1)), parenClose] = [closer] := ⟨_, rfl, rfl⟩
  have hlow : (stop start (opening (.subObjectArray items) ++ notes)).offset ≤
      (stop start (arrayOpen :: (notes ++ [lineEnd]))).offset := by
    have : arrayOpen :: (notes ++ [lineEnd]) =
        (opening (.subObjectArray items) ++ notes) ++ [lineEnd] := by
      rw [opening, hempty]
      simp
    rw [this]
    exact offset_le_stop_append start _ _
  rw [hvalue] at hstands hm hrest ⊢
  rw [tokens_append, tokens_append, hopening, hcloser] at hm ⊢
  obtain ⟨m, rfl⟩ : ∃ k, m = k + 1 := ⟨m - 1, by simp at hm; omega⟩
  have hlen : (tokens (stop start (arrayOpen :: (notes ++ [lineEnd])))
      (blocks (n + 2) items)).length ≤ m := by
    simp at hm
    omega
  have hitems : PassesItems (level source m) _ (⟨.arrayOpen, ['@', '('], start⟩ :: consumed) _
      (closer :: rest) _ :=
    passes_blocks hb hvalues hstands.right.left hlen (Meets.cons (by rw [hclosing]; rfl))
  refine (passes_arrayValue rfl (passes_bracketedArray rfl hclosing hitems) hrest.meets).mono ?_
  rintro v ⟨e, ⟨extent, read, ⟨hall, hmarks⟩, rfl⟩, rfl⟩
  refine ⟨⟨_, _, _, rfl, hall⟩, ?_⟩
  intro hq
  refine (hmarks hq).mono hlow ?_
  rw [stop_append]
  exact offset_le_stop_append _ _ _

/-- **A value is read as a statement that carries it**, if those without blocks are. -/
theorem isRead_of_isShaped {shape : Value → Prop}
    (hleaf : ∀ x, shape x → IsFlatRead leaf quiet x) {x : Value} (h : x.IsShaped shape) (n : Nat)
    {notes : List Piece} (hn : AreNotes notes) : IsRead leaf quiet n notes x := by
  induction h generalizing n notes with
  | flat hx hflat => exact isRead_flat hflat (hleaf _ hx) n hn
  | block hb _ ih => exact isRead_block hb hn fun p hp => ih p hp (n + 1) areNotes_nil
  | @blocks items hb _ ih =>
    by_cases hne : items = []
    · rw [hne]
      exact isRead_noBlocks n hn
    · exact isRead_blocks hne hb hn fun b hbm p hp => ih b hbm p hp (n + 2) areNotes_nil

end Layout

end DesiredState
