/-
Comments in a layout.

In the token stream of a document the heads of the declarations and the keys are marked
and nothing else is, so walking along the stream finds every comment behind the key that
it was written for: between a key and its comment there is only what opens the value,
and behind the comment no other one comes before the next key of the instance.
-/
import DesiredState.Proofs.Layout.Document
import DesiredState.Proofs.Stream
import DesiredState.Proofs.Token.Strings

namespace DesiredState

namespace Layout

open Piece

/-! ### The stream of pieces

The scan along a stream reads roles only.  Pieces whose roles cannot matter to it are
passed over in one step, however many of them there are.
-/

/-- The tokens of the stream that pieces at a place make. -/
def stream (marks : List Mark) (start : Position) (pieces : List Piece) : List ClassifiedToken :=
  Script.streamOf marks (place start pieces)

theorem stream_append (marks : List Mark) (start : Position) (first second : List Piece) :
    stream marks start (first ++ second) =
      stream marks start first ++ stream marks (stop start first) second := by
  simp [stream, Script.streamOf, place_append]

theorem stream_cons {piece : Piece} (h : (piece.kind.isSignificant || piece.kind.isComment) = true)
    (marks : List Mark) (start : Position) (rest : List Piece) :
    stream marks start (piece :: rest) =
      ClassifiedToken.of marks.reverse ⟨piece.kind, piece.text, start⟩ ::
        stream marks (start.advance piece.text) rest := by
  simp [stream, Script.streamOf, place, h]

theorem stream_cons_skip {piece : Piece}
    (h : (piece.kind.isSignificant || piece.kind.isComment) = false) (marks : List Mark)
    (start : Position) (rest : List Piece) :
    stream marks start (piece :: rest) = stream marks (start.advance piece.text) rest := by
  simp [stream, Script.streamOf, place, h]

/-- Tokens of pieces stand within them. -/
theorem of_mem_place {start : Position} {pieces : List Piece} {after : Text}
    (hspells : Spells pieces after) {t : Token} (ht : t ∈ place start pieces)
    (hk : (t.kind.isSignificant || t.kind.isComment) = true) :
    (⟨t.kind, t.text⟩ : Piece) ∈ pieces ∧ start.offset ≤ t.start.offset ∧
      t.start.offset < (stop start pieces).offset := by
  induction pieces generalizing start with
  | nil => exact absurd ht List.not_mem_nil
  | cons piece rest ih =>
    obtain ⟨hpiece, hrest⟩ := hspells
    have hle : start.offset ≤ (start.advance piece.text).offset :=
      Position.offset_le_advance start piece.text
    rcases List.mem_cons.mp ht with rfl | ht
    · have hne : piece.text ≠ [] := by
        rcases hpiece with ⟨hgap, -⟩ | hnext
        · simp only [hgap] at hk
          exact absurd hk Bool.false_ne_true
        · exact hnext.text_ne_nil
      have hend : (start.advance piece.text).offset ≤ (stop start (piece :: rest)).offset :=
        offset_le_stop (start.advance piece.text) rest
      exact ⟨List.mem_cons_self, Nat.le_refl _,
        Nat.lt_of_lt_of_le (Position.offset_lt_advance start hne) hend⟩
    · obtain ⟨hmem, hlow, hhigh⟩ := ih hrest ht
      exact ⟨List.mem_cons_of_mem piece hmem, by omega, hhigh⟩

/-- Tokens of the stream stand within their pieces. -/
theorem of_mem_stream {marks : List Mark} {start : Position} {pieces : List Piece} {after : Text}
    (hspells : Spells pieces after) {u : ClassifiedToken} (hu : u ∈ stream marks start pieces) :
    ∃ t : Token, u = ClassifiedToken.of marks.reverse t ∧ (⟨t.kind, t.text⟩ : Piece) ∈ pieces ∧
      start.offset ≤ t.start.offset ∧ t.start.offset < (stop start pieces).offset := by
  obtain ⟨t, ht, rfl⟩ := List.mem_map.mp hu
  obtain ⟨hmem, hk⟩ := List.mem_filter.mp ht
  exact ⟨t, rfl, of_mem_place hspells hmem hk⟩

/-- Where no mark is, the marks do not matter. -/
theorem stream_of_unmarked {marks : List Mark} {start : Position} {pieces : List Piece} {after : Text}
    (hspells : Spells pieces after)
    (hmarks : ∀ mark ∈ marks, start.offset ≤ mark.offset →
      ¬mark.offset < (stop start pieces).offset) :
    stream marks start pieces = stream [] start pieces := by
  refine List.map_congr_left ?_
  intro t ht
  obtain ⟨hmem, hk⟩ := List.mem_filter.mp ht
  obtain ⟨-, hlow, hhigh⟩ := of_mem_place hspells hmem hk
  have hrole : (ClassifiedToken.of marks.reverse t).role = TokenRole.ofKind t.kind := by
    refine ClassifiedToken.role_of_unmarked ?_
    intro mark hm he
    exact hmarks mark hm (by omega) (by omega)
  have hsame : ∀ marks : List Mark, ClassifiedToken.of marks t =
      ⟨(ClassifiedToken.of marks t).role, t.text, t.start⟩ := fun _ => rfl
  rw [hsame marks.reverse, hrole]
  rfl

/-- A piece that is no comment. -/
def IsCode (piece : Piece) : Prop := piece.kind.isComment = false

/-- Pieces without comments, where no mark is, are passed over. -/
theorem isQuiet_stream {marks : List Mark} {start : Position} {pieces : List Piece} {after : Text}
    (hspells : Spells pieces after) (hcode : ∀ piece ∈ pieces, IsCode piece)
    (hmarks : ∀ mark ∈ marks, start.offset ≤ mark.offset →
      ¬mark.offset < (stop start pieces).offset) :
    ∀ u ∈ stream marks start pieces, PropertyComment.IsQuiet u := by
  intro u hu
  obtain ⟨t, rfl, hmem, hlow, hhigh⟩ := of_mem_stream hspells hu
  have hrole : (ClassifiedToken.of marks.reverse t).role = TokenRole.ofKind t.kind := by
    refine ClassifiedToken.role_of_unmarked ?_
    intro mark hm he
    exact hmarks mark hm (by omega) (by omega)
  refine ⟨⟨?_, ?_⟩, ?_⟩ <;> rw [hrole]
  · exact TokenRole.ofKind_ne_comment (hcode _ hmem)
  · exact TokenRole.ofKind_ne_dynamicKeyword _
  · exact TokenRole.ofKind_ne_identifier _

/-- Pieces without comments, where only keys are marked, give no comment and no head. -/
theorem isPassive_stream {marks : List Mark} {start : Position} {pieces : List Piece}
    {after : Text} (hspells : Spells pieces after) (hcode : ∀ piece ∈ pieces, IsCode piece)
    (hmarks : ∀ mark ∈ marks, start.offset ≤ mark.offset →
      mark.offset < (stop start pieces).offset → mark.role = .identifier) :
    ∀ u ∈ stream marks start pieces, PropertyComment.IsPassive u := by
  intro u hu
  obtain ⟨t, rfl, hmem, hlow, hhigh⟩ := of_mem_stream hspells hu
  by_cases hsome : ∃ mark ∈ marks, mark.offset = t.start.offset
  · have hrole : (ClassifiedToken.of marks.reverse t).role = .identifier := by
      refine ClassifiedToken.role_of_marked ?_ hsome
      intro mark hm he
      exact hmarks mark hm (by omega) (by omega)
    refine ⟨?_, ?_⟩ <;> rw [hrole] <;> (intro h; cases h)
  · have hrole : (ClassifiedToken.of marks.reverse t).role = TokenRole.ofKind t.kind :=
      ClassifiedToken.role_of_unmarked fun mark hm he => hsome ⟨mark, hm, he⟩
    refine ⟨?_, ?_⟩ <;> rw [hrole]
    · exact TokenRole.ofKind_ne_comment (hcode _ hmem)
    · exact TokenRole.ofKind_ne_dynamicKeyword _

/-! ### Code without comments -/

theorem isCode_word (name : Text) : IsCode (word name) := by
  have hname := Token.isName_wordKind name
  unfold IsCode word
  cases hk : Token.wordKind name <;> simp_all [TokenKind.isName, TokenKind.isComment]

theorem isCode_key (n width : Nat) (name : Text) : ∀ piece ∈ key n width name, IsCode piece := by
  intro piece hp
  simp only [key, List.mem_cons, List.not_mem_nil, or_false] at hp
  rcases hp with rfl | rfl | rfl | rfl | rfl
  · rfl
  · exact isCode_word name
  all_goals rfl

variable {leaf : Value → Prop}

theorem isCode_lines (n width : Nat) {fields : List (Text × Value)}
    (h : ∀ p ∈ fields, ∀ piece ∈ value n [] p.2, IsCode piece) :
    ∀ piece ∈ lines n width (fun _ => []) fields, IsCode piece := by
  induction fields with
  | nil => exact fun _ hp => absurd hp List.not_mem_nil
  | cons p rest ih =>
    intro piece hp
    rw [lines_cons, line, List.mem_append, List.mem_append, List.mem_append] at hp
    rcases hp with (hp | hp | hp) | hp
    · exact isCode_key n width p.1 piece hp
    · exact h p List.mem_cons_self piece hp
    · rw [List.mem_singleton.mp hp]
      rfl
    · exact ih (fun q hq => h q (List.mem_cons_of_mem p hq)) piece hp

theorem isCode_block (n : Nat) {b : SubObject}
    (h : ∀ p ∈ b.properties, ∀ piece ∈ value n [] p.2, IsCode piece) :
    ∀ piece ∈ block n [] b, IsCode piece := by
  obtain ⟨typeName, properties⟩ := b
  intro piece hp
  rw [block, List.nil_append] at hp
  simp only [List.mem_cons, List.mem_append, List.not_mem_nil, or_false] at hp
  rcases hp with rfl | rfl | rfl | hp | rfl | rfl
  · exact isCode_word _
  · rfl
  · rfl
  · exact isCode_lines n _ h piece hp
  · rfl
  · rfl

theorem isCode_blocks (n : Nat) {items : List SubObject}
    (h : ∀ b ∈ items, ∀ p ∈ b.properties, ∀ piece ∈ value n [] p.2, IsCode piece) :
    ∀ piece ∈ blocks n items, IsCode piece := by
  induction items with
  | nil => exact fun _ hp => absurd hp List.not_mem_nil
  | cons b rest ih =>
    intro piece hp
    rw [blocks] at hp
    simp only [List.mem_cons, List.mem_append] at hp
    rcases hp with rfl | hp | rfl | hp
    · rfl
    · exact isCode_block n (h b List.mem_cons_self) piece hp
    · rfl
    · exact ih (fun c hc => h c (List.mem_cons_of_mem b hc)) piece hp

/-- The pieces of a value without notes hold no comment. -/
theorem isCode_value (hleaf : ∀ x, leaf x → ∀ piece ∈ ofText (flatText x), IsCode piece)
    {x : Value} (h : x.IsShaped leaf) (n : Nat) : ∀ piece ∈ value n [] x, IsCode piece := by
  induction h generalizing n with
  | flat hx hflat =>
    rw [value_flat hflat, List.append_nil]
    exact hleaf _ hx
  | block _ _ ih =>
    rw [value]
    exact isCode_block (n + 1) fun p hp => ih p hp (n + 1)
  | blocks _ _ ih =>
    intro piece hp
    rw [value] at hp
    split at hp
    · simp only [List.mem_cons, List.not_mem_nil, or_false] at hp
      rcases hp with rfl | rfl <;> rfl
    · simp only [List.nil_append, List.mem_cons, List.mem_append, List.not_mem_nil, or_false] at hp
      rcases hp with rfl | rfl | hp | rfl | rfl
      · rfl
      · rfl
      · exact isCode_blocks (n + 2) (fun b hb p hp => ih b hb p hp (n + 2)) piece hp
      · rfl
      · rfl

/-! ### Comments behind keys

The notes of a value stand before the lines of any block in it.  So no other key comes
between a key and its notes, and what a scan has in mind at the notes is that key.
-/

/-- The comments that notes are, one for each property that has one. -/
def commentsOf (head : BlockHead) (notes : Text → List Piece) (fields : List (Text × Value)) :
    List PropertyComment :=
  fields.flatMap fun p => ((notes p.1).filter (·.kind.isComment)).map fun comment =>
    ⟨head.resourceName, head.instanceName, p.1, comment.text⟩

/-- Where lines stand, only keys are marked, and all of those of the block itself. -/
structure KeysMarked (marks : List Mark) (n width : Nat) (notes : Text → List Piece)
    (start : Position) (fields : List (Text × Value)) : Prop where
  sound : ∀ mark ∈ marks, start.offset ≤ mark.offset →
    mark.offset < (stop start (lines n width notes fields)).offset →
      mark.role = .identifier ∧ Markable n width notes start fields mark.offset
  complete : ∀ offset ∈ keyOffsets n width notes start fields,
    ∃ mark ∈ marks, mark.offset = offset

/-- What stands on a line behind the key and before the notes. -/
def beforeNotes (width : Nat) (p : Text × Value) : List Piece :=
  [gap (width - p.1.size + 1), equals, gap 1] ++ opening p.2

/-- What stands on a line behind the notes. -/
def afterNotes (n : Nat) (x : Value) : List Piece := closing n x ++ [lineEnd]

theorem line_eq (n width : Nat) (notes : Text → List Piece) (p : Text × Value) :
    line n width notes p = [gap (4 * (n + 1)), word p.1] ++
      (beforeNotes width p ++ (notes p.1 ++ afterNotes n p.2)) := by
  rw [line, value_eq, key, beforeNotes, afterNotes]
  simp

theorem isCode_beforeNotes {n : Nat} {p : Text × Value}
    (h : ∀ piece ∈ value n [] p.2, IsCode piece) (width : Nat) :
    ∀ piece ∈ beforeNotes width p, IsCode piece := by
  intro piece hp
  rw [beforeNotes, List.mem_append] at hp
  rcases hp with hp | hp
  · simp only [List.mem_cons, List.not_mem_nil, or_false] at hp
    rcases hp with rfl | rfl | rfl <;> rfl
  · exact h piece (by rw [value_eq]; exact List.mem_append_left _ hp)

theorem isCode_afterNotes {n : Nat} {x : Value} (h : ∀ piece ∈ value n [] x, IsCode piece) :
    ∀ piece ∈ afterNotes n x, IsCode piece := by
  intro piece hp
  rw [afterNotes, List.mem_append] at hp
  rcases hp with hp | hp
  · exact h piece (by rw [value_eq]; exact List.mem_append_right _ hp)
  · rw [List.mem_singleton.mp hp]
    rfl

/-- A key is one token of the stream. -/
theorem stream_key {kind : TokenKind} {name : Text} (hword : Token.IsWord kind name)
    (marks : List Mark) (start : Position) (n : Nat) :
    stream marks start [gap (4 * (n + 1)), word name] =
      [ClassifiedToken.of marks.reverse ⟨(word name).kind, name, keyPlace n start⟩] := by
  rw [stream_cons_skip rfl, stream_cons (by rw [isSignificant_word hword]; rfl)]
  rfl

/-- Notes that nothing is marked in give their comment to the key before them. -/
theorem scan_notes {marks : List Mark} {start : Position} {notes : List Piece}
    (hnoted : AreNotes notes)
    (hmarks : ∀ mark ∈ marks, start.offset ≤ mark.offset →
      ¬mark.offset < (stop start notes).offset) (head : BlockHead) (key : Text)
    (rest : List ClassifiedToken) :
    PropertyComment.scan (some head) (some key) (stream marks start notes ++ rest) =
      ((notes.filter (·.kind.isComment)).map fun comment =>
        ⟨head.resourceName, head.instanceName, key, comment.text⟩) ++
        PropertyComment.scan (some head) (some key) rest := by
  rcases hnoted with rfl | ⟨comment, rfl, hcomment, hnext⟩
  · rfl
  · have hkind : (comment.kind.isSignificant || comment.kind.isComment) = true := by
      rw [hcomment, Bool.or_true]
    have hrole : (ClassifiedToken.of marks.reverse ⟨comment.kind, comment.text,
        start.advance (gap 1).text⟩).role = .comment := by
      rw [ClassifiedToken.role_of_unmarked]
      · cases hk : comment.kind <;> simp_all [TokenKind.isComment, TokenRole.ofKind]
      · intro mark hm (ho : mark.offset = (start.advance (gap 1).text).offset)
        have hlow := Position.offset_le_advance start (gap 1).text
        refine hmarks mark hm (by omega) ?_
        rw [ho]
        exact Position.offset_lt_advance _ (hnext []).text_ne_nil
    have hfilter : (note comment).filter (·.kind.isComment) = [comment] := by
      have hgap : (gap 1).kind.isComment = false := rfl
      simp [note, hcomment, hgap]
    rw [hfilter, note, stream_cons_skip rfl, stream_cons hkind, List.cons_append,
      PropertyComment.scan_comment hrole]
    rfl

/-- On a line the comment that its notes are is found behind its key. -/
theorem scan_line {marks : List Mark} {n width : Nat} {notes : Text → List Piece}
    {start : Position} {p : Text × Value} {after : Text}
    (hspells : Spells (line n width notes p) after) (hkey : IsKey p.1) (hnoted : AreNotes (notes p.1))
    (hcode : ∀ piece ∈ value n [] p.2, IsCode piece)
    (hsound : ∀ mark ∈ marks, start.offset ≤ mark.offset →
      mark.offset < (stop start (line n width notes p)).offset →
        mark.role = .identifier ∧ (mark.offset = (keyPlace n start).offset ∨
          (stop (valuePlace n width start p.1) (opening p.2 ++ notes p.1)).offset ≤ mark.offset))
    (hcomplete : ∃ mark ∈ marks, mark.offset = (keyPlace n start).offset) (head : BlockHead)
    (key : Option Text) (rest : List ClassifiedToken) :
    ∃ last, PropertyComment.scan (some head) key (stream marks start (line n width notes p) ++ rest) =
      commentsOf head notes [p] ++ PropertyComment.scan (some head) last rest := by
  obtain ⟨kind, hword⟩ := hkey.isWord
  obtain ⟨afterKey, hafterKey⟩ : ∃ q, stop start [gap (4 * (n + 1)), word p.1] = q := ⟨_, rfl⟩
  obtain ⟨beforeNote, hbeforeNote⟩ : ∃ q, stop afterKey (beforeNotes width p) = q := ⟨_, rfl⟩
  obtain ⟨afterNote, hafterNote⟩ : ∃ q, stop beforeNote (notes p.1) = q := ⟨_, rfl⟩
  have hopen : stop (valuePlace n width start p.1) (opening p.2 ++ notes p.1) = afterNote := by
    rw [stop_append, ← hafterNote, ← hbeforeNote, ← hafterKey]
    rfl
  have hend : stop start (line n width notes p) = stop afterNote (afterNotes n p.2) := by
    rw [line_eq, stop_append, stop_append, stop_append, hafterKey, hbeforeNote, hafterNote]
  have hkeyLt : (keyPlace n start).offset < afterKey.offset :=
    hafterKey ▸ Position.offset_lt_advance (keyPlace n start) hword.ne_nil
  have hstart : start.offset ≤ (keyPlace n start).offset := Position.offset_le_advance _ _
  have hle₁ : afterKey.offset ≤ beforeNote.offset := hbeforeNote ▸ offset_le_stop _ _
  have hle₂ : beforeNote.offset ≤ afterNote.offset := hafterNote ▸ offset_le_stop _ _
  have hle₃ : afterNote.offset ≤ (stop start (line n width notes p)).offset :=
    hend ▸ offset_le_stop _ _
  -- Between the key and the end of its notes nothing is marked.
  have hunmarked : ∀ mark ∈ marks, afterKey.offset ≤ mark.offset →
      ¬mark.offset < afterNote.offset := by
    intro mark hm hlow hhigh
    rcases (hsound mark hm (by omega) (by omega)).2 with ho | ho
    · omega
    · rw [hopen] at ho
      omega
  rw [line_eq] at hspells ⊢
  rw [spells_append, spells_append, spells_append] at hspells
  obtain ⟨-, hspellsBefore, -, hspellsAfter⟩ := hspells
  have hkeyRole : (ClassifiedToken.of marks.reverse
      ⟨(word p.1).kind, p.1, keyPlace n start⟩).role = .identifier := by
    refine ClassifiedToken.role_of_marked ?_ hcomplete
    intro mark hm (ho : mark.offset = (keyPlace n start).offset)
    exact (hsound mark hm (by omega) (by omega)).1
  have hquiet : ∀ u ∈ stream marks afterKey (beforeNotes width p), PropertyComment.IsQuiet u := by
    refine isQuiet_stream hspellsBefore (isCode_beforeNotes hcode width) ?_
    intro mark hm hlow hhigh
    rw [hbeforeNote] at hhigh
    exact hunmarked mark hm hlow (by omega)
  have hpassive : ∀ u ∈ stream marks afterNote (afterNotes n p.2), PropertyComment.IsPassive u := by
    refine isPassive_stream hspellsAfter (isCode_afterNotes hcode) ?_
    intro mark hm hlow hhigh
    exact (hsound mark hm (by omega) (by rw [hend]; exact hhigh)).1
  obtain ⟨last, hlast⟩ := PropertyComment.scan_passive hpassive (some head) (some p.1) rest
  refine ⟨last, ?_⟩
  rw [stream_append, stream_append, stream_append, hafterKey, hbeforeNote, hafterNote,
    stream_key hword, List.append_assoc, List.append_assoc, List.append_assoc,
    List.singleton_append, PropertyComment.scan_key hkeyRole, PropertyComment.scan_quiet hquiet,
    show (ClassifiedToken.of marks.reverse ⟨(word p.1).kind, p.1, keyPlace n start⟩).text = p.1
      from rfl,
    scan_notes hnoted fun mark hm hlow => by
      rw [hafterNote]
      exact hunmarked mark hm (Nat.le_trans hle₁ hlow),
    hlast, commentsOf, List.flatMap_cons, List.flatMap_nil, List.append_nil]

/-- **Along the lines of a block every comment is found behind its key.** -/
theorem scan_lines {marks : List Mark} {n width : Nat} {notes : Text → List Piece}
    {start : Position} {fields : List (Text × Value)} {after : Text}
    (hspells : Spells (lines n width notes fields) after) (hkeys : ∀ p ∈ fields, IsKey p.1)
    (hnoted : ∀ p ∈ fields, AreNotes (notes p.1))
    (hcode : ∀ p ∈ fields, ∀ piece ∈ value n [] p.2, IsCode piece)
    (hmarks : KeysMarked marks n width notes start fields) (head : BlockHead)
    (key : Option Text) (rest : List ClassifiedToken) :
    ∃ last, PropertyComment.scan (some head) key
        (stream marks start (lines n width notes fields) ++ rest) =
      commentsOf head notes fields ++ PropertyComment.scan (some head) last rest := by
  induction fields generalizing start key with
  | nil => exact ⟨key, rfl⟩
  | cons p more ih =>
    rw [lines_cons] at hspells ⊢
    rw [spells_append] at hspells
    have hend : (stop start (lines n width notes (p :: more))).offset =
        (stop (stop start (line n width notes p)) (lines n width notes more)).offset := by
      rw [lines_cons, stop_append]
    have hline : (stop start (line n width notes p)).offset ≤
        (stop (stop start (line n width notes p)) (lines n width notes more)).offset :=
      offset_le_stop _ _
    have hfirst : start.offset ≤ (stop start (line n width notes p)).offset := offset_le_stop _ _
    have hsound : ∀ mark ∈ marks, start.offset ≤ mark.offset →
        mark.offset < (stop start (line n width notes p)).offset →
          mark.role = .identifier ∧ (mark.offset = (keyPlace n start).offset ∨
            (stop (valuePlace n width start p.1) (opening p.2 ++ notes p.1)).offset ≤
              mark.offset) := by
      intro mark hm hlow hhigh
      obtain ⟨hrole, hmarkable⟩ := hmarks.sound mark hm hlow (by omega)
      refine ⟨hrole, ?_⟩
      rcases hmarkable with ho | ⟨ho, -⟩ | hlater
      · exact Or.inl ho
      · exact Or.inr ho
      · have := hlater.bounds.1
        omega
    obtain ⟨last, hlast⟩ := scan_line hspells.1 (hkeys p List.mem_cons_self)
      (hnoted p List.mem_cons_self) (hcode p List.mem_cons_self) hsound
      (hmarks.complete _ List.mem_cons_self) head key
      (stream marks (stop start (line n width notes p)) (lines n width notes more) ++ rest)
    have hmore : KeysMarked marks n width notes (stop start (line n width notes p)) more := by
      refine ⟨?_, fun offset ho => hmarks.complete offset (List.mem_cons_of_mem _ ho)⟩
      intro mark hm hlow hhigh
      obtain ⟨hrole, hmarkable⟩ := hmarks.sound mark hm (by omega) (by omega)
      refine ⟨hrole, ?_⟩
      have hvalue : (stop (valuePlace n width start p.1) (value n (notes p.1) p.2)).offset ≤
          (stop start (line n width notes p)).offset := by
        rw [line, stop_append, stop_append]
        exact Position.offset_le_advance _ _
      have hkey : (keyPlace n start).offset < (stop start (line n width notes p)).offset := by
        have hmarkable : Markable n width notes start [p] (keyPlace n start).offset := Or.inl rfl
        have := hmarkable.bounds.2
        rwa [lines_cons, lines, List.append_nil] at this
      rcases hmarkable with ho | ⟨-, ho⟩ | hlater
      · omega
      · omega
      · exact hlater
    obtain ⟨final, hfinal⟩ := ih hspells.2 (fun q hq => hkeys q (List.mem_cons_of_mem p hq))
      (fun q hq => hnoted q (List.mem_cons_of_mem p hq))
      (fun q hq => hcode q (List.mem_cons_of_mem p hq)) hmore last
    refine ⟨final, ?_⟩
    rw [stream_append, List.append_assoc, hlast, hfinal]
    simp [commentsOf]

/-! ### Comments of declarations

A scan starts over at the head of a declaration, where it also takes the name.  Behind
the head it is a scan along the lines of one block.
-/

/-- The name of a declaration is found behind its head. -/
theorem nameIn_declaration {name opener : ClassifiedToken} {t : Text}
    (hname : name.role = .stringLiteral) (htext : name.text = Render.quoted t)
    (hopener : opener.role = .punctuation) (hbrace : opener.text = ['\x7b'])
    (rest : List ClassifiedToken) :
    PropertyComment.nameIn (name :: opener :: rest) = t := by
  have hwritten : PropertyComment.textToBrace none (name :: opener :: rest) = Render.quoted t := by
    rw [PropertyComment.textToBrace, if_neg (by rw [hname]; intro h; cases h), htext, if_neg,
      PropertyComment.textToBrace, if_neg (by rw [hopener]; intro h; cases h), if_pos hbrace]
    · simp [Text.spaces]
    · intro h
      cases h
  rw [PropertyComment.nameIn, hwritten, Literal.string?_quoted]
  rfl

/-- The places of a declaration come one after another. -/
theorem declaration_places (n : Nat) (notes : Text → List Piece) (start : Position) (i : Instance) :
    start.offset ≤ (headPlace n start).offset ∧
      (headPlace n start).offset < (bodyPlace n start i).offset ∧
      (stop (bodyPlace n start i)
        (lines n (width i.properties.names) notes i.properties)).offset ≤
        (stop start (declaration n notes i)).offset := by
  refine ⟨Position.offset_le_advance _ _, ?_, ?_⟩
  · have : bodyPlace n start i = stop (headPlace n start) [word i.resourceName, gap 1,
        quoted i.instanceName, lineEnd, gap (4 * n), braceOpen, lineEnd] := rfl
    have hline : 0 < Text.size lineEnd.text := by decide
    rw [this, stop_offset]
    simp only [textOf_cons, Text.size_append]
    omega
  · rw [declaration_eq, stop_append, stop_append]
    exact offset_le_stop _ _

/-- Where a declaration stands, its head is marked as one, and otherwise its keys are. -/
structure DeclarationMarked (marks : List Mark) (n : Nat) (notes : Text → List Piece)
    (start : Position) (i : Instance) : Prop where
  sound : ∀ mark ∈ marks, start.offset ≤ mark.offset →
    mark.offset < (stop start (declaration n notes i)).offset →
      mark.offset = (headPlace n start).offset ∧ mark.role = .dynamicKeyword ∨
        mark.role = .identifier ∧ Markable n (width i.properties.names) notes (bodyPlace n start i)
          i.properties mark.offset
  head : ∃ mark ∈ marks, mark.offset = (headPlace n start).offset
  complete : ∀ offset ∈ keyOffsets n (width i.properties.names) notes (bodyPlace n start i)
    i.properties, ∃ mark ∈ marks, mark.offset = offset

/-- The comments of an instance. -/
def commentsOn (notes : Text → List Piece) (i : Instance) : List PropertyComment :=
  commentsOf ⟨i.resourceName, i.instanceName⟩ notes i.properties

section Declaration

variable {marks : List Mark} {n : Nat} {notes : Text → List Piece} {start : Position} {i : Instance}

namespace DeclarationMarked

theorem role_head (hmarks : DeclarationMarked marks n notes start i) (name : Text) :
    (ClassifiedToken.of marks.reverse ⟨.bareword, name, headPlace n start⟩).role =
      .dynamicKeyword := by
  obtain ⟨hstart, hhead, hend⟩ := declaration_places n notes start i
  have hlines := offset_le_stop (bodyPlace n start i)
    (lines n (width i.properties.names) notes i.properties)
  refine ClassifiedToken.role_of_marked ?_ hmarks.head
  intro mark hm (ho : mark.offset = (headPlace n start).offset)
  rcases hmarks.sound mark hm (by omega) (by omega) with ⟨-, hrole⟩ | ⟨-, hmarkable⟩
  · exact hrole
  · have := hmarkable.bounds.1
    omega

/-- Between the head and the lines nothing is marked. -/
theorem unmarked (hmarks : DeclarationMarked marks n notes start i) :
    ∀ mark ∈ marks, (headPlace n start).offset < mark.offset →
      ¬mark.offset < (bodyPlace n start i).offset := by
  obtain ⟨hstart, -, hend⟩ := declaration_places n notes start i
  have hlines := offset_le_stop (bodyPlace n start i)
    (lines n (width i.properties.names) notes i.properties)
  intro mark hm hlow hhigh
  rcases hmarks.sound mark hm (by omega) (by omega) with ⟨ho, -⟩ | ⟨-, hmarkable⟩
  · omega
  · have := hmarkable.bounds.1
    omega

theorem keysMarked (hmarks : DeclarationMarked marks n notes start i) :
    KeysMarked marks n (width i.properties.names) notes (bodyPlace n start i) i.properties := by
  obtain ⟨hstart, hhead, hend⟩ := declaration_places n notes start i
  refine ⟨?_, hmarks.complete⟩
  intro mark hm hlow hhigh
  rcases hmarks.sound mark hm (by omega) (by omega) with ⟨ho, -⟩ | hmarkable
  · omega
  · exact hmarkable

/-- Behind the lines nothing is marked. -/
theorem unmarked_behind (hmarks : DeclarationMarked marks n notes start i) :
    ∀ mark ∈ marks, (stop (bodyPlace n start i)
        (lines n (width i.properties.names) notes i.properties)).offset ≤ mark.offset →
      ¬mark.offset < (stop start (declaration n notes i)).offset := by
  obtain ⟨hstart, hhead, -⟩ := declaration_places n notes start i
  have hlines := offset_le_stop (bodyPlace n start i)
    (lines n (width i.properties.names) notes i.properties)
  intro mark hm hlow hhigh
  rcases hmarks.sound mark hm (by omega) hhigh with ⟨ho, -⟩ | ⟨-, hmarkable⟩
  · omega
  · have := hmarkable.bounds.2
    omega

end DeclarationMarked

/-- From the opening of a declaration its head and its name are taken, and no key. -/
theorem scan_declarationOpening (hresource : Token.IsWord .bareword i.resourceName)
    (hmarks : DeclarationMarked marks n notes start i) (head : Option BlockHead)
    (key : Option Text) (rest : List ClassifiedToken) :
    PropertyComment.scan head key (stream marks start (declarationOpening n i) ++ rest) =
      PropertyComment.scan (some ⟨i.resourceName, i.instanceName⟩) none rest := by
  obtain ⟨namePlace, hnamePlace⟩ : ∃ q, ((headPlace n start).advance i.resourceName).advance [' '] = q :=
    ⟨_, rfl⟩
  obtain ⟨openerPlace, hopenerPlace⟩ : ∃ q, stop start [gap (4 * n), word i.resourceName, gap 1,
      quoted i.instanceName, lineEnd, gap (4 * n)] = q := ⟨_, rfl⟩
  have hname : (headPlace n start).offset < namePlace.offset :=
    hnamePlace ▸ Nat.lt_of_lt_of_le (Position.offset_lt_advance _ hresource.ne_nil)
      (Position.offset_le_advance _ _)
  have hopener : namePlace.offset ≤ openerPlace.offset := by
    rw [← hnamePlace, ← hopenerPlace]
    exact offset_le_stop _ [quoted i.instanceName, lineEnd, gap (4 * n)]
  have hbody : openerPlace.offset < (bodyPlace n start i).offset := by
    have : bodyPlace n start i = (openerPlace.advance ['\x7b']).advance ['\n'] := by
      rw [← hopenerPlace]
      rfl
    rw [this]
    exact Nat.lt_of_lt_of_le (Position.offset_lt_advance _ (List.cons_ne_nil _ _))
      (Position.offset_le_advance _ _)
  have hnameRole : (ClassifiedToken.of marks.reverse
      ⟨.doubleQuoted, Render.quoted i.instanceName, namePlace⟩).role = .stringLiteral :=
    ClassifiedToken.role_of_unmarked fun mark hm (ho : mark.offset = namePlace.offset) =>
      hmarks.unmarked mark hm (by omega) (by omega)
  have hopenerRole : (ClassifiedToken.of marks.reverse
      ⟨.braceOpen, ['\x7b'], openerPlace⟩).role = .punctuation :=
    ClassifiedToken.role_of_unmarked fun mark hm (ho : mark.offset = openerPlace.offset) =>
      hmarks.unmarked mark hm (by omega) (by omega)
  have hopening : stream marks start (declarationOpening n i) =
      [ClassifiedToken.of marks.reverse ⟨.bareword, i.resourceName, headPlace n start⟩,
        ClassifiedToken.of marks.reverse ⟨.doubleQuoted, Render.quoted i.instanceName, namePlace⟩,
        ClassifiedToken.of marks.reverse ⟨.braceOpen, ['\x7b'], openerPlace⟩] := by
    rw [declarationOpening, stream_cons_skip rfl, stream_cons (by rw [word_eq hresource]; rfl),
      word_eq hresource, ← hnamePlace, ← hopenerPlace]
    rfl
  rw [hopening, List.cons_append, PropertyComment.scan_head (hmarks.role_head _), List.cons_append,
    List.cons_append, List.nil_append, nameIn_declaration hnameRole rfl hopenerRole rfl,
    PropertyComment.scan_other (PropertyComment.isQuiet_of_role hnameRole (by decide)),
    PropertyComment.scan_other (PropertyComment.isQuiet_of_role hopenerRole (by decide))]
  rfl

/-- **Along a declaration the comments of its instance are found.** -/
theorem scan_declaration {after : Text} (hresource : Token.IsWord .bareword i.resourceName)
    (hspells : Spells (declaration n notes i) after) (hkeys : ∀ p ∈ i.properties, IsKey p.1)
    (hnoted : ∀ p ∈ i.properties, AreNotes (notes p.1))
    (hcode : ∀ p ∈ i.properties, ∀ piece ∈ value n [] p.2, IsCode piece)
    (hmarks : DeclarationMarked marks n notes start i) (head : Option BlockHead)
    (key : Option Text) (rest : List ClassifiedToken) :
    ∃ head' last, PropertyComment.scan head key (stream marks start (declaration n notes i) ++ rest) =
      commentsOn notes i ++ PropertyComment.scan head' last rest := by
  obtain ⟨linesEnd, hlinesEnd⟩ : ∃ q, stop (bodyPlace n start i)
      (lines n (width i.properties.names) notes i.properties) = q := ⟨_, rfl⟩
  have hbehind := hmarks.unmarked_behind
  rw [declaration_eq, stop_append, stop_append, show stop start (declarationOpening n i) =
    bodyPlace n start i from rfl, hlinesEnd] at hbehind
  rw [declaration_eq, spells_append, spells_append] at hspells
  obtain ⟨-, hspellsLines, hspellsClosing⟩ := hspells
  have hclosing : ∀ u ∈ stream marks linesEnd [gap (4 * n), braceClose, lineEnd],
      PropertyComment.IsQuiet u := by
    refine isQuiet_stream hspellsClosing ?_ hbehind
    intro piece hp
    simp only [List.mem_cons, List.not_mem_nil, or_false] at hp
    rcases hp with rfl | rfl | rfl <;> rfl
  obtain ⟨last, hlast⟩ := scan_lines hspellsLines hkeys hnoted hcode hmarks.keysMarked
    ⟨i.resourceName, i.instanceName⟩ none
    (stream marks linesEnd [gap (4 * n), braceClose, lineEnd] ++ rest)
  refine ⟨some ⟨i.resourceName, i.instanceName⟩, last, ?_⟩
  rw [declaration_eq, stream_append, stream_append, show stop start (declarationOpening n i) =
    bodyPlace n start i from rfl, hlinesEnd, List.append_assoc, List.append_assoc,
    scan_declarationOpening hresource hmarks, hlast, PropertyComment.scan_quiet hclosing]
  rfl

end Declaration

variable {stated : Value → Statement → Prop} {n : Nat} {notes : Instance → Text → List Piece}

/-- The marks of a statement that declares an instance stand where the declaration does. -/
theorem bounds_of_isDeclared {notes : Text → List Piece} {start : Position} {i : Instance}
    {item : Item} {block : Block} (h : IsDeclared stated True n notes start i item block) :
    ∀ mark ∈ item.marks, start.offset ≤ mark.offset ∧
      mark.offset < (stop start (declaration n notes i)).offset := by
  obtain ⟨marks, hmarks, hlineMarks⟩ := h.marks trivial
  obtain ⟨hlow, hhigh, hlines⟩ := declaration_places n notes start i
  have hbody := offset_le_stop (bodyPlace n start i)
    (lines n (width i.properties.names) notes i.properties)
  intro mark hm
  rw [hmarks, List.mem_append, List.mem_singleton] at hm
  rcases hm with hm | rfl
  · have := (hlineMarks.sound mark hm).2.bounds
    omega
  · show start.offset ≤ (headPlace n start).offset ∧ (headPlace n start).offset < _
    omega

/-- The marks of statements that declare instances stand where the declarations do. -/
theorem bounds_of_areDeclared {start : Position} {instances : List Instance} {read : List Item}
    (h : AreDeclared stated True n notes start instances read) :
    ∀ mark ∈ read.flatMap (·.marks), start.offset ≤ mark.offset ∧
      mark.offset < (stop start (declarations n notes instances)).offset := by
  induction instances generalizing start read with
  | nil =>
    obtain rfl : read = [] := h
    exact fun _ hm => absurd hm List.not_mem_nil
  | cons i instances ih =>
    obtain ⟨item, block, more, rfl, hitem, hmore⟩ := h
    have hend : (stop start (declarations n notes (i :: instances))).offset =
        (stop (stop start (declaration n (notes i) (laidOut i)))
          (declarations n notes instances)).offset := by
      rw [declarations_cons, stop_append]
    have hfirst : start.offset ≤ (stop start (declaration n (notes i) (laidOut i))).offset :=
      offset_le_stop _ _
    have hrest : (stop start (declaration n (notes i) (laidOut i))).offset ≤
        (stop (stop start (declaration n (notes i) (laidOut i)))
          (declarations n notes instances)).offset := offset_le_stop _ _
    intro mark hm
    rw [List.flatMap_cons, List.mem_append] at hm
    rcases hm with hm | hm
    · have := bounds_of_isDeclared hitem mark hm
      omega
    · have := ih hmore mark hm
      omega

/-- **Along declarations the comments of their instances are found.** -/
theorem scan_declarations {marks : List Mark} {start : Position} {instances : List Instance}
    {read : List Item} {after : Text}
    (h : AreDeclared stated True n notes start instances read)
    (hspells : Spells (declarations n notes instances) after)
    (hresources : ∀ i ∈ instances, Token.IsWord .bareword i.resourceName)
    (hkeys : ∀ i ∈ instances, ∀ p ∈ (laidOut i).properties, IsKey p.1)
    (hnoted : ∀ i ∈ instances, ∀ p ∈ (laidOut i).properties, AreNotes (notes i p.1))
    (hcode : ∀ i ∈ instances, ∀ p ∈ (laidOut i).properties, ∀ piece ∈ value n [] p.2, IsCode piece)
    (hsound : ∀ mark ∈ marks, start.offset ≤ mark.offset →
      mark.offset < (stop start (declarations n notes instances)).offset →
        mark ∈ read.flatMap (·.marks))
    (hcomplete : ∀ mark ∈ read.flatMap (·.marks), mark ∈ marks) (head : Option BlockHead)
    (key : Option Text) (rest : List ClassifiedToken) :
    ∃ head' last, PropertyComment.scan head key
        (stream marks start (declarations n notes instances) ++ rest) =
      (instances.flatMap fun i => commentsOn (notes i) (laidOut i)) ++
        PropertyComment.scan head' last rest := by
  induction instances generalizing start read head key with
  | nil => exact ⟨head, key, rfl⟩
  | cons i instances ih =>
    obtain ⟨item, block, more, rfl, hitem, hmore⟩ := h
    obtain ⟨lineMarks, hitemMarks, hlines⟩ := hitem.marks trivial
    have hlater := bounds_of_areDeclared hmore
    have hend : (stop start (declarations n notes (i :: instances))).offset =
        (stop (stop start (declaration n (notes i) (laidOut i)))
          (declarations n notes instances)).offset := by
      rw [declarations_cons, stop_append]
    have hfirst : start.offset ≤ (stop start (declaration n (notes i) (laidOut i))).offset :=
      offset_le_stop _ _
    have hrest : (stop start (declaration n (notes i) (laidOut i))).offset ≤
        (stop (stop start (declaration n (notes i) (laidOut i)))
          (declarations n notes instances)).offset := offset_le_stop _ _
    have hmarked : DeclarationMarked marks n (notes i) start (laidOut i) := by
      refine ⟨?_, ?_, ?_⟩
      · intro mark hm hlow hhigh
        have hmem := hsound mark hm hlow (by omega)
        rw [List.flatMap_cons, hitemMarks, List.mem_append, List.mem_append,
          List.mem_singleton] at hmem
        rcases hmem with (hmem | rfl) | hmem
        · exact Or.inr (hlines.sound mark hmem)
        · exact Or.inl ⟨rfl, rfl⟩
        · have := hlater mark hmem
          omega
      · refine ⟨⟨(headPlace n start).offset, .dynamicKeyword⟩, hcomplete _ ?_, rfl⟩
        rw [List.flatMap_cons, hitemMarks]
        simp
      · intro offset ho
        obtain ⟨mark, hm, he⟩ := hlines.complete offset ho
        refine ⟨mark, hcomplete _ ?_, he⟩
        rw [List.flatMap_cons, hitemMarks]
        simp [hm]
    rw [declarations_cons, spells_append] at hspells
    have hmem := List.mem_cons_self (a := i) (l := instances)
    obtain ⟨head', last, hscan⟩ := scan_declaration (i := laidOut i) (hresources i hmem) hspells.1
      (hkeys i hmem) (hnoted i hmem) (hcode i hmem) hmarked head key
      (stream marks (stop start (declaration n (notes i) (laidOut i)))
        (declarations n notes instances) ++ rest)
    obtain ⟨head'', last', hscan'⟩ := ih hmore hspells.2
      (fun j hj => hresources j (List.mem_cons_of_mem i hj))
      (fun j hj => hkeys j (List.mem_cons_of_mem i hj))
      (fun j hj => hnoted j (List.mem_cons_of_mem i hj))
      (fun j hj => hcode j (List.mem_cons_of_mem i hj))
      (by
        intro mark hm hlow hhigh
        have hmem := hsound mark hm (by omega) (by omega)
        rw [List.flatMap_cons, List.mem_append] at hmem
        rcases hmem with hmem | hmem
        · have := bounds_of_isDeclared hitem mark hmem
          omega
        · exact hmem)
      (fun mark hm => hcomplete mark (by simp [hm])) head' last
    refine ⟨head'', last', ?_⟩
    rw [declarations_cons, stream_append, List.append_assoc, hscan, hscan', List.flatMap_cons,
      List.append_assoc]

/-- Behind the node keyword of a document its target and a brace come first. -/
theorem fromNode_documentOpening (rest : List ClassifiedToken) :
    PropertyComment.fromNode (stream [] .start documentOpening ++ rest) =
      (stream [] .start documentOpening).drop 4 ++ rest := by
  obtain ⟨t₀, t₁, t₂, t₃, t₄, t₅, htokens⟩ : ∃ t₀ t₁ t₂ t₃ t₄ t₅,
      stream [] .start documentOpening = [t₀, t₁, t₂, t₃, t₄, t₅] := ⟨_, _, _, _, _, _, rfl⟩
  have hnodes : (stream [] .start documentOpening).map PropertyComment.isNodeKeyword =
      [false, false, false, true, false, false] := by
    decide +kernel
  rw [htokens] at hnodes ⊢
  simp only [List.map_cons, List.map_nil, List.cons.injEq, and_true] at hnodes
  simp [PropertyComment.fromNode, hnodes]

/-- **In the stream of a document all the comments are found.** -/
theorem ofTokens_document {marks : List Mark} {instances : List Instance} {read : List Item}
    (h : AreDeclared stated True n notes blocksPlace instances read)
    (hmarks : marks = read.flatMap (·.marks))
    (hspells : ∀ rest, Spells (declarations n notes instances) rest)
    (hresources : ∀ i ∈ instances, Token.IsWord .bareword i.resourceName)
    (hkeys : ∀ i ∈ instances, ∀ p ∈ (laidOut i).properties, IsKey p.1)
    (hnoted : ∀ i ∈ instances, ∀ p ∈ (laidOut i).properties, AreNotes (notes i p.1))
    (hcode : ∀ i ∈ instances, ∀ p ∈ (laidOut i).properties,
      ∀ piece ∈ value n [] p.2, IsCode piece) :
    PropertyComment.ofTokens (stream marks .start (document (declarations n notes instances))) =
      instances.flatMap fun i => commentsOn (notes i) (laidOut i) := by
  have hbounds := bounds_of_areDeclared h
  rw [← hmarks] at hbounds
  have hopening : stream marks .start documentOpening = stream [] .start documentOpening := by
    refine stream_of_unmarked (spells_documentOpening []) ?_
    intro mark hm _ hhigh
    have : mark.offset < blocksPlace.offset := hhigh
    have := hbounds mark hm
    omega
  have hclosing : ∀ u ∈ stream marks (stop blocksPlace (declarations n notes instances))
      documentClosing, PropertyComment.IsQuiet u := by
    refine isQuiet_stream (spells_documentClosing []) ?_ ?_
    · unfold IsCode
      decide
    · intro mark hm hlow _
      have := hbounds mark hm
      omega
  obtain ⟨head, last, hscan⟩ := scan_declarations h (hspells []) hresources hkeys hnoted hcode
    (fun mark hm _ _ => hmarks ▸ hm) (fun mark hm => hmarks ▸ hm) none none
    (stream marks (stop blocksPlace (declarations n notes instances)) documentClosing)
  rw [document, stream_append, stream_append, hopening, show stop .start documentOpening =
    blocksPlace from rfl, PropertyComment.ofTokens, fromNode_documentOpening,
    PropertyComment.scan_quiet, hscan]
  · have := PropertyComment.scan_quiet hclosing head last []
    rw [List.append_nil] at this
    rw [this]
    exact List.append_nil _
  · intro u hu
    have hkinds : ∀ t ∈ (stream [] .start documentOpening).drop 4,
        t.role ∉ [TokenRole.comment, .dynamicKeyword, .identifier] := by decide +kernel
    exact PropertyComment.isQuiet_of_role rfl (hkinds u hu)

end Layout

end DesiredState
