/-
Space before lines.

A block consists of whole lines, and space before them goes before each.  A value starts in
the middle of a line and does not end one, so the space goes into it after its line feeds
only.  Where a block is put into a value its first space is taken away, and a comment may
be added to its first line; neither makes a difference to the space before the others.
-/
import DesiredState.Proofs.Layout.Rendered
import DesiredState.Proofs.Rendering.Lined

namespace DesiredState

namespace Text

/-! ### Space before lines

Whether a text starts a line is not known of the text alone.  So it is handed in, and
handed on from each text to the one that follows it.
-/

/-- A text with space before each of its lines: before what comes first, if that starts a line, and
before what comes after a line feed. -/
def indentFrom (n : Nat) : (startsLine : Bool) → Text → Text
  | _, [] => []
  | startsLine, c :: rest =>
    (if startsLine then spaces n else []) ++ c :: indentFrom n (c == '\n') rest

/-- Lines with space before each of them. -/
def indentLines (n : Nat) (t : Text) : Text := indentFrom n true t

example : indentLines 2 "a\n b\n" = "  a\n   b\n" := by decide

/-- Whether what comes after a text starts a line. -/
def endsLine : (startsLine : Bool) → Text → Bool
  | startsLine, [] => startsLine
  | _, c :: rest => endsLine (c == '\n') rest

theorem indentFrom_append (n : Nat) (startsLine : Bool) (s t : Text) :
    indentFrom n startsLine (s ++ t) =
      indentFrom n startsLine s ++ indentFrom n (endsLine startsLine s) t := by
  induction s generalizing startsLine with
  | nil => rfl
  | cons c s ih =>
    rw [List.cons_append, indentFrom, indentFrom, endsLine, ih, List.append_assoc, List.cons_append]

theorem endsLine_append (startsLine : Bool) (s t : Text) :
    endsLine startsLine (s ++ t) = endsLine (endsLine startsLine s) t := by
  induction s generalizing startsLine with
  | nil => rfl
  | cons c s ih => exact ih (c == '\n')

/-- What starts a line gets the space before it. -/
theorem indentFrom_true (n : Nat) {t : Text} (h : t ≠ []) :
    indentFrom n true t = spaces n ++ indentFrom n false t := by
  cases t with
  | nil => exact absurd rfl h
  | cons c rest => rfl

/-- Within a line there is no space to be put. -/
theorem indentFrom_line (n : Nat) {t : Text} (h : IsLine t) : indentFrom n false t = t := by
  induction t with
  | nil => rfl
  | cons c rest ih =>
    obtain ⟨hc, hrest⟩ := isLine_cons.mp h
    rw [indentFrom, if_neg Bool.false_ne_true, beq_eq_false_iff_ne.mpr hc.symm, ih hrest,
      List.nil_append]

theorem endsLine_line {t : Text} (h : IsLine t) : endsLine false t = false := by
  induction t with
  | nil => rfl
  | cons c rest ih =>
    obtain ⟨hc, hrest⟩ := isLine_cons.mp h
    rw [endsLine, beq_eq_false_iff_ne.mpr hc.symm, ih hrest]

/-- A text within a line, and the lines that follow it. -/
theorem indentFrom_line_append (n : Nat) {s : Text} (h : IsLine s) (t : Text) :
    indentFrom n false (s ++ t) = s ++ indentFrom n false t := by
  rw [indentFrom_append, indentFrom_line n h, endsLine_line h]

theorem spaces_add (m n : Nat) : spaces (m + n) = spaces m ++ spaces n :=
  List.replicate_append_replicate.symm

/-- A text that ends a line, and the lines that follow it. -/
theorem indentLines_append (n : Nat) {s : Text} (h : endsLine true s = true) (t : Text) :
    indentLines n (s ++ t) = indentLines n s ++ indentLines n t := by
  rw [indentLines, indentFrom_append, h]
  rfl

/-- One line. -/
theorem indentLines_line (n : Nat) {s : Text} (h : IsLine s) :
    indentLines n (s ++ ['\n']) = spaces n ++ (s ++ ['\n']) := by
  have hnonempty : s ++ ['\n'] ≠ [] :=
    List.append_ne_nil_of_right_ne_nil s (List.cons_ne_nil '\n' [])
  rw [indentLines, indentFrom_true n hnonempty, indentFrom_line_append n h]
  rfl

theorem endsLine_lineFeed (startsLine : Bool) (s : Text) :
    endsLine startsLine (s ++ ['\n']) = true := by
  rw [endsLine_append]
  rfl

end Text

namespace Render

open Text

variable {n : Nat}

/-! ### Parts of the layout -/

/-- The text of a value: it does not end a line. -/
def IsInline (t : Text) : Prop := endsLine false t = false

/-- The text of blocks or properties: nothing, or whole lines. -/
def IsLines (t : Text) : Prop := endsLine true t = true

/-- A text that starts with something on its first line. -/
def Opens (t : Text) : Prop :=
  ∃ blanks c rest, t = blanks ++ c :: rest ∧ IsLine blanks ∧ (∀ b ∈ blanks, isBlank b) ∧
    isBlank c = false

/-- The text of a block: lines, the first of them not blank and the last one with a brace. -/
def IsBlock (t : Text) : Prop := ∃ front, t = front ++ ['\x7d', '\n'] ∧ Opens front

theorem IsBlock.isLines {t : Text} (h : IsBlock t) : IsLines t := by
  obtain ⟨front, rfl, -⟩ := h
  rw [IsLines, endsLine_append]
  rfl

/-- A line opens with a character after it, if not before. -/
theorem opens_of_line {s : Text} (h : IsLine s) {c : Char} (hc : isBlank c = false) (rest : Text) :
    Opens (s ++ c :: rest) := by
  induction s with
  | nil => exact ⟨[], c, rest, rfl, isLine_nil, fun b hb => absurd hb List.not_mem_nil, hc⟩
  | cons b s ih =>
    obtain ⟨hfeed, hs⟩ := isLine_cons.mp h
    cases hb : isBlank b with
    | false =>
      exact ⟨[], b, s ++ c :: rest, rfl, isLine_nil, fun b hb => absurd hb List.not_mem_nil, hb⟩
    | true =>
      obtain ⟨blanks, d, after, heq, hline, hblanks, hd⟩ := ih hs
      refine ⟨b :: blanks, d, after, ?_, isLine_cons.mpr ⟨hfeed, hline⟩,
        List.forall_mem_cons.mpr ⟨hb, hblanks⟩, hd⟩
      rw [List.cons_append, heq, List.cons_append]

theorem Opens.append {s : Text} (h : Opens s) (t : Text) : Opens (s ++ t) := by
  obtain ⟨blanks, c, rest, rfl, h⟩ := h
  exact ⟨blanks, c, rest ++ t, by rw [List.append_assoc, List.cons_append], h⟩

/-- A block within a value starts with its head, and ends with its brace. -/
theorem inline_eq {blanks rest : Text} (hblanks : ∀ b ∈ blanks, isBlank b) {c : Char}
    (hc : isBlank c = false) : inline (blanks ++ c :: (rest ++ ['\n'])) = c :: rest := by
  have htrim : trimStart (blanks ++ c :: (rest ++ ['\n'])) = (c :: rest) ++ ['\n'] := by
    rw [trimStart, List.dropWhile_append_of_pos hblanks, List.dropWhile_cons, hc]
    rfl
  have hdrop : dropTail? ['\n'] ((c :: rest) ++ ['\n']) = some (c :: rest) := by
    rw [dropTail?, List.reverse_append, dropHead?_append, Option.map_some, List.reverse_reverse]
  unfold inline
  dsimp only
  rw [htrim, hdrop, Option.getD_some]

/-- Where a block is put into a value, the space before its first line goes. -/
theorem inline_indentLines {t : Text} (h : IsBlock t) :
    inline (indentLines n t) = indentFrom n false (inline t) ∧ IsInline (inline t) := by
  obtain ⟨front, rfl, blanks, c, rest, rfl, hline, hblanks, hc⟩ := h
  have hspaces : ∀ b ∈ spaces n ++ blanks, isBlank b := by
    intro b hb
    rcases List.mem_append.mp hb with hb | hb
    · rw [List.eq_of_mem_replicate hb]
      rfl
    · exact hblanks b hb
  have hfirst (s : Text) : indentFrom n false (c :: s) = c :: indentFrom n false s := by
    refine indentFrom_line_append n (isLine_cons.mpr ⟨fun he => ?_, isLine_nil⟩) s
    rw [← he] at hc
    exact absurd hc (by decide)
  have hsplit : blanks ++ c :: rest ++ ['\x7d', '\n'] =
      blanks ++ c :: ((rest ++ ['\x7d']) ++ ['\n']) := by
    rw [List.append_assoc, List.cons_append, List.append_assoc]
    rfl
  have hends (startsLine : Bool) : endsLine startsLine (rest ++ ['\x7d']) = false := by
    rw [endsLine_append]
    rfl
  have hindented : indentLines n (blanks ++ c :: ((rest ++ ['\x7d']) ++ ['\n'])) =
      (spaces n ++ blanks) ++ c :: (indentFrom n false (rest ++ ['\x7d']) ++ ['\n']) := by
    have hnonempty : blanks ++ c :: ((rest ++ ['\x7d']) ++ ['\n']) ≠ [] :=
      List.append_ne_nil_of_right_ne_nil blanks (List.cons_ne_nil c _)
    rw [indentLines, indentFrom_true n hnonempty, indentFrom_line_append n hline, hfirst,
      indentFrom_append, hends, List.append_assoc]
    rfl
  rw [hsplit, inline_eq hblanks hc, hindented, inline_eq hspaces hc, hfirst]
  exact ⟨rfl, hends (c == '\n')⟩

/-- Something on one line that follows a value. -/
theorem indentFrom_inline_append {t more : Text} (ht : IsInline t) (h : IsLine more) :
    indentFrom n false (t ++ more) = indentFrom n false t ++ more ∧ IsInline (t ++ more) := by
  rw [indentFrom_append, IsInline, endsLine_append, ht, indentFrom_line n h]
  exact ⟨rfl, endsLine_line h⟩

/-- Something on one line that is added to the first line of a value. -/
theorem addToFirst_indentFrom {more : Text} (h : IsLine more) (t : Text) :
    addToFirst more (indentFrom n false t) = indentFrom n false (addToFirst more t) ∧
      endsLine false (addToFirst more t) = endsLine false t := by
  by_cases ht : IsLine t
  · have hall : IsLine (t ++ more) := isLine_append.mpr ⟨ht, h⟩
    rw [indentFrom_line n ht, Layout.addToFirst_all more ht, indentFrom_line n hall,
      endsLine_line ht, endsLine_line hall]
    exact ⟨rfl, rfl⟩
  · obtain ⟨line, rest, rfl, hline⟩ := List.eq_append_cons_of_mem (Decidable.not_not.mp ht)
    have hall : IsLine (line ++ more) := isLine_append.mpr ⟨hline, h⟩
    have hfeed (s : Text) : indentFrom n false ('\n' :: s) = '\n' :: indentFrom n true s := rfl
    rw [indentFrom_line_append n hline, hfeed, Layout.addToFirst_append more hline,
      Layout.addToFirst_append more hline, indentFrom_line_append n hall, hfeed,
      endsLine_append _ line, endsLine_append _ (line ++ more), endsLine_line hline,
      endsLine_line hall]
    exact ⟨rfl, rfl⟩

/-! ### Shifted outputs -/

/-- An output and what it is with space put into it: the same failure, or a text of a shape. -/
inductive Shifts (n : Nat) (startsLine : Bool) (P : Text → Prop) : Output → Output → Prop where
  | error (e : RenderFailure) : Shifts n startsLine P (.error e) (.error e)
  | ok {t : Text} (h : P t) : Shifts n startsLine P (.ok t) (.ok (indentFrom n startsLine t))

variable {startsLine startsLine' : Bool} {P Q : Text → Prop} {out out' : Output}

theorem Shifts.eq_map (h : Shifts n startsLine P out out') :
    out' = out.map (indentFrom n startsLine) := by
  cases h <;> rfl

theorem Shifts.of_eq {t t' : Text} (h : P t) (ht : t' = indentFrom n startsLine t) :
    Shifts n startsLine P (.ok t) (.ok t') := ht ▸ .ok h

theorem Shifts.mono (h : Shifts n startsLine P out out') (hPQ : ∀ t, P t → Q t) :
    Shifts n startsLine Q out out' := by
  cases h with
  | error e => exact .error e
  | ok ht => exact .ok (hPQ _ ht)

theorem Shifts.bind (h : Shifts n startsLine P out out') {next next' : Text → Output}
    (hnext : ∀ t, P t → Shifts n startsLine' Q (next t) (next' (indentFrom n startsLine t))) :
    Shifts n startsLine' Q (out >>= next) (out' >>= next') := by
  cases h with
  | error e => exact .error e
  | ok ht => exact hnext _ ht

theorem Shifts.map (h : Shifts n startsLine P out out') {f f' : Text → Text}
    (hf : ∀ t, P t → Q (f t) ∧ f' (indentFrom n startsLine t) = indentFrom n startsLine' (f t)) :
    Shifts n startsLine' Q (out.map f) (out'.map f') := by
  cases h with
  | error e => exact .error e
  | ok ht => exact .of_eq (hf _ ht).1 (hf _ ht).2

/-- An output on one line that is the same in both places. -/
theorem Yields.shifts (h : Yields IsLine out) : Shifts n false IsInline out out := by
  cases out with
  | error e => exact .error e
  | ok t => exact .of_eq (endsLine_line (h t rfl)) (indentFrom_line n (h t rfl)).symm

theorem Yields.bind_shifts {α : Type} {R : α → Prop} {out : Except RenderFailure α}
    (h : Yields R out) {next next' : α → Output}
    (hnext : ∀ a, R a → Shifts n startsLine P (next a) (next' a)) :
    Shifts n startsLine P (out >>= next) (out >>= next') := by
  cases out with
  | error e => exact .error e
  | ok a => exact hnext a (h a rfl)

theorem Yields.map_shifts {α : Type} {R : α → Prop} {out : Except RenderFailure α}
    (h : Yields R out) {f f' : α → Text}
    (hf : ∀ a, R a → P (f a) ∧ f' a = indentFrom n startsLine (f a)) :
    Shifts n startsLine P (out.map f) (out.map f') := by
  cases out with
  | error e => exact .error e
  | ok a => exact .of_eq (hf a (h a rfl)).1 (hf a (h a rfl)).2

/-- Lines and the lines that follow them. -/
theorem Shifts.append {next next' : Output} (h : Shifts n true IsLines out out')
    (hnext : Shifts n true IsLines next next') :
    Shifts n true IsLines (do let s ← out; let t ← next; .ok (s ++ t))
      (do let s ← out'; let t ← next'; .ok (s ++ t)) := by
  refine h.bind fun s hs => hnext.bind fun t ht => .of_eq ?_ (indentLines_append n hs t).symm
  rw [IsLines, endsLine_append, hs]
  exact ht

end Render

end DesiredState
