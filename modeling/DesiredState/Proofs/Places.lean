/-
Places in a text that stands within another one.

A stretch of a text that starts a line has the lines and columns of the stretch by
itself, so many lines further down, and its offsets are those of the stretch, so many
units further on.  What is cut out of the stretch by offsets is cut out of the text by
the moved ones.  Going back from lines and columns to offsets is safe where every
carriage return is followed by a line feed, since only line feeds are counted then.
-/
import DesiredState.Proofs.Position

namespace DesiredState

/-! ### Cutting by offsets -/

namespace Text

theorem dropUnits_size_add_append (front t : Text) (n : Nat) :
    dropUnits (size front + n) (front ++ t) = dropUnits n t := by
  induction front with
  | nil => rw [size_nil, Nat.zero_add, List.nil_append]
  | cons c front ih =>
    have hc := width_pos c
    rw [List.cons_append, dropUnits, size_cons, if_neg (by omega), if_pos (by omega),
      show width c + size front + n - width c = size front + n by omega, ih]

theorem dropUnits_append (t behind : Text) {n : Nat} (h : n ≤ t.size) :
    dropUnits n (t ++ behind) = dropUnits n t ++ behind := by
  induction t generalizing n with
  | nil =>
    obtain rfl : n = 0 := Nat.le_zero.mp h
    simp
  | cons c t ih =>
    rw [List.cons_append, dropUnits, dropUnits]
    split
    · rfl
    · split
      · exact ih (by rw [size_cons] at h; omega)
      · rfl

theorem takeUnits_append (t behind : Text) {n : Nat} (h : n ≤ t.size) :
    takeUnits n (t ++ behind) = takeUnits n t := by
  induction t generalizing n with
  | nil =>
    obtain rfl : n = 0 := Nat.le_zero.mp h
    simp
  | cons c t ih =>
    rw [List.cons_append, takeUnits, takeUnits]
    split
    · rfl
    · split
      · rw [ih (by rw [size_cons] at h; omega)]
      · rfl

theorem width_le (c : Char) : width c ≤ 2 := by
  unfold width
  split <;> omega

theorem size_dropUnits (t : Text) {n : Nat} (h : n ≤ t.size) :
    (dropUnits n t).size = t.size - n := by
  induction t generalizing n with
  | nil => rw [dropUnits, size_nil, Nat.zero_sub]
  | cons c t ih =>
    rw [dropUnits]
    split
    · next hn => rw [hn, Nat.sub_zero]
    · split
      · rw [ih (by rw [size_cons] at h; omega), size_cons]
        omega
      · -- The cut goes through a surrogate pair, of which one unit is left.
        have hc := width_le c
        rw [size_cons, size_cons, show width replacement = 1 from rfl]
        omega

theorem size_takeUnits (t : Text) {n : Nat} (h : n ≤ t.size) : (takeUnits n t).size = n := by
  induction t generalizing n with
  | nil => exact (Nat.le_zero.mp h).symm
  | cons c t ih =>
    rw [takeUnits]
    split
    · next hn => rw [hn, size_nil]
    · split
      · rw [size_cons, ih (by rw [size_cons] at h; omega)]
        omega
      · have hc := width_le c
        rw [size_cons, size_nil, show width replacement = 1 from rfl]
        omega

theorem slice_eq_nil (t : Text) {a b : Nat} (h : b ≤ a) : t.slice a b = [] := by
  rw [slice, Nat.sub_eq_zero_of_le h, takeUnits_zero]

theorem size_slice (t : Text) {a b : Nat} (h : b ≤ t.size) : (t.slice a b).size = b - a := by
  rcases Nat.le_total b a with hab | hab
  · rw [slice_eq_nil t hab, size_nil, Nat.sub_eq_zero_of_le hab]
  · rw [slice, size_takeUnits]
    rw [size_dropUnits t (Nat.le_trans hab h)]
    omega

/-- What is cut out of a stretch of a text. -/
theorem slice_stretch (front t behind : Text) {a b : Nat} (h : b ≤ t.size) :
    (front ++ t ++ behind).slice (front.size + a) (front.size + b) = t.slice a b := by
  rcases Nat.le_total b a with hab | hab
  · rw [slice_eq_nil _ hab, slice_eq_nil _ (Nat.add_le_add_left hab _)]
  · have ha := Nat.le_trans hab h
    rw [slice, slice, Nat.add_sub_add_left, List.append_assoc, dropUnits_size_add_append,
      dropUnits_append t behind ha, takeUnits_append]
    rw [size_dropUnits t ha]
    omega

/-! ### Carriage returns

A carriage return ends a line by itself, and together with a line feed it ends one line
and not two.  Texts can be read one after the other unless such a pair is torn apart.
-/

/-- No line break is torn apart between two texts: no carriage return ends the first where a line
feed starts the second. -/
def KeepsBreaks (s t : Text) : Prop := s.getLast? = some '\r' → t.head? ≠ some '\n'

theorem KeepsBreaks.left {s t u : Text} (h : s.KeepsBreaks (t ++ u)) : s.KeepsBreaks t :=
  fun hlast hfeed => h hlast (by rw [List.head?_append, hfeed, Option.some_or])

/-- Every carriage return is followed by a line feed. -/
def ReturnsPaired : Text → Prop
  | [] => True
  | c :: rest => (c = '\r' → rest.head? = some '\n') ∧ ReturnsPaired rest

instance ReturnsPaired.decide : (t : Text) → Decidable (ReturnsPaired t)
  | [] => isTrue trivial
  | c :: rest =>
    have := ReturnsPaired.decide rest
    inferInstanceAs (Decidable ((c = '\r' → rest.head? = some '\n') ∧ ReturnsPaired rest))

/-- How many carriage returns have no line feed behind them. -/
def loneReturns : Text → Nat
  | [] => 0
  | c :: rest =>
    if c = '\r' ∧ rest.head? ≠ some '\n' then loneReturns rest + 1 else loneReturns rest

theorem returnsPaired_iff {t : Text} : t.ReturnsPaired ↔ t.loneReturns = 0 := by
  induction t with
  | nil => exact iff_of_true trivial rfl
  | cons c rest ih =>
    rw [ReturnsPaired, loneReturns, ih]
    by_cases h : c = '\r' ∧ rest.head? ≠ some '\n'
    · rw [if_pos h]
      exact iff_of_false (fun hall => h.2 (hall.1 h.1)) (Nat.succ_ne_zero _)
    · rw [if_neg h]
      exact and_iff_right fun hc => Classical.not_not.mp fun hn => h ⟨hc, hn⟩

namespace ReturnsPaired

theorem right {s t : Text} (h : ReturnsPaired (s ++ t)) : ReturnsPaired t := by
  induction s with
  | nil => exact h
  | cons c s ih => exact ih h.2

theorem left {s t : Text} (h : ReturnsPaired (s ++ t)) (hs : s.getLast? ≠ some '\r') :
    ReturnsPaired s := by
  induction s with
  | nil => trivial
  | cons c s ih =>
    cases s with
    | nil => exact ⟨fun hc => absurd (by rw [hc]; rfl) hs, trivial⟩
    | cons d s => exact ⟨h.1, ih h.2 (by rwa [List.getLast?_cons_cons] at hs)⟩

theorem append {s t : Text} (hs : ReturnsPaired s) (ht : ReturnsPaired t) :
    ReturnsPaired (s ++ t) := by
  induction s with
  | nil => exact ht
  | cons c s ih =>
    refine ⟨fun hc => ?_, ih hs.2⟩
    cases s with
    | nil => exact absurd (hs.1 hc) (by simp)
    | cons d s => exact hs.1 hc

/-- A text in which carriage returns are paired does not end in one. -/
theorem getLast?_ne {t : Text} (h : ReturnsPaired t) : t.getLast? ≠ some '\r' := by
  induction t with
  | nil => simp
  | cons c t ih =>
    cases t with
    | nil =>
      intro hc
      have := h.1 (by simpa using hc)
      simp at this
    | cons d t =>
      rw [List.getLast?_cons_cons]
      exact ih h.2

/-- What comes after a carriage return. -/
theorem head?_after {s t : Text} (h : ReturnsPaired (s ++ t)) (hs : s.getLast? = some '\r') :
    t.head? = some '\n' := by
  obtain ⟨init, rfl⟩ := List.getLast?_eq_some_iff.mp hs
  rw [List.append_assoc] at h
  exact h.right.1 rfl

end ReturnsPaired

end Text

/-! ### Moving places

Columns start again with each line.  A place in a stretch that starts a line is
therefore moved down by lines alone, and its offset by what stands before the stretch.
-/

/-- A place so many lines further down. -/
def Location.down (lines : Nat) (l : Location) : Location := ⟨l.line + lines, l.column⟩

namespace Position

/-- A place so many lines further down and so many units further on. -/
def shift (lines units : Nat) (p : Position) : Position :=
  ⟨p.toLocation.down lines, p.offset + units⟩

/-- Reading from a moved place leads to the moved place. -/
theorem shift_advance (lines units : Nat) (p : Position) (t : Text) :
    (p.shift lines units).advance t = (p.advance t).shift lines units := by
  have hline (p : Position) (n : Nat) :
      (p.shift lines units).newLine n = (p.newLine n).shift lines units := by
    simp only [shift, newLine, Location.down, Nat.add_right_comm]
  fun_induction advance p t with
  | case1 p => rfl
  | case2 p rest ih => rw [advance, hline, ih]
  | case3 p rest h ih => rw [advance.eq_3 _ rest h, hline, ih]
  | case4 p rest ih => rw [advance, hline, ih]
  | case5 p c rest h₁ h₂ h₃ ih =>
    rw [advance.eq_5 _ c rest h₁ h₂ h₃, ← ih]
    simp only [shift, Location.down]
    rw [Nat.add_right_comm]

/-- Two texts may be read one after the other if no line break is torn apart between them. -/
theorem advance_append (p : Position) {s t : Text} (h : s.KeepsBreaks t) :
    p.advance (s ++ t) = (p.advance s).advance t := by
  fun_induction advance p s with
  | case1 p => rfl
  | case2 p rest ih =>
    rw [List.cons_append, List.cons_append, advance]
    refine ih fun hr => h ?_
    rw [List.getLast?_cons_cons, List.getLast?_cons, hr]
    rfl
  | case3 p rest hn ih =>
    cases rest with
    | nil =>
      rw [List.singleton_append, advance.eq_3 p t]
      · rfl
      · intro more hmore
        exact h rfl (by rw [hmore]; rfl)
    | cons d more =>
      rw [List.cons_append, advance.eq_3 p _ fun after ha => hn more (by
        rw [List.cons_append] at ha
        rw [(List.cons.inj ha).1])]
      exact ih fun hr => h (by rwa [List.getLast?_cons_cons])
  | case4 p rest ih =>
    rw [List.cons_append, advance]
    refine ih fun hr => h ?_
    rw [List.getLast?_cons, hr]
    rfl
  | case5 p c rest h₁ h₂ h₃ ih =>
    rw [List.cons_append, advance.eq_5 p c (rest ++ t) (fun r hc _ => h₂ hc) h₂ h₃]
    refine ih fun hr => h ?_
    rw [List.getLast?_cons, hr]
    rfl

/-- A text may be read by itself if it does not end between a carriage return and its line feed. -/
theorem advance_append_of_getLast? (p : Position) {s : Text} (t : Text)
    (h : s.getLast? ≠ some '\r') : p.advance (s ++ t) = (p.advance s).advance t :=
  advance_append p fun hr => absurd hr h

/-- Lines end at line feeds and at carriage returns by themselves. -/
theorem advance_line_eq (p : Position) (t : Text) :
    (p.advance t).line = p.line + t.count '\n' + t.loneReturns := by
  fun_induction advance p t with
  | case1 p => rfl
  | case2 p rest ih =>
    rw [ih, newLine_line, List.count_cons_of_ne (by decide), List.count_cons_self,
      Text.loneReturns, Text.loneReturns, if_neg (by simp), if_neg (by simp)]
    omega
  | case3 p rest hn ih =>
    have hlone : rest.head? ≠ some '\n' := fun hhead => by
      obtain ⟨more, hmore⟩ := List.head?_eq_some_iff.mp hhead
      exact hn more hmore
    rw [ih, newLine_line, List.count_cons_of_ne (by decide), Text.loneReturns,
      if_pos ⟨rfl, hlone⟩]
    omega
  | case4 p rest ih =>
    rw [ih, newLine_line, List.count_cons_self, Text.loneReturns, if_neg (by simp)]
    omega
  | case5 p c rest _ hr hn ih =>
    rw [ih, List.count_cons_of_ne hn, Text.loneReturns, if_neg fun h => hr h.1]

/-- Where carriage returns are paired, lines are counted by their line feeds. -/
theorem advance_line (p : Position) {t : Text} (h : t.ReturnsPaired) :
    (p.advance t).line = p.line + t.count '\n' := by
  rw [advance_line_eq, Text.returnsPaired_iff.mp h, Nat.add_zero]

/-- A line feed leads to the start of the next line. -/
theorem advance_lineFeed (p : Position) {t : Text} (h : t.ReturnsPaired) :
    p.advance (t ++ ['\n']) = ⟨⟨p.line + t.count '\n' + 1, 1⟩, p.offset + t.size + 1⟩ := by
  rw [advance_append_of_getLast? p _ h.getLast?_ne]
  simp only [advance, newLine, advance_line p h, advance_offset]

theorem lineOffset_zero (offset line : Nat) (t : Text) : lineOffset 0 offset line t = line := by
  cases t <;> rfl

theorem lineOffset_cons {c : Char} (hc : c ≠ '\n') (n offset line : Nat) (t : Text) :
    lineOffset n offset line (c :: t) = lineOffset n (offset + Text.width c) line t := by
  cases n with
  | zero => rw [lineOffset_zero, lineOffset_zero]
  | succ n => rw [lineOffset, if_neg (Nat.succ_ne_zero n), if_neg hc]

theorem lineOffset_lineFeed (n offset line : Nat) (t : Text) :
    lineOffset (n + 1) offset line ('\n' :: t) = lineOffset n (offset + 1) (offset + 1) t := by
  rw [lineOffset, if_neg (Nat.succ_ne_zero n), if_pos rfl, Nat.add_sub_cancel]

/-- After a text has been read, its line feeds lead to the start of the line that has been
reached. -/
theorem lineOffset_advance (p : Position) {s : Text} (t : Text) (h : s.ReturnsPaired)
    (start : Nat) (hp : start + p.column = p.offset + 1) :
    lineOffset (s.count '\n') p.offset start (s ++ t) + (p.advance s).column =
      (p.advance s).offset + 1 := by
  fun_induction advance p s generalizing start with
  | case1 p => rw [List.count_nil, lineOffset_zero, hp]
  | case2 p rest ih =>
    have hr : '\r' ≠ '\n' := by decide
    rw [List.count_cons_of_ne hr, List.count_cons_self, List.cons_append, List.cons_append,
      lineOffset_cons hr, lineOffset_lineFeed]
    exact ih h.2.2 _ rfl
  | case3 p rest hn _ =>
    obtain ⟨more, hmore⟩ := List.head?_eq_some_iff.mp (h.1 rfl)
    exact absurd hmore (hn more)
  | case4 p rest ih =>
    rw [List.count_cons_self, List.cons_append, lineOffset_lineFeed]
    exact ih h.2 _ rfl
  | case5 p c rest _ _ hc ih =>
    rw [List.count_cons_of_ne hc, List.cons_append, lineOffset_cons hc]
    refine ih h.2 _ ?_
    simp only
    omega

/-- The offset of a place that has been reached is found again by its line and column. -/
theorem offsetIn_advance {s : Text} (t : Text) (h : s.ReturnsPaired) :
    (Position.start.advance s).toLocation.offsetIn (s ++ t) = s.size := by
  have hline := advance_line Position.start h
  have hoffset := lineOffset_advance Position.start t h 0 rfl
  rw [Location.offsetIn, hline, show Position.start.line = 1 from rfl, Nat.add_sub_cancel_left]
  rw [advance_offset] at hoffset
  change lineOffset _ 0 0 _ + _ = 0 + s.size + 1 at hoffset
  omega

end Position

end DesiredState
