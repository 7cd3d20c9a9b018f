/-
Counting lines back.

A place is found again from its line and column by passing as many line feeds as lines have
ended before it.  Lines also end at a carriage return by itself, and each of those lets the
search go one line feed too far.  So the place is found if there is none in front of it; and if
there is one, only if its own line starts behind a line feed and no line feed is left for the
search to go on to.
-/
import DesiredState.Proofs.Places

namespace DesiredState

namespace Text

/-! ### The last line of a text -/

/-- No line ends within a text. -/
def IsUnbroken (t : Text) : Prop := '\n' ∉ t ∧ '\r' ∉ t

theorem IsUnbroken.returnsPaired {t : Text} (h : t.IsUnbroken) : t.ReturnsPaired := by
  induction t with
  | nil => trivial
  | cons c rest ih =>
    have hc : c ≠ '\r' := fun he => h.2 (he ▸ List.mem_cons_self)
    exact ⟨fun he => absurd he hc, ih ⟨fun hm => h.1 (List.mem_cons_of_mem c hm),
      fun hm => h.2 (List.mem_cons_of_mem c hm)⟩⟩

/-- A text is unbroken, or what is behind its last line break is. -/
theorem exists_lastBreak (t : Text) : t.IsUnbroken ∨ ∃ front mark row, t = front ++ mark :: row ∧
    (mark = '\n' ∨ mark = '\r') ∧ IsUnbroken row := by
  induction t with
  | nil => exact .inl ⟨List.not_mem_nil, List.not_mem_nil⟩
  | cons c rest ih =>
    obtain hrest | ⟨front, mark, row, rfl, hmark, hrow⟩ := ih
    · by_cases hc : c = '\n' ∨ c = '\r'
      · exact .inr ⟨[], c, rest, rfl, hc, hrest⟩
      · rw [not_or] at hc
        exact .inl ⟨List.not_mem_cons_of_ne_of_not_mem (Ne.symm hc.1) hrest.1,
          List.not_mem_cons_of_ne_of_not_mem (Ne.symm hc.2) hrest.2⟩
    · exact .inr ⟨c :: front, mark, row, rfl, hmark, hrow⟩

/-- The last line of a text starts behind a line feed. -/
def EndsBehindFeed (t : Text) : Prop := ∃ front row, t = front ++ '\n' :: row ∧ IsUnbroken row

/-- The last line of a text does not start twice. -/
theorem not_endsBehindFeed (front : Text) {row : Text} (hrow : row.IsUnbroken) :
    ¬ EndsBehindFeed (front ++ '\r' :: row) := by
  rintro ⟨front', row', heq, hrow'⟩
  obtain ⟨between, -, hbetween⟩ | ⟨between, -, hbetween⟩ := List.append_eq_append_iff.mp heq
  · cases between with
    | nil => cases hbetween
    | cons c between =>
      obtain ⟨-, rfl⟩ := List.cons.inj hbetween
      exact hrow.1 (List.mem_append_right _ List.mem_cons_self)
  · cases between with
    | nil => cases hbetween
    | cons c between =>
      obtain ⟨-, rfl⟩ := List.cons.inj hbetween
      exact hrow'.2 (List.mem_append_right _ List.mem_cons_self)

/-- An offset of a text is found again from its line and column: no carriage return stands by itself
before it, or else its line starts behind a line feed and no line feed comes after it. -/
def CountsBack (source : Text) (offset : Nat) : Prop :=
  (source.takeUnits offset).ReturnsPaired ∨
    ('\n' ∉ source.dropUnits offset ∧ (source.takeUnits offset).EndsBehindFeed)

end Text

namespace Position

/-! ### Reading -/

theorem advance_unbroken (p : Position) {t : Text} (h : t.IsUnbroken) :
    (p.advance t).column = p.column + t.size := by
  refine advance_column p ?_
  rw [advance_line_eq, List.count_eq_zero.mpr h.1, Text.returnsPaired_iff.mp h.returnsPaired]
  rfl

/-- Behind a line break a line starts. -/
theorem advance_break_column (p : Position) {mark : Char} (hmark : mark = '\n' ∨ mark = '\r')
    (front : Text) : (p.advance (front ++ [mark])).column = 1 := by
  by_cases hkeeps : Text.KeepsBreaks front [mark]
  · rw [advance_append p hkeeps]
    obtain rfl | rfl := hmark <;> rfl
  · -- The line feed belongs to the carriage return in front of it.
    obtain ⟨hlast, hfeed⟩ := Classical.not_imp.mp hkeeps
    obtain ⟨init, rfl⟩ := List.getLast?_eq_some_iff.mp hlast
    obtain rfl : mark = '\n' := Option.some.inj (Classical.not_not.mp hfeed)
    rw [List.append_assoc, advance_append p fun _ => by decide]
    rfl

theorem advance_lastLine (p : Position) {mark : Char} (hmark : mark = '\n' ∨ mark = '\r')
    (front : Text) {row : Text} (hrow : row.IsUnbroken) :
    (p.advance (front ++ mark :: row)).column = row.size + 1 := by
  have hkeeps : Text.KeepsBreaks (front ++ [mark]) row := fun _ hfeed =>
    hrow.1 (List.mem_of_head? hfeed)
  rw [List.append_cons, advance_append p hkeeps, advance_unbroken _ hrow,
    advance_break_column p hmark, Nat.add_comm]

/-! ### Searching -/

/-- The search through a text that has at least as many line feeds goes on behind it. -/
theorem lineOffset_append (offset line n : Nat) (s t : Text) :
    lineOffset (s.count '\n' + n) offset line (s ++ t) =
      lineOffset n (offset + s.size) (lineOffset (s.count '\n') offset line s) t := by
  induction s generalizing offset line with
  | nil => rw [List.count_nil, Nat.zero_add, lineOffset_zero]; rfl
  | cons c s ih =>
    by_cases hc : c = '\n'
    · subst hc
      rw [List.count_cons_self, Nat.add_right_comm, List.cons_append, lineOffset_lineFeed,
        lineOffset_lineFeed, ih, Text.size_cons, Nat.add_assoc]
      rfl
    · rw [List.count_cons_of_ne hc, List.cons_append, lineOffset_cons hc, lineOffset_cons hc, ih,
        Text.size_cons, Nat.add_assoc]

theorem lineOffset_of_not_mem {t : Text} (h : '\n' ∉ t) (offset line n : Nat) :
    lineOffset n offset line t = line := by
  induction t generalizing offset with
  | nil => rfl
  | cons c t ih =>
    have hc : c ≠ '\n' := fun he => h (he ▸ List.mem_cons_self)
    rw [lineOffset_cons hc, ih fun hm => h (List.mem_cons_of_mem c hm)]

/-- A line starts no later than where the text ends, and no earlier than the line before. -/
theorem lineOffset_bounds {offset line : Nat} (h : line ≤ offset) (n : Nat) (t : Text) :
    line ≤ lineOffset n offset line t ∧ lineOffset n offset line t ≤ offset + t.size := by
  induction t generalizing offset line n with
  | nil => exact ⟨Nat.le_refl _, h⟩
  | cons c t ih =>
    rw [Text.size_cons]
    by_cases hc : c = '\n'
    · subst hc
      cases n with
      | zero => rw [lineOffset_zero]; omega
      | succ n =>
        have := ih (Nat.le_refl (offset + 1)) n
        rw [lineOffset_lineFeed, show Text.width '\n' = 1 from rfl]
        omega
    · have := ih (Nat.le_trans h (Nat.le_add_right offset (Text.width c))) n
      rw [lineOffset_cons hc]
      omega

/-- The search goes on if there is a line feed to go on to. -/
theorem lt_lineOffset {t : Text} (h : '\n' ∈ t) (offset line n : Nat) :
    offset < lineOffset (n + 1) offset line t := by
  induction t generalizing offset with
  | nil => cases h
  | cons c t ih =>
    by_cases hc : c = '\n'
    · subst hc
      rw [lineOffset_lineFeed]
      exact (lineOffset_bounds (Nat.le_refl _) n t).1
    · have hrest : '\n' ∈ t := (List.mem_cons.mp h).resolve_left (Ne.symm hc)
      rw [lineOffset_cons hc]
      exact Nat.lt_of_le_of_lt (Nat.le_add_right _ _) (ih hrest _)

/-- **A place is found again from its line and column if and only if** no carriage return stands by
itself before it, or else its line starts behind a line feed and no line feed comes after it. -/
theorem offsetIn_advance_iff (before rest : Text) :
    (start.advance before).toLocation.offsetIn (before ++ rest) = before.size ↔
      before.ReturnsPaired ∨ ('\n' ∉ rest ∧ before.EndsBehindFeed) := by
  by_cases hpaired : before.ReturnsPaired
  · exact iff_of_true (offsetIn_advance rest hpaired) (.inl hpaired)
  obtain hunbroken | ⟨front, mark, row, rfl, hmark, hrow⟩ := before.exists_lastBreak
  · exact absurd hunbroken.returnsPaired hpaired
  -- At least one line more has ended than there are line feeds.
  obtain ⟨n, hlone⟩ := Nat.exists_eq_succ_of_ne_zero (mt Text.returnsPaired_iff.mpr hpaired)
  have hline : (start.advance (front ++ mark :: row)).line - 1 =
      (front ++ mark :: row).count '\n' + (n + 1) := by
    rw [advance_line_eq, hlone, show start.line = 1 from rfl]
    omega
  have hsize : Text.size (front ++ mark :: row) = Text.size front + 1 + Text.size row := by
    rw [Text.size_append, Text.size_cons, ← Nat.add_assoc]
    obtain rfl | rfl := hmark <;> rfl
  have hfront := lineOffset_bounds (Nat.le_refl 0) (front.count '\n') front
  rw [Location.offsetIn, hline, lineOffset_append, advance_lastLine start hmark front hrow,
    or_iff_right hpaired]
  by_cases hfeed : '\n' ∈ rest
  · have := lt_lineOffset hfeed (0 + Text.size (front ++ mark :: row))
      (lineOffset ((front ++ mark :: row).count '\n') 0 0 (front ++ mark :: row)) n
    exact iff_of_false (by omega) fun h => h.1 hfeed
  rw [lineOffset_of_not_mem hfeed]
  obtain rfl | rfl := hmark
  · have hfound : lineOffset ((front ++ '\n' :: row).count '\n') 0 0 (front ++ '\n' :: row) =
        Text.size front + 1 := by
      rw [List.count_append, lineOffset_append, List.count_cons_self, lineOffset_lineFeed,
        lineOffset_of_not_mem hrow.1, Nat.zero_add]
    exact iff_of_true (by omega) ⟨hfeed, front, row, rfl, hrow⟩
  · have hfound : lineOffset ((front ++ '\r' :: row).count '\n') 0 0 (front ++ '\r' :: row) =
        lineOffset (front.count '\n') 0 0 front := by
      rw [List.count_append, lineOffset_append, List.count_cons_of_ne (by decide),
        List.count_eq_zero.mpr hrow.1, lineOffset_zero]
    exact iff_of_false (by omega) fun h => Text.not_endsBehindFeed front hrow h.2

end Position

end DesiredState
