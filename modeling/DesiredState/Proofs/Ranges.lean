/-
What ranges show.

A range names a line of the source and two characters on it.  The line is one of those that
line feeds break the source into, and a place counts the lines in front of it and the
characters in front of it on its own line.  So the range of an extent, which is made of the
place and the text of the extent alone, shows the first line of that text wherever the text
stands in the source.
-/
import DesiredState.Proofs.Token.Coverage

namespace DesiredState

/-- What a range shows of a source: so many characters of one of its lines. -/
def Text.shown? (source : Text) (r : Range) : Option Text :=
  source.lines[r.startLine]?.map fun line => line.slice r.startCharacter r.endCharacter

/-- An extent is cut out of a source: its text comes behind the text that leads to its place, and
neither of the two ends in a carriage return. -/
def Extent.IsExcerpt (source : Text) (e : Extent) : Prop :=
  ∃ before after, source = before ++ e.text ++ after ∧
    e.location = (Position.start.advance before).toLocation ∧
    before.getLast? ≠ some '\r' ∧ e.text.getLast? ≠ some '\r'

namespace Text

/-! ### Lines

Rows are told by line feeds and lines by either line break.  Where carriage returns are
paired the two are the same, but for the carriage return at the end of a row.
-/

/-- A character that breaks no line stands at the start of the first one. -/
theorem lines_cons {c : Char} {t : Text} (hr : c = '\r' → t.head? ≠ some '\n') (hn : c ≠ '\n') :
    lines (c :: t) = (c :: t.firstLine) :: t.lines.tail := by
  rw [lines.eq_4 c t ?_ hn, lines_eq t]
  · rfl
  · rintro rest hc rfl
    exact hr hc rfl

theorem firstLine_cons {c : Char} {t : Text} (hr : c = '\r' → t.head? ≠ some '\n')
    (hn : c ≠ '\n') : firstLine (c :: t) = c :: t.firstLine := by
  rw [firstLine.eq_4 c t ?_ hn]
  rintro rest hc rfl
  exact hr hc rfl

/-- What comes behind a text goes on with its last line. -/
theorem lines_append {s : Text} (h : s.ReturnsPaired) (t : Text) :
    ∃ front last, s.lines = front ++ [last] ∧
      (s ++ t).lines = front ++ (last ++ t.firstLine) :: t.lines.tail := by
  fun_induction lines s with
  | case1 => exact ⟨[], [], rfl, lines_eq t⟩
  | case2 rest ih =>
    obtain ⟨front, last, hrest, hmore⟩ := ih h.2.2
    exact ⟨[] :: front, last, congrArg _ hrest, congrArg ([] :: ·) hmore⟩
  | case3 rest ih =>
    obtain ⟨front, last, hrest, hmore⟩ := ih h.2
    exact ⟨[] :: front, last, congrArg _ hrest, congrArg ([] :: ·) hmore⟩
  | case4 c rest hr hn heq => exact absurd heq (by rw [lines_eq]; exact List.cons_ne_nil _ _)
  | case5 c rest hr hn line more heq ih =>
    -- A carriage return would have its line feed in the text already.
    have hc : c ≠ '\r' := by
      intro hc
      obtain ⟨behind, hbehind⟩ := List.head?_eq_some_iff.mp (h.1 hc)
      exact hr behind hc hbehind
    have hcons := lines_cons (t := rest ++ t) (fun hreturn => absurd hreturn hc) hn
    have hfirst := lines_eq (rest ++ t)
    obtain ⟨front, last, hrest, hmore⟩ := ih h.2
    rw [heq] at hrest
    rw [hmore] at hfirst hcons
    cases front with
    | nil =>
      obtain ⟨rfl, rfl⟩ := List.cons.inj hrest
      refine ⟨[], c :: line, rfl, hcons.trans ?_⟩
      rw [← (List.cons.inj hfirst).1]
      rfl
    | cons first front =>
      obtain ⟨rfl, rfl⟩ := List.cons.inj hrest
      refine ⟨(c :: line) :: front, last, rfl, hcons.trans ?_⟩
      rw [← (List.cons.inj hfirst).1]
      rfl

/-- The first line of a text goes on if the text does. -/
theorem firstLine_append {s t : Text} (h : s.KeepsBreaks t) :
    ∃ more, (s ++ t).firstLine = s.firstLine ++ more := by
  fun_induction firstLine s with
  | case1 => exact ⟨t.firstLine, rfl⟩
  | case2 => exact ⟨[], rfl⟩
  | case3 => exact ⟨[], rfl⟩
  | case4 c rest hr hn ih =>
    have hkeeps : KeepsBreaks rest t := by
      intro hlast
      refine h ?_
      cases rest with
      | nil => cases hlast
      | cons d rest => rwa [List.getLast?_cons_cons]
    obtain ⟨more, hmore⟩ := ih hkeeps
    refine ⟨more, ?_⟩
    rw [List.cons_append, firstLine_cons ?_ hn, hmore, List.cons_append]
    intro hc hfeed
    cases rest with
    | nil => exact h (congrArg some hc) hfeed
    | cons d rest =>
      cases hfeed
      exact hr rest hc rfl

/-- Where carriage returns are paired, line feeds break the rows. -/
theorem rows_eq_lines {t : Text} (h : t.ReturnsPaired) : t.rows = t.lines := by
  fun_induction rows t with
  | case1 => rfl
  | case2 rest ih => rw [lines, ih h.2.2]
  | case3 rest hr ih =>
    obtain ⟨behind, hbehind⟩ := List.head?_eq_some_iff.mp (h.1 rfl)
    exact absurd hbehind (hr behind)
  | case4 rest ih => rw [lines, ih h.2]
  | case5 c rest h₁ hr hn heq => exact absurd heq (rows_ne_nil rest)
  | case6 c rest h₁ hr hn row more heq ih =>
    rw [lines.eq_4 c rest h₁ hn, ← ih h.2, heq]

end Text

/-- **The range of an extent shows the first line of its text**, and starts and ends on one line. -/
theorem Extent.IsExcerpt.shown? {source : Text} (hpaired : source.ReturnsPaired) {e : Extent}
    (h : e.IsExcerpt source) :
    e.range.startLine = e.range.endLine ∧ source.shown? e.range = some e.text.firstLine := by
  obtain ⟨before, after, rfl, hlocation, hbefore, htext⟩ := h
  refine ⟨rfl, ?_⟩
  rw [List.append_assoc] at hpaired
  have hreturns : before.ReturnsPaired := hpaired.left hbefore
  obtain ⟨front, last, hfront, hlines⟩ := Text.lines_append hreturns (e.text ++ after)
  obtain ⟨more, hmore⟩ := @Text.firstLine_append e.text after fun hr => absurd hr htext
  have hplace : e.location = ⟨front.length + 1, last.size + 1⟩ := by
    rw [hlocation, Position.advance_start, Location.after, Text.rows_eq_lines hreturns, hfront,
      List.length_append, List.getLast?_concat]
    rfl
  have hline : (before ++ e.text ++ after).lines[front.length]? =
      some (last ++ e.text.firstLine ++ more) := by
    rw [List.append_assoc, hlines, List.getElem?_append_right (Nat.le_refl _), Nat.sub_self, hmore,
      List.append_assoc]
    rfl
  unfold Text.shown? Extent.range
  rw [hplace]
  simp only [Nat.add_sub_cancel, hline, Option.map_some]
  rw [Text.slice_append]

end DesiredState
