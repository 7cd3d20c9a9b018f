/-
How positions move.

Reading a text moves the offset by the size of the text and the line by the number of
its line breaks, wherever it starts.  So the same text, read from two places, keeps
its lines and offsets up to one shift, and that is all the grammar ever looks at.
-/
import DesiredState.Source

namespace DesiredState.Position

@[simp] theorem newLine_line (p : Position) (n : Nat) : (p.newLine n).line = p.line + 1 := rfl

@[simp] theorem newLine_offset (p : Position) (n : Nat) :
    (p.newLine n).offset = p.offset + n := rfl

/-- The offset moves by the size of the text. -/
theorem advance_offset (p : Position) (t : Text) :
    (p.advance t).offset = p.offset + t.size := by
  have hr : Text.width '\r' = 1 := rfl
  have hn : Text.width '\n' = 1 := rfl
  fun_induction advance p t with
  | case1 p => simp
  | case2 p rest ih => simp only [ih, newLine_offset, Text.size_cons, hr, hn]; omega
  | case3 p rest _ ih => simp only [ih, newLine_offset, Text.size_cons, hr]; omega
  | case4 p rest ih => simp only [ih, newLine_offset, Text.size_cons, hn]; omega
  | case5 p c rest _ _ _ ih => simp only [ih, Text.size_cons]; omega

/-- From two places the same text moves the line by the same number. -/
theorem advance_line_add (p q : Position) (t : Text) :
    (p.advance t).line + q.line = (q.advance t).line + p.line := by
  fun_induction advance p t generalizing q with
  | case1 p => exact Nat.add_comm _ _
  | case2 p rest ih =>
    have := ih (q.newLine 2)
    simp only [advance, newLine_line] at this ⊢
    omega
  | case3 p rest h ih =>
    have := ih (q.newLine 1)
    rw [advance.eq_3 q rest h]
    simp only [newLine_line] at this ⊢
    omega
  | case4 p rest ih =>
    have := ih (q.newLine 1)
    simp only [advance, newLine_line] at this ⊢
    omega
  | case5 p c rest h₁ h₂ h₃ ih =>
    have := ih ⟨⟨q.line, q.column + Text.width c⟩, q.offset + Text.width c⟩
    rw [advance.eq_5 q c rest h₁ h₂ h₃]
    exact this

theorem line_le_advance (p : Position) (t : Text) : p.line ≤ (p.advance t).line := by
  fun_induction advance p t with
  | case1 p => exact Nat.le_refl _
  | case2 p rest ih => simp only [newLine_line] at ih; omega
  | case3 p rest _ ih => simp only [newLine_line] at ih; omega
  | case4 p rest ih => simp only [newLine_line] at ih; omega
  | case5 p c rest _ _ _ ih => exact ih

theorem offset_le_advance (p : Position) (t : Text) : p.offset ≤ (p.advance t).offset := by
  rw [advance_offset]
  exact Nat.le_add_right _ _

/-- A text that is not empty leads to a later offset. -/
theorem offset_lt_advance (p : Position) {t : Text} (h : t ≠ []) :
    p.offset < (p.advance t).offset := by
  rw [advance_offset]
  exact Nat.lt_add_of_pos_right (Text.size_pos h)

/-- A line feed leads to a later line. -/
theorem line_lt_advance (p : Position) {t : Text} (h : '\n' ∈ t) : p.line < (p.advance t).line := by
  fun_induction advance p t with
  | case1 p => simp at h
  | case2 p rest _ =>
    have := line_le_advance (p.newLine 2) rest
    simp only [newLine_line] at this ⊢
    omega
  | case3 p rest _ _ =>
    have := line_le_advance (p.newLine 1) rest
    simp only [newLine_line] at this ⊢
    omega
  | case4 p rest _ =>
    have := line_le_advance (p.newLine 1) rest
    simp only [newLine_line] at this ⊢
    omega
  | case5 p c rest _ _ hc ih =>
    refine ih ?_
    rcases List.mem_cons.mp h with h | h
    · exact absurd h.symm hc
    · exact h

/-- On the same line the column moves by the size of the text. -/
theorem advance_column (p : Position) {t : Text} (h : (p.advance t).line = p.line) :
    (p.advance t).column = p.column + t.size := by
  fun_induction advance p t with
  | case1 p => rfl
  | case2 p rest _ =>
    have := line_le_advance (p.newLine 2) rest
    simp only [newLine_line] at this
    omega
  | case3 p rest _ _ =>
    have := line_le_advance (p.newLine 1) rest
    simp only [newLine_line] at this
    omega
  | case4 p rest _ =>
    have := line_le_advance (p.newLine 1) rest
    simp only [newLine_line] at this
    omega
  | case5 p c rest _ _ _ ih =>
    rw [ih h, Text.size_cons]
    exact Nat.add_assoc _ _ _

/-- A text that is not empty leads to another place. -/
theorem advance_ne (p : Position) {t : Text} (h : t ≠ []) :
    (p.advance t).toLocation ≠ p.toLocation := by
  intro hsame
  have hcolumn := advance_column p (congrArg Location.line hsame)
  rw [congrArg Location.column hsame] at hcolumn
  have := Text.size_pos h
  omega

end DesiredState.Position
