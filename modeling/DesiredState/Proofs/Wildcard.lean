/-
What a wildcard pattern matches.

A pattern matches a text that can be cut into pieces, one for each unit of the pattern: a run
for a star, one unit for a question mark, and for any other unit that unit in either case.
The way there leads through the text of a regular expression.  It reads back as one term for
each unit of the pattern, since exactly the characters that would not be taken for themselves
stand behind a backslash in it.
-/
import DesiredState.Text.Wildcard
import Mathlib.Data.List.Forall2

namespace DesiredState

/-! ### The text of an expression

A pattern is turned into a text and the text is read again as an expression.  Whatever a
unit of the pattern is, the text has one term for it.
-/

namespace RegularExpression

/-- A point without a star behind it. -/
theorem terms?_any {rest : Text} (h : rest.head? ≠ some '*') :
    terms? ('.' :: rest) = (terms? rest).map (.any :: ·) := by
  refine terms?.eq_4 rest ?_
  rintro more rfl
  exact h rfl

theorem terms?_escaped {c : Char} (h : isSpecial c) (rest : Text) :
    terms? ('\\' :: c :: rest) = (terms? rest).map (literal c ++ ·) := by
  rw [terms?, if_pos h]

/-- A character without a meaning of its own. -/
theorem terms?_literal {c : Char} (h : isSpecial c = false) (rest : Text) :
    terms? (c :: rest) = (terms? rest).map (literal c ++ ·) := by
  have hne {special : Char} (hspecial : isSpecial special) : c ≠ special := by
    rintro rfl
    rw [h] at hspecial
    cases hspecial
  rw [terms?.eq_6 c rest (fun he _ => hne rfl he) (fun _ he _ => hne rfl he) (hne rfl)
    (fun _ _ he _ => hne rfl he), if_neg (by rw [h]; exact Bool.false_ne_true)]

end RegularExpression

namespace Wildcard

/-- A unit of a pattern stands for a piece of a text. -/
def StandsFor (mark : Nat) (piece : List Nat) : Prop :=
  if mark = '*'.toNat then ∀ unit ∈ piece, RegularExpression.endsLine unit = false
  else if mark = '?'.toNat then ∃ unit, piece = [unit] ∧ RegularExpression.endsLine unit = false
  else ∃ unit, piece = [unit] ∧ Text.foldUnit mark = Text.foldUnit unit

/-- A pattern matches a text that can be cut into pieces for which its units stand. -/
def Matches (pattern text : Text) : Prop :=
  ∃ pieces, List.Forall₂ StandsFor (Text.units pattern) pieces ∧ pieces.flatten = Text.units text

/-- The term of an expression for a unit of a pattern. -/
def termOf (mark : Nat) : RegularExpression.Term :=
  if mark = '*'.toNat then .run else if mark = '?'.toNat then .any else .unit mark

/-- What is escaped has a meaning of its own in an expression; so has nothing else but the star and
the question mark. -/
theorem isSpecial_eq {c : Char} (hstar : c ≠ '*') (hmark : c ≠ '?') :
    RegularExpression.isSpecial c = escaped.contains c := by
  rw [Bool.eq_iff_iff]
  simp only [RegularExpression.isSpecial, escaped, List.contains_eq_mem, List.mem_cons,
    List.not_mem_nil, decide_eq_true_eq, hstar, hmark, false_or, or_false]
  tauto

/-- The units of a character that is no star and no question mark stand for themselves. -/
theorem map_termOf_unitsOf {c : Char} (hstar : c ≠ '*') (hmark : c ≠ '?') :
    (Text.unitsOf c).map termOf = RegularExpression.literal c := by
  have hsmall {special : Char} (hne : c ≠ special) : c.toNat ≠ special.toNat := fun he =>
    hne (Char.toNat_inj.mp he)
  have hterm {unit : Nat} (hs : unit ≠ '*'.toNat) (hm : unit ≠ '?'.toNat) :
      termOf unit = .unit unit := by
    rw [termOf, if_neg hs, if_neg hm]
  have hstar' : '*'.toNat = 42 := rfl
  have hmark' : '?'.toNat = 63 := rfl
  unfold RegularExpression.literal Text.unitsOf
  split
  · simp only [List.map_cons, List.map_nil, hterm (hsmall hstar) (hsmall hmark)]
  · simp only [List.map_cons, List.map_nil]
    rw [hterm (by omega) (by omega), hterm (by omega) (by omega)]

/-- No star stands at the start of what a pattern is in an expression. -/
theorem head?_expressionOf (pattern : Text) :
    (pattern.flatMap expressionOf ++ ['$']).head? ≠ some '*' := by
  cases pattern with
  | nil => decide
  | cons c rest =>
    rw [List.flatMap_cons]
    unfold expressionOf
    split
    · simp
    · next hstar =>
      split
      · simp
      · split
        · simp
        · simpa using hstar

/-- **The expression of a pattern is read as one term for each unit of the pattern.** -/
theorem read?_expression (pattern : Text) :
    RegularExpression.read? (expression pattern) = some ((Text.units pattern).map termOf) := by
  change RegularExpression.terms? (pattern.flatMap expressionOf ++ ['$']) = _
  induction pattern with
  | nil => rfl
  | cons c rest ih =>
    rw [List.flatMap_cons, List.append_assoc, Text.units, List.flatMap_cons, List.map_append,
      ← Text.units]
    by_cases hstar : c = '*'
    · subst hstar
      exact congrArg (Option.map _) ih
    by_cases hmark : c = '?'
    · subst hmark
      exact (RegularExpression.terms?_any (head?_expressionOf rest)).trans
        (congrArg (Option.map _) ih)
    rw [map_termOf_unitsOf hstar hmark, expressionOf, if_neg hstar, if_neg hmark]
    have hspecial := isSpecial_eq hstar hmark
    by_cases hescaped : escaped.contains c
    · rw [if_pos hescaped]
      rw [hescaped] at hspecial
      exact (RegularExpression.terms?_escaped hspecial _).trans (congrArg (Option.map _) ih)
    · rw [if_neg hescaped]
      rw [Bool.eq_false_iff.mpr hescaped] at hspecial
      exact (RegularExpression.terms?_literal hspecial _).trans (congrArg (Option.map _) ih)

/-! ### Pieces

A run may end anywhere, so that comparing tries every end.  That some end is right is
the same as that the text can be cut there.
-/

/-- What is left when a run is taken off. -/
theorem afterRun_iff {accepts : List Nat → Bool} {units : List Nat} :
    RegularExpression.afterRun accepts units ↔ ∃ run rest, run ++ rest = units ∧
      (∀ unit ∈ run, RegularExpression.endsLine unit = false) ∧ accepts rest := by
  induction units with
  | nil =>
    rw [RegularExpression.afterRun]
    refine ⟨fun h => ⟨[], [], rfl, List.forall_mem_nil _, h⟩, ?_⟩
    rintro ⟨run, rest, hsplit, -, h⟩
    rwa [(List.append_eq_nil_iff.mp hsplit).2] at h
  | cons unit units ih =>
    rw [RegularExpression.afterRun, Bool.or_eq_true, Bool.and_eq_true, Bool.not_eq_true', ih]
    constructor
    · rintro (h | ⟨hunit, run, rest, hsplit, hrun, h⟩)
      · exact ⟨[], _, rfl, List.forall_mem_nil _, h⟩
      · exact ⟨unit :: run, rest, congrArg _ hsplit, List.forall_mem_cons.mpr ⟨hunit, hrun⟩, h⟩
    · rintro ⟨run, rest, hsplit, hrun, h⟩
      cases run with
      | nil =>
        rw [List.nil_append] at hsplit
        exact .inl (hsplit ▸ h)
      | cons first run =>
        obtain ⟨rfl, htail⟩ := List.cons.inj hsplit
        obtain ⟨hfirst, hrun⟩ := List.forall_mem_cons.mp hrun
        exact .inr ⟨hfirst, run, rest, htail, hrun, h⟩

/-- A term takes off a piece for which its unit stands. -/
theorem accepts_cons_iff (mark : Nat) (terms : RegularExpression) (units : List Nat) :
    RegularExpression.accepts (termOf mark :: terms) units ↔
      ∃ piece rest, piece ++ rest = units ∧ StandsFor mark piece ∧
        RegularExpression.accepts terms rest := by
  have hone {p : Nat → Prop} :
      (∃ piece rest, piece ++ rest = units ∧ (∃ unit, piece = [unit] ∧ p unit) ∧
        RegularExpression.accepts terms rest) ↔
      ∃ unit rest, units = unit :: rest ∧ p unit ∧ RegularExpression.accepts terms rest := by
    constructor
    · rintro ⟨_, rest, rfl, ⟨unit, rfl, hunit⟩, h⟩
      exact ⟨unit, rest, rfl, hunit, h⟩
    · rintro ⟨unit, rest, rfl, hunit, h⟩
      exact ⟨[unit], rest, rfl, ⟨unit, rfl, hunit⟩, h⟩
  unfold termOf StandsFor
  by_cases hstar : mark = '*'.toNat
  · simp only [if_pos hstar]
    exact afterRun_iff
  simp only [if_neg hstar]
  by_cases hany : mark = '?'.toNat
  · simp only [if_pos hany, hone]
    cases units <;> simp [RegularExpression.accepts]
  · simp only [if_neg hany, hone]
    cases units <;> simp [RegularExpression.accepts]

/-- The terms of a pattern take off one piece after another. -/
theorem accepts_iff (marks units : List Nat) :
    RegularExpression.accepts (marks.map termOf) units ↔
      ∃ pieces, List.Forall₂ StandsFor marks pieces ∧ pieces.flatten = units := by
  induction marks generalizing units with
  | nil =>
    rw [List.map_nil, RegularExpression.accepts, List.isEmpty_iff]
    refine ⟨fun h => ⟨[], .nil, h.symm⟩, ?_⟩
    rintro ⟨pieces, hpieces, rfl⟩
    cases hpieces
    rfl
  | cons mark marks ih =>
    rw [List.map_cons, accepts_cons_iff]
    constructor
    · rintro ⟨piece, rest, rfl, hpiece, h⟩
      obtain ⟨pieces, hpieces, rfl⟩ := (ih rest).mp h
      exact ⟨piece :: pieces, .cons hpiece hpieces, rfl⟩
    · rintro ⟨_, hall, rfl⟩
      cases hall with
      | @cons _ piece _ pieces hpiece hpieces =>
        exact ⟨piece, pieces.flatten, rfl, hpiece, (ih _).mpr ⟨pieces, hpieces, rfl⟩⟩

/-- **A pattern matches exactly the texts that can be cut into pieces for its units.** -/
theorem isMatch_iff (pattern text : Text) : isMatch pattern text ↔ Matches pattern text := by
  unfold isMatch
  rw [read?_expression]
  exact accepts_iff _ _

end Wildcard

end DesiredState
