/-
Texts up to letter case.

Written in small letters a text keeps its measure: widths, sizes, lines and offsets are
the same, what is cut out by offsets is the cut-out in small letters, and the lower-case
form that names are compared by does not change either.  Two texts are alike if they are
the same text in small letters.  Only ASCII letters count here; the case of other
letters is left alone.
-/
import DesiredState.Configuration.Imports
import DesiredState.Proofs.Position

namespace DesiredState

namespace Text

/-- A text in small ASCII letters. -/
def small (t : Text) : Text := t.map Char.toLower

/-- Two texts differ at most in the case of ASCII letters. -/
def Alike (s t : Text) : Prop := s.small = t.small

/-- What is said of a character does not depend on its case. -/
def Caseless (p : Char → α) : Prop := ∀ c, p c.toLower = p c

/-- No letter stands in a text. -/
def NoLetters (t : Text) : Prop := ∀ c ∈ t, c.isAlpha = false

instance (t : Text) : Decidable t.NoLetters := List.decidableBAll _ t

/-! ### Characters

A fact about all characters that holds of the small letters holds of the capitals if it
does not tell the two apart.  There are 26 capitals, so this is decided by going through
them.
-/

theorem toNat_of_isUpper {c : Char} (h : c.isUpper) : 65 ≤ c.toNat ∧ c.toNat ≤ 90 := by
  have hrange : c.val ≥ 'A'.val ∧ c.val ≤ 'Z'.val := of_decide_eq_true h
  have hbounds : 'A'.val.toNat = 65 ∧ 'Z'.val.toNat = 90 := ⟨rfl, rfl⟩
  have hnat : c.toNat = c.val.toNat := rfl
  simp only [ge_iff_le, UInt32.le_iff_toNat_le] at hrange
  omega

theorem toLower_of_not_isUpper {c : Char} (h : c.isUpper = false) : c.toLower = c :=
  dif_neg (of_decide_eq_false h)

/-- Only capitals have to be looked at. -/
theorem caseless_of_capitals {p : Char → α}
    (h : ∀ n < 26, p (Char.ofNat (65 + n)).toLower = p (Char.ofNat (65 + n))) : Caseless p := by
  intro c
  by_cases hc : c.isUpper
  · have hrange := toNat_of_isUpper hc
    have hletter := h (c.toNat - 65) (by omega)
    rwa [show 65 + (c.toNat - 65) = c.toNat by omega, Char.ofNat_toNat] at hletter
  · rw [toLower_of_not_isUpper (Bool.eq_false_iff.mpr hc)]

theorem isAlpha_caseless : Caseless Char.isAlpha := caseless_of_capitals (by decide)

theorem toLower_caseless : Caseless Char.toLower := caseless_of_capitals (by decide)

theorem width_caseless : Caseless width := caseless_of_capitals (by decide)

theorem isCased_caseless : Caseless isCased := caseless_of_capitals (by decide)

theorem isCaseIgnorable_caseless : Caseless isCaseIgnorable := caseless_of_capitals (by decide)

theorem lowerChar_caseless : Caseless lowerChar := caseless_of_capitals (by decide)

theorem isUpper_of_isAlpha {c : Char} (h : c.isAlpha = false) : c.isUpper = false :=
  (Bool.or_eq_false_iff.mp h).1

/-- What is no letter comes of nothing but itself. -/
theorem toLower_eq_iff {c d : Char} (hd : d.isAlpha = false) : c.toLower = d ↔ c = d := by
  constructor
  · rintro rfl
    rw [isAlpha_caseless] at hd
    exact (toLower_of_not_isUpper (isUpper_of_isAlpha hd)).symm
  · rintro rfl
    exact toLower_of_not_isUpper (isUpper_of_isAlpha hd)

/-! ### Measures -/

@[simp] theorem small_nil : small [] = [] := rfl

@[simp] theorem small_cons (c : Char) (t : Text) : small (c :: t) = c.toLower :: small t := rfl

@[simp] theorem small_append (s t : Text) : small (s ++ t) = small s ++ small t := List.map_append

@[simp] theorem length_small (t : Text) : (small t).length = t.length := List.length_map _

@[simp] theorem size_small (t : Text) : size (small t) = size t := by
  induction t with
  | nil => rfl
  | cons c t ih => rw [small_cons, size_cons, size_cons, width_caseless, ih]

theorem dropUnits_small (n : Nat) (t : Text) : dropUnits n (small t) = small (dropUnits n t) := by
  induction t generalizing n with
  | nil => rfl
  | cons c t ih =>
    rw [small_cons, dropUnits, dropUnits, width_caseless]
    split
    · rfl
    · split
      · exact ih _
      · rfl

theorem takeUnits_small (n : Nat) (t : Text) : takeUnits n (small t) = small (takeUnits n t) := by
  induction t generalizing n with
  | nil => rfl
  | cons c t ih =>
    rw [small_cons, takeUnits, takeUnits, width_caseless]
    split
    · rfl
    · split
      · rw [ih, small_cons]
      · rfl

theorem slice_small (t : Text) (start stop : Nat) :
    slice (small t) start stop = small (slice t start stop) := by
  rw [slice, slice, dropUnits_small, takeUnits_small]

theorem dropWhile_small {p : Char → Bool} (hp : Caseless p) (t : Text) :
    (small t).dropWhile p = small (t.dropWhile p) := by
  have hcomp : p ∘ Char.toLower = p := funext hp
  rw [small, List.dropWhile_map, hcomp, small]

theorem firstLine_small (t : Text) : firstLine (small t) = small (firstLine t) := by
  fun_induction firstLine t with
  | case1 => rfl
  | case2 rest => rfl
  | case3 rest => rfl
  | case4 c rest hreturn hfeed ih =>
    rw [small_cons, firstLine, ih, small_cons]
    · intro tail hc ht
      rw [toLower_eq_iff rfl] at hc
      subst hc
      obtain ⟨d, more, rfl, hd, -⟩ := List.map_eq_cons_iff.mp ht
      rw [toLower_eq_iff rfl] at hd
      subst hd
      exact hreturn more rfl rfl
    · intro hc
      rw [toLower_eq_iff rfl] at hc
      exact hfeed hc

/-! ### Names -/

theorem continuesWord_small (t : Text) : continuesWord (small t) = continuesWord t := by
  induction t with
  | nil => rfl
  | cons c t ih =>
    rw [small_cons, continuesWord, continuesWord, isCaseIgnorable_caseless, isCased_caseless, ih]

theorem lowerAfter_small (cased : Bool) (t : Text) :
    lowerAfter cased (small t) = lowerAfter cased t := by
  induction t generalizing cased with
  | nil => rfl
  | cons c t ih =>
    have hsigma : (c.toLower = 'Σ') = (c = 'Σ') := propext (toLower_eq_iff rfl)
    rw [small_cons, lowerAfter, lowerAfter, ih]
    simp only [hsigma, continuesWord_small, isCaseIgnorable_caseless c, isCased_caseless c,
      lowerChar_caseless c]

@[simp] theorem lower_small (t : Text) : lower (small t) = lower t := lowerAfter_small false t

theorem dropWord?_small (word t : Text) :
    dropWord? word (small t) = (dropWord? word t).map small := by
  induction word generalizing t with
  | nil => rfl
  | cons w word ih =>
    cases t with
    | nil => rfl
    | cons c t =>
      rw [small_cons, dropWord?, dropWord?, toLower_caseless, ih]
      split <;> rfl

/-! ### Marks -/

theorem dropHead?_small {head : Text} (h : head.NoLetters) (t : Text) :
    dropHead? head (small t) = (dropHead? head t).map small := by
  induction head generalizing t with
  | nil => rfl
  | cons d head ih =>
    cases t with
    | nil => rfl
    | cons c t =>
      have hd : (d = c.toLower) = (d = c) := propext <| by
        rw [eq_comm, toLower_eq_iff (h d List.mem_cons_self), eq_comm]
      rw [small_cons, dropHead?, dropHead?, ih fun e he => h e (List.mem_cons_of_mem d he)]
      simp only [hd]
      split <;> rfl

theorem afterFirst?_small {mark : Text} (h : mark.NoLetters) (t : Text) :
    afterFirst? mark (small t) = (afterFirst? mark t).map small := by
  induction t with
  | nil => exact dropHead?_small h []
  | cons c t ih =>
    rw [small_cons, afterFirst?, afterFirst?, ← small_cons, dropHead?_small h, ih]
    cases dropHead? mark (c :: t) <;> rfl

/-! ### Texts that are alike

Being alike is having the same small letters, so each of these facts is one about small
letters, used on both sides.
-/

namespace Alike

variable {s t u : Text}

theorem refl (t : Text) : Alike t t := rfl

theorem symm (h : Alike s t) : Alike t s := Eq.symm h

theorem trans (h : Alike s t) (h' : Alike t u) : Alike s u := Eq.trans h h'

theorem append {s' t' : Text} (h : Alike s t) (h' : Alike s' t') : Alike (s ++ s') (t ++ t') := by
  rw [Alike, small_append, small_append, h, h']

theorem size (h : Alike s t) : s.size = t.size := by
  rw [← size_small s, h, size_small]

theorem lower (h : Alike s t) : s.lower = t.lower := by
  rw [← lower_small s, h, lower_small]

theorem firstLine (h : Alike s t) : Alike s.firstLine t.firstLine := by
  rw [Alike, ← firstLine_small, h, firstLine_small]

theorem slice (h : Alike s t) (start stop : Nat) :
    Alike (s.slice start stop) (t.slice start stop) := by
  rw [Alike, ← slice_small, h, slice_small]

theorem sameName {s' t' : Text} (h : Alike s t) (h' : Alike s' t') :
    Text.sameName s s' = Text.sameName t t' := by
  rw [Text.sameName, Text.sameName, h.lower, h'.lower]

end Alike

end Text

/-! ### Places -/

theorem Position.advance_small (p : Position) (t : Text) : p.advance t.small = p.advance t := by
  fun_induction Position.advance p t with
  | case1 => rfl
  | case2 p rest ih => exact ih
  | case3 p rest hfeed ih =>
    rw [Text.small_cons, show '\r'.toLower = '\r' from rfl, Position.advance, ih]
    intro tail ht
    obtain ⟨d, more, rfl, hd, -⟩ := List.map_eq_cons_iff.mp ht
    rw [Text.toLower_eq_iff rfl] at hd
    subst hd
    exact hfeed more rfl
  | case4 p rest ih => exact ih
  | case5 p c rest hpair hreturn hfeed ih =>
    rw [Text.small_cons, Position.advance, Text.width_caseless, ih]
    · intro tail hc
      rw [Text.toLower_eq_iff rfl] at hc
      exact absurd hc fun hc => hreturn hc
    · intro hc
      rw [Text.toLower_eq_iff rfl] at hc
      exact hreturn hc
    · intro hc
      rw [Text.toLower_eq_iff rfl] at hc
      exact hfeed hc

theorem Position.advance_alike (p : Position) {s t : Text} (h : s.Alike t) :
    p.advance s = p.advance t := by
  rw [← p.advance_small s, h, p.advance_small]

theorem lineOffset_small (lineFeeds offset line : Nat) (t : Text) :
    lineOffset lineFeeds offset line t.small = lineOffset lineFeeds offset line t := by
  induction t generalizing lineFeeds offset line with
  | nil => rfl
  | cons c t ih =>
    have hfeed : (c.toLower = '\n') = (c = '\n') := propext (Text.toLower_eq_iff rfl)
    rw [Text.small_cons, lineOffset, lineOffset, ih, ih, Text.width_caseless]
    simp only [hfeed]

theorem Location.offsetIn_alike (l : Location) {s t : Text} (h : s.Alike t) :
    l.offsetIn s = l.offsetIn t := by
  rw [offsetIn, offsetIn, ← lineOffset_small _ _ _ s, h, lineOffset_small]

theorem Extent.range_alike {e f : Extent} (hl : e.location = f.location) (ht : e.text.Alike f.text) :
    e.range = f.range := by
  rw [Extent.range, Extent.range, hl, ht.firstLine.size]

end DesiredState
