/-
Integers as numbers.

An integer below `2^53` is a number of the format: rounding leaves it where it is, so
its value is the integer again, its text is the decimal one, and reading this text
gives the same number back.
-/
import DesiredState.Number.Decimal
import DesiredState.Proofs.Token.FirstCharacter
import DesiredState.Script.Literal
import Mathlib.Data.List.TakeDrop
import Mathlib.Data.List.TakeWhile

namespace DesiredState

namespace Binary64

/-! ### No rounding

A ratio is rounded to 53 bits, and a safe integer has no more than that.  At the
exponent at which its mantissa has all of them the division leaves no remainder, so
nothing is rounded.
-/

theorem twoTo_pos (k : Nat) : 0 < twoTo k := Nat.two_pow_pos k

theorem twoTo_ne_zero (k : Nat) : twoTo k ≠ 0 := Nat.ne_of_gt (twoTo_pos k)

theorem twoTo_add (j k : Nat) : twoTo (j + k) = twoTo j * twoTo k := Nat.pow_add 2 j k

theorem log2_twoTo (k : Nat) : (twoTo k).log2 = k := Nat.log2_two_pow

theorem log2_mul_twoTo {n : Nat} (h : n ≠ 0) (k : Nat) : (n * twoTo k).log2 = n.log2 + k := by
  refine (Nat.log2_eq_iff (Nat.mul_ne_zero h (twoTo_ne_zero k))).mpr ⟨?_, ?_⟩
  · rw [Nat.pow_add]
    exact Nat.mul_le_mul_right _ (Nat.log2_self_le h)
  · rw [show n.log2 + k + 1 = n.log2 + 1 + k by omega, Nat.pow_add]
    exact Nat.mul_lt_mul_of_pos_right Nat.lt_log2_self (twoTo_pos k)

theorem roundDiv_mul (n : Nat) {d : Nat} (h : 0 < d) : roundDiv (n * d) d = n := by
  unfold roundDiv
  rw [Nat.mul_div_cancel n h, Nat.mul_mod_left, if_neg]
  omega

/-- The exponent at which an integer has a mantissa of 53 bits. -/
theorem exponentOf_integer {n : Nat} (hpos : n ≠ 0) (hlog : n.log2 ≤ 52) (j : Nat) :
    exponentOf (n * twoTo j) (twoTo j) = (n.log2 : Int) - 52 := by
  have hguess : ((n * twoTo j).log2 : Int) - (twoTo j).log2 - 53 = (n.log2 : Int) - 53 := by
    rw [log2_mul_twoTo hpos, log2_twoTo]
    omega
  have hscale : scaleRatio (n * twoTo j) (twoTo j) ((n.log2 : Int) - 53) =
      (n * twoTo j * twoTo (53 - n.log2), twoTo j) := by
    unfold scaleRatio
    rw [if_neg (by omega), show (-((n.log2 : Int) - 53)).toNat = 53 - n.log2 by omega]
  have hlarge : twoTo 53 * twoTo j ≤ n * twoTo j * twoTo (53 - n.log2) := by
    have hsplit : twoTo 53 = twoTo n.log2 * twoTo (53 - n.log2) := by
      rw [← twoTo_add]
      congr 1
      omega
    calc twoTo 53 * twoTo j = twoTo n.log2 * (twoTo j * twoTo (53 - n.log2)) := by
          rw [hsplit]
          ac_rfl
      _ ≤ n * (twoTo j * twoTo (53 - n.log2)) :=
          Nat.mul_le_mul_right _ (Nat.log2_self_le hpos)
      _ = n * twoTo j * twoTo (53 - n.log2) := (Nat.mul_assoc ..).symm
  unfold exponentOf
  simp only [hguess, hscale, if_pos hlarge]
  unfold minExponent
  omega

theorem log2_le {n : Nat} (hpos : n ≠ 0) (h : n ≤ maxSafe) : n.log2 ≤ 52 := by
  have hlt : n < twoTo 53 := by
    have := twoTo_pos 53
    unfold maxSafe at h
    omega
  have := (Nat.log2_lt hpos).mpr hlt
  omega

/-- An integer over a power of two that divides it is not rounded. -/
theorem ofRatio_integer (negative : Bool) {n : Nat} (hpos : n ≠ 0) (h : n ≤ maxSafe) (j : Nat) :
    ofRatio negative (n * twoTo j) (twoTo j) =
      .finite negative (n * twoTo (52 - n.log2)) ((n.log2 : Int) - 52) := by
  have hlog := log2_le hpos h
  have hscale : scaleRatio (n * twoTo j) (twoTo j) ((n.log2 : Int) - 52) =
      (n * twoTo (52 - n.log2) * twoTo j, twoTo j) := by
    unfold scaleRatio
    by_cases hfull : n.log2 = 52
    · rw [if_pos (by omega), hfull]
      simp [twoTo]
    · rw [if_neg (by omega), show (-((n.log2 : Int) - 52)).toNat = 52 - n.log2 by omega]
      ac_rfl
  have hsmall : n * twoTo (52 - n.log2) < twoTo 53 := by
    have hsplit : twoTo 53 = 2 ^ (n.log2 + 1) * twoTo (52 - n.log2) := by
      change twoTo 53 = twoTo (n.log2 + 1) * twoTo (52 - n.log2)
      rw [← twoTo_add]
      congr 1
      omega
    rw [hsplit]
    exact Nat.mul_lt_mul_of_pos_right Nat.lt_log2_self (twoTo_pos _)
  have hne : ¬(n * twoTo j = 0 ∨ twoTo j = 0) := by
    rintro (h0 | h0)
    · exact Nat.mul_ne_zero hpos (twoTo_ne_zero j) h0
    · exact twoTo_ne_zero j h0
  unfold ofRatio
  rw [if_neg hne]
  simp only [exponentOf_integer hpos hlog, hscale, roundDiv_mul _ (twoTo_pos j),
    if_neg (Nat.ne_of_lt hsmall)]
  exact if_neg (by unfold maxExponent; omega)

theorem ofNat_integer (negative : Bool) {n : Nat} (hpos : n ≠ 0) (h : n ≤ maxSafe) :
    ofNat negative n = .finite negative (n * twoTo (52 - n.log2)) ((n.log2 : Int) - 52) := by
  have := ofRatio_integer negative hpos h 0
  rwa [show twoTo 0 = 1 from rfl, Nat.mul_one] at this

/-- The value of an integer is the integer. -/
theorem toInt?_ofNat (negative : Bool) {n : Nat} (h : n ≤ maxSafe) :
    (ofNat negative n).toInt? = some (signed negative n) := by
  by_cases hpos : n = 0
  · subst hpos
    have hzero : ofNat negative 0 = .finite negative 0 (-1074) := by
      simp [ofNat, ofRatio, zero, minExponent]
    simp [hzero, toInt?]
  · have hlog := log2_le hpos h
    rw [ofNat_integer negative hpos h, toInt?]
    by_cases hfull : n.log2 = 52
    · rw [if_pos (by omega), hfull]
      simp [twoTo]
    · rw [if_neg (by omega), show (-((n.log2 : Int) - 52)).toNat = 52 - n.log2 by omega]
      simp [Nat.mul_div_cancel n (twoTo_pos _)]

theorem natAbs_signed (n : Int) : signed (n < 0) n.natAbs = n := by
  unfold signed
  by_cases h : n < 0
  · rw [if_pos (decide_eq_true h)]
    omega
  · rw [if_neg (by simp [h])]
    omega

theorem toInt?_ofInt {n : Int} (h : n.natAbs ≤ maxSafe) : (ofInt n).toInt? = some n := by
  rw [ofInt, toInt?_ofNat _ h, natAbs_signed]

theorem toSafeInt?_ofInt {n : Int} (h : n.natAbs ≤ maxSafe) :
    (ofInt n).toSafeInt? = some n := by
  rw [toSafeInt?, toInt?_ofInt h]
  simp [h]

theorem isInteger_ofInt {n : Int} (h : n.natAbs ≤ maxSafe) : (ofInt n).isInteger := by
  rw [isInteger, toInt?_ofInt h]
  rfl

/-- The text of an integer is the decimal one. -/
theorem toText_ofInt {n : Int} (h : n.natAbs ≤ maxSafe) : (ofInt n).toText = textOfInt n := by
  unfold toText
  rw [toSafeInt?_ofInt h]

/-! ### Reading the text of an integer -/

/-- A safe integer is scaled as the integer that it is. -/
theorem scale_ofNat_eq {n : Nat} (h : n ≤ maxSafe) (k : Nat) :
    (ofNat false n).scale k = ofNat false (n * twoTo k) := by
  by_cases hpos : n = 0
  · subst hpos
    simp [ofNat, ofRatio, zero, minExponent, scale]
  · have hlog := log2_le hpos h
    rw [ofNat_integer false hpos h, scale]
    by_cases hwhole : 0 ≤ (n.log2 : Int) - 52 + k
    · have hk : k = (52 - n.log2) + ((n.log2 : Int) - 52 + k).toNat := by omega
      rw [if_pos hwhole, Nat.mul_assoc, ← twoTo_add, ← hk]
      rfl
    · -- What is left of the fraction is a power of two that divides the mantissa.
      have hpos' : n * twoTo k ≠ 0 := Nat.mul_ne_zero hpos (twoTo_ne_zero k)
      have hsafe : n * twoTo k ≤ maxSafe := by
        have hlt : n * twoTo k < twoTo (n.log2 + 1) * twoTo k :=
          Nat.mul_lt_mul_of_pos_right Nat.lt_log2_self (twoTo_pos k)
        have hle : twoTo (n.log2 + 1 + k) ≤ twoTo 52 := Nat.pow_le_pow_right (by decide) (by omega)
        have hmax : twoTo 52 ≤ maxSafe := by decide
        rw [← twoTo_add] at hlt
        omega
      obtain ⟨j, hj⟩ : ∃ j, 52 - n.log2 = k + j := ⟨52 - n.log2 - k, by omega⟩
      rw [if_neg hwhole, show (-((n.log2 : Int) - 52 + k)).toNat = j by omega, hj, twoTo_add,
        ← Nat.mul_assoc, ofRatio_integer false hpos' hsafe j, ofNat_integer false hpos' hsafe]

/-- Scaling by nothing leaves an integer where it is. -/
theorem scale_ofNat {n : Nat} (h : n ≤ maxSafe) : (ofNat false n).scale 0 = ofNat false n := by
  rw [scale_ofNat_eq h, show twoTo 0 = 1 from rfl, Nat.mul_one]

theorem isFinite_ofNat {n : Nat} (h : n ≤ maxSafe) : (ofNat false n).isFinite := by
  by_cases hpos : n = 0
  · subst hpos
    simp [ofNat, ofRatio, zero, isFinite]
  · rw [ofNat_integer false hpos h]
    rfl

theorem negate_ofNat {n : Nat} (hpos : n ≠ 0) (h : n ≤ maxSafe) :
    (ofNat false n).negate = ofNat true n := by
  rw [ofNat_integer false hpos h, ofNat_integer true hpos h]
  rfl

theorem isDigit_of_mem_ofNat {n : Nat} {c : Char} (h : c ∈ Text.ofNat n) : c.isDigit :=
  Nat.isDigit_of_mem_toDigits (b := 10) (by decide) (by decide) h

/-- Digits alone denote the number nearest to the integer that they denote. -/
theorem readUnsigned?_digits {t : Text} (hne : t ≠ []) (hdigits : ∀ c ∈ t, c.isDigit) :
    readUnsigned? t = some (ofNat false (Text.natOfDigits t)) := by
  have hspan : t.span Char.isDigit = (t, []) := by
    rw [List.span_eq_takeWhile_dropWhile, List.takeWhile_eq_self_iff.mpr hdigits,
      List.dropWhile_eq_nil_iff.mpr hdigits]
  have hdecimal : readUnsigned?.readDecimal? t = some (ofNat false (Text.natOfDigits t)) := by
    unfold readUnsigned?.readDecimal?
    simp only [hspan, List.isEmpty_eq_false_iff.mpr hne, List.append_nil, readExponent?,
      Option.map_some, Bool.false_eq_true, if_false, List.length_nil]
    generalize Text.natOfDigits t = n
    by_cases hzero : n = 0
    · subst hzero
      simp [ofDecimal, ofNat, ofRatio]
    · have hpower : ofRatio false (n * tenTo 0) 1 = ofNat false n := by
        rw [show tenTo 0 = 1 from rfl, Nat.mul_one]
        rfl
      unfold ofDecimal
      rw [if_neg hzero, if_neg (by omega), if_neg (by omega), if_pos (by omega)]
      exact congrArg some hpower
  unfold readUnsigned?
  split
  · next mark rest =>
    have hmark := hdigits mark (List.mem_cons_of_mem _ List.mem_cons_self)
    rw [if_neg]
    · exact hdecimal
    · rintro (rfl | rfl) <;> exact absurd hmark (by decide)
  · exact hdecimal

theorem readUnsigned?_ofNat (n : Nat) : readUnsigned? (Text.ofNat n) = some (ofNat false n) := by
  have hne : Text.ofNat n ≠ [] := Nat.toDigits_ne_nil
  have hvalue : Text.natOfDigits (Text.ofNat n) = n := Nat.ofDigitChars_ten_toDigits
  rw [readUnsigned?_digits hne fun c hc => isDigit_of_mem_ofNat hc, hvalue]

end Binary64

namespace Literal

/-- A digit at the end is no sign of a multiple. -/
theorem splitMultiple_of_isDigit {t : Text} (h : ∀ c, t.getLast? = some c → c.isDigit) :
    splitMultiple t = (t, 0) := by
  unfold splitMultiple
  split
  · next b u body heq =>
    have hb : b.isDigit := h b (by rw [← List.head?_reverse, heq]; rfl)
    rw [if_neg]
    intro hlower
    have halpha : b.isAlpha := Pattern.isAlpha_of_toLower (hlower ▸ by decide)
    rw [Pattern.isDigit_of_isWordStart (by simp [Pattern.isWordStart, halpha])] at hb
    exact Bool.false_ne_true hb
  · rfl

/-- A literal without a multiple and without a sign. -/
theorem number?_unsigned {t : Text} {x : Binary64} (hsplit : splitMultiple t = (t, 0))
    (hsign : ∀ digits, t ≠ '-' :: digits) (hx : Binary64.readUnsigned? t = some x)
    (hfinite : x.isFinite) : number? t = some (x.scale 0) := by
  fun_cases number? t <;> grind

/-- **The text of an integer is a literal of this number.** -/
theorem number?_textOfInt {n : Int} (h : n.natAbs ≤ Binary64.maxSafe) :
    number? (Binary64.textOfInt n) = some (Binary64.ofInt n) := by
  have hlast : ∀ c, (Text.ofNat n.natAbs).getLast? = some c → c.isDigit :=
    fun c hc => Binary64.isDigit_of_mem_ofNat (List.mem_of_getLast? hc)
  have hne : Text.ofNat n.natAbs ≠ [] := Nat.toDigits_ne_nil
  unfold Binary64.textOfInt Binary64.ofInt
  by_cases hn : n < 0
  · have hsigned : ∀ c, ('-' :: Text.ofNat n.natAbs).getLast? = some c → c.isDigit := by
      intro c hc
      rw [List.getLast?_cons_of_ne_nil hne] at hc
      exact hlast c hc
    rw [if_pos hn]
    unfold number?
    rw [splitMultiple_of_isDigit hsigned]
    simp only [Binary64.readUnsigned?_ofNat, Binary64.isFinite_ofNat h, if_true, Nat.mul_zero,
      Binary64.scale_ofNat h, decide_eq_true hn]
    rw [Binary64.negate_ofNat (by omega) h]
  · have hsign : ∀ digits, Text.ofNat n.natAbs ≠ '-' :: digits := by
      intro digits he
      have : '-'.isDigit := Binary64.isDigit_of_mem_ofNat (by rw [he]; exact List.mem_cons_self)
      exact absurd this (by decide)
    rw [if_neg hn, number?_unsigned (splitMultiple_of_isDigit hlast) hsign
      (Binary64.readUnsigned?_ofNat _) (Binary64.isFinite_ofNat h), Binary64.scale_ofNat h,
      decide_eq_false hn]

end Literal

end DesiredState
