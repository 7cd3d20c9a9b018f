/-
Rounding of large integers.

Rounding may move what is beyond the safe integers, but not back among them: a ratio of
at least `2^53` is rounded to a number of at least `2^53`, or to infinity, and stays there
when it is scaled.  So an integer that is rounded is told by its rounded value to be too
large, and a safe one has not been rounded at all.
-/
import DesiredState.Proofs.Number

namespace DesiredState.Binary64

/-! ### Large numbers

What is not safe need not be an integer, or be finite.  Only the bound counts, since it
keeps a number out of the safe integers.
-/

/-- A number of at least `2^53`, of either sign. -/
def IsLarge : Binary64 → Prop
  | .nan => False
  | .infinite _ => True
  | .finite _ m e => 0 ≤ e ∧ twoTo 53 ≤ m * twoTo e.toNat

theorem maxSafe_lt_twoTo : maxSafe < twoTo 53 := by
  have := twoTo_pos 53
  unfold maxSafe
  omega

theorem natAbs_signed_nat (negative : Bool) (n : Nat) : (signed negative n).natAbs = n := by
  cases negative
  · exact Int.natAbs_natCast n
  · exact (Int.natAbs_neg _).trans (Int.natAbs_natCast n)

/-- A large number is no safe integer. -/
theorem IsLarge.toSafeInt? {x : Binary64} (h : x.IsLarge) : x.toSafeInt? = none := by
  cases x with
  | nan => cases h
  | infinite negative => rfl
  | finite negative m e =>
    obtain ⟨he, hlarge⟩ := h
    have hnot : ¬(signed negative (m * twoTo e.toNat)).natAbs ≤ maxSafe := by
      rw [natAbs_signed_nat]
      exact Nat.not_le.mpr (Nat.lt_of_lt_of_le maxSafe_lt_twoTo hlarge)
    unfold Binary64.toSafeInt? Binary64.toInt?
    dsimp only
    rw [if_pos he, Option.filter_some, decide_eq_false hnot]
    exact if_neg Bool.false_ne_true

/-! ### Rounding

The exponent is chosen before the mantissa is rounded.  So there are bounds for the
mantissa at this exponent, and what overflows it is larger still.
-/

/-- The exponent of a large ratio: the ratio has a mantissa of some bits at least. -/
theorem exponentOf_large {num den : Nat} (hden : 0 < den) (h : twoTo 53 * den ≤ num) :
    ∃ e : Nat, exponentOf num den = e ∧ den * twoTo e ≤ num := by
  have hnum : 0 < num := Nat.lt_of_lt_of_le (Nat.mul_pos (twoTo_pos 53) hden) h
  have hlog : den.log2 + 53 ≤ num.log2 := by
    rw [← log2_mul_twoTo (Nat.ne_of_gt hden) 53, Nat.mul_comm]
    exact (Nat.le_log2 (Nat.ne_of_gt hnum)).mpr
      ((Nat.log2_self_le (Nat.ne_of_gt (Nat.mul_pos (twoTo_pos 53) hden))).trans h)
  obtain ⟨guess, hguess⟩ : ∃ guess : Nat, (num.log2 : Int) - den.log2 - 53 = guess :=
    ⟨num.log2 - den.log2 - 53, by omega⟩
  have hfits (e : Nat) (he : e ≤ guess + 1) : den * twoTo e ≤ num := by
    calc den * twoTo e ≤ twoTo (den.log2 + 1) * twoTo e :=
          Nat.mul_le_mul_right _ Nat.lt_log2_self.le
      _ = twoTo (den.log2 + 1 + e) := (twoTo_add ..).symm
      _ ≤ twoTo num.log2 := Nat.pow_le_pow_right (by decide) (by omega)
      _ ≤ num := Nat.log2_self_le (Nat.ne_of_gt hnum)
  unfold exponentOf minExponent
  dsimp only
  rw [hguess]
  split
  · exact ⟨guess + 1, by omega, hfits _ (Nat.le_refl _)⟩
  · exact ⟨guess, by omega, hfits _ (Nat.le_succ guess)⟩

theorem le_roundDiv (num den : Nat) : num / den ≤ roundDiv num den := by
  unfold roundDiv
  dsimp only
  split
  · exact Nat.le_succ _
  · exact Nat.le_refl _

/-- The mantissa of a large ratio, at an exponent at which it has one. -/
theorem twoTo_le_mantissa {num den e : Nat} (hden : 0 < den) (h : twoTo 53 * den ≤ num)
    (hfits : den * twoTo e ≤ num) : twoTo 53 ≤ roundDiv num (den * twoTo e) * twoTo e := by
  have hden' : 0 < den * twoTo e := Nat.mul_pos hden (twoTo_pos e)
  refine Nat.le_trans ?_ (Nat.mul_le_mul_right _ (le_roundDiv num (den * twoTo e)))
  by_cases hsmall : e ≤ 53
  · have hsplit : twoTo 53 = twoTo (53 - e) * twoTo e := by
      rw [← twoTo_add, Nat.sub_add_cancel hsmall]
    rw [hsplit]
    refine Nat.mul_le_mul_right _ ((Nat.le_div_iff_mul_le hden').mpr ?_)
    calc twoTo (53 - e) * (den * twoTo e) = twoTo 53 * den := by rw [hsplit]; ac_rfl
      _ ≤ num := h
  · calc twoTo 53 ≤ 1 * twoTo e := by
          rw [Nat.one_mul]
          exact Nat.pow_le_pow_right (by decide) (by omega)
      _ ≤ num / (den * twoTo e) * twoTo e :=
          Nat.mul_le_mul_right _ ((Nat.le_div_iff_mul_le hden').mpr (by rwa [Nat.one_mul]))

/-- **Rounding keeps what is large.** -/
theorem isLarge_ofRatio (negative : Bool) {num den : Nat} (hden : 0 < den)
    (h : twoTo 53 * den ≤ num) : (ofRatio negative num den).IsLarge := by
  obtain ⟨e, he, hfits⟩ := exponentOf_large hden h
  have hscale : scaleRatio num den (e : Int) = (num, den * twoTo e) := by
    unfold scaleRatio
    rw [if_pos (Int.natCast_nonneg e), Int.toNat_natCast]
  have hmantissa := twoTo_le_mantissa hden h hfits
  have hne : ¬(num = 0 ∨ den = 0) := by
    have := Nat.mul_pos (twoTo_pos 53) hden
    omega
  unfold ofRatio
  rw [if_neg hne]
  simp only [he, hscale]
  generalize roundDiv num (den * twoTo e) = m at hmantissa
  by_cases hcarry : m = twoTo 53
  · simp only [if_pos hcarry]
    split
    · trivial
    · refine ⟨by omega, ?_⟩
      rw [show ((e : Int) + 1).toNat = 1 + e by omega, twoTo_add, ← Nat.mul_assoc]
      rwa [hcarry] at hmantissa
  · simp only [if_neg hcarry]
    split
    · trivial
    · exact ⟨Int.natCast_nonneg e, by rwa [Int.toNat_natCast]⟩

theorem isLarge_ofNat (negative : Bool) {n : Nat} (h : maxSafe < n) :
    (ofNat negative n).IsLarge := by
  refine isLarge_ofRatio negative Nat.one_pos ?_
  unfold maxSafe at h
  omega

/-! ### Scaling -/

theorem IsLarge.scale {x : Binary64} (h : x.IsLarge) (k : Nat) : (x.scale k).IsLarge := by
  cases x with
  | nan => cases h
  | infinite negative => trivial
  | finite negative m e =>
    obtain ⟨he, hlarge⟩ := h
    have hsum : (e + k).toNat = e.toNat + k := by omega
    unfold Binary64.scale
    dsimp only
    rw [if_pos (by omega), hsum, twoTo_add, ← Nat.mul_assoc]
    refine isLarge_ofRatio negative Nat.one_pos ?_
    rw [Nat.mul_one]
    exact hlarge.trans (Nat.le_mul_of_pos_right _ (twoTo_pos k))

/-! ### Safe integers -/

theorem toSafeInt?_ofNat (negative : Bool) (n : Nat) :
    (ofNat negative n).toSafeInt? = if n ≤ maxSafe then some (signed negative n) else none := by
  by_cases h : n ≤ maxSafe
  · rw [if_pos h, toSafeInt?, toInt?_ofNat negative h, Option.filter_some, natAbs_signed_nat,
      decide_eq_true h, if_pos rfl]
  · rw [if_neg h]
    exact (isLarge_ofNat negative (Nat.not_le.mp h)).toSafeInt?

/-- A multiple of an integer is a safe integer if it is one exactly. -/
theorem toSafeInt?_scale (n k : Nat) :
    ((ofNat false n).scale k).toSafeInt? =
      if n * twoTo k ≤ maxSafe then some ((n * twoTo k : Nat) : Int) else none := by
  by_cases h : n ≤ maxSafe
  · rw [scale_ofNat_eq h, toSafeInt?_ofNat]
    rfl
  · have hlarge : ¬n * twoTo k ≤ maxSafe := fun hle =>
      h ((Nat.le_mul_of_pos_right n (twoTo_pos k)).trans hle)
    rw [if_neg hlarge]
    exact ((isLarge_ofNat false (Nat.not_le.mp h)).scale k).toSafeInt?

theorem toInt?_negate (x : Binary64) : x.negate.toInt? = x.toInt?.map (-·) := by
  have hsigned (negative : Bool) (n : Nat) : signed (!negative) n = -signed negative n := by
    cases negative
    · rfl
    · exact (Int.neg_neg _).symm
  cases x with
  | infinite | nan => rfl
  | finite negative m e =>
    unfold negate toInt?
    dsimp only
    split
    · rw [hsigned, Option.map_some]
    · split
      · rw [hsigned, Option.map_some]
      · rfl

theorem toSafeInt?_negate (x : Binary64) : x.negate.toSafeInt? = x.toSafeInt?.map (-·) := by
  rw [toSafeInt?, toSafeInt?, toInt?_negate]
  cases x.toInt? with
  | none => rfl
  | some n =>
    rw [Option.map_some, Option.filter_some, Option.filter_some, Int.natAbs_neg]
    split <;> rfl

end DesiredState.Binary64
