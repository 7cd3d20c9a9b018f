/-
The order of versions is one.

Versions are lists of parts that go on with zeros.  Cut off at any length that both of two
versions keep to, they are compared as lists of integers are, part by part.  So as long as
every part is finite the comparison is a total preorder.  One that is not finite comes
after itself.
-/
import DesiredState.Catalog.Version
import Mathlib.Algebra.Order.Ring.Int

namespace DesiredState.Version

/-- Whether all parts of a version are finite numbers. -/
def IsFinite (version : Text) : Prop := ∀ part ∈ parts version, part.isFinite

instance (version : Text) : Decidable (IsFinite version) :=
  inferInstanceAs (Decidable (∀ part ∈ parts version, part.isFinite))

/-- Finite parts are compared by their values. -/
theorem compareParts_of_isFinite {a b : Binary64} (ha : a.isFinite) (hb : b.isFinite) :
    compareParts a b = Ord.compare a.toUnits b.toUnits := by
  cases a with
  | infinite | nan => cases ha
  | finite =>
    cases b with
    | infinite | nan => cases hb
    | finite => rfl

/-- The values of the first `n` parts, with zeros where there are none. -/
def padded : (n : Nat) → List Binary64 → List Int
  | 0, _ => []
  | n + 1, list => (list.headD (.zero false)).toUnits :: padded n list.tail

/-- **Parts are compared as lists of integers**, at any length that leaves none of them out.  The
induction is on the length; at the end of the shorter list its parts are zeros. -/
theorem compareAll_eq_padded {n : Nat} {as bs : List Binary64} (ha : as.length ≤ n)
    (hb : bs.length ≤ n) (hfinite : ∀ part ∈ as, part.isFinite)
    (hfinite' : ∀ part ∈ bs, part.isFinite) :
    compareAll as bs = Ord.compare (padded n as) (padded n bs) := by
  have hzero : (Binary64.zero false).isFinite := rfl
  induction n generalizing as bs with
  | zero =>
    rw [List.length_eq_zero_iff.mp (Nat.le_zero.mp ha), List.length_eq_zero_iff.mp (Nat.le_zero.mp hb)]
    rfl
  | succ n ih =>
    rw [padded, padded, List.compare_cons_cons]
    cases as with
    | nil =>
      have hrest := @ih [] bs.tail (Nat.zero_le n) (by rw [List.length_tail]; omega) nofun
        fun part hp => hfinite' part (List.mem_of_mem_tail hp)
      rw [List.tail_nil, ← hrest, List.headD_nil]
      cases bs with
      | nil => simp [compareAll, compareZeros]
      | cons b bs =>
        rw [List.headD_cons, ← compareParts_of_isFinite hzero (hfinite' b List.mem_cons_self)]
        rfl
    | cons a as =>
      have hrest := @ih as bs.tail (Nat.le_of_succ_le_succ ha) (by rw [List.length_tail]; omega)
        (fun part hp => hfinite part (List.mem_cons_of_mem a hp))
        fun part hp => hfinite' part (List.mem_of_mem_tail hp)
      have hfirst := hfinite a List.mem_cons_self
      rw [List.tail_cons, ← hrest, List.headD_cons]
      cases bs with
      | nil =>
        rw [List.headD_nil, ← compareParts_of_isFinite hfirst hzero]
        rfl
      | cons b bs =>
        rw [List.headD_cons, ← compareParts_of_isFinite hfirst (hfinite' b List.mem_cons_self)]
        rfl

theorem compare_eq_padded {a b : Text} (ha : IsFinite a) (hb : IsFinite b) {n : Nat}
    (hna : (parts a).length ≤ n) (hnb : (parts b).length ≤ n) :
    compare a b = Ord.compare (padded n (parts a)) (padded n (parts b)) :=
  compareAll_eq_padded hna hnb ha hb

theorem compare_self {a : Text} (ha : IsFinite a) : compare a a = .eq := by
  rw [compare_eq_padded ha ha (Nat.le_refl _) (Nat.le_refl _)]
  exact Std.ReflCmp.compare_self

theorem compare_swap {a b : Text} (ha : IsFinite a) (hb : IsFinite b) :
    compare b a = (compare a b).swap := by
  have hna := Nat.le_max_left (parts a).length (parts b).length
  have hnb := Nat.le_max_right (parts a).length (parts b).length
  rw [compare_eq_padded ha hb hna hnb, compare_eq_padded hb ha hnb hna]
  exact Std.OrientedCmp.eq_swap

theorem compare_trans {a b c : Text} (ha : IsFinite a) (hb : IsFinite b) (hc : IsFinite c)
    (hab : (compare a b).isLE) (hbc : (compare b c).isLE) : (compare a c).isLE := by
  let n := (parts a).length + (parts b).length + (parts c).length
  have hna : (parts a).length ≤ n := by omega
  have hnb : (parts b).length ≤ n := by omega
  have hnc : (parts c).length ≤ n := by omega
  rw [compare_eq_padded ha hb hna hnb] at hab
  rw [compare_eq_padded hb hc hnb hnc] at hbc
  rw [compare_eq_padded ha hc hna hnc]
  exact Std.TransCmp.isLE_trans hab hbc

end DesiredState.Version
