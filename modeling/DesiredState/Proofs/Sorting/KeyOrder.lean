/-
The order of keys is a strict total order.

Lower-case forms are compared first and keys themselves after that, both by their 16-bit
units, which spell a text without ambiguity.  So only equal keys compare as equal, and
pairs with distinct keys can be sorted in one way only, whatever order they come in.
-/
import DesiredState.Proofs.Sorting
import Mathlib.Data.List.Nodup

namespace DesiredState.Text

/-! ### Units

Keys are compared unit by unit, and a character may have two units.  That no character
is half of another one is what makes the units of a text say which text it is.
-/

/-- A character is no half of a pair. -/
theorem toNat_lt_or_gt (c : Char) : c.toNat < 0xD800 ∨ 0xDFFF < c.toNat ∧ c.toNat < 0x110000 :=
  c.valid

/-- The units of a character can be told from what follows them. -/
theorem unitsOf_append_inj {c d : Char} {rest rest' : List Nat}
    (h : unitsOf c ++ rest = unitsOf d ++ rest') : c = d ∧ rest = rest' := by
  have hc := toNat_lt_or_gt c
  have hd := toNat_lt_or_gt d
  have hchar (heq : c.toNat = d.toNat) : c = d := Char.toNat_inj.mp heq
  unfold unitsOf at h
  by_cases hlow : c.toNat < 0x10000
  · by_cases hlow' : d.toNat < 0x10000
    · rw [if_pos hlow, if_pos hlow'] at h
      obtain ⟨hhead, htail⟩ := List.cons.inj h
      exact ⟨hchar hhead, htail⟩
    · rw [if_pos hlow, if_neg hlow'] at h
      have hhead := (List.cons.inj h).1
      omega
  · by_cases hlow' : d.toNat < 0x10000
    · rw [if_neg hlow, if_pos hlow'] at h
      have hhead := (List.cons.inj h).1
      omega
    · rw [if_neg hlow, if_neg hlow'] at h
      obtain ⟨hhigh, h⟩ := List.cons.inj h
      obtain ⟨hsecond, htail⟩ := List.cons.inj h
      exact ⟨hchar (by omega), htail⟩

theorem units_injective : Function.Injective units := by
  intro s
  induction s with
  | nil =>
    intro t h
    cases t with
    | nil => rfl
    | cons d t =>
      have hlength := congrArg List.length h
      have := size_pos (List.cons_ne_nil d t)
      rw [length_units, length_units, size_nil] at hlength
      omega
  | cons c s ih =>
    intro t h
    cases t with
    | nil =>
      have hlength := congrArg List.length h
      have := size_pos (List.cons_ne_nil c s)
      rw [length_units, length_units, size_nil] at hlength
      omega
    | cons d t =>
      obtain ⟨rfl, hrest⟩ := unitsOf_append_inj (h : unitsOf c ++ units s = unitsOf d ++ units t)
      rw [ih hrest]

/-! ### The laws of the order -/

instance : Std.TransCmp keyOrder :=
  inferInstanceAs (Std.TransCmp (compareLex (compareOn (units ∘ lower)) (compareOn units)))

instance : Std.LawfulEqCmp keyOrder where
  eq_of_compare {s t} h := by
    have hunits : compare (units s) (units t) = .eq := (Ordering.then_eq_eq.mp h).2
    exact units_injective (Std.LawfulEqOrd.eq_of_compare hunits)

theorem keyOrder_eq_iff {s t : Text} : keyOrder s t = .eq ↔ s = t :=
  Std.LawfulEqCmp.compare_eq_iff_eq

theorem keyOrder_swap (s t : Text) : keyOrder t s = (keyOrder s t).swap :=
  Std.OrientedCmp.eq_swap

theorem keyOrder_trans {s t u : Text} (hst : keyOrder s t = .lt) (htu : keyOrder t u = .lt) :
    keyOrder s u = .lt :=
  Std.TransCmp.lt_trans hst htu

theorem isLE_keyOrder_total (s t : Text) : (keyOrder s t).isLE ∨ (keyOrder t s).isLE := by
  rw [keyOrder_swap s t]
  cases keyOrder s t with
  | lt | eq => exact .inl rfl
  | gt => exact .inr rfl

/-! ### Sorting

Two sorted lists with the same members are the same where the order is strict.  This
takes the place of an argument about the sorting itself.
-/

variable {α : Type}

theorem insertByKey_sorted (entry : Text × α) {entries : List (Text × α)}
    (h : entries.Pairwise fun p q => (keyOrder p.1 q.1).isLE) :
    (insertByKey entry entries).Pairwise fun p q => (keyOrder p.1 q.1).isLE := by
  induction entries with
  | nil => exact List.pairwise_singleton _ _
  | cons other rest ih =>
    obtain ⟨hother, hrest⟩ := List.pairwise_cons.mp h
    rw [insertByKey]
    split
    · next hle =>
      refine List.pairwise_cons.mpr ⟨fun p hp => ?_, h⟩
      rcases List.mem_cons.mp hp with rfl | hp
      · exact hle
      · exact Std.TransCmp.isLE_trans hle (hother p hp)
    · next hgt =>
      have hle : (keyOrder other.1 entry.1).isLE :=
        (isLE_keyOrder_total entry.1 other.1).resolve_left hgt
      refine List.pairwise_cons.mpr ⟨fun p hp => ?_, ih hrest⟩
      rcases List.mem_cons.mp ((insertByKey_perm entry rest).mem_iff.mp hp) with rfl | hp
      · exact hle
      · exact hother p hp

theorem sortByKey_sorted (entries : List (Text × α)) :
    (sortByKey entries).Pairwise fun p q => (keyOrder p.1 q.1).isLE := by
  induction entries with
  | nil => exact .nil
  | cons entry rest ih => exact insertByKey_sorted entry ih

/-- **Pairs with distinct keys are sorted in one way**, whatever order they come in. -/
theorem sortByKey_eq_of_perm {entries entries' : List (Text × α)} (h : entries.Perm entries')
    (distinct : (entries.map (·.1)).Nodup) : sortByKey entries = sortByKey entries' := by
  have hperm : (sortByKey entries).Perm (sortByKey entries') :=
    (sortByKey_perm entries).trans (h.trans (sortByKey_perm entries').symm)
  refine hperm.eq_of_pairwise (fun p q hp hq hpq hqp => ?_) (sortByKey_sorted entries)
    (sortByKey_sorted entries')
  have hkeys : p.1 = q.1 := keyOrder_eq_iff.mp (Std.OrientedCmp.isLE_antisymm hpq hqp)
  exact List.inj_on_of_nodup_map distinct (mem_sortByKey.mp hp)
    (h.mem_iff.mpr (mem_sortByKey.mp hq)) hkeys

end DesiredState.Text
