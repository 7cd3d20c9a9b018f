/-
Sorting by keys.

Sorting puts pairs into another order and leaves them what they are; and as it looks at
keys alone, it does not matter whether values are changed before or after it.
-/
import DesiredState.Text.Order

namespace DesiredState.Text

variable {α β : Type}

theorem insertByKey_perm (entry : Text × α) (entries : List (Text × α)) :
    (insertByKey entry entries).Perm (entry :: entries) := by
  induction entries with
  | nil => exact List.Perm.refl _
  | cons other rest ih =>
    rw [insertByKey]
    split
    · exact List.Perm.refl _
    · exact (ih.cons other).trans (List.Perm.swap entry other rest)

/-- Sorting keeps the pairs. -/
theorem sortByKey_perm (entries : List (Text × α)) : (sortByKey entries).Perm entries := by
  induction entries with
  | nil => exact List.Perm.refl _
  | cons entry rest ih => exact (insertByKey_perm entry _).trans (ih.cons entry)

theorem mem_sortByKey {p : Text × α} {entries : List (Text × α)} :
    p ∈ sortByKey entries ↔ p ∈ entries :=
  (sortByKey_perm entries).mem_iff

theorem insertByKey_map (f : Text × α → β) (entry : Text × α) (entries : List (Text × α)) :
    insertByKey (entry.1, f entry) (entries.map fun p => (p.1, f p)) =
      (insertByKey entry entries).map fun p => (p.1, f p) := by
  induction entries with
  | nil => rfl
  | cons other rest ih =>
    rw [List.map_cons, insertByKey, insertByKey]
    split
    · rfl
    · rw [ih]; rfl

/-- Values may be changed before or after sorting. -/
theorem sortByKey_map (f : Text × α → β) (entries : List (Text × α)) :
    sortByKey (entries.map fun p => (p.1, f p)) =
      (sortByKey entries).map fun p => (p.1, f p) := by
  induction entries with
  | nil => rfl
  | cons entry rest ih =>
    change insertByKey _ (sortByKey _) = (insertByKey _ (sortByKey _)).map _
    rw [ih, insertByKey_map]

theorem names_sortByKey (entries : List (Text × α)) :
    ((sortByKey entries).map (·.1)).Perm (entries.map (·.1)) :=
  (sortByKey_perm entries).map _

end DesiredState.Text
