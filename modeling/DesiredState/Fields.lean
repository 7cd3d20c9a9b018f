/-
Named values.

Properties of an instance, members of a record and keys of a table come as a list of
names with values, in the order in which the names were first given.  A name has one
value: giving it another one replaces the value and leaves the name in its place.

A name may also be an index, as the names of the items of a list are.  Where such names
are listed among others they come first, in the order of their numbers.

One name is not like the others: it stands for the parent of a map, where the map looks up
what it does not hold itself.  A value that a map is given under this name changes what it
looks up and is held by no name.
-/
import DesiredState.Text.Basic

namespace DesiredState

/-- Named values in the order in which the names were first given. -/
abbrev Fields (α : Type) := List (Text × α)

namespace Fields

variable {α : Type}

/-- The names in order. -/
def names (fields : Fields α) : List Text := fields.map (·.1)

/-- The value of a name. -/
def get? (name : Text) : Fields α → Option α
  | [] => none
  | (other, value) :: rest => if other = name then some value else get? name rest

/-- Whether a name has a value. -/
def has (name : Text) (fields : Fields α) : Bool := (fields.get? name).isSome

/-- Gives a name a value, in the place that the name has, or else in the last one. -/
def set (name : Text) (value : α) : Fields α → Fields α
  | [] => [(name, value)]
  | (other, old) :: rest =>
    if other = name then (name, value) :: rest else (other, old) :: set name value rest

/-- The name that stands for the parent of a map. -/
def parentName : Text := "__proto__".toList

/-- Pairs as named values: of two with the same name the later one counts, in the earlier place. -/
def ofPairs (pairs : List (Text × α)) : Fields α :=
  pairs.foldl (fun fields pair => fields.set pair.1 pair.2) []

/-- The index that a name is: a decimal number without leading zeros, below 2^32 - 1. -/
def index? : Text → Option Nat
  | [] => none
  | '0' :: _ :: _ => none
  | digits =>
    if digits.all Char.isDigit then
      let n := Text.natOfDigits digits
      if n < 4294967295 then some n else none
    else none

/-- A numbered field put before the first one whose number is not below its own. -/
def insertNumbered (entry : Nat × (Text × α)) : List (Nat × (Text × α)) → List (Nat × (Text × α))
  | [] => [entry]
  | other :: rest =>
    if entry.1 ≤ other.1 then entry :: other :: rest else other :: insertNumbered entry rest

/-- The fields whose names are indices, in the order of these. -/
def indexed (fields : Fields α) : Fields α :=
  let numbered := fields.filterMap fun field => (index? field.1).map fun n => (n, field)
  (numbered.foldr insertNumbered []).map (·.2)

/-- The fields with those whose names are indices before the others. -/
def arrange (fields : Fields α) : Fields α :=
  fields.indexed ++ fields.filter fun field => (index? field.1).isNone

/-! ### Small facts -/

@[simp] theorem get?_set_self (name : Text) (value : α) (fields : Fields α) :
    (fields.set name value).get? name = some value := by
  fun_induction set name value fields with
  | case1 => simp [get?]
  | case2 => simp [get?]
  | case3 other old rest h ih => simp [get?, h, ih]

theorem get?_set_of_ne {name other : Text} (value : α) (fields : Fields α) (h : other ≠ name) :
    (fields.set name value).get? other = fields.get? other := by
  fun_induction set name value fields with
  | case1 => simp [get?, h.symm]
  | case2 old rest => simp [get?, h.symm]
  | case3 key old rest hkey ih => simp [get?, ih]

theorem names_set (name : Text) (value : α) (fields : Fields α) :
    (fields.set name value).names =
      if name ∈ fields.names then fields.names else fields.names ++ [name] := by
  fun_induction set name value fields with
  | case1 => simp [names]
  | case2 => simp [names]
  | case3 other old rest h ih =>
    simp only [names, List.map_cons, List.mem_cons] at ih ⊢
    rw [ih]
    have : name ≠ other := fun e => h e.symm
    by_cases hm : name ∈ rest.map (·.1) <;> simp [hm, this]

/-- A new name is put behind the others. -/
theorem set_of_new {fields : Fields α} {name : Text} (value : α) (h : name ∉ fields.names) :
    fields.set name value = fields ++ [(name, value)] := by
  induction fields with
  | nil => rfl
  | cons field rest ih =>
    have hne : field.1 ≠ name := fun he => h (he ▸ List.mem_cons_self)
    rw [set, if_neg hne, ih fun hm => h (List.mem_cons_of_mem _ hm)]
    rfl

theorem mem_of_get? {fields : Fields α} {name : Text} {value : α}
    (h : fields.get? name = some value) : (name, value) ∈ fields := by
  fun_induction get? name fields with
  | case1 => cases h
  | case2 => cases h; exact List.mem_cons_self
  | case3 other old rest hne ih => exact List.mem_cons_of_mem _ (ih h)

theorem mem_set {fields : Fields α} {name : Text} {value : α} {p : Text × α}
    (h : p ∈ fields.set name value) : p = (name, value) ∨ p ∈ fields := by
  fun_induction set name value fields with
  | case1 => exact Or.inl (List.mem_singleton.mp h)
  | case2 => exact (List.mem_cons.mp h).imp_right (List.mem_cons_of_mem _)
  | case3 other old rest hne ih =>
    rcases List.mem_cons.mp h with rfl | h
    · exact Or.inr List.mem_cons_self
    · exact (ih h).imp_right (List.mem_cons_of_mem _)

theorem mem_ofPairs {pairs : List (Text × α)} {p : Text × α} (h : p ∈ ofPairs pairs) :
    p ∈ pairs := by
  have hfold : ∀ (pairs : List (Text × α)) (fields : Fields α),
      p ∈ pairs.foldl (fun fields pair => fields.set pair.1 pair.2) fields →
        p ∈ pairs ∨ p ∈ fields := by
    intro pairs
    induction pairs with
    | nil => exact fun _ h => Or.inr h
    | cons pair rest ih =>
      intro fields h
      rcases ih _ h with h | h
      · exact Or.inl (List.mem_cons_of_mem pair h)
      · rcases mem_set h with rfl | h
        · exact Or.inl List.mem_cons_self
        · exact Or.inr h
  exact (hfold pairs [] h).resolve_right List.not_mem_nil

/-- Pairs with different names are named values as they are. -/
theorem ofPairs_eq_self {pairs : Fields α} (h : pairs.names.Nodup) : ofPairs pairs = pairs := by
  have hfold : ∀ (pairs fields : Fields α), (fields ++ pairs).names.Nodup →
      pairs.foldl (fun fields pair => fields.set pair.1 pair.2) fields = fields ++ pairs := by
    intro pairs
    induction pairs with
    | nil => exact fun fields _ => (List.append_nil fields).symm
    | cons pair rest ih =>
      intro fields hnodup
      have hnew : pair.1 ∉ fields.names := by
        rw [names, List.map_append] at hnodup
        exact fun hm => (List.nodup_append.mp hnodup).2.2 _ hm _ List.mem_cons_self rfl
      have happend : fields ++ pair :: rest = fields ++ [pair] ++ rest := List.append_cons _ _ _
      rw [happend] at hnodup ⊢
      rw [List.foldl_cons, set_of_new _ hnew]
      exact ih _ hnodup
  exact hfold pairs [] h

/-- Where no name is an index the order stays. -/
theorem arrange_eq_self {fields : Fields α} (h : ∀ name ∈ fields.names, index? name = none) :
    fields.arrange = fields := by
  have hnone : ∀ field ∈ fields, index? field.1 = none := fun field hf =>
    h field.1 (List.mem_map_of_mem hf)
  have hnumbered : (fields.filterMap fun field => (index? field.1).map fun n => (n, field)) = [] :=
    List.filterMap_eq_nil_iff.2 fun field hf => by simp [hnone field hf]
  have hrest : (fields.filter fun field => (index? field.1).isNone) = fields :=
    List.filter_eq_self.2 fun field hf => by simp [hnone field hf]
  simp [arrange, indexed, hnumbered, hrest]

end Fields

end DesiredState
