/-
Values that fit their declarations.

A value fits a declared type if it is of the kind that the type takes and, where it is
a block, of a class that the resource may use: the block knows the class by its own
name, and its properties are declared there and fit in turn.  Which values without
blocks there may be is left open.
-/
import DesiredState.Proofs.Layout.Literals
import DesiredState.Schema

namespace DesiredState

/-! ### Values that fit -/

/-- Whether a declared type takes a value as it is, by its kind. -/
def DeclaredType.takes : DeclaredType → Value → Bool
  | .string, .string _ | .integer, .integer _ | .boolean, .boolean _ => true
  | .stringArray, .stringArray _ | .integerArray, .integerArray _ => true
  | .subObject _, .subObject _ | .subObjectArray _, .subObjectArray _ => true
  | .other _, .string _ | .other _, .integer _ | .other _, .boolean _ => true
  | .other _, .stringArray _ | .other _, .subObject _ => true
  | .other _, .subObjectArray items => !items.isEmpty
  | _, _ => false

section Fits

variable (leaf : Value → Prop) (schema : Option Schema.Resource)

mutual

/-- A value fits a declared type; `leaf` says which values without blocks there may be. -/
def Value.Fits (type : DeclaredType) : Value → Prop
  | .subObject b => type.takes (.subObject b) ∧ b.Fits
  | .subObjectArray items => type.takes (.subObjectArray items) ∧ SubObject.FitAll items
  | flat => type.takes flat ∧ leaf flat

/-- A block is of a class that the resource may use, and has declared properties that fit. -/
def SubObject.Fits : SubObject → Prop
  | ⟨typeName, properties⟩ => ∃ c : Schema.Class, typeName = some c.typeName ∧
      Token.IsWord .bareword c.typeName ∧
      Schema.Resource.classOf? schema (Text.lower c.typeName) = some c ∧
      AreKeys (Fields.names properties) ∧ Value.FitFields c.properties properties

/-- Blocks that fit. -/
def SubObject.FitAll : List SubObject → Prop
  | [] => True
  | b :: rest => b.Fits ∧ SubObject.FitAll rest

/-- Properties that are declared, with values that fit the declared types. -/
def Value.FitFields (declared : List Schema.Property) : List (Text × Value) → Prop
  | [] => True
  | (key, x) :: rest => (∃ p, Schema.Property.find? key declared = some p ∧ x.Fits p.type) ∧
      Value.FitFields declared rest

end

end Fits

/-! ### Other values in place of those without blocks -/

mutual

/-- A value with another one in place of each that has no blocks. -/
def Value.mapLeaves (f : Value → Value) : Value → Value
  | .subObject b => .subObject (b.mapLeaves f)
  | .subObjectArray items => .subObjectArray (SubObject.mapAll f items)
  | flat => f flat

def SubObject.mapLeaves (f : Value → Value) : SubObject → SubObject
  | ⟨typeName, properties⟩ => ⟨typeName, Value.mapFields f properties⟩

def SubObject.mapAll (f : Value → Value) : List SubObject → List SubObject
  | [] => []
  | b :: rest => b.mapLeaves f :: SubObject.mapAll f rest

def Value.mapFields (f : Value → Value) : List (Text × Value) → List (Text × Value)
  | [] => []
  | (key, x) :: rest => (key, x.mapLeaves f) :: Value.mapFields f rest

end

theorem Value.mapLeaves_of_isFlat {x : Value} (h : x.isFlat) (f : Value → Value) :
    x.mapLeaves f = f x := by
  cases x <;> first | rfl | exact absurd h Bool.false_ne_true

mutual

/-- With each value in its own place nothing changes. -/
theorem Value.mapLeaves_id (x : Value) : x.mapLeaves id = x := by
  match x with
  | .subObject b => rw [Value.mapLeaves, SubObject.mapLeaves_id b]
  | .subObjectArray items => rw [Value.mapLeaves, SubObject.mapAll_id items]
  | .string t => rfl
  | .integer n => rfl
  | .boolean v => rfl
  | .stringArray ts => rfl
  | .integerArray ns => rfl
  | .raw t => rfl

theorem SubObject.mapLeaves_id (b : SubObject) : b.mapLeaves id = b := by
  match b with
  | ⟨typeName, properties⟩ => rw [SubObject.mapLeaves, Value.mapFields_id properties]

theorem SubObject.mapAll_id (items : List SubObject) : SubObject.mapAll id items = items := by
  match items with
  | [] => rfl
  | b :: rest => rw [SubObject.mapAll, SubObject.mapLeaves_id b, SubObject.mapAll_id rest]

theorem Value.mapFields_id (fields : List (Text × Value)) : Value.mapFields id fields = fields := by
  match fields with
  | [] => rfl
  | (key, x) :: rest => rw [Value.mapFields, Value.mapLeaves_id x, Value.mapFields_id rest]

end

/-! ### Values as maps hold them

The properties of blocks and of instances are read into maps, and a map holds nothing under the
name of its parent.  Where no property is called so, at any depth, nothing is lost.
-/

mutual

/-- A value without the properties that a map would not hold. -/
def Value.kept : Value → Value
  | .subObject b => .subObject b.kept
  | .subObjectArray items => .subObjectArray (SubObject.keptAll items)
  | flat => flat

def SubObject.kept : SubObject → SubObject
  | ⟨typeName, properties⟩ => ⟨typeName, Value.keptFields properties⟩

def SubObject.keptAll : List SubObject → List SubObject
  | [] => []
  | b :: rest => b.kept :: SubObject.keptAll rest

/-- The properties that a map holds. -/
def Value.keptFields : List (Text × Value) → List (Text × Value)
  | [] => []
  | (key, x) :: rest =>
    if key = Fields.parentName then Value.keptFields rest
    else (key, x.kept) :: Value.keptFields rest

end

theorem Value.length_keptFields_le (fields : List (Text × Value)) :
    (Value.keptFields fields).length ≤ fields.length := by
  induction fields with
  | nil => exact Nat.le_refl 0
  | cons p rest ih =>
    rw [Value.keptFields]
    split
    · exact Nat.le_succ_of_le ih
    · exact Nat.succ_le_succ ih

/-- Properties are held as they are if none of them is lost, and nothing in them. -/
theorem Value.keptFields_eq_self_iff {fields : List (Text × Value)} :
    Value.keptFields fields = fields ↔
      ∀ p ∈ fields, p.1 ≠ Fields.parentName ∧ p.2.kept = p.2 := by
  induction fields with
  | nil => exact iff_of_true rfl fun _ hp => absurd hp List.not_mem_nil
  | cons p rest ih =>
    obtain ⟨key, x⟩ := p
    rw [Value.keptFields, List.forall_mem_cons]
    by_cases hkey : key = Fields.parentName
    · rw [if_pos hkey]
      refine iff_of_false (fun h => ?_) fun h => h.1.1 hkey
      have hlength := Value.length_keptFields_le rest
      rw [h] at hlength
      exact absurd hlength (Nat.not_succ_le_self _)
    · rw [if_neg hkey, List.cons.injEq, Prod.mk.injEq, ih]
      simp only [hkey, ne_eq, not_false_eq_true, true_and]

/-- Whether anything is lost does not depend on the order. -/
theorem Value.keptFields_sortByKey_iff {fields : List (Text × Value)} :
    Value.keptFields (Text.sortByKey fields) = Text.sortByKey fields ↔
      Value.keptFields fields = fields := by
  rw [Value.keptFields_eq_self_iff, Value.keptFields_eq_self_iff]
  simp only [Text.mem_sortByKey]

mutual

/-- Sorting loses nothing and brings nothing back. -/
theorem Value.kept_sorted_iff (x : Value) : x.sorted.kept = x.sorted ↔ x.kept = x := by
  match x with
  | .subObject b =>
    rw [Value.sorted, Value.kept, Value.kept, Value.subObject.injEq, Value.subObject.injEq]
    exact SubObject.kept_sorted_iff b
  | .subObjectArray items =>
    rw [Value.sorted, Value.kept, Value.kept, Value.subObjectArray.injEq,
      Value.subObjectArray.injEq]
    exact SubObject.keptAll_sorted_iff items
  | .string _ | .integer _ | .boolean _ | .stringArray _ | .integerArray _ | .raw _ => exact Iff.rfl

theorem SubObject.kept_sorted_iff (b : SubObject) : b.sorted.kept = b.sorted ↔ b.kept = b := by
  match b with
  | ⟨typeName, properties⟩ =>
    rw [SubObject.sorted, SubObject.kept, SubObject.kept, SubObject.mk.injEq, SubObject.mk.injEq,
      Value.keptFields_sortByKey_iff, Value.keptFields_sorted_iff properties]

theorem SubObject.keptAll_sorted_iff (items : List SubObject) :
    SubObject.keptAll (SubObject.sortedAll items) = SubObject.sortedAll items ↔
      SubObject.keptAll items = items := by
  match items with
  | [] => exact Iff.rfl
  | b :: rest =>
    rw [SubObject.sortedAll, SubObject.keptAll, SubObject.keptAll, List.cons.injEq,
      List.cons.injEq, SubObject.kept_sorted_iff b, SubObject.keptAll_sorted_iff rest]

theorem Value.keptFields_sorted_iff (fields : List (Text × Value)) :
    Value.keptFields (Value.sortedFields fields) = Value.sortedFields fields ↔
      Value.keptFields fields = fields := by
  match fields with
  | [] => exact Iff.rfl
  | (key, x) :: rest =>
    have hrest := Value.keptFields_sorted_iff rest
    rw [Value.keptFields_eq_self_iff] at hrest ⊢
    rw [Value.keptFields_eq_self_iff] at hrest ⊢
    rw [Value.sortedFields, List.forall_mem_cons, List.forall_mem_cons, hrest,
      Value.kept_sorted_iff x]

end

/-! ### What fitting values are like -/

section

variable {leaf : Value → Prop} {schema : Option Schema.Resource}

theorem Value.fitFields_iff {declared : List Schema.Property} {fields : List (Text × Value)} :
    Value.FitFields leaf schema declared fields ↔ ∀ q ∈ fields, ∃ p,
      Schema.Property.find? q.1 declared = some p ∧ q.2.Fits leaf schema p.type := by
  induction fields with
  | nil => simp [Value.FitFields]
  | cons q rest ih => simp [Value.FitFields, ih]

mutual

/-- Values that fit can be laid out. -/
theorem Value.Fits.isShaped {x : Value} {type : DeclaredType} (h : x.Fits leaf schema type) :
    x.IsShaped leaf := by
  match x with
  | .subObject b =>
    obtain ⟨hnamed, hshaped⟩ := SubObject.Fits.isShaped h.2
    exact .block hnamed hshaped
  | .subObjectArray items =>
    have hall := SubObject.FitAll.isShaped h.2
    exact .blocks (fun b hb => (hall b hb).1) fun b hb => (hall b hb).2
  | .string t => exact .flat h.2 rfl
  | .integer n => exact .flat h.2 rfl
  | .boolean v => exact .flat h.2 rfl
  | .stringArray ts => exact .flat h.2 rfl
  | .integerArray ns => exact .flat h.2 rfl
  | .raw t => exact .flat h.2 rfl

theorem SubObject.Fits.isShaped {b : SubObject} (h : b.Fits leaf schema) :
    b.IsNamed ∧ ∀ p ∈ b.properties, p.2.IsShaped leaf := by
  match b with
  | ⟨typeName, properties⟩ =>
    obtain ⟨c, htype, hword, -, hkeys, hfields⟩ := h
    exact ⟨⟨⟨c.typeName, htype, hword⟩, hkeys⟩, Value.FitFields.isShaped hfields⟩

theorem SubObject.FitAll.isShaped {items : List SubObject}
    (h : SubObject.FitAll leaf schema items) :
    ∀ b ∈ items, b.IsNamed ∧ ∀ p ∈ b.properties, p.2.IsShaped leaf := by
  match items with
  | [] => exact fun _ hb => absurd hb List.not_mem_nil
  | b :: rest =>
    have hfirst := SubObject.Fits.isShaped h.1
    have hrest := SubObject.FitAll.isShaped h.2
    intro other hother
    rcases List.mem_cons.mp hother with rfl | hother
    · exact hfirst
    · exact hrest other hother

theorem Value.FitFields.isShaped {declared : List Schema.Property} {fields : List (Text × Value)}
    (h : Value.FitFields leaf schema declared fields) : ∀ p ∈ fields, p.2.IsShaped leaf := by
  match fields with
  | [] => exact fun _ hp => absurd hp List.not_mem_nil
  | (key, x) :: rest =>
    obtain ⟨⟨p, -, hx⟩, hmore⟩ := h
    have hfirst := Value.Fits.isShaped hx
    have hrest := Value.FitFields.isShaped hmore
    intro q hq
    rcases List.mem_cons.mp hq with rfl | hq
    · exact hfirst
    · exact hrest q hq

end

theorem DeclaredType.takes_sorted (type : DeclaredType) (x : Value) :
    type.takes x.sorted = type.takes x := by
  cases x with
  | subObjectArray items => cases type <;> cases items <;> rfl
  | _ => cases type <;> rfl

mutual

/-- Sorting keeps what fits. -/
theorem Value.Fits.sorted {x : Value} {type : DeclaredType} (h : x.Fits leaf schema type) :
    x.sorted.Fits leaf schema type := by
  have htakes := DeclaredType.takes_sorted type x
  match x with
  | .subObject b => exact ⟨htakes.trans h.1, SubObject.Fits.sorted h.2⟩
  | .subObjectArray items => exact ⟨htakes.trans h.1, SubObject.FitAll.sorted h.2⟩
  | .string t => exact h
  | .integer n => exact h
  | .boolean v => exact h
  | .stringArray ts => exact h
  | .integerArray ns => exact h
  | .raw t => exact h

theorem SubObject.Fits.sorted {b : SubObject} (h : b.Fits leaf schema) :
    b.sorted.Fits leaf schema := by
  match b with
  | ⟨typeName, properties⟩ =>
    obtain ⟨c, htype, hword, hclass, hkeys, hfields⟩ := h
    refine ⟨c, htype, hword, hclass, hkeys.perm (names_sorted properties), ?_⟩
    have hsorted := Value.fitFields_iff.mp (Value.FitFields.sorted hfields)
    refine Value.fitFields_iff.mpr ?_
    intro q hq
    exact hsorted q (Text.mem_sortByKey.mp hq)

theorem SubObject.FitAll.sorted {items : List SubObject}
    (h : SubObject.FitAll leaf schema items) :
    SubObject.FitAll leaf schema (SubObject.sortedAll items) := by
  match items with
  | [] => trivial
  | b :: rest => exact ⟨SubObject.Fits.sorted h.1, SubObject.FitAll.sorted h.2⟩

theorem Value.FitFields.sorted {declared : List Schema.Property} {fields : List (Text × Value)}
    (h : Value.FitFields leaf schema declared fields) :
    Value.FitFields leaf schema declared (Value.sortedFields fields) := by
  match fields with
  | [] => trivial
  | (key, x) :: rest =>
    obtain ⟨⟨p, hp, hx⟩, hrest⟩ := h
    exact ⟨⟨p, hp, Value.Fits.sorted hx⟩, Value.FitFields.sorted hrest⟩

end

end

end DesiredState
