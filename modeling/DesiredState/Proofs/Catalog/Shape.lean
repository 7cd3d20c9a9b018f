/-
Shapes of JSON values.

A shape says of which type a value is and what its items and members are like.  A value fits a
shape or violates it in places: a path leads down the members and items of the value, along
with those of the shape, to a member that is missing, to a value of another type or to an empty
text.  What fits has a normal form, without the members that nobody asks for and with the
default values of those that were left out.
-/
import DesiredState.Catalog.Reader
import Mathlib.Data.List.Basic

namespace DesiredState

/-- A name alone with its value, if there is one. -/
def Fields.just {α : Type} (name : Text) (value : Option α) : Fields α :=
  (value.map (name, ·)).toList

/-- What it means that a member is left out. -/
inductive Absence where
  | fault
  | nothing
  /-- The member is taken to have a value. -/
  | default (value : Json)

/-- The value that a member has nevertheless. -/
def Absence.value? : Absence → Option Json
  | fault | nothing => none
  | default value => some value

/-- A member of an object. -/
structure Member (shape : Type) where
  name : Text
  shape : shape
  absence : Absence

/-- What a value is to be like. -/
inductive Shape where
  | text
  | someText
  | bool
  | array (item : Shape)
  | object (members : List (Member Shape))

namespace Shape

/-- The type of the values of a shape. -/
def typeName : Shape → Text
  | text | someText => "string"
  | bool => "boolean"
  | array _ => "array"
  | object _ => "object"

/-- A value fits a shape. -/
inductive Fits : Shape → Json → Prop
  | text (t : Text) : Fits text (.string t)
  | someText {t : Text} : t ≠ [] → Fits someText (.string t)
  | bool (b : Bool) : Fits bool (.bool b)
  | array {item : Shape} {values : List Json} :
      (∀ value ∈ values, Fits item value) → Fits (array item) (.array values)
  | object {members : List (Member Shape)} {fields : Fields Json} :
      (∀ member ∈ members, ∀ value, fields.get? member.name = some value →
        Fits member.shape value) →
      (∀ member ∈ members, fields.get? member.name = none → member.absence ≠ .fault) →
      Fits (object members) (.object fields)

/-- At the end of a path a value violates a shape. -/
inductive Violated : Shape → Json → List Text → Problem → Prop
  | mismatch {shape : Shape} {value : Json} : value.typeName ≠ shape.typeName →
      Violated shape value [] (.wrongType shape.typeName value.typeName)
  | empty : Violated someText (.string []) [] .emptyText
  | item {shape : Shape} {values : List Json} {n : Nat} {value : Json} {path : List Text}
      {problem : Problem} : values[n]? = some value → Violated shape value path problem →
      Violated (array shape) (.array values) (Text.ofNat n :: path) problem
  | missing {members : List (Member Shape)} {fields : Fields Json} {member : Member Shape} :
      member ∈ members → fields.get? member.name = none → member.absence = .fault →
      Violated (object members) (.object fields) [member.name] .missing
  | member {members : List (Member Shape)} {fields : Fields Json} {member : Member Shape}
      {value : Json} {path : List Text} {problem : Problem} : member ∈ members →
      fields.get? member.name = some value → Violated member.shape value path problem →
      Violated (object members) (.object fields) (member.name :: path) problem

mutual

/-- The normal form of a value. -/
def normal : Shape → Json → Json
  | array item, .array values => .array (values.map fun value => item.normal value)
  | object members, .object fields => .object (normalMembers members fields)
  | _, value => value

/-- The members of the normal form of an object. -/
def normalMembers : List (Member Shape) → Fields Json → Fields Json
  | [], _ => []
  | member :: rest, fields =>
    Fields.just member.name (normalMember member fields) ++ normalMembers rest fields

/-- The value of a member of the normal form of an object, if there is one. -/
def normalMember : Member Shape → Fields Json → Option Json
  | ⟨name, shape, absence⟩, fields =>
    match fields.get? name with
    | some value => some (shape.normal value)
    | none => absence.value?

end

theorem normalMember_of_some {member : Member Shape} {fields : Fields Json} {value : Json}
    (h : fields.get? member.name = some value) :
    normalMember member fields = some (member.shape.normal value) := by
  rw [normalMember, h]

theorem normalMember_of_none {member : Member Shape} {fields : Fields Json}
    (h : fields.get? member.name = none) :
    normalMember member fields = member.absence.value? := by
  rw [normalMember, h]

theorem normalMembers_append (members more : List (Member Shape)) (fields : Fields Json) :
    normalMembers (members ++ more) fields =
      normalMembers members fields ++ normalMembers more fields := by
  induction members with
  | nil => rw [normalMembers]; rfl
  | cons member rest ih =>
    rw [List.cons_append, normalMembers, ih, normalMembers, List.append_assoc]

theorem get?_normalMembers_eq_none {name : Text} {members : List (Member Shape)}
    (h : name ∉ members.map (·.name)) (fields : Fields Json) :
    (normalMembers members fields).get? name = none := by
  induction members with
  | nil => rw [normalMembers]; rfl
  | cons member rest ih =>
    rw [List.map_cons, List.mem_cons, not_or] at h
    rw [normalMembers]
    cases normalMember member fields with
    | none => exact ih h.2
    | some value =>
      show (if member.name = name then some value
        else (normalMembers rest fields).get? name) = none
      rw [if_neg (Ne.symm h.1), ih h.2]

/-- Under the name of a member stands its value in the normal form. -/
theorem get?_normalMembers {member : Member Shape} {members : List (Member Shape)}
    (hnames : (members.map (·.name)).Nodup) (h : member ∈ members) (fields : Fields Json) :
    (normalMembers members fields).get? member.name = normalMember member fields := by
  induction members with
  | nil => cases h
  | cons first rest ih =>
    rw [List.map_cons, List.nodup_cons] at hnames
    rw [normalMembers]
    obtain rfl | h := List.mem_cons.mp h
    · cases normalMember member fields with
      | none => exact get?_normalMembers_eq_none hnames.1 fields
      | some value => exact if_pos rfl
    · have hne : first.name ≠ member.name := fun he =>
        hnames.1 (he ▸ List.mem_map_of_mem h)
      cases normalMember first fields with
      | none => exact ih hnames.2 h
      | some value =>
        show (if first.name = member.name then some value
          else (normalMembers rest fields).get? member.name) = _
        rw [if_neg hne, ih hnames.2 h]

/-! ### Violations -/

theorem Fits.typeName_eq {shape : Shape} {value : Json} (h : shape.Fits value) :
    value.typeName = shape.typeName := by
  cases h <;> rfl

theorem Fits.not_violated {shape : Shape} {value : Json} (h : shape.Fits value)
    {path : List Text} {problem : Problem} : ¬ shape.Violated value path problem := by
  intro hviolated
  induction hviolated with
  | mismatch hne => exact hne h.typeName_eq
  | empty =>
    cases h with
    | someText hne => exact hne rfl
  | item hget _ ih =>
    cases h with
    | array hitems => exact ih (hitems _ (List.mem_of_getElem? hget))
  | missing hmember hget hfault =>
    cases h with
    | object _ hpresent => exact hpresent _ hmember hget hfault
  | member hmember hget _ ih =>
    cases h with
    | object hmembers _ => exact ih (hmembers _ hmember _ hget)

section Types

variable {value : Json}

theorem exists_string (h : value.typeName = "string") : ∃ t, value = .string t := by
  cases value with
  | string t => exact ⟨t, rfl⟩
  | _ =>
    unfold Json.typeName at h
    simp at h

theorem exists_bool (h : value.typeName = "boolean") : ∃ b, value = .bool b := by
  cases value with
  | bool b => exact ⟨b, rfl⟩
  | _ =>
    unfold Json.typeName at h
    simp at h

theorem exists_array (h : value.typeName = "array") : ∃ values, value = .array values := by
  cases value with
  | array values => exact ⟨values, rfl⟩
  | _ =>
    unfold Json.typeName at h
    simp at h

theorem exists_object (h : value.typeName = "object") : ∃ fields, value = .object fields := by
  cases value with
  | object fields => exact ⟨fields, rfl⟩
  | _ =>
    unfold Json.typeName at h
    simp at h

end Types

theorem sizeOf_lt_object {members : List (Member Shape)} {member : Member Shape}
    (h : member ∈ members) : sizeOf member.shape < sizeOf (object members) := by
  have hmember := List.sizeOf_lt_of_mem h
  have hshape : sizeOf member.shape < sizeOf member := by
    rw [Member.mk.sizeOf_spec member.name]
    omega
  rw [object.sizeOf_spec]
  omega

/-- Where nothing is violated a value fits, and so do its parts. -/
theorem fits_of_not_violated (shape : Shape) (value : Json)
    (h : ∀ path problem, ¬ shape.Violated value path problem) : shape.Fits value := by
  have htype : value.typeName = shape.typeName := by
    by_contra hne
    exact h _ _ (.mismatch hne)
  cases shape with
  | text =>
    obtain ⟨t, rfl⟩ := exists_string htype
    exact .text t
  | someText =>
    obtain ⟨t, rfl⟩ := exists_string htype
    refine .someText ?_
    rintro rfl
    exact h _ _ .empty
  | bool =>
    obtain ⟨b, rfl⟩ := exists_bool htype
    exact .bool b
  | array item =>
    obtain ⟨values, rfl⟩ := exists_array htype
    refine .array fun value hvalue => fits_of_not_violated item value fun path problem hv => ?_
    obtain ⟨n, hn⟩ := List.getElem?_of_mem hvalue
    exact h _ _ (.item hn hv)
  | object members =>
    obtain ⟨fields, rfl⟩ := exists_object htype
    refine .object (fun member hmember value hget => ?_) fun member hmember hget hfault =>
      h _ _ (.missing hmember hget hfault)
    exact fits_of_not_violated member.shape value fun path problem hv =>
      h _ _ (.member hmember hget hv)
termination_by sizeOf shape
decreasing_by
  · subst_vars
    decreasing_tactic
  · subst_vars
    exact sizeOf_lt_object hmember

/-- **A value fits a shape if and only if it violates the shape nowhere.** -/
theorem fits_iff {shape : Shape} {value : Json} :
    shape.Fits value ↔ ∀ path problem, ¬ shape.Violated value path problem :=
  ⟨fun h _ _ => h.not_violated, fits_of_not_violated shape value⟩

end Shape

end DesiredState
