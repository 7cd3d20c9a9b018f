/-
Reading catalogs.

A catalog is read from JSON.  Reading checks the whole value and collects every
issue: at which place a member is missing, has a wrong type or is an empty text.
Where nothing is wrong, members that may be left out get their default values and
members that nobody asks for are dropped.
-/
import DesiredState.Catalog
import DesiredState.Json.Reader

namespace DesiredState

/-- What is wrong at a place of a JSON value. -/
inductive Problem where
  | missing
  | wrongType (expected received : Text)
  | emptyText
  deriving DecidableEq, Repr

/-- A problem and the way to it, by names of members and numbers of items. -/
structure Issue where
  path : List Text
  problem : Problem
  deriving DecidableEq, Repr

/-- The wording of a problem. -/
def Problem.message : Problem → Text
  | missing => "Required"
  | wrongType expected received => "Expected " ++ expected ++ ", received " ++ received
  | emptyText => "String must contain at least 1 character(s)"

/-- The wording of an issue. -/
def Issue.message (i : Issue) : Text := Text.join ['.'] i.path ++ ": " ++ i.problem.message

/-- Why a text is no catalog. -/
inductive CatalogError where
  | notJson
  | invalid (issues : List Issue)
  deriving DecidableEq, Repr

/-- The wording of a catalog error. -/
def CatalogError.message : CatalogError → Text
  | notJson => "Failed to parse catalog JSON"
  | invalid issues => "Catalog validation failed: " ++ Text.join "; " (issues.map Issue.message)

/-! ### Checking

A check does not stop at the first issue.  What is built of several parts collects the
issues of all of them, in the order of the parts, so that the parts are put together
with `also` and not each after the one before.
-/

/-- A value, or everything that is wrong with it. -/
abbrev Checked := Except (List Issue)

namespace Checked

/-- What builds a value from its parts. -/
def building (build : α) : Checked α := .ok build

/-- The next part of a value; the issues of all parts count. -/
def also (f : Checked (α → β)) (x : Checked α) : Checked β :=
  match f, x with
  | .ok f, .ok x => .ok (f x)
  | .ok _, .error issues => .error issues
  | .error issues, .ok _ => .error issues
  | .error issues, .error more => .error (issues ++ more)

/-- The one issue of a value. -/
def fail (path : List Text) (problem : Problem) : Checked α := .error [⟨path, problem⟩]

end Checked

namespace Catalog

/-- A check of a value at a path. -/
abbrev Check (α : Type) := List Text → Json → Checked α

/-- The issue of a value that has another type than the expected one. -/
def mismatch (expected : Text) (path : List Text) (value : Json) : Checked α :=
  Checked.fail path (.wrongType expected value.typeName)

/-- A text. -/
def text : Check Text
  | _, .string t => .ok t
  | path, value => mismatch "string" path value

/-- A text that is not empty. -/
def someText : Check Text
  | path, .string [] => Checked.fail path .emptyText
  | _, .string t => .ok t
  | path, value => mismatch "string" path value

/-- A truth value. -/
def bool : Check Bool
  | _, .bool b => .ok b
  | path, value => mismatch "boolean" path value

/-- The items of an array, from a position on. -/
def items (check : Check α) (path : List Text) : Nat → List Json → Checked (List α)
  | _, [] => .ok []
  | n, value :: rest =>
    Checked.building List.cons
      |>.also (check (path ++ [Text.ofNat n]) value)
      |>.also (items check path (n + 1) rest)

/-- An array. -/
def array (check : Check α) : Check (List α)
  | path, .array values => items check path 0 values
  | path, value => mismatch "array" path value

/-- A member that has to be there. -/
def required (check : Check α) (path : List Text) (members : Fields Json) (name : Text) :
    Checked α :=
  match members.get? name with
  | some value => check (path ++ [name]) value
  | none => Checked.fail (path ++ [name]) .missing

/-- A member that may be left out. -/
def optional (check : Check α) (path : List Text) (members : Fields Json) (name : Text) :
    Checked (Option α) :=
  match members.get? name with
  | some value => (check (path ++ [name]) value).map some
  | none => .ok none

/-- A member that has a default value. -/
def defaulted (check : Check α) (default : α) (path : List Text) (members : Fields Json)
    (name : Text) : Checked α :=
  (optional check path members name).map (·.getD default)

/-- An object of which the members are checked. -/
def object (check : List Text → Fields Json → Checked α) : Check α
  | path, .object members => check path members
  | path, value => mismatch "object" path value

/-- A property of a resource or class. -/
def property : Check PropertyDecl :=
  object fun path members =>
    Checked.building PropertyDecl.mk
      |>.also (required someText path members "name")
      |>.also (required someText path members "propertyType")
      |>.also (defaulted bool false path members "isMandatory")
      |>.also (defaulted (array text) [] path members "values")

/-- A class of blocks. -/
def embeddedType : Check ClassDecl :=
  object fun path members =>
    Checked.building ClassDecl.mk
      |>.also (required someText path members "typeName")
      |>.also (defaulted (array property) [] path members "properties")

/-- A resource. -/
def resource : Check ResourceDecl :=
  object fun path members =>
    Checked.building ResourceDecl.mk
      |>.also (required someText path members "name")
      |>.also (optional text path members "moduleName")
      |>.also (optional text path members "moduleVersion")
      |>.also (optional text path members "friendlyName")
      |>.also (defaulted (array property) [] path members "properties")
      |>.also (defaulted (array embeddedType) [] path members "embeddedTypes")

/-- The catalog that a JSON value is. -/
def ofJson (value : Json) : Checked Catalog :=
  object (fun path members => required (array resource) path members "resources") [] value

/-- The catalog that a text is. -/
def read (t : Text) : Except CatalogError Catalog :=
  match Json.parse? t with
  | none => .error .notJson
  | some value => (ofJson value).mapError .invalid

end Catalog

end DesiredState
