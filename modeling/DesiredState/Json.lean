/-
JSON values.

Catalogs come as JSON, and so may entries to be rendered that nobody has checked yet.
An object lists its members in the order in which their names were first given.
-/
import DesiredState.Fields
import DesiredState.Number.Binary64

namespace DesiredState

/-- A JSON value. -/
inductive Json where
  | null
  | bool (value : Bool)
  | number (value : Binary64)
  | string (text : Text)
  | array (items : List Json)
  | object (members : List (Text × Json))

namespace Json

/-- The name of the type of a value. -/
def typeName : Json → Text
  | null => "null"
  | bool _ => "boolean"
  | number _ => "number"
  | string _ => "string"
  | array _ => "array"
  | object _ => "object"

/-- The member of an object by name. -/
def member? (name : Text) : Json → Option Json
  | object members => Fields.get? name members
  | _ => none

end Json

end DesiredState
