/-
Instances as JSON.

Unlike a record, the encoding keeps the kind of every value, so nothing is lost.  It is
the form in which instances are rendered.
-/
import DesiredState.Json
import DesiredState.Value

namespace DesiredState

/-- The encoding of a value of some kind. -/
def Value.encodeAs (kind : ValueKind) (member : Text) (content : Json) : Json :=
  .object [("kind", .string kind.name), (member, content)]

mutual

/-- The encoding of a value. -/
def Value.toJson : Value → Json
  | .string text => Value.encodeAs .string "value" (.string text)
  | .integer number => Value.encodeAs .integer "value" (.number number)
  | .boolean value => Value.encodeAs .boolean "value" (.bool value)
  | .stringArray texts => Value.encodeAs .stringArray "value" (.array (texts.map .string))
  | .integerArray numbers => Value.encodeAs .integerArray "value" (.array (numbers.map .number))
  | .subObject block => Value.encodeAs .subObject "value" block.toJson
  | .subObjectArray blocks =>
    Value.encodeAs .subObjectArray "value" (.array (SubObject.encodeAll blocks))
  | .raw text => Value.encodeAs .raw "text" (.string text)

/-- The encoding of a block. -/
def SubObject.toJson : SubObject → Json
  | ⟨typeName, properties⟩ =>
    let members : List (Text × Json) := [("properties", .object (Value.encodeFields properties))]
    match typeName with
    | some name => .object (("typeName".toList, .string name) :: members)
    | none => .object members

/-- The encodings of blocks. -/
def SubObject.encodeAll : List SubObject → List Json
  | [] => []
  | block :: rest => block.toJson :: SubObject.encodeAll rest

/-- The encodings of properties. -/
def Value.encodeFields : List (Text × Value) → List (Text × Json)
  | [] => []
  | (name, value) :: rest => (name, value.toJson) :: Value.encodeFields rest

end

/-- The encoding of an instance. -/
def Instance.toJson (i : Instance) : Json :=
  .object
    [("resourceName", .string i.resourceName), ("instanceName", .string i.instanceName),
      ("properties", .object (Value.encodeFields i.properties))]

end DesiredState
