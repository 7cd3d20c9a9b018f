/-
Instances as records.

A record is a JSON object made for other programs to read: the properties of an
instance by name, blocks as records of their own, and of each value only what it
holds.  It does not tell raw text from a string, so it cannot be turned back.  Members
whose names are indices come first, as in any object of such programs.
-/
import DesiredState.Json
import DesiredState.Value

namespace DesiredState

mutual

/-- A value in a record.  Blocks name their class if `tagged` asks for it. -/
def Value.toRecord (tagged : Bool) : Value → Json
  | .string text | .raw text => .string text
  | .integer number => .number number
  | .boolean value => .bool value
  | .stringArray texts => .array (texts.map .string)
  | .integerArray numbers => .array (numbers.map .number)
  | .subObject block => block.toRecord tagged
  | .subObjectArray blocks => .array (SubObject.toRecords tagged blocks)

/-- A block as a record. -/
def SubObject.toRecord (tagged : Bool) : SubObject → Json
  | ⟨typeName, properties⟩ =>
    let tag : Fields Json :=
      match typeName with
      | none | some [] => []
      | some name => if tagged then [("CIMInstance", .string name)] else []
    .object (Fields.arrange (Fields.ofPairs (tag ++ Value.toFields tagged properties)))

/-- Blocks as records. -/
def SubObject.toRecords (tagged : Bool) : List SubObject → List Json
  | [] => []
  | block :: rest => block.toRecord tagged :: SubObject.toRecords tagged rest

/-- Properties as members of a record, which holds none under the name of its parent. -/
def Value.toFields (tagged : Bool) : List (Text × Value) → List (Text × Json)
  | [] => []
  | (name, value) :: rest =>
    if name = Fields.parentName then Value.toFields tagged rest
    else (name, value.toRecord tagged) :: Value.toFields tagged rest

end

/-- An instance as a record: the type and the name of the resource come before the properties. -/
def Instance.toRecord (tagged : Bool) (i : Instance) : Json :=
  .object <| Fields.arrange <| Fields.ofPairs <|
    [("ResourceName".toList, .string i.resourceName),
      ("ResourceInstanceName".toList, .string i.instanceName)] ++
      Value.toFields tagged i.properties

end DesiredState
