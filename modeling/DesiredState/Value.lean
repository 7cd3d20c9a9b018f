/-
Typed property values and the instances that hold them.

An instance is one declared resource: its type, its name and its properties.  A
property holds a scalar, an array of scalars, a block of a class or an array of
such blocks; whatever could not be given a type is kept as the text it was written as.
-/
import DesiredState.Fields
import DesiredState.Number.Binary64

namespace DesiredState

mutual

/-- The value of a property. -/
inductive Value where
  | string (text : Text)
  | integer (number : Binary64)
  | boolean (value : Bool)
  | stringArray (texts : List Text)
  | integerArray (numbers : List Binary64)
  | subObject (block : SubObject)
  | subObjectArray (blocks : List SubObject)
  /-- Source text without an interpretation. -/
  | raw (text : Text)

/-- A block of a class. -/
structure SubObject where
  /-- The name of the class, unless it was not to be recorded. -/
  typeName : Option Text
  properties : List (Text × Value)

end

/-- A declared resource. -/
structure Instance where
  /-- The type of the resource. -/
  resourceName : Text
  /-- The name that the configuration gives to it. -/
  instanceName : Text
  properties : Fields Value

/-- The kinds of value. -/
inductive ValueKind where
  | string
  | integer
  | boolean
  | stringArray
  | integerArray
  | subObject
  | subObjectArray
  | raw
  deriving DecidableEq, Repr

namespace ValueKind

/-- The name of a kind of value. -/
def name : ValueKind → Text
  | string => "String"
  | integer => "Integer"
  | boolean => "Boolean"
  | stringArray => "StringArray"
  | integerArray => "IntegerArray"
  | subObject => "SubObject"
  | subObjectArray => "SubObjectArray"
  | raw => "Raw"

/-- All kinds of value. -/
def all : List ValueKind :=
  [string, integer, boolean, stringArray, integerArray, subObject, subObjectArray, raw]

/-- The kind with a name. -/
def ofName? (t : Text) : Option ValueKind := all.find? (·.name == t)

end ValueKind

/-- The kind of a value. -/
def Value.kind : Value → ValueKind
  | .string _ => .string
  | .integer _ => .integer
  | .boolean _ => .boolean
  | .stringArray _ => .stringArray
  | .integerArray _ => .integerArray
  | .subObject _ => .subObject
  | .subObjectArray _ => .subObjectArray
  | .raw _ => .raw

end DesiredState
