/-
Declared types.

A schema declares the type of a property by a name in brackets, such as `[String]`,
`[Int32[]]` or `[MSFT_Credential]`.  The name decides how values are read: as
strings, integers, booleans, or arrays of the first two; by their own shape, for types
that have no reading of their own; and as blocks of a class for every name that is
no type of the host.
-/
import DesiredState.Text.Blank
import DesiredState.Text.Case

namespace DesiredState

/-- A declared type. -/
inductive DeclaredType where
  | string
  | stringArray
  | integer
  | integerArray
  | boolean
  /-- A block of a class. -/
  | subObject (typeName : Text)
  /-- An array of such blocks. -/
  | subObjectArray (typeName : Text)
  /-- A type of the host whose values are taken for what they are. -/
  | other (typeName : Text)
  deriving DecidableEq, Repr

namespace DeclaredType

/-- The name of a kind of type. -/
def kindName : DeclaredType → Text
  | string => "String"
  | stringArray => "StringArray"
  | integer => "Integer"
  | integerArray => "IntegerArray"
  | boolean => "Boolean"
  | subObject _ => "SubObject"
  | subObjectArray _ => "SubObjectArray"
  | other _ => "Opaque"

/-- The name of a type that is known by its name alone. -/
def typeName? : DeclaredType → Option Text
  | subObject name | subObjectArray name | other name => some name
  | _ => none

/-- What a type of the host is read as. -/
inductive Scalar where
  | string
  | integer
  | boolean
  | other
  deriving DecidableEq, Repr

/-- The types of the host, by lower-case name. -/
def hostTypes : List (String × Scalar) := [
  ("string", .string), ("char", .string), ("guid", .string), ("datetime", .string),
  ("uri", .string),
  ("int", .integer), ("int16", .integer), ("int32", .integer), ("int64", .integer),
  ("uint16", .integer), ("uint32", .integer), ("uint64", .integer), ("long", .integer),
  ("byte", .integer), ("sbyte", .integer),
  ("bool", .boolean), ("boolean", .boolean), ("switch", .boolean),
  ("hashtable", .other), ("double", .other), ("single", .other), ("float", .other),
  ("decimal", .other), ("real32", .other), ("real64", .other), ("object", .other),
  ("scriptblock", .other)]

/-- The types of the host that are classes under another name, by lower-case name. -/
def hostClasses : List (String × String) := [
  ("pscredential", "MSFT_Credential"),
  ("management.automation.pscredential", "MSFT_Credential")]

/-- A text without the brackets around it. -/
def unbracket (t : Text) : Text :=
  match Text.dropHead? ['['] t with
  | none => t
  | some inner =>
    match Text.dropTail? [']'] inner with
    | none => t
    | some name => Text.trim name

/-- The type with a bare name, or of arrays of it.

Classes called `constructor` or `__proto__` keep their names here.  Looked up together with what
the tables inherit, these two are found as members that are no text, and such a member stands where
the name should be.  The kind of type is the same, and no reader of values asks for the name. -/
def ofName (name : Text) (isArray : Bool) : DeclaredType :=
  let key := String.ofList (Text.lower name)
  let shown := if isArray then name ++ ['[', ']'] else name
  match hostTypes.lookup key with
  | some .string => if isArray then stringArray else string
  | some .integer => if isArray then integerArray else integer
  | some .boolean => if isArray then other shown else boolean
  | some .other => other shown
  | none =>
    let className := ((hostClasses.lookup key).map String.toList).getD name
    if isArray then subObjectArray className else subObject className

/-- The type that a declaration denotes. -/
def ofText (declared : Text) : DeclaredType :=
  let name := unbracket (Text.trim declared)
  let withoutRoot (t : Text) : Text := (Text.dropWord? "system." t).getD t
  match Text.dropTail? ['[', ']'] name with
  | some element => ofName (withoutRoot (Text.trim element)) true
  | none => ofName (withoutRoot name) false

end DeclaredType

end DesiredState
