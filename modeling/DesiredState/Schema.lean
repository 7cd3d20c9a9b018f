/-
Schemas.

A schema is a declaration of a catalog made ready for reading values: declared types
are decoded, the properties that every resource has are added, and the classes of
blocks are keyed by lower-case name.
-/
import DesiredState.Catalog
import DesiredState.Fields
import DesiredState.Schema.DeclaredType

namespace DesiredState

/-- A property with its decoded type. -/
structure Schema.Property where
  name : Text
  type : DeclaredType
  isMandatory : Bool
  allowed : List Text
  deriving DecidableEq, Repr

/-- A class of blocks. -/
structure Schema.Class where
  typeName : Text
  properties : List Schema.Property
  deriving DecidableEq, Repr

/-- A resource. -/
structure Schema.Resource where
  resourceName : Text
  moduleName : Option Text
  moduleVersion : Option Text
  properties : List Schema.Property
  /-- The classes that the resource declares, by lower-case name. -/
  classes : Fields Schema.Class
  deriving DecidableEq, Repr

namespace Schema

namespace Property

/-- The schema of a declared property. -/
def ofDecl (p : PropertyDecl) : Property :=
  ⟨p.name, .ofText p.propertyType, p.isMandatory, p.values⟩

/-- The first property with a name in any letter case. -/
def find? (name : Text) (properties : List Property) : Option Property :=
  properties.find? fun p => Text.sameName p.name name

/-- The properties that every resource has. -/
def universal : List Property := [
  ⟨"DependsOn", .stringArray, false, []⟩,
  ⟨"PsDscRunAsCredential", .subObject "MSFT_Credential", false, []⟩]

/-- Properties with one more, unless there is one of its name. -/
def addMissing (properties : List Property) (p : Property) : List Property :=
  if (find? p.name properties).isSome then properties else properties ++ [p]

end Property

namespace Class

/-- The schema of a declared class. -/
def ofDecl (c : ClassDecl) : Class := ⟨c.typeName, c.properties.map .ofDecl⟩

/-- The classes of the host, which every resource may use. -/
def ofHost : List Class := [
  ⟨"MSFT_Credential", [⟨"UserName", .string, true, []⟩, ⟨"Password", .string, true, []⟩]⟩,
  ⟨"MSFT_KeyValuePair", [⟨"Key", .string, true, []⟩, ⟨"Value", .string, false, []⟩]⟩]

/-- Classes by lower-case name; of two with the same name the later one counts. -/
def byName (classes : List Class) : Fields Class :=
  Fields.ofPairs (classes.map fun c => (Text.lower c.typeName, c))

end Class

namespace Resource

/-- The schema of a declared resource. -/
def ofDecl (r : ResourceDecl) : Resource :=
  { resourceName := r.name
    moduleName := r.moduleName
    moduleVersion := r.moduleVersion
    properties := Property.universal.foldl Property.addMissing (r.properties.map .ofDecl)
    classes := Class.byName (r.embeddedTypes.map .ofDecl) }

/-- The class with a lower-case name that a resource may use: its own, or one of the host. -/
def classOf? (schema : Option Resource) (key : Text) : Option Class :=
  (schema.bind fun s => s.classes.get? key).or ((Class.byName Class.ofHost).get? key)

end Resource

end Schema

end DesiredState
