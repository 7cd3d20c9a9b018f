/-
What a catalog says of resources.

A catalog declares resources: the properties of each with their types as they are
written, the module that the resource comes from, and the classes of the blocks that
its properties may hold.
-/
import DesiredState.Text.Basic

namespace DesiredState

/-- A property as a catalog declares it. -/
structure PropertyDecl where
  name : Text
  /-- The declared type, in brackets. -/
  propertyType : Text
  isMandatory : Bool
  /-- The values that are allowed, if the list is not empty. -/
  values : List Text
  deriving DecidableEq, Repr

/-- A class of blocks as a catalog declares it. -/
structure ClassDecl where
  typeName : Text
  properties : List PropertyDecl
  deriving DecidableEq, Repr

/-- A resource as a catalog declares it. -/
structure ResourceDecl where
  name : Text
  moduleName : Option Text
  moduleVersion : Option Text
  /-- The name by which configurations call the resource. -/
  friendlyName : Option Text
  properties : List PropertyDecl
  embeddedTypes : List ClassDecl
  deriving DecidableEq, Repr

/-- The declarations of a catalog, in order. -/
abbrev Catalog := List ResourceDecl

namespace ResourceDecl

/-- The declaration of a property in a template. -/
def templateLine (p : PropertyDecl) : Text :=
  let allowed : Text :=
    if p.values.isEmpty then [] else '\x7b' :: ' ' :: Text.join " | " p.values ++ [' ', '\x7d']
  let declaration := p.name ++ " = " ++ p.propertyType ++ allowed
  Text.spaces 4 ++ if p.isMandatory then declaration else '[' :: declaration ++ [']']

/-- The template by which a resource is declared: optional properties stand in brackets. -/
def template (r : ResourceDecl) : Text :=
  let head := r.friendlyName.getD r.name ++ " [String] #ResourceName"
  let lines := head :: ['\x7b'] :: r.properties.map templateLine ++ [['\x7d']]
  lines.flatMap (· ++ ['\n'])

end ResourceDecl

end DesiredState
