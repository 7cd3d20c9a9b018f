/-
Which resources are in scope.

A configuration imports modules, each possibly with a version.  The resources of those
modules are in scope, and so are the ones of the host module and those that belong
to no module; a configuration that imports nothing has everything in scope.
-/
import DesiredState.Catalog
import DesiredState.Catalog.Version
import DesiredState.Text.Case

namespace DesiredState

/-- An imported module. -/
structure Import where
  moduleName : Text
  moduleVersion : Option Text
  deriving DecidableEq, Repr

/-- How the version of an import selects versions of the module. -/
inductive VersionRule where
  /-- The very same version. -/
  | exact
  /-- That version or a later one. -/
  | minimum
  deriving DecidableEq, Repr

/-- The modules that a look-up is restricted to. -/
structure ImportScope where
  imports : List Import
  versionRule : VersionRule
  deriving DecidableEq, Repr

/-- The module whose resources need no import. -/
def hostModule : Text := "PSDesiredStateConfiguration"

/-- Whether a version meets the one that an import asks for. -/
def VersionRule.admits (rule : VersionRule) (actual wanted : Option Text) : Bool :=
  match wanted, actual with
  | none, _ => true
  | some _, none => false
  | some wanted, some actual =>
    match rule with
    | .exact => actual == wanted
    | .minimum => (Version.compare actual wanted).isGE

/-- Whether a resource is in scope. -/
def ImportScope.admits (scope : ImportScope) (r : ResourceDecl) : Bool :=
  match r.moduleName with
  | none | some [] => true
  | some name =>
    scope.imports.isEmpty || Text.sameName name hostModule ||
      scope.imports.any fun wanted =>
        Text.sameName wanted.moduleName name &&
          scope.versionRule.admits r.moduleVersion wanted.moduleVersion

/-- The scope that lets everything through. -/
def ImportScope.everything : ImportScope := ⟨[], .exact⟩

end DesiredState
