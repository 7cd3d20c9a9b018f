/-
Diagnostics.

What a conversion could not make sense of does not stop it; it leaves a diagnostic,
which says what was the matter, in which instance and property, and where in the
source.  The wording follows from the cause and the subject alone.
-/
import DesiredState.Source
import DesiredState.Value.Coercion

namespace DesiredState

/-- What a finding is about, as far as that is known. -/
structure Subject where
  resourceName : Option Text
  instanceName : Option Text
  propertyName : Option Text
  deriving DecidableEq, Repr

/-- Nothing in particular. -/
def Subject.unknown : Subject := ⟨none, none, none⟩

/-- What was the matter. -/
inductive Diagnostic.Cause where
  /-- A resource without a schema. -/
  | unknownResource (name : Text)
  /-- A class of blocks that the resource does not know. -/
  | unknownClass (name owner : Text)
  /-- A property that is not declared. -/
  | unknownProperty (name declaredBy : Text)
  /-- A literal that does not fit the declared type. -/
  | failedCoercion (text : Text) (target : Coercion.Target)
  /-- An array of blocks and other elements, of which so many were left out. -/
  | mixedArray (skipped : Nat)
  /-- A statement that declares no resource. -/
  | notResource (text : Text)
  deriving DecidableEq, Repr

/-- How much a diagnostic matters. -/
inductive Severity where
  | warning
  | info
  deriving DecidableEq, Repr

/-- A finding that did not stop the conversion. -/
structure Diagnostic where
  cause : Diagnostic.Cause
  subject : Subject
  range : Option Range
  deriving DecidableEq, Repr

/-- The name of a severity. -/
def Severity.name : Severity → Text
  | warning => "warning"
  | info => "info"

namespace Diagnostic

/-- The name of the kind of a diagnostic. -/
def kindName (d : Diagnostic) : Text :=
  match d.cause with
  | .unknownResource _ | .unknownClass .. => "SchemaNotFound"
  | .unknownProperty .. => "PropertyNotInSchema"
  | .failedCoercion .. => "TypeCoercionFailure"
  | .mixedArray _ => "AmbiguousArrayShape"
  | .notResource _ => "UnsupportedStatement"

/-- The severity of a diagnostic. -/
def severity (d : Diagnostic) : Severity :=
  match d.cause with
  | .notResource _ => .info
  | _ => .warning

/-- The wording of a diagnostic. -/
def message (d : Diagnostic) : Text :=
  let property : Text := d.subject.propertyName.getD ['?']
  match d.cause with
  | .unknownResource name => "No schema found for resource \"" ++ name ++ "\""
  | .unknownClass name owner =>
    "No schema found for sub-object type \"" ++ name ++ "\" of resource \"" ++ owner ++ "\""
  | .unknownProperty name declaredBy =>
    "Property \"" ++ name ++ "\" is not declared by \"" ++ declaredBy ++ "\""
  | .failedCoercion text target =>
    "Cannot convert " ++ text ++ " to " ++ target.name ++ " for property \"" ++ property ++ "\""
  | .mixedArray skipped =>
    "Array for property \"" ++ property ++ "\" mixes scalar and sub-object elements; " ++
      Text.ofNat skipped ++ " element(s) not matching the first element were skipped"
  | .notResource text => "Statement is not a resource declaration: " ++ Text.firstLine text

end Diagnostic

end DesiredState
