/-
Why entries cannot be rendered.

Entries come from anywhere, so each of their parts may be something else than it has
to be.  A violation says what was wrong and by which way through the entries it is
reached.  A step of that way is a name or a number that was made a text, but a block of
a class is named by whatever stands for its class.
-/
import DesiredState.Json.Display

namespace DesiredState

/-- The way through entries to one of their parts. -/
abbrev Path := List Json

/-- What is wrong with a part of an entry. -/
inductive Violation where
  /-- Something else stands for a block. -/
  | notBlock (got : Text)
  | noProperties
  | noResourceName
  | noTypeName
  /-- Something else stands for the value of a property. -/
  | notValue (got : Text)
  | notString (got : Text)
  | notInteger (got : Text)
  | notBoolean
  | notArray (got : Text)
  | noRawText
  | unknownKind (kind : Text)
  /-- A comment of another kind than a string. -/
  | metadataKind (kind : Text)
  deriving DecidableEq, Repr

/-- The wording of a violation. -/
def Violation.reason : Violation → Text
  | notBlock got => "Expected a block, got " ++ got
  | noProperties => "Block without properties"
  | noResourceName => "Resource instance without a resource name"
  | noTypeName => "Sub-object value without a type name"
  | notValue got => "Expected a property value, got " ++ got
  | notString got => "Expected a string, got " ++ got
  | notInteger got => "Expected an integer, got " ++ got
  | notBoolean => "Expected a boolean"
  | notArray got => "Expected an array, got " ++ got
  | noRawText => "Raw value without text"
  | unknownKind kind => "Unsupported value kind \"" ++ kind ++ "\""
  | metadataKind kind => "Metadata must be a String value, got " ++ kind

/-- Why entries cannot be rendered. -/
inductive RenderFailure where
  /-- A part is wrong, at the end of a way through the entries. -/
  | violation (what : Violation) (path : Path)
  /-- A name or a comment has no text. -/
  | noText
  /-- What should list the entries lists nothing. -/
  | noEntries
  /-- Nothing can stand at the level of the outermost blocks: it is negative or too deep. -/
  | noLevel

/-- The wording of a violation at the end of a way. -/
def Violation.message (v : Violation) (path : Path) : Text :=
  if path.isEmpty then v.reason else Text.join ['.'] (path.map Json.display) ++ ": " ++ v.reason

end DesiredState
