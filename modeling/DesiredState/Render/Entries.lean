/-
Rendering entries as configuration text.

An entry is an instance or a block of a class.  It is written as a head, its properties
in the order of their keys with the signs of equality below each other, and a closing
brace; blocks within a value are indented below it.  A property may carry a comment,
which is kept under a key of its own: it is written on the opening line of a block and
on the last line of anything else.

The text of a block is built from the texts of its properties, whose parts are rendered
first; so the recursion follows the value, and only then are keys left out and sorted.
-/
import DesiredState.Render.Level
import DesiredState.Render.Scalar
import DesiredState.Text.Order
import DesiredState.Value.Metadata

namespace DesiredState.Render

/-- The space before lines of a level. -/
def indent (level : Level) : Text := Text.spaces (4 * level.margin)

/-- The space before lines of the properties of a block. -/
def indentWithin (level : Level) : Text := Text.spaces (4 * (level.margin + 1))

/-- Whether a key of a block at a level is written: comments are not, and neither are keys that
only identify a block. -/
def isWritten (level : Level) (key : Text) : Bool :=
  let name := Text.lower key
  !isMetadataKey key &&
    name != "resourceinstancename".toList && name != "ciminstance".toList &&
    !(level.isOutermost && name == "resourcename".toList)

/-- The kind that a value says it has. -/
def kindOf? (members : Fields Json) : Option ValueKind :=
  match members.get? "kind" with
  | some (.string name) => ValueKind.ofName? name
  | _ => none

/-- The kind that a value says it has, whatever it says. -/
def kindText (members : Fields Json) : Text :=
  ((members.get? "kind").map Json.display).getD "object"

/-- Whether a value takes a comment on its first line. -/
def opensBlock : Json → Bool
  | .object members =>
    match kindOf? members with
    | some .subObject | some .subObjectArray => true
    | _ => false
  | _ => false

/-- A text with something added to its first line. -/
def addToFirst (more : Text) : Text → Text
  | [] => more
  | '\n' :: rest => more ++ '\n' :: rest
  | c :: rest => c :: addToFirst more rest

/-- The lines of one property. -/
def property (level : Level) (path : Path) (width : Nat) (fields : Fields Json)
    (key : Text) (value : Text) : Output := do
  let head := indentWithin level ++ key ++ Text.spaces (width - key.size + 1) ++ ['=', ' ']
  match (fields.get? (metadataKey key)).filter Json.isGiven with
  | none => .ok (head ++ value ++ ['\n'])
  | some part =>
    let note ← metadata (path ++ [.string key]) part
    if (fields.get? key).any opensBlock then .ok (head ++ addToFirst (' ' :: note) value ++ ['\n'])
    else .ok (head ++ value ++ ' ' :: note ++ ['\n'])

/-- The lines of properties, one after another. -/
def properties (level : Level) (path : Path) (width : Nat) (fields : Fields Json) :
    List (Text × Output) → Output
  | [] => .ok []
  | (key, value) :: rest => do
    let text ← value
    let first ← property level path width fields key text
    let more ← properties level path width fields rest
    .ok (first ++ more)

/-- The lines of the properties that are written, in the order of their keys. -/
def body (level : Level) (path : Path) (fields : Fields Json) (values : List (Text × Output)) :
    Output :=
  let written := Text.sortByKey (values.filter fun (key, _) => isWritten level key)
  let width := (written.map fun (key, _) => key.size).foldl max 0
  properties level path width fields written

/-- The step to something that has no name. -/
def nameless : Json := .string ['?']

/-- The step to a block: an instance goes by its names, and a block of a class by its class. -/
def label (members : Fields Json) : Json :=
  match members.get? "resourceName" with
  | some name =>
    .string (name.display ++ '/' :: Json.displayOrMissing (members.get? "instanceName"))
  | none =>
    match members.get? "typeName" with
    | none | some .null => nameless
    | some name => name

/-- The head of a block: an instance has a name and its brace on the next line. -/
def header (level : Level) (path : Path) (members : Fields Json) : Output :=
  match members.get? "resourceName" with
  | some resource =>
    if resource.isGiven then
      (instanceName (members.get? "instanceName")).map fun name =>
        indent level ++ resource.display ++ ' ' :: name ++ '\n' :: indent level ++ ['\x7b', '\n']
    else violation .noResourceName path
  | none =>
    match (members.get? "typeName").filter Json.isGiven with
    | some typeName => .ok (indent level ++ typeName.display ++ ['\x7b', '\n'])
    | none => violation .noTypeName path

/-- A block within a value: it starts where the value does and ends without a line break. -/
def inline (t : Text) : Text :=
  let text := Text.trimStart t
  (Text.dropTail? ['\n'] text).getD text

/-- Blocks as the elements of an array. -/
def inArray (level : Level) (t : Text) : Text :=
  ['@', '(', '\n'] ++ t ++ indentWithin level ++ [')']

/-- A value without blocks in it. -/
def flatValue (path : Path) (kind : ValueKind) (members : Fields Json) : Output :=
  match kind with
  | .string => string path (members.get? "value")
  | .integer => integer path (members.get? "value")
  | .boolean => boolean path (members.get? "value")
  | .stringArray => array string path (members.get? "value")
  | .integerArray => array integer path (members.get? "value")
  | .raw => raw path (members.get? "text")
  | .subObject | .subObjectArray => violation (.unknownKind kind.name) path

mutual

/-- The value of a property. -/
def value (level : Level) (path : Path) : Json → Output
  | .object members =>
    match kindOf? members with
    | some .subObject => (blockOf (level.deeper 1) path members).map inline
    | some .subObjectArray => blocksOf level path members
    | some kind => flatValue path kind members
    | none => violation (.unknownKind (kindText members)) path
  | .array _ => violation (.unknownKind "object") path
  | other => violation (.notValue other.typeName) path
termination_by structural part => part

/-- The block that a value holds. -/
def blockOf (level : Level) (path : Path) : List (Text × Json) → Output
  | [] => violation (.notBlock "undefined") (path ++ [nameless])
  | (name, part) :: rest =>
    if name = "value".toList then block level path part else blockOf level path rest
termination_by structural members => members

/-- The array of blocks that a value holds. -/
def blocksOf (level : Level) (path : Path) : List (Text × Json) → Output
  | [] => violation (.notArray "undefined") path
  | (name, .array items) :: rest =>
    if name = "value".toList then
      if items.isEmpty then .ok ['@', '(', ')']
      else (blocks (level.deeper 2) path items).map (inArray level)
    else blocksOf level path rest
  | (name, other) :: rest =>
    if name = "value".toList then violation (.notArray (Json.describe (some other))) path
    else blocksOf level path rest
termination_by structural members => members

/-- Blocks one after another. -/
def blocks (level : Level) (path : Path) : List Json → Output
  | [] => .ok []
  | first :: rest => do
    let text ← block level path first
    let more ← blocks level path rest
    .ok (text ++ more)
termination_by structural parts => parts

/-- A block. -/
def block (level : Level) (path : Path) : Json → Output
  | .object members =>
    let here := path ++ [label members]
    match bodyOf level here members with
    | none => violation .noProperties here
    | some lines => do
      let head ← header level here members
      let text ← lines
      .ok (head ++ text ++ indent level ++ ['\x7d', '\n'])
  | .array _ => violation .noProperties (path ++ [nameless])
  | other => violation (.notBlock other.typeName) (path ++ [nameless])
termination_by structural part => part

/-- The lines between the braces of a block, if it has properties. -/
def bodyOf (level : Level) (path : Path) : List (Text × Json) → Option Output
  | [] => none
  | (name, .object fields) :: rest =>
    if name = "properties".toList then some (body level path fields (fieldTexts level path fields))
    else bodyOf level path rest
  | (name, .array items) :: rest =>
    if name = "properties".toList then
      let keys := (List.range items.length).map Text.ofNat
      some (body level path (keys.zip items) (keys.zip (itemTexts level path 0 items)))
    else bodyOf level path rest
  | (name, _) :: rest => if name = "properties".toList then none else bodyOf level path rest
termination_by structural members => members

/-- The texts of the values of properties. -/
def fieldTexts (level : Level) (path : Path) : List (Text × Json) → List (Text × Output)
  | [] => []
  | (key, part) :: rest =>
    (key, value level (path ++ [.string key]) part) :: fieldTexts level path rest
termination_by structural members => members

/-- The texts of values that are numbered from a position on. -/
def itemTexts (level : Level) (path : Path) : Nat → List Json → List Output
  | _, [] => []
  | n, part :: rest =>
    value level (path ++ [.string (Text.ofNat n)]) part :: itemTexts level path (n + 1) rest
termination_by structural _ parts => parts

end

/-- The text of entries whose outermost blocks stand at a level. -/
def entries (level : Level) (parts : List Json) : Output := blocks level [] parts

/-- The text of entries whose outermost blocks stand at the level that a number is.  A block
takes three lines at least; where these do not fit into a text there is none, but what is
wrong with the first entry is found before that. -/
def entriesAt (x : Binary64) (parts : List Json) : Output := do
  let level ← Level.ofNumber x
  if parts.isEmpty || level.holds 3 then entries level parts
  else
    let _ ← entries (.whole 1) (parts.take 1)
    .error .noLevel

/-- The entries that a value lists; a text lists its characters. -/
def listed : Option Json → Except RenderFailure (List Json)
  | some (.array parts) => .ok parts
  | some (.string text) => .ok (text.map fun c => .string [c])
  | _ => .error .noEntries

end DesiredState.Render
