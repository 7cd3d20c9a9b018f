/-
Rendering scalars.

A string is quoted, unless it starts with a variable or constructs an object: then it
is an expression and goes out as it is.  A name is quoted unless it is nothing but a
variable with members.  The text of a comment gets the mark of a comment if it has none.
-/
import DesiredState.Json.Display
import DesiredState.Render.Failure
import DesiredState.Text.Blank
import DesiredState.Text.Quoted
import DesiredState.Token.Pattern
import DesiredState.Value

namespace DesiredState.Render

/-- A rendered text, or why there is none. -/
abbrev Output := Except RenderFailure Text

/-- The failure of a part at the end of a way. -/
def violation (what : Violation) (path : Path) : Except RenderFailure α :=
  .error (.violation what path)

/-- A text in double quotes. -/
def quoted (t : Text) : Text := '"' :: Text.escapeDouble t ++ ['"']

/-- A text without the double quotes at its end. -/
def dropLastQuotes (t : Text) : Text := (t.reverse.dropWhile (· == '"')).reverse

/-- A string as it is written. -/
def writeString (t : Text) : Text :=
  if Text.startsWith t ['$'] then t
  else if Text.startsWith t "New-Object" then dropLastQuotes t
  else quoted t

/-- The string that a part is. -/
def string (path : Path) : Option Json → Output
  | some (.string t) => .ok (writeString t)
  | other => violation (.notString (Json.kindOf other)) path

/-- The integer that a part is. -/
def integer (path : Path) (part : Option Json) : Output :=
  match part with
  | some (.number x) =>
    if x.isInteger then .ok x.toText else violation (.notInteger x.toText) path
  | other => violation (.notInteger (Json.displayOrMissing other)) path

/-- The truth value that a part is. -/
def boolean (path : Path) : Option Json → Output
  | some (.bool true) => .ok "$true"
  | some (.bool false) => .ok "$false"
  | _ => violation .notBoolean path

/-- The items of an array from a position on. -/
def itemsFrom (item : Path → Option Json → Output) (path : Path) :
    Nat → List Json → Except RenderFailure (List Text)
  | _, [] => .ok []
  | n, j :: rest => do
    let first ← item (path ++ [.string (Text.ofNat n)]) (some j)
    let more ← itemsFrom item path (n + 1) rest
    .ok (first :: more)

/-- The array that a part is. -/
def array (item : Path → Option Json → Output) (path : Path) (part : Option Json) :
    Output :=
  match part with
  | some (.array items) =>
    (itemsFrom item path 0 items).map fun texts => ['@', '('] ++ Text.join [','] texts ++ [')']
  | other => violation (.notArray (Json.describe other)) path

/-- The source text that a part is. -/
def raw (path : Path) : Option Json → Output
  | some (.string t) => .ok t
  | _ => violation .noRawText path

/-- Whether a text is a word of characters of a class. -/
def isWordOf (p : Char → Bool) : Text → Bool
  | [] => false
  | c :: rest => Pattern.isWordStart c && rest.all p

/-- Whether a text is a variable with any number of members, and nothing else. -/
def isReference : Text → Bool
  | '$' :: rest =>
    match Text.splitOn '.' rest with
    | [] => false
    | name :: members =>
      isWordOf (fun c => Pattern.isWord c || c == ':') name && members.all (isWordOf Pattern.isWord)
  | _ => false

/-- The name that a part is. -/
def instanceName (part : Option Json) : Output :=
  let shown := Json.displayOrMissing part
  if isReference shown then .ok shown
  else
    match part with
    | some (.string t) => .ok (quoted t)
    | _ => .error .noText

/-- The text of a comment. -/
def comment (t : Text) : Text :=
  let text := Text.trim t
  if Text.startsWith text ['#'] || Text.startsWith text ['<', '#'] then text
  else ['#', ' '] ++ text

/-- The comment that a part is. -/
def metadata (path : Path) (part : Json) : Output :=
  match part.member? "kind" with
  | some (.string kind) =>
    if kind = ValueKind.string.name then
      match part.member? "value" with
      | some (.string t) => .ok (comment t)
      | _ => .error .noText
    else violation (.metadataKind kind) path
  | other => violation (.metadataKind (Json.displayOrMissing other)) path

end DesiredState.Render
