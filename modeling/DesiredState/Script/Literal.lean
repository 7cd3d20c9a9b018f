/-
The values of literals.

What a string or number token stands for: the decoded content between the quotes, the
lines of a here-string without the first and the last line break, and the value of a
number with its binary multiple.  A run of digits and points such as a version is no
number, and its text is taken as a bare string.
-/
import DesiredState.Number.Decimal
import DesiredState.Script.Tree
import DesiredState.Text.Quoted
import DesiredState.Token.Scan

namespace DesiredState.Literal

/-! ### Strings -/

/-- A text without blanks and a line break at its start. -/
def dropFirstBreak (t : Text) : Text :=
  (Pattern.lineBreak (t.dropWhile fun c => c == ' ' || c == '\t')).getD t

/-- A text without a line break at its end. -/
def dropLastBreak (t : Text) : Text :=
  match Text.dropTail? ['\n'] t with
  | none => t
  | some body => (Text.dropTail? ['\r'] body).getD body

/-- The content of a here-string between its marks. -/
def hereBody (t : Text) : Text :=
  dropLastBreak (dropFirstBreak (t.drop 2).dropLast.dropLast)

/-- The decoded value of a string token and how it was written. -/
def ofString (token : Token) : Text × Quote :=
  let content := (token.text.drop 1).dropLast
  match token.kind with
  | .doubleQuoted => (Text.decodeDouble content, .double)
  | .singleQuoted => (Text.decodeSingle content, .single)
  | .hereDouble => (Text.decodeDouble (hereBody token.text), .double)
  | _ => (hereBody token.text, .single)

/-- The value of a text that is one string literal and nothing more. -/
def string? (t : Text) : Option Text :=
  match Token.significant (Token.scan t) with
  | [token] =>
    if token.kind.isString ∧ token.stop.offset = t.size then some (ofString token).1 else none
  | _ => none

/-! ### Numbers -/

/-- How many times 1024 a multiple stands for, and the text before it. -/
def splitMultiple (t : Text) : Text × Nat :=
  match t.reverse with
  | b :: u :: body =>
    if b.toLower = 'b' then
      match u.toLower with
      | 'k' => (body.reverse, 1)
      | 'm' => (body.reverse, 2)
      | 'g' => (body.reverse, 3)
      | 't' => (body.reverse, 4)
      | 'p' => (body.reverse, 5)
      | _ => (t, 0)
    else (t, 0)
  | _ => (t, 0)

/-- The value of a number token; none for a text like `1.1.0` or one too large to tell. -/
def number? (t : Text) : Option Binary64 :=
  let (body, power) := splitMultiple t
  let (negative, digits) :=
    match body with
    | '-' :: digits => (true, digits)
    | digits => (false, digits)
  match Binary64.readUnsigned? digits with
  | none => none
  | some base =>
    if base.isFinite then
      let value := base.scale (10 * power)
      some (if negative then value.negate else value)
    else none

end DesiredState.Literal
