/-
Reading JSON.

The grammar is strict: no comments, no trailing commas, no white space but the four
characters of the standard, and no control characters in a string.  Values nest in each
other through one rule, which is handed to arrays and objects as the level below; each
level takes at least one character, so a text has no more levels than characters.
-/
import DesiredState.Json
import DesiredState.Number.Decimal

namespace DesiredState.Json

/-- Reads something at the start of a text and gives what follows it. -/
abbrev Reader (α : Type) := Text → Option (α × Text)

/-- A text without the white space at its start. -/
def skipSpace (t : Text) : Text :=
  t.dropWhile fun c => c == ' ' || c == '\t' || c == '\n' || c == '\r'

/-! ### Strings

An escape stands for a code, and a character may take two of them.  So the codes of a
string are read first, and are put together to characters when all of them are there.
-/

/-- The character with a code; a lone surrogate is none. -/
def charOfCode (code : Nat) : Char :=
  if 0xD800 ≤ code ∧ code < 0xE000 then Text.replacement else Char.ofNat code

/-- The text of a list of codes, in which two surrogates in a row are one character. -/
def textOfCodes : List Nat → Text
  | high :: low :: rest =>
    if 0xD800 ≤ high ∧ high < 0xDC00 ∧ 0xDC00 ≤ low ∧ low < 0xE000 then
      Char.ofNat (0x10000 + (high - 0xD800) * 0x400 + (low - 0xDC00)) :: textOfCodes rest
    else charOfCode high :: textOfCodes (low :: rest)
  | [code] => [charOfCode code]
  | [] => []

/-- What a backslash and a character stand for. -/
def escaped? : Char → Option Nat
  | '"' => some 0x22
  | '\\' => some 0x5C
  | '/' => some 0x2F
  | 'b' => some 0x08
  | 'f' => some 0x0C
  | 'n' => some 0x0A
  | 'r' => some 0x0D
  | 't' => some 0x09
  | _ => none

/-- The codes of a string up to its closing quote. -/
def codes : Reader (List Nat)
  | [] => none
  | '"' :: rest => some ([], rest)
  | '\\' :: 'u' :: a :: b :: c :: d :: rest =>
    match Binary64.natOfHex? 0 [a, b, c, d], codes rest with
    | some code, some (more, rest) => some (code :: more, rest)
    | _, _ => none
  | '\\' :: c :: rest =>
    match escaped? c, codes rest with
    | some code, some (more, rest) => some (code :: more, rest)
    | _, _ => none
  | c :: rest =>
    if c.toNat < 0x20 ∨ c = '\\' then none
    else
      match codes rest with
      | some (more, rest) => some (c.toNat :: more, rest)
      | none => none

/-- A string. -/
def stringText : Reader Text
  | '"' :: rest => (codes rest).map fun (read, rest) => (textOfCodes read, rest)
  | _ => none

/-! ### Numbers -/

/-- What follows a point and digits, if they are there. -/
def skipFraction : Text → Text
  | '.' :: rest => rest.dropWhile Char.isDigit
  | t => t

/-- What follows an exponent, if it is there. -/
def skipExponent : Text → Text
  | mark :: rest =>
    if mark = 'e' ∨ mark = 'E' then
      match rest with
      | '+' :: digits | '-' :: digits => digits.dropWhile Char.isDigit
      | digits => digits.dropWhile Char.isDigit
    else mark :: rest
  | [] => []

/-- Whether a number's digits are not padded, and those after a point are not left out. -/
def wellWritten (t : Text) : Bool :=
  match t.span Char.isDigit with
  | ('0' :: _ :: _, _) => false
  | (_, '.' :: c :: _) => c.isDigit
  | (_, ['.']) => false
  | _ => true

/-- A number without a sign. -/
def unsigned (t : Text) : Option (Binary64 × Text) :=
  let rest := skipExponent (skipFraction (t.dropWhile Char.isDigit))
  let text := t.take (t.length - rest.length)
  if wellWritten text then (Binary64.readUnsigned? text).map (·, rest) else none

/-- A number. -/
def signedNumber : Reader Binary64
  | '-' :: rest => (unsigned rest).map fun (value, rest) => (value.negate, rest)
  | t => unsigned t

/-! ### Values -/

/-- Items with commas between them up to a closing mark, at most so many. -/
def itemsUpTo (item : Reader α) (close : Char) : Nat → Reader (List α)
  | 0, _ => none
  | n + 1, t =>
    match item t with
    | none => none
    | some (first, rest) =>
      match skipSpace rest with
      | [] => none
      | c :: rest =>
        if c = ',' then (itemsUpTo item close n rest).map fun (more, rest) => (first :: more, rest)
        else if c = close then some ([first], rest)
        else none

/-- Items with commas between them after the opening mark of their group. -/
def group (item : Reader α) (close : Char) (t : Text) : Option (List α × Text) :=
  match skipSpace t with
  | [] => none
  | c :: rest => if c = close then some ([], rest) else itemsUpTo item close t.length (c :: rest)

/-- The name and the value of a member. -/
def memberOf (value : Reader Json) (t : Text) : Option ((Text × Json) × Text) :=
  match stringText (skipSpace t) with
  | none => none
  | some (name, rest) =>
    match skipSpace rest with
    | ':' :: rest => (value rest).map fun (read, rest) => ((name, read), rest)
    | _ => none

/-- A value, given the values that can nest in it. -/
def valueOver (below : Reader Json) (t : Text) : Option (Json × Text) :=
  match skipSpace t with
  | '"' :: rest => (stringText ('"' :: rest)).map fun (text, rest) => (.string text, rest)
  | '[' :: rest => (group below ']' rest).map fun (items, rest) => (.array items, rest)
  | '{' :: rest =>
    (group (memberOf below) '}' rest).map fun (members, rest) =>
      (.object (Fields.ofPairs members), rest)
  | 'n' :: rest => (Text.dropHead? "ull" rest).map (.null, ·)
  | 't' :: rest => (Text.dropHead? "rue" rest).map (.bool true, ·)
  | 'f' :: rest => (Text.dropHead? "alse" rest).map (.bool false, ·)
  | other => (signedNumber other).map fun (value, rest) => (.number value, rest)

/-- A value of at most so many levels. -/
def valueWithin : Nat → Reader Json
  | 0, _ => none
  | n + 1, t => valueOver (valueWithin n) t

/-- The value that a whole text is. -/
def parse? (t : Text) : Option Json :=
  match valueWithin (t.length + 1) t with
  | some (value, rest) => if (skipSpace rest).isEmpty then some value else none
  | none => none

end DesiredState.Json
