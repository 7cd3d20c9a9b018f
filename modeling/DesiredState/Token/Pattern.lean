/-
How each kind of token is recognised.

A recogniser takes the text that is left and, if it starts with a token of its kind,
gives what follows that token.  The token is always as long as the kind allows.  Two
cases are worth a word.  A quoted string ends at the first quote that is not doubled,
but when no such quote is left the last doubled one is taken apart again, so the
string ends at its first half.  And a keyword counts only when no longer bare word
starts with it.
-/
import DesiredState.Text.Case
import DesiredState.Token

namespace DesiredState

/-- A recogniser gives what follows the token that a text starts with. -/
abbrev Recogniser := Text → Option Text

namespace Pattern

/-! ### Characters -/

/-- Whether a character can start a word. -/
def isWordStart (c : Char) : Bool := c.isAlpha || c == '_'

/-- Whether a character can continue a word. -/
def isWord (c : Char) : Bool := c.isAlphanum || c == '_'

/-- Whether a character can continue a bare word. -/
def isBare (c : Char) : Bool := isWord c || c == '-' || c == '.' || c == '\\' || c == ':'

/-- One character of a class. -/
def one (p : Char → Bool) : Recogniser
  | [] => none
  | c :: rest => if p c then some rest else none

/-- A run of characters of a class. -/
def some1 (p : Char → Bool) : Recogniser
  | [] => none
  | c :: rest => if p c then some (rest.dropWhile p) else none

/-- What follows the token, or the text itself where there is none. -/
def optional (r : Recogniser) (t : Text) : Text := (r t).getD t

/-- What follows as many tokens in a row as there are, up to a bound. -/
def repeated (r : Recogniser) : Nat → Text → Text
  | 0, t => t
  | n + 1, t =>
    match r t with
    | some rest => repeated r n rest
    | none => t

/-- A character and then a run of word characters that one of its class starts. -/
def word (p : Char → Bool) : Recogniser
  | [] => none
  | c :: rest => if isWordStart c then some (rest.dropWhile p) else none

/-! ### White space and comments -/

/-- What follows white space: a backtick before a line break continues the line. -/
def skipBlanks : Text → Text
  | ' ' :: rest => skipBlanks rest
  | '\t' :: rest => skipBlanks rest
  | '\r' :: rest => skipBlanks rest
  | '\n' :: rest => skipBlanks rest
  | '`' :: '\n' :: rest => skipBlanks rest
  | '`' :: '\r' :: '\n' :: rest => skipBlanks rest
  | t => t

/-- White space. -/
def blanks : Recogniser
  | ' ' :: rest => some (skipBlanks rest)
  | '\t' :: rest => some (skipBlanks rest)
  | '\r' :: rest => some (skipBlanks rest)
  | '\n' :: rest => some (skipBlanks rest)
  | '`' :: '\n' :: rest => some (skipBlanks rest)
  | '`' :: '\r' :: '\n' :: rest => some (skipBlanks rest)
  | _ => none

/-- A comment up to the end of the line. -/
def lineComment : Recogniser
  | '#' :: rest => some (rest.dropWhile fun c => c != '\r' && c != '\n')
  | _ => none

/-- A comment up to its closing mark. -/
def blockComment : Recogniser
  | '<' :: '#' :: rest => Text.afterFirst? ['#', '>'] rest
  | _ => none

/-! ### Strings -/

/-- What follows the closing double quote. -/
def closeDouble : Recogniser
  | [] => none
  | '`' :: [] => none
  | '`' :: _ :: rest => closeDouble rest
  | '"' :: '"' :: rest => (closeDouble rest).or (some ('"' :: rest))
  | '"' :: rest => some rest
  | _ :: rest => closeDouble rest

/-- What follows the closing single quote. -/
def closeSingle : Recogniser
  | [] => none
  | '\'' :: '\'' :: rest => (closeSingle rest).or (some ('\'' :: rest))
  | '\'' :: rest => some rest
  | _ :: rest => closeSingle rest

/-- A string in double quotes. -/
def doubleQuoted : Recogniser
  | '"' :: rest => closeDouble rest
  | _ => none

/-- A string in single quotes. -/
def singleQuoted : Recogniser
  | '\'' :: rest => closeSingle rest
  | _ => none

/-- A line feed with an optional carriage return before it. -/
def lineBreak : Recogniser
  | '\n' :: rest => some rest
  | '\r' :: '\n' :: rest => some rest
  | _ => none

/-- A here-string: its lines stand between a line that ends in `@` and the quote, and one that
starts with the quote and `@`. -/
def hereString (quote : Char) : Recogniser
  | '@' :: q :: rest =>
    if q = quote then
      (lineBreak (rest.dropWhile fun c => c == ' ' || c == '\t')).bind
        (Text.afterFirst? ['\n', quote, '@'])
    else none
  | _ => none

/-! ### Numbers, variables and words

A part that may be missing is taken as a whole or not at all.  Where only its mark is
there, the mark is left to the next token.
-/

/-- A point and digits. -/
def fraction : Recogniser
  | '.' :: rest => some1 Char.isDigit rest
  | _ => none

/-- An exponent mark, an optional sign and digits. -/
def exponent : Recogniser
  | c :: rest =>
    if c = 'e' ∨ c = 'E' then
      some1 Char.isDigit (optional (one fun c => c == '+' || c == '-') rest)
    else none
  | [] => none

/-- A binary multiple: kilo-, mega-, giga-, tera- or petabytes. -/
def multiple : Recogniser
  | u :: b :: rest =>
    if u.toLower ∈ ['k', 'm', 'g', 't', 'p'] ∧ b.toLower = 'b' then some rest else none
  | _ => none

/-- Hexadecimal digits after `0x`. -/
def hexadecimal : Recogniser
  | '0' :: x :: rest =>
    if x = 'x' ∨ x = 'X' then
      some1 (fun c => c.isDigit || ('a' ≤ c && c ≤ 'f') || ('A' ≤ c && c ≤ 'F')) rest
    else none
  | _ => none

/-- Digits, any number of fractions and an optional exponent. -/
def decimal (t : Text) : Option Text :=
  (some1 Char.isDigit t).map fun rest => optional exponent (repeated fraction rest.length rest)

/-- A number: an optional minus, hexadecimal or decimal digits and an optional multiple. -/
def number (t : Text) : Option Text :=
  let unsigned := optional (one (· == '-')) t
  ((hexadecimal unsigned).or (decimal unsigned)).map (optional multiple)

/-- A colon and a word. -/
def qualifier : Recogniser
  | ':' :: rest => some1 isWord rest
  | _ => none

/-- A variable: any text in braces, a word with an optional qualified part, or a special sign. -/
def variableName : Recogniser
  | '$' :: '{' :: rest => one (· == '}') (rest.dropWhile (· != '}'))
  | '$' :: c :: rest =>
    if isWordStart c then some (optional qualifier (rest.dropWhile isWord))
    else if c = '?' ∨ c = '^' ∨ c = '$' then some rest
    else none
  | _ => none

/-- An array or table of arguments, named after `@`. -/
def splat : Recogniser
  | '@' :: rest => word isWord rest
  | _ => none

/-- The name of a parameter after `-`, with an optional colon. -/
def parameter : Recogniser
  | '-' :: rest =>
    (word (fun c => isWord c || c == '-') rest).map (optional (one (· == ':')))
  | _ => none

/-- A type name in square brackets, possibly of an array. -/
def typeLiteral : Recogniser
  | '[' :: rest =>
    (word (fun c => isWord c || c == '.') rest).bind fun rest =>
      one (· == ']') (optional (Text.dropHead? ['[', ']']) rest)
  | _ => none

/-- A bare word. -/
def bareword : Recogniser := word isBare

/-- A keyword, unless a longer bare word starts with it. -/
def keyword (w t : Text) : Option Text :=
  (Text.dropWord? w t).filter fun rest => !(one isBare rest).isSome

/-- A fixed mark. -/
def mark (m : Text) : Recogniser := Text.dropHead? m

/-- One of the operator signs. -/
def operator : Recogniser :=
  one fun c => ['+', '*', '/', '%', '!', '&', '<', '>', '-'].contains c

end Pattern

namespace TokenKind

/-- The recogniser of a kind. -/
def recognise : TokenKind → Recogniser
  | blank => Pattern.blanks
  | blockComment => Pattern.blockComment
  | comment => Pattern.lineComment
  | hereDouble => Pattern.hereString '"'
  | hereSingle => Pattern.hereString '\''
  | doubleQuoted => Pattern.doubleQuoted
  | singleQuoted => Pattern.singleQuoted
  | arrayOpen => Pattern.mark ['@', '(']
  | tableOpen => Pattern.mark ['@', '{']
  | splat => Pattern.splat
  | subexpressionOpen => Pattern.mark ['$', '(']
  | variableName => Pattern.variableName
  | parenOpen => Pattern.mark ['(']
  | parenClose => Pattern.mark [')']
  | braceOpen => Pattern.mark ['{']
  | braceClose => Pattern.mark ['}']
  | typeLiteral => Pattern.typeLiteral
  | bracketOpen => Pattern.mark ['[']
  | bracketClose => Pattern.mark [']']
  | doubleColon => Pattern.mark [':', ':']
  | semicolon => Pattern.mark [';']
  | comma => Pattern.mark [',']
  | pipe => Pattern.mark ['|']
  | equals => Pattern.mark ['=']
  | parameter => Pattern.parameter
  | number => Pattern.number
  | dot => Pattern.mark ['.']
  | operator => Pattern.operator
  | configuration => Pattern.keyword "configuration"
  | node => Pattern.keyword "node"
  | param => Pattern.keyword "param"
  | bareword => Pattern.bareword
  | unknown => fun _ => none

/-- The order in which kinds are tried; the first that matches is taken. -/
def order : List TokenKind :=
  [blank, blockComment, comment, hereDouble, hereSingle, doubleQuoted, singleQuoted, arrayOpen,
    tableOpen, splat, subexpressionOpen, variableName, parenOpen, parenClose, braceOpen,
    braceClose, typeLiteral, bracketOpen, bracketClose, doubleColon, semicolon, comma, pipe,
    equals, parameter, number, dot, operator, configuration, node, param, bareword]

end TokenKind

end DesiredState
