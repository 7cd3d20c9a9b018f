/-
Tokens of the configuration language.

A token is a kind, the text it was read from and the place where that text starts.
Kinds cover everything a source can consist of, white space, comments and
unrecognised characters included, so that the tokens of a source spell it out
completely; `isSignificant` picks out those that the grammar sees.
-/
import DesiredState.Source

namespace DesiredState

/-- The kinds of token. -/
inductive TokenKind where
  /-- Spaces, tabs, line breaks and continued lines. -/
  | blank
  | blockComment
  | comment
  | hereDouble
  | hereSingle
  | doubleQuoted
  | singleQuoted
  /-- `@(` -/
  | arrayOpen
  /-- `@` and a brace -/
  | tableOpen
  /-- `@name` -/
  | splat
  /-- `$(` -/
  | subexpressionOpen
  /-- `$name` -/
  | variableName
  | parenOpen
  | parenClose
  | braceOpen
  | braceClose
  /-- `[Name]` -/
  | typeLiteral
  | bracketOpen
  | bracketClose
  | doubleColon
  | semicolon
  | comma
  | pipe
  | equals
  /-- `-Name` -/
  | parameter
  | number
  | dot
  | operator
  | configuration
  | node
  | param
  | bareword
  /-- Characters at which no other kind starts. -/
  | unknown
  deriving DecidableEq, Repr

namespace TokenKind

/-- The name of a kind in listings and error messages. -/
def name : TokenKind → Text
  | blank => "WS"
  | blockComment => "BlockComment"
  | comment => "Comment"
  | hereDouble => "HereStringDouble"
  | hereSingle => "HereStringSingle"
  | doubleQuoted => "DoubleQuoted"
  | singleQuoted => "SingleQuoted"
  | arrayOpen => "ArrayStart"
  | tableOpen => "HashStart"
  | splat => "Splat"
  | subexpressionOpen => "SubExprStart"
  | variableName => "Variable"
  | parenOpen => "LParen"
  | parenClose => "RParen"
  | braceOpen => "LCurly"
  | braceClose => "RCurly"
  | typeLiteral => "TypeLiteral"
  | bracketOpen => "LSquare"
  | bracketClose => "RSquare"
  | doubleColon => "DoubleColon"
  | semicolon => "Semicolon"
  | comma => "Comma"
  | pipe => "Pipe"
  | equals => "Equals"
  | parameter => "Parameter"
  | number => "NumberLiteral"
  | dot => "Dot"
  | operator => "Operator"
  | configuration => "ConfigurationKw"
  | node => "NodeKw"
  | param => "ParamKw"
  | bareword => "Bareword"
  | unknown => "Unknown"

/-- Whether a kind is a comment. -/
def isComment : TokenKind → Bool
  | blockComment | comment => true
  | _ => false

/-- Whether the grammar sees a kind. -/
def isSignificant : TokenKind → Bool
  | blank | blockComment | comment | unknown => false
  | _ => true

/-- Whether a kind is one of the keywords. -/
def isKeyword : TokenKind → Bool
  | configuration | node | param => true
  | _ => false

/-- Whether a kind serves as a name: bare words, and keywords too. -/
def isName : TokenKind → Bool
  | configuration | node | param | bareword => true
  | _ => false

/-- Whether a kind is a string literal. -/
def isString : TokenKind → Bool
  | hereDouble | hereSingle | doubleQuoted | singleQuoted => true
  | _ => false

/-- The bracket that closes a group which a kind opens. -/
def closer? : TokenKind → Option TokenKind
  | parenOpen | subexpressionOpen | arrayOpen => some parenClose
  | braceOpen | tableOpen => some braceClose
  | _ => none

/-- Whether a kind may stand in an uninterpreted group: all but the brackets that open and
close groups. -/
def isContent : TokenKind → Bool
  | hereDouble | hereSingle | doubleQuoted | singleQuoted | splat | variableName | typeLiteral
  | bracketOpen | bracketClose | doubleColon | semicolon | comma | pipe | equals | parameter
  | number | dot | operator | configuration | node | param | bareword => true
  | _ => false

/-- Whether a kind can start a value without sign and cast. -/
def startsPrimary : TokenKind → Bool
  | hereDouble | hereSingle | doubleQuoted | singleQuoted | number | variableName | splat
  | arrayOpen | tableOpen | parenOpen | subexpressionOpen | braceOpen => true
  | _ => false

/-- Whether a kind can start an operand. -/
def startsOperand : TokenKind → Bool
  | operator | typeLiteral => true
  | kind => kind.startsPrimary

/-- Whether a kind can start a statement. -/
def startsStatement : TokenKind → Bool
  | configuration | node | param | bareword => true
  | kind => kind.startsOperand

/-- Whether a kind can start an argument of a command. -/
def startsArgument : TokenKind → Bool
  | parameter | comma | bareword => true
  | kind => kind.startsOperand

/-- Whether a kind can start a member access, an index or an invocation. -/
def startsAccess : TokenKind → Bool
  | dot | doubleColon | bracketOpen | typeLiteral | parenOpen | subexpressionOpen | braceOpen =>
    true
  | _ => false

/-- Whether a kind can be the key of a table entry. -/
def startsEntry (kind : TokenKind) : Bool := kind.isName || kind.isString || kind == number

end TokenKind

/-- A token: its kind, its text and where the text starts. -/
structure Token where
  /-- The kind. -/
  kind : TokenKind
  /-- The text, exactly as in the source. -/
  text : Text
  /-- Where the text starts. -/
  start : Position
  deriving DecidableEq, Repr

namespace Token

/-- The place after a token. -/
def stop (t : Token) : Position := t.start.advance t.text

/-- The line and column of a token. -/
def location (t : Token) : Location := t.start.toLocation

/-- Whether a token starts no later than on the line on which the one before it ends. -/
def onLineOf (t before : Token) : Bool := t.start.line ≤ before.stop.line

/-- Whether a token starts where the one before it ends. -/
def touches (t before : Token) : Bool := t.start.offset == before.stop.offset

end Token

end DesiredState
