/-
The roles of tokens.

The token stream that goes with a tree gives each token a role.  Most roles follow from
the kind, but two depend on where the token stands: a word at the head of a named block
and a key in the body of a block are marked while the tree is built.
-/
import DesiredState.Token

namespace DesiredState

/-- What a token is in the script. -/
inductive TokenRole where
  | comment
  | keyword
  /-- The word at the head of a named block. -/
  | dynamicKeyword
  /-- A key in the body of a block. -/
  | identifier
  | generic
  | variableName
  | stringLiteral
  | number
  | parameter
  | operator
  | punctuation
  deriving DecidableEq, Repr

namespace TokenRole

/-- The name of a role in listings. -/
def name : TokenRole → Text
  | comment => "Comment"
  | keyword => "Keyword"
  | dynamicKeyword => "DynamicKeyword"
  | identifier => "Identifier"
  | generic => "Generic"
  | variableName => "Variable"
  | stringLiteral => "StringLiteral"
  | number => "Number"
  | parameter => "Parameter"
  | operator => "Operator"
  | punctuation => "Punctuation"

/-- All roles. -/
def all : List TokenRole :=
  [comment, keyword, dynamicKeyword, identifier, generic, variableName, stringLiteral, number,
    parameter, operator, punctuation]

/-- The role with a name. -/
def ofName? (t : Text) : Option TokenRole := all.find? (·.name == t)

/-- The role of a token by its kind alone. -/
def ofKind : TokenKind → TokenRole
  | .comment | .blockComment => comment
  | .configuration | .node | .param => keyword
  | .bareword => generic
  | .variableName | .splat => variableName
  | .doubleQuoted | .singleQuoted | .hereDouble | .hereSingle => stringLiteral
  | .number => number
  | .parameter => parameter
  | .operator => operator
  | _ => punctuation

end TokenRole

/-- A role that a place in the tree gives to the token at an offset. -/
structure Mark where
  offset : Nat
  role : TokenRole
  deriving DecidableEq, Repr

/-- A token of the stream. -/
structure ClassifiedToken where
  role : TokenRole
  text : Text
  start : Position
  deriving DecidableEq, Repr

/-- The token of the stream for a token of the source.  A mark at its offset comes before the role
of its kind; of several, the first one counts. -/
def ClassifiedToken.of (marks : List Mark) (t : Token) : ClassifiedToken :=
  let marked := marks.find? (·.offset == t.start.offset)
  ⟨(marked.map (·.role)).getD (TokenRole.ofKind t.kind), t.text, t.start⟩

end DesiredState
