/-
Parsing a configuration script.

A source is read into tokens, the tokens into statements, and both are handed out:
the statements as the tree, the tokens, comments included, as the stream in which the
tree has marked the heads of named blocks and the keys of block bodies.
-/
import DesiredState.Script.Grammar

namespace DesiredState

/-- What is wrong with the text of a script. -/
inductive SyntaxError where
  /-- A character at which no token starts. -/
  | unexpectedCharacter (character : Char) (location : Location)
  /-- The tokens do not follow the grammar. -/
  | grammar (error : GrammarError) (location : Location)
  deriving DecidableEq, Repr

namespace SyntaxError

/-- Where the error shows. -/
def location : SyntaxError → Location
  | unexpectedCharacter _ location => location
  | grammar _ location => location

/-- The wording without the place.  Of a character above the basic plane only the first unit is
named, which stands for no character by itself. -/
def reason : SyntaxError → Text
  | unexpectedCharacter c _ =>
    "Unexpected character \"" ++ [if Text.width c = 1 then c else Text.replacement] ++ "\""
  | grammar e _ => e.message

end SyntaxError

/-- A parsed script. -/
structure Script where
  /-- The statements in order. -/
  statements : List Statement
  /-- All tokens in source order, comments included. -/
  tokens : List ClassifiedToken

namespace Script

/-- The tokens of the stream: those the grammar sees and the comments.  Of the marks on a token the
last one counts. -/
def streamOf (marks : List Mark) (tokens : List Token) : List ClassifiedToken :=
  (tokens.filter fun t => t.kind.isSignificant || t.kind.isComment).map
    (ClassifiedToken.of marks.reverse)

/-- Parses a source; the first error ends the parse. -/
def parse (source : Text) : Except SyntaxError Script :=
  let tokens := Token.scan source
  match Token.unknowns tokens with
  | unknown :: _ =>
    .error (.unexpectedCharacter (unknown.text.headD Text.replacement) unknown.location)
  | [] =>
    match Grammar.script source (Token.significant tokens) with
    | .error e => .error (.grammar e ((e.token.map (·.location)).getD (.endOf source)))
    | .ok items =>
      .ok ⟨items.map (·.statement), streamOf (items.flatMap (·.marks)) tokens⟩

end Script

end DesiredState
