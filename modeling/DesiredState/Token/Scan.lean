/-
Reading a source into tokens.

At each place the first kind that matches is taken.  Where none does, characters are
passed over until one matches again, and the whole run is one token of kind `unknown`.
Every token takes at least one character, so as many steps as there are characters
are enough.
-/
import DesiredState.Token.Pattern

namespace DesiredState

namespace Token

/-- The kind of the token that a text starts with, and what follows it. -/
def next? (t : Text) : Option (TokenKind × Text) :=
  TokenKind.order.findSome? fun kind => (kind.recognise t).map (kind, ·)

/-- What follows the characters at which no token starts. -/
def skipUnknown : Text → Text
  | [] => []
  | c :: rest => if (next? (c :: rest)).isSome then c :: rest else skipUnknown rest

/-- The kind of the next piece of a text, `unknown` included, and what follows it. -/
def nextPiece (t : Text) : TokenKind × Text := (next? t).getD (.unknown, skipUnknown t)

/-- The tokens of a text that starts at a place, in so many steps. -/
def scanFrom : (steps : Nat) → Position → Text → List Token
  | 0, _, _ => []
  | _ + 1, _, [] => []
  | steps + 1, place, c :: t =>
    let (kind, rest) := nextPiece (c :: t)
    let text := (c :: t).take (t.length + 1 - rest.length)
    ⟨kind, text, place⟩ :: scanFrom steps (place.advance text) rest

/-- The tokens of a source, white space and comments included. -/
def scan (source : Text) : List Token := scanFrom source.length .start source

/-- The tokens that the grammar sees. -/
def significant (tokens : List Token) : List Token := tokens.filter (·.kind.isSignificant)

/-- The comments. -/
def comments (tokens : List Token) : List Token := tokens.filter (·.kind.isComment)

/-- The runs of characters that belong to no token. -/
def unknowns (tokens : List Token) : List Token := tokens.filter (·.kind == .unknown)

end Token

end DesiredState
