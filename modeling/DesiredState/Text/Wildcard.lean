/-
Wildcard patterns.

In a pattern `*` stands for any run of 16-bit units and `?` for any one, except for those
that end a line, and every other unit for itself in either case.  A pattern is compared by
way of the regular expression that says the same.
-/
import DesiredState.Text.RegularExpression

namespace DesiredState.Wildcard

/-- Characters of a pattern that an expression would not take for themselves. -/
def escaped : List Char :=
  ['.', '+', '^', '$', '\x7b', '\x7d', '(', ')', '|', '[', ']', '\\']

/-- What a character of a pattern is in an expression. -/
def expressionOf (c : Char) : Text :=
  if c = '*' then ['.', '*']
  else if c = '?' then ['.']
  else if escaped.contains c then ['\\', c]
  else [c]

/-- The expression that says what a pattern does. -/
def expression (pattern : Text) : Text := '^' :: pattern.flatMap expressionOf ++ ['$']

/-- Whether a pattern matches a text. -/
def isMatch (pattern text : Text) : Bool :=
  match RegularExpression.read? (expression pattern) with
  | some terms => terms.accepts (Text.units text)
  | none => false

end DesiredState.Wildcard
