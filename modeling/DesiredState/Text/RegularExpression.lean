/-
Regular expressions, as far as patterns need them.

An expression stands between `^` and `$` and is compared with a whole text, 16-bit unit by
unit and without regard to case.  A point stands for any unit that ends no line, and with a
star behind it for any run of such units.  A character that has a meaning of its own stands
for itself behind a backslash, and every other one by itself.  What is written with anything
else is none of these expressions.
-/
import DesiredState.Text.Case

namespace DesiredState

/-- A part of an expression. -/
inductive RegularExpression.Term where
  /-- One unit, in either case. -/
  | unit (mark : Nat)
  /-- Any one unit that ends no line. -/
  | any
  /-- Any run of units that end no line. -/
  | run
  deriving DecidableEq, Repr

/-- An expression for whole texts. -/
abbrev RegularExpression := List RegularExpression.Term

namespace RegularExpression

/-! ### Reading -/

/-- Whether a character has a meaning of its own. -/
def isSpecial (c : Char) : Bool :=
  ['^', '$', '\\', '.', '*', '+', '?', '(', ')', '[', ']', '\x7b', '\x7d', '|'].contains c

/-- The terms of a character that stands for itself: its units. -/
def literal (c : Char) : List Term := (Text.unitsOf c).map .unit

/-- The terms up to the sign that ends an expression. -/
def terms? : Text → Option (List Term)
  | [] => none
  | ['$'] => some []
  | '.' :: '*' :: rest => (terms? rest).map (.run :: ·)
  | '.' :: rest => (terms? rest).map (.any :: ·)
  | '\\' :: c :: rest => if isSpecial c then (terms? rest).map (literal c ++ ·) else none
  | c :: rest => if isSpecial c then none else (terms? rest).map (literal c ++ ·)

/-- The expression that a text is. -/
def read? : Text → Option RegularExpression
  | '^' :: rest => terms? rest
  | _ => none

/-! ### Comparing

A run may be given back unit by unit, so that all its ends are tried.
-/

/-- Whether a unit ends a line. -/
def endsLine (unit : Nat) : Bool :=
  unit == 0x0A || unit == 0x0D || unit == 0x2028 || unit == 0x2029

/-- Whether a run without line ends can be taken off the units so that the rest is accepted. -/
def afterRun (accepts : List Nat → Bool) : List Nat → Bool
  | [] => accepts []
  | unit :: rest => accepts (unit :: rest) || (!endsLine unit && afterRun accepts rest)

/-- Whether units are what an expression stands for. -/
def accepts : RegularExpression → List Nat → Bool
  | [], units => units.isEmpty
  | .run :: terms, units => afterRun (accepts terms) units
  | .any :: terms, unit :: rest => !endsLine unit && accepts terms rest
  | .unit mark :: terms, unit :: rest =>
    Text.foldUnit mark == Text.foldUnit unit && accepts terms rest
  | .any :: _, [] | .unit _ :: _, [] => false

end RegularExpression

end DesiredState
