/-
Binary64 numbers, exactly.

A finite number is a sign, a mantissa and a binary exponent, so that its value is a
ratio of integers that every question about it can be asked of.  `ofRatio` rounds a ratio
to the nearest number, a tie to the even mantissa; everything that reads or scales
a number goes through it.  Integers are told apart from the rest by `toInt?`, and the
safe ones, those below 2^53, are exactly the integers that rounding never moves.
-/
import DesiredState.Text.Basic

namespace DesiredState

/-- A binary64 number. -/
inductive Binary64 where
  /-- The value `mantissa * 2 ^ exponent`, or its negative. -/
  | finite (negative : Bool) (mantissa : Nat) (exponent : Int)
  /-- What a value too large for the format rounds to. -/
  | infinite (negative : Bool)
  /-- What is not a number: nothing is rounded to it. -/
  | nan
  deriving DecidableEq, Repr

namespace Binary64

/-- A power of two. -/
def twoTo (k : Nat) : Nat := Nat.pow 2 k

/-- A power of ten. -/
def tenTo (k : Nat) : Nat := Nat.pow 10 k

/-- The exponent of the smallest numbers. -/
def minExponent : Int := -1074

/-- The exponent of the largest numbers. -/
def maxExponent : Int := 971

/-- A zero of either sign. -/
def zero (negative : Bool) : Binary64 := .finite negative 0 minExponent

/-- A quotient rounded to the nearest integer, a tie to the even one. -/
def roundDiv (num den : Nat) : Nat :=
  let q := num / den
  let r := num % den
  if den < 2 * r ∨ (den = 2 * r ∧ q % 2 = 1) then q + 1 else q

/-- The ratio `num / (den * 2 ^ e)` as a numerator and a denominator. -/
def scaleRatio (num den : Nat) (e : Int) : Nat × Nat :=
  if 0 ≤ e then (num, den * twoTo e.toNat) else (num * twoTo (-e).toNat, den)

/-- The exponent at which a positive ratio has a mantissa of 53 bits, or the least exponent
where that one is smaller still. -/
def exponentOf (num den : Nat) : Int :=
  let guess : Int := num.log2 - den.log2 - 53
  let (n, d) := scaleRatio num den guess
  max minExponent (if twoTo 53 * d ≤ n then guess + 1 else guess)

/-- The number nearest to a ratio of natural numbers, with a sign. -/
def ofRatio (negative : Bool) (num den : Nat) : Binary64 :=
  if num = 0 ∨ den = 0 then zero negative
  else
    let e := exponentOf num den
    let (n, d) := scaleRatio num den e
    let m := roundDiv n d
    let (m, e) := if m = twoTo 53 then (twoTo 52, e + 1) else (m, e)
    if maxExponent < e then .infinite negative else .finite negative m e

/-- The number nearest to a natural number, with a sign. -/
def ofNat (negative : Bool) (n : Nat) : Binary64 := ofRatio negative n 1

/-- The number nearest to an integer. -/
def ofInt (n : Int) : Binary64 := ofNat (n < 0) n.natAbs

/-- The number nearest to `digits * 10 ^ exponent`, with a sign.  A power of ten far outside
the range of the format decides the answer before the power is written out. -/
def ofDecimal (negative : Bool) (digits : Nat) (exponent : Int) : Binary64 :=
  if digits = 0 then zero negative
  else if 400 < exponent then .infinite negative
  else if exponent < -(400 + digits.log2 : Int) then zero negative
  else if 0 ≤ exponent then ofRatio negative (digits * tenTo exponent.toNat) 1
  else ofRatio negative digits (tenTo (-exponent).toNat)

/-- A number multiplied by a power of two. -/
def scale (x : Binary64) (k : Nat) : Binary64 :=
  match x with
  | .nan => .nan
  | .infinite negative => .infinite negative
  | .finite negative m e =>
    let e := e + k
    if 0 ≤ e then ofRatio negative (m * twoTo e.toNat) 1
    else ofRatio negative m (twoTo (-e).toNat)

/-- The number with the other sign. -/
def negate : Binary64 → Binary64
  | .finite negative m e => .finite (!negative) m e
  | .infinite negative => .infinite (!negative)
  | .nan => .nan

/-- Whether a number is finite. -/
def isFinite : Binary64 → Bool
  | .finite .. => true
  | .infinite _ | .nan => false

/-- Whether a number is zero, of either sign. -/
def isZero : Binary64 → Bool
  | .finite _ m _ => m == 0
  | .infinite _ | .nan => false

/-- A magnitude with a sign. -/
def signed (negative : Bool) (n : Nat) : Int := if negative then -(n : Int) else n

/-- The value of a number that is an integer. -/
def toInt? : Binary64 → Option Int
  | .infinite _ | .nan => none
  | .finite negative m e =>
    if 0 ≤ e then some (signed negative (m * twoTo e.toNat))
    else
      let d := twoTo (-e).toNat
      if m % d = 0 then some (signed negative (m / d)) else none

/-- Whether a number is an integer. -/
def isInteger (x : Binary64) : Bool := x.toInt?.isSome

/-- The largest integer up to which every integer is a number of the format. -/
def maxSafe : Nat := twoTo 53 - 1

/-- The value of a number that is an integer of at most `maxSafe`. -/
def toSafeInt? (x : Binary64) : Option Int := x.toInt?.filter (·.natAbs ≤ maxSafe)

/-- The value of a finite number in units of the smallest one, 2^-1074. -/
def toUnits : Binary64 → Int
  | .infinite _ | .nan => 0
  | .finite negative m e => signed negative (m * twoTo (e - minExponent).toNat)

/-- A number without its fraction, unless it is infinite; what is not a number counts as zero. -/
def truncate? : Binary64 → Option Int
  | .infinite _ => none
  | .nan => some 0
  | .finite negative m e =>
    if 0 ≤ e then some (signed negative (m * twoTo e.toNat))
    else some (signed negative (m / twoTo (-e).toNat))

/-- The least integer that is no smaller, unless the number is infinite. -/
def ceil? (x : Binary64) : Option Int :=
  match x.toInt?, x.truncate?, x with
  | none, some n, .finite false _ _ => some (n + 1)
  | _, n, _ => n

/-- The number nearest to a number and a natural number together. -/
def addNat (x : Binary64) (k : Nat) : Binary64 :=
  match x with
  | .nan => .nan
  | .infinite negative => .infinite negative
  | .finite .. =>
    let one := twoTo (-minExponent).toNat
    let sum := x.toUnits + (k * one : Nat)
    ofRatio (sum < 0) sum.natAbs one

/-- The 64 bits of a number, as a natural number. -/
def toBits (x : Binary64) : Nat :=
  let sign : Bool → Nat := fun negative => if negative then twoTo 63 else 0
  match x with
  | .nan => 2047 * twoTo 52 + twoTo 51
  | .infinite negative => sign negative + 2047 * twoTo 52
  | .finite negative m e =>
    if m < twoTo 52 then sign negative + m
    else sign negative + (e + 1075).toNat * twoTo 52 + (m - twoTo 52)

end Binary64

end DesiredState
