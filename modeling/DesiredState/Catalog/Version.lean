/-
The order of versions.

Versions are compared part by part, a missing part counting as zero.  A part is read
as far as it is an integer, and as zero if it is none, so `2.x` is `2.0`.  Parts are
rounded to binary64 numbers; one that is too large even for that comes after every
other part, and before none.
-/
import DesiredState.Number.Binary64
import DesiredState.Text.Blank

namespace DesiredState.Version

/-- The number that a part of a version starts with. -/
def part (t : Text) : Binary64 :=
  match Text.trimStart t with
  | '-' :: rest => Binary64.ofNat true (Text.natOfDigits (rest.takeWhile Char.isDigit))
  | '+' :: rest => Binary64.ofNat false (Text.natOfDigits (rest.takeWhile Char.isDigit))
  | rest => Binary64.ofNat false (Text.natOfDigits (rest.takeWhile Char.isDigit))

/-- The parts of a version. -/
def parts (version : Text) : List Binary64 := (Text.splitOn '.' version).map part

/-- The order of two parts. -/
def compareParts : Binary64 → Binary64 → Ordering
  | .nan, _ | _, .nan => .gt
  | .infinite true, .infinite false => .lt
  | .infinite _, .infinite _ => .gt
  | .infinite negative, .finite .. => if negative then .lt else .gt
  | .finite .., .infinite negative => if negative then .gt else .lt
  | a, b => Ord.compare a.toUnits b.toUnits

/-- The order of nothing but zeros and a list of parts. -/
def compareZeros : List Binary64 → Ordering
  | [] => .eq
  | b :: bs => (compareParts (.zero false) b).then (compareZeros bs)

/-- The order of two lists of parts, the shorter one going on with zeros. -/
def compareAll : List Binary64 → List Binary64 → Ordering
  | [], bs => compareZeros bs
  | a :: as, [] => (compareParts a (.zero false)).then (compareAll as [])
  | a :: as, b :: bs => (compareParts a b).then (compareAll as bs)

/-- The order of two versions. -/
def compare (a b : Text) : Ordering := compareAll (parts a) (parts b)

end DesiredState.Version
