/-
Numbers in decimal.

A number is written with the fewest decimal digits that read back as the same
number, and of those the digits nearest to it.  `shortest` finds them by going down
the decimal grids, from coarse to fine, and stopping at the first that has a point
among the reals that round to the number.  Safe integers need none of this, since
their digits are the ones of the integer.  Positional notation is used for exponents
from -7 to 20, and a mantissa with a power of ten outside them.
-/
import DesiredState.Number.Binary64

namespace DesiredState.Binary64

/-! ### Writing -/

/-- The point of the grid of spacing `10 ^ p` that lies nearest to a positive number among
those that round to it, as a multiple of the spacing. -/
def gridPoint? (m : Nat) (e p : Int) : Option Nat :=
  let below := if m = twoTo 52 ∧ e ≠ minExponent then 4 * m - 1 else 4 * m - 2
  let above := 4 * m + 2
  let (value, unit) := scaleRatio (4 * m) 1 (2 - e)
  let (low, _) := scaleRatio below 1 (2 - e)
  let (high, _) := scaleRatio above 1 (2 - e)
  let stretch := tenTo (-p).toNat
  let step := unit * tenTo p.toNat
  let inside (d : Nat) : Bool :=
    if m % 2 = 0 then low * stretch ≤ d * step && d * step ≤ high * stretch
    else low * stretch < d * step && d * step < high * stretch
  let d := value * stretch / step
  match inside d, inside (d + 1) with
  | false, false => none
  | true, false => some d
  | false, true => some (d + 1)
  | true, true =>
    let fromLow := value * stretch - d * step
    let fromHigh := (d + 1) * step - value * stretch
    if fromLow < fromHigh ∨ (fromLow = fromHigh ∧ d % 2 = 0) then some d else some (d + 1)

/-- The first grid point on the grids of spacing `10 ^ p`, `10 ^ (p - 1)`, … and its exponent. -/
def firstGridPoint (m : Nat) (e : Int) : (grids : Nat) → (p : Int) → Nat × Int
  | 0, p => (0, p)
  | grids + 1, p =>
    match gridPoint? m e p with
    | some d => (d, p)
    | none => firstGridPoint m e grids (p - 1)

/-- The digits and the exponent of the shortest decimal that rounds to a positive number. -/
def shortest (m : Nat) (e : Int) : Nat × Int := firstGridPoint m e 660 310

/-- Digits with a decimal exponent, in positional or scientific notation. -/
def layOut (digits : Text) (exponent : Int) : Text :=
  let count : Int := digits.length
  let point : Int := count + exponent
  if count ≤ point ∧ point ≤ 21 then digits ++ List.replicate (point - count).toNat '0'
  else if 0 < point ∧ point ≤ 21 then
    digits.take point.toNat ++ '.' :: digits.drop point.toNat
  else if -6 < point ∧ point ≤ 0 then
    '0' :: '.' :: List.replicate (-point).toNat '0' ++ digits
  else
    let mantissa :=
      match digits with
      | first :: second :: rest => first :: '.' :: second :: rest
      | short => short
    let sign := if 0 < point then '+' else '-'
    mantissa ++ 'e' :: sign :: Text.ofNat (point - 1).natAbs

/-- The text of an integer. -/
def textOfInt (n : Int) : Text :=
  if n < 0 then '-' :: Text.ofNat n.natAbs else Text.ofNat n.natAbs

/-- The text of a number. -/
def toText (x : Binary64) : Text :=
  match x.toSafeInt? with
  | some n => textOfInt n
  | none =>
    match x with
    | .nan => "NaN"
    | .infinite negative => (if negative then ['-'] else []) ++ "Infinity"
    | .finite negative m e =>
      let (digits, exponent) := shortest m e
      (if negative then ['-'] else []) ++ layOut (Text.ofNat digits) exponent

/-! ### Reading -/

/-- The value of a hexadecimal digit. -/
def hexDigit? (c : Char) : Option Nat :=
  if c.isDigit then some (c.toNat - '0'.toNat)
  else if 'a' ≤ c ∧ c ≤ 'f' then some (c.toNat - 'a'.toNat + 10)
  else if 'A' ≤ c ∧ c ≤ 'F' then some (c.toNat - 'A'.toNat + 10)
  else none

/-- The number that hexadecimal digits denote after the value of the digits before them. -/
def natOfHex? : (value : Nat) → Text → Option Nat
  | value, [] => some value
  | value, c :: rest =>
    match hexDigit? c with
    | some d => natOfHex? (16 * value + d) rest
    | none => none

/-- The exponent that a text denotes: none, or a mark, a sign and digits. -/
def readExponent? (t : Text) : Option Int :=
  match t with
  | [] => some 0
  | mark :: rest =>
    if mark = 'e' ∨ mark = 'E' then
      let (negative, digits) :=
        match rest with
        | '-' :: digits => (true, digits)
        | '+' :: digits => (false, digits)
        | digits => (false, digits)
      if digits.isEmpty ∨ !digits.all Char.isDigit then none
      else some (signed negative (Text.natOfDigits digits))
    else none

/-- The number that an unsigned literal denotes: hexadecimal after `0x`, else digits with an
optional fraction and exponent. -/
def readUnsigned? (t : Text) : Option Binary64 :=
  match t with
  | '0' :: mark :: rest =>
    if mark = 'x' ∨ mark = 'X' then (natOfHex? 0 rest).map (ofNat false) else readDecimal? t
  | _ => readDecimal? t
where
  /-- The number that digits with an optional fraction and exponent denote. -/
  readDecimal? (t : Text) : Option Binary64 :=
    let (whole, rest) := t.span Char.isDigit
    let (fraction, rest) :=
      match rest with
      | '.' :: rest => rest.span Char.isDigit
      | rest => ([], rest)
    if whole.isEmpty then none
    else
      (readExponent? rest).map fun exponent =>
        ofDecimal false (Text.natOfDigits (whole ++ fraction)) (exponent - fraction.length)

/-- The integer that a text denotes: an optional sign and digits alone. -/
def readInteger? (t : Text) : Option (Bool × Nat) :=
  let (negative, digits) :=
    match t with
    | '-' :: digits => (true, digits)
    | '+' :: digits => (false, digits)
    | digits => (false, digits)
  if digits.isEmpty ∨ !digits.all Char.isDigit then none
  else some (negative, Text.natOfDigits digits)

end DesiredState.Binary64
