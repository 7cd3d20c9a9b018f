/-
The levels at which blocks stand.

A level is the number of steps by which a block is indented.  The outermost blocks may
stand between two levels: their margin is that of the level before, but they do not
count as outermost, and the blocks within them are as far apart as anywhere.
-/
import DesiredState.Number.Binary64
import DesiredState.Render.Failure

namespace DesiredState.Render

/-- How deep a block stands. -/
inductive Level where
  | whole (n : Nat)
  /-- A number that is no level, but stands between two or before the first. -/
  | between (x : Binary64)
  deriving DecidableEq, Repr

namespace Level

/-- The level that a number is, or where it stands. -/
def place (x : Binary64) : Level :=
  match x.toInt? with
  | some (.ofNat n) => .whole n
  | _ => .between x

/-- The level that is some steps deeper. -/
def deeper (k : Nat) : Level → Level
  | whole n => .whole (n + k)
  | between x => .place (x.addNat k)

/-- The number of steps by which a line of a level is indented. -/
def margin : Level → Nat
  | whole n => n
  | between x => (x.truncate?.getD 0).toNat

/-- Whether blocks of a level are in no others. -/
def isOutermost (level : Level) : Bool := level == .whole 0

/-- How long a text may be, in 16-bit units. -/
def maxSize : Nat := 536870888

/-- Whether so many lines of a level fit into a text. -/
def holds (level : Level) (lines : Nat) : Bool := decide (4 * level.margin * lines ≤ maxSize)

/-- The level of a number: without its fraction the number must not be negative, and a line of
the level must fit into a text. -/
def ofNumber (x : Binary64) : Except RenderFailure Level :=
  match x.truncate? with
  | none => .error .noLevel
  | some n =>
    if 0 ≤ n ∧ (place x).holds 1 then .ok (place x) else .error .noLevel

/-! ### Small facts -/

@[simp] theorem margin_whole (n : Nat) : (whole n).margin = n := rfl

@[simp] theorem deeper_whole (k n : Nat) : (whole n).deeper k = whole (n + k) := rfl

@[simp] theorem isOutermost_whole (n : Nat) : (whole n).isOutermost = (n == 0) := by
  cases n <;> simp [isOutermost]

end Level

end DesiredState.Render
