/-
Parts of rules.

Two rules ask the cursor something and then go on in the same way whatever the answer
was.  What they go on with is named here, so that it can be spoken of by itself: the
sign of an operand, the operand behind it, and the target of a node block.
-/
import DesiredState.Script.Grammar

namespace DesiredState

namespace Reading

theorem nextIs_bind {p : TokenKind → Bool} {f : Bool → Reading α} (c : Cursor) :
    (nextIs p >>= f) c = f (c.nextIs p) c := rfl

end Reading

namespace Grammar

open Reading

section Parts

variable (source : Text) (below : Level)

/-- The sign of an operand, if it has one. -/
def sign (hasSign : Bool) : Reading Unit :=
  if hasSign then do
    let _ ← token
    pure ()
  else pure ()

/-- Casts, what they are applied to and accesses. -/
def castOperand : Reading (Extent → Marked Expression) := do
  let _ ← readWhile (·.nextIs (· == .typeLiteral)) token
  castValue source below
  let _ ← accesses
  pure fun extent => ⟨.unrecognized extent, []⟩

/-- A value and accesses on it. -/
def plainOperand (hasSign : Bool) : Reading (Extent → Marked Expression) := do
  let base ← primary source below
  let followed ← accesses
  pure fun extent =>
    if hasSign then ⟨.unrecognized extent, []⟩
    else ⟨accessed base.node followed extent, base.marks⟩

/-- An operand behind its sign. -/
def unsigned (hasSign : Bool) : Reading (Extent → Marked Expression) := do
  if ← nextIs (· == .typeLiteral) then castOperand source below
  else plainOperand source below hasSign

theorem operand_eq :
    operand source below = spanning source (do
      let hasSign ← nextIs (· == .operator)
      sign hasSign
      unsigned source below hasSign) := by
  unfold operand sign unsigned castOperand plainOperand
  congr 1
  funext c
  rw [nextIs_bind, nextIs_bind]
  cases c.nextIs (· == .operator)
  · rfl
  · simp only [if_true, bind_assoc, pure_bind]

/-- The target of a node block. -/
def target : Reading (Marked Expression) := do
  if ← nextIs (· == .bareword) then
    let t ← token
    pure (Marked.mk (bareString t) [])
  else operand source below

theorem node_eq :
    node source below = spanning source (do
      let _ ← token
      let target ← target source below
      let (read, _) ← body source below
      pure fun extent =>
        ⟨.node extent target.node (read.map (·.statement)), none,
          target.marks ++ read.flatMap (·.marks)⟩) := by
  unfold node target
  refine congrArg _ (congrArg _ (funext fun _ => funext fun c => ?_))
  rw [bind_assoc, nextIs_bind, nextIs_bind]
  cases c.nextIs (· == .bareword)
  · rfl
  · simp only [if_true, bind_assoc, pure_bind]

end Parts

end Grammar

end DesiredState
