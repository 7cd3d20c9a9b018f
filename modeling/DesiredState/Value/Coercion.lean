/-
Reading a literal as a value of a declared type.

The declared type decides the kind of the value, not the shape of the literal: the
string `"42"` is an integer for an integer property, and the number `80` a string for
a string property.  Where a literal does not fit its type, it is kept in another kind
and the coercion says which type it failed to reach.  What only the host could
evaluate, such as a variable or a cast, is kept as text and is no failure.
-/
import DesiredState.Number.Decimal
import DesiredState.Schema.DeclaredType
import DesiredState.Script.Tree
import DesiredState.Value

namespace DesiredState

/-- A type that a coercion can fail to reach. -/
inductive Coercion.Target where
  | string
  | integer
  | boolean
  | integerArray
  deriving DecidableEq, Repr

/-- The name of a target. -/
def Coercion.Target.name : Coercion.Target → Text
  | string => "String"
  | integer => "Integer"
  | boolean => "Boolean"
  | integerArray => "Integer[]"

/-- A value, and the type that it failed to reach, if it did. -/
structure Coercion where
  value : Value
  failure : Option Coercion.Target

namespace Term

/-- Whether a term is a bare word: a command without arguments. -/
def isBare : Term → Bool
  | .command c => c.arguments.isEmpty
  | _ => false

/-- Whether a term is a string, a number or a bare word. -/
def isAtom : Term → Bool
  | .expression (.string ..) | .expression (.number ..) => true
  | t => t.isBare

/-- A term as a string: the decoded value of a string, a bare word, or else the text of it. -/
def atomText : Term → Text
  | .expression (.string _ value _) => value
  | .command c => if c.arguments.isEmpty then c.name else c.extent.text
  | t => t.extent.text

/-- The integer that a text denotes, if it is safe. -/
def integerOfText? (t : Text) : Option Binary64 :=
  (Binary64.readInteger? (Text.trim t)).bind fun (negative, n) =>
    let x := Binary64.ofNat negative n
    if x.toSafeInt?.isSome then some x else none

/-- The safe integer that a scalar denotes. -/
def integer? : Term → Option Binary64
  | .expression (.number _ x) => if x.toSafeInt?.isSome then some x else none
  | .expression (.string _ value _) => integerOfText? value
  | .command c => if c.arguments.isEmpty then integerOfText? c.name else none
  | _ => none

/-- The elements of an array, or the one term that is none. -/
def elements : Term → List Term
  | .expression (.array _ _ elements) => elements
  | t => [t]

end Term

namespace Coercion

/-- A value of the type that was asked for. -/
def success (value : Value) : Coercion := ⟨value, none⟩

/-- The text of a term, as a value that is not interpreted. -/
def verbatim (t : Term) : Coercion := success (.raw t.extent.text)

/-- What becomes of a term that is no scalar where one is asked for: only an array is a failure. -/
def notScalar (target : Target) (t : Term) : Coercion :=
  match t with
  | .expression (.array ..) => ⟨.raw t.extent.text, some target⟩
  | _ => verbatim t

/-- A term as a string. -/
def toString (t : Term) : Coercion :=
  if t.isAtom then success (.string t.atomText) else notScalar .string t

/-- A term as an integer. -/
def toInteger (t : Term) : Coercion :=
  if t.isAtom then
    match t.integer? with
    | some x => success (.integer x)
    | none => ⟨.string t.atomText, some .integer⟩
  else notScalar .integer t

/-- A term as a truth value. -/
def toBoolean (t : Term) : Coercion :=
  match t with
  | .expression (.number _ x) => success (.boolean !x.isZero)
  | _ =>
    if t.isAtom then
      let word := Text.lower t.atomText
      if word = "true".toList then success (.boolean true)
      else if word = "false".toList then success (.boolean false)
      else ⟨.string t.atomText, some .boolean⟩
    else notScalar .boolean t

/-- A term as an array of strings. -/
def toStrings (t : Term) : Coercion := success (.stringArray (t.elements.map Term.atomText))

/-- A term as an array of integers: one element that is none makes all of them strings. -/
def toIntegers (t : Term) : Coercion :=
  match t.elements.mapM Term.integer? with
  | some numbers => success (.integerArray numbers)
  | none => ⟨.stringArray (t.elements.map Term.atomText), some .integerArray⟩

/-- A term for what it is.  A number that is an integer but not a safe one is kept as text, since
it may not be the number that was written. -/
def asIs (t : Term) : Coercion :=
  match t with
  | .expression (.number extent x) =>
    if x.toSafeInt?.isSome then success (.integer x)
    else if x.isInteger then ⟨.string extent.text, some .integer⟩
    else verbatim t
  | .expression (.array _ _ elements) => success (.stringArray (elements.map Term.atomText))
  | _ => if t.isAtom then success (.string t.atomText) else verbatim t

/-- A string, a number, an array or a bare word as a value of a declared type. -/
def ofStatic (expected : DeclaredType) (t : Term) : Coercion :=
  match expected with
  | .string => toString t
  | .stringArray => toStrings t
  | .integer => toInteger t
  | .integerArray => toIntegers t
  | .boolean => toBoolean t
  | .subObject _ | .subObjectArray _ | .other _ => asIs t

/-- A term as a value of a declared type. -/
def of (expected : DeclaredType) (t : Term) : Coercion :=
  match t with
  | .expression (.variable v) =>
    let word := Text.lower v.name
    if word = "true".toList then success (.boolean true)
    else if word = "false".toList then success (.boolean false)
    else verbatim t
  | .expression (.string ..) | .expression (.number ..) | .expression (.array ..) =>
    ofStatic expected t
  | .command c => if c.arguments.isEmpty then ofStatic expected t else verbatim t
  | _ => verbatim t

end Coercion

end DesiredState
