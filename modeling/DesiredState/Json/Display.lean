/-
JSON values as text.

Where a value of any type has to be named, a text is shown as it is, an array by its
items, and an object by a mark.  A value that is not there is `undefined`.
-/
import DesiredState.Json
import DesiredState.Number.Decimal

namespace DesiredState.Json

mutual

/-- A value as text. -/
def display : Json → Text
  | null => "null"
  | bool value => if value then "true" else "false"
  | number value => value.toText
  | string text => text
  | array items => displayItems items
  | object _ => "[object Object]"

/-- Items as text with commas between them; of a null nothing is shown. -/
def displayItems : List Json → Text
  | [] => []
  | [item] => displayItem item
  | item :: rest => displayItem item ++ ',' :: displayItems rest

/-- An item as text. -/
def displayItem : Json → Text
  | null => []
  | bool value => if value then "true" else "false"
  | number value => value.toText
  | string text => text
  | array items => displayItems items
  | object _ => "[object Object]"

end

/-- A value that may be missing as text. -/
def displayOrMissing (value : Option Json) : Text := (value.map display).getD "undefined"

/-- Whether a value counts as given: null, false, zero, what is not a number and the empty text
do not. -/
def isGiven : Json → Bool
  | null | number .nan => false
  | bool value => value
  | number value => !value.isZero
  | string text => !text.isEmpty
  | array _ | object _ => true

/-- The type of a value that may be missing; an array is an object, and so is null. -/
def kindOf : Option Json → Text
  | none => "undefined"
  | some null | some (array _) => "object"
  | some value => value.typeName

/-- What a value that may be missing is; an array is an object. -/
def describe : Option Json → Text
  | some null => "null"
  | other => kindOf other

end DesiredState.Json
