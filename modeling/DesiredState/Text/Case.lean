/-
Letter case.

Names are compared by their lower-case forms: `lower` is the full lower-case mapping
of Unicode, in which one capital has a two-character image and a capital sigma at
the end of a word becomes a final sigma.  Wildcards compare one 16-bit unit with
another and use the simpler `foldUnit`, which maps a unit to its upper-case form
where that is a single unit and does not fall into ASCII from outside it.
-/
import DesiredState.Text.Basic
import DesiredState.Text.CaseTable

namespace DesiredState.Text

/-- Whether a character has upper, lower or title case. -/
def isCased (c : Char) : Bool :=
  if c.toNat < 128 then c.isAlpha else inRanges casedRanges c.toNat

/-- Whether a character is passed over when the end of a word is looked for. -/
def isCaseIgnorable (c : Char) : Bool :=
  if c.toNat < 128 then c == '\'' || c == '.' || c == ':' || c == '^' || c == '`'
  else inRanges caseIgnorableRanges c.toNat

/-- The lower-case form of a character by itself. -/
def lowerChar (c : Char) : Text :=
  if c.toNat < 128 then [c.toLower]
  else if c = 'İ' then ['i', '\u0307']
  else [Char.ofNat (shiftBy lowerRuns c.toNat)]

/-- Whether the next character that is not passed over is cased. -/
def continuesWord : Text → Bool
  | [] => false
  | c :: rest => if isCaseIgnorable c then continuesWord rest else isCased c

/-- The lower-case form of a text that follows a cased character, or does not. -/
def lowerAfter : (cased : Bool) → Text → Text
  | _, [] => []
  | cased, c :: rest =>
    let image :=
      if c = 'Σ' then [if cased && !continuesWord rest then 'ς' else 'σ'] else lowerChar c
    image ++ lowerAfter (if isCaseIgnorable c then cased else isCased c) rest

/-- The lower-case form of a text. -/
def lower (t : Text) : Text := lowerAfter false t

/-- Whether two texts are equal when letter case is disregarded. -/
def sameName (s t : Text) : Bool := lower s == lower t

/-- A 16-bit unit with its case disregarded. -/
def foldUnit (unit : Nat) : Nat :=
  if unit < 128 then (if 97 ≤ unit ∧ unit ≤ 122 then unit - 32 else unit)
  else shiftBy upperRuns unit

/-- What follows an ASCII `word`, given in lower case, at the start of a text in any case. -/
def dropWord? : (word t : Text) → Option Text
  | [], t => some t
  | _ :: _, [] => none
  | w :: word, c :: t => if c.toLower = w then dropWord? word t else none

end DesiredState.Text
