/-
The order of keys.

Keys are ordered by their lower-case forms, and keys that differ in case alone by
themselves; in both the 16-bit units decide.
-/
import DesiredState.Text.Case

namespace DesiredState.Text

/-- The order of texts by their 16-bit units. -/
def compareUnits (s t : Text) : Ordering := compare (units s) (units t)

/-- The order of keys: letter case counts only between keys that are otherwise equal. -/
def keyOrder (s t : Text) : Ordering :=
  (compareUnits (lower s) (lower t)).then (compareUnits s t)

/-- A pair put before the first pair whose key does not come before its own. -/
def insertByKey (entry : Text × α) : List (Text × α) → List (Text × α)
  | [] => [entry]
  | other :: rest =>
    if (keyOrder entry.1 other.1).isLE then entry :: other :: rest
    else other :: insertByKey entry rest

/-- Pairs in the order of their keys. -/
def sortByKey (entries : List (Text × α)) : List (Text × α) := entries.foldr insertByKey []

end DesiredState.Text
