/-
The parts that rendering looks for.

Rendering goes through the members of a value or a block until it finds the one that it
needs, so that the recursion follows the data.  What it does is told here by name: a value
is rendered by the content that it has, and a block by its map of properties.
-/
import DesiredState.Proofs.Sorting
import DesiredState.Render.Entries

namespace DesiredState.Render

/-- The properties that a part lists: an array lists its items by their numbers. -/
def propertyMap? : Option Json → Option (Fields Json)
  | some (.object fields) => some fields
  | some (.array items) => some (((List.range items.length).map Text.ofNat).zip items)
  | _ => none

/-- The texts of values are those of each value, at its own place. -/
theorem fieldTexts_eq_map (level : Level) (path : Path) (fields : List (Text × Json)) :
    fieldTexts level path fields =
      fields.map fun p => (p.1, value level (path ++ [.string p.1]) p.2) := by
  induction fields with
  | nil => rfl
  | cons p rest ih => rw [fieldTexts, ih]; rfl

theorem itemTexts_eq_fieldTexts (level : Level) (path : Path) (items : List Json) (n : Nat) :
    ((List.range' n items.length).map Text.ofNat).zip (itemTexts level path n items) =
      fieldTexts level path (((List.range' n items.length).map Text.ofNat).zip items) := by
  induction items generalizing n with
  | nil => rfl
  | cons part rest ih =>
    rw [List.length_cons, List.range'_succ, List.map_cons, itemTexts, List.zip_cons_cons,
      List.zip_cons_cons, fieldTexts, ih]

/-- The lines of a block are those of its properties. -/
theorem bodyOf_eq (level : Level) (path : Path) (members : Fields Json) :
    bodyOf level path members =
      (propertyMap? (members.get? "properties")).map fun fields =>
        body level path fields (fieldTexts level path fields) := by
  induction members with
  | nil => rfl
  | cons m rest ih =>
    obtain ⟨name, part⟩ := m
    rw [Fields.get?]
    by_cases hname : name = "properties".toList
    · rw [if_pos hname]
      cases part with
      | object fields => rw [bodyOf, if_pos hname]; rfl
      | array items =>
        rw [bodyOf, if_pos hname]
        dsimp only [propertyMap?, Option.map_some]
        rw [List.range_eq_range', itemTexts_eq_fieldTexts]
      | null | bool | number | string =>
        rw [bodyOf, if_pos hname]
        · rfl
        all_goals
          intro _ h
          cases h
    · rw [if_neg hname, ← ih]
      cases part <;> rw [bodyOf, if_neg hname]
      all_goals
        intro _ h
        cases h

/-- The lines of a block are those of the properties that are written, in the order of their
keys. -/
theorem body_eq (level : Level) (path : Path) (fields : Fields Json) :
    body level path fields (fieldTexts level path fields) =
      let written := Text.sortByKey (fields.filter fun p => isWritten level p.1)
      properties level path ((written.map fun p => p.1.size).foldl max 0) fields
        (written.map fun p => (p.1, value level (path ++ [.string p.1]) p.2)) := by
  have hwritten : (fieldTexts level path fields).filter (fun p => isWritten level p.1) =
      (fields.filter fun p => isWritten level p.1).map fun p =>
        (p.1, value level (path ++ [.string p.1]) p.2) := by
    rw [fieldTexts_eq_map, List.filter_map]
    rfl
  unfold body
  dsimp only
  rw [hwritten,
    Text.sortByKey_map fun p : Text × Json => value level (path ++ [Json.string p.1]) p.2,
    List.map_map]
  rfl

/-- The block that a content is. -/
def blockIn (level : Level) (path : Path) : Option Json → Output
  | some content => block level path content
  | none => violation (.notBlock "undefined") (path ++ [nameless])

/-- The block within a value is its content. -/
theorem blockOf_eq (level : Level) (path : Path) (members : Fields Json) :
    blockOf level path members = blockIn level path (members.get? "value") := by
  induction members with
  | nil => rfl
  | cons m rest ih =>
    obtain ⟨name, part⟩ := m
    rw [blockOf, Fields.get?]
    split
    · rfl
    · exact ih

/-- The blocks that a content lists. -/
def blocksIn (level : Level) (path : Path) : Option Json → Output
  | some (.array items) =>
    if items.isEmpty then .ok ['@', '(', ')']
    else (blocks (level.deeper 2) path items).map (inArray level)
  | other => violation (.notArray (Json.describe other)) path

/-- The blocks within a value are the items of its content. -/
theorem blocksOf_eq (level : Level) (path : Path) (members : Fields Json) :
    blocksOf level path members = blocksIn level path (members.get? "value") := by
  induction members with
  | nil => rfl
  | cons m rest ih =>
    obtain ⟨name, part⟩ := m
    rw [Fields.get?]
    by_cases hname : name = "value".toList
    · rw [if_pos hname]
      cases part with
      | array items => rw [blocksOf, if_pos hname]; rfl
      | null | bool | number | string | object =>
        rw [blocksOf, if_pos hname]
        · rfl
        · intro _ h
          cases h
    · rw [if_neg hname, ← ih]
      cases part <;> rw [blocksOf, if_neg hname]
      all_goals
        intro _ h
        cases h

/-- The comment that a content is. -/
def commentIn : Option Json → Output
  | some (.string t) => .ok (comment t)
  | _ => .error .noText

/-- A comment is the content of a string. -/
theorem metadata_eq (path : Path) (members : Fields Json) :
    metadata path (.object members) =
      match members.get? "kind" with
      | some (.string kind) =>
        if kind = ValueKind.string.name then commentIn (members.get? "value")
        else violation (.metadataKind kind) path
      | other => violation (.metadataKind (Json.displayOrMissing other)) path := rfl

theorem displayItems_cons (j : Json) {rest : List Json} (h : rest ≠ []) :
    Json.displayItems (j :: rest) = j.displayItem ++ ',' :: Json.displayItems rest := by
  rw [Json.displayItems]
  exact h

end DesiredState.Render
