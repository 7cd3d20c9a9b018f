/-
The first fault.

Entries fail at the first fault that visits to their parts meet, and by the way of that visit.
Properties that are not visited can be taken out of every block: those under keys that only
identify the block, and comments on properties that are not there.
-/
import DesiredState.Proofs.Number
import DesiredState.Proofs.Rendering.Visits

namespace DesiredState

namespace Fields

variable {α β : Type}

theorem get?_filter {keep : Text → Bool} {name : Text} (h : keep name) (fields : Fields α) :
    Fields.get? name (fields.filter fun p => keep p.1) = fields.get? name := by
  induction fields with
  | nil => rfl
  | cons p rest ih =>
    rw [List.filter_cons, get?]
    by_cases hname : p.1 = name
    · rw [if_pos hname, if_pos (hname ▸ h), get?, if_pos hname]
    · rw [if_neg hname]
      split
      · rw [get?, if_neg hname, ih]
      · exact ih

theorem get?_map (f : α → β) (name : Text) (fields : Fields α) :
    Fields.get? name (fields.map fun p => (p.1, f p.2)) = (fields.get? name).map f := by
  induction fields with
  | nil => rfl
  | cons p rest ih =>
    rw [List.map_cons, get?, get?, ih]
    split
    · rfl
    · rfl

end Fields

namespace Render

/-! ### Leaving out what is not visited

A property that is not visited may hold anything at all.  That it does not show is said
with another entry, in which no such property is left at any depth.
-/

/-- Whether a property of a block is visited: it is written, or it is the comment on one that is. -/
def isVisited (n : Nat) (fields : Fields Value) (key : Text) : Bool :=
  isWritten (.whole n) key ||
    fields.any fun p => isWritten (.whole n) p.1 && key == metadataKey p.1

mutual

/-- A value whose blocks have no properties but those that are visited. -/
def prunedValue (n : Nat) : Value → Value
  | .subObject b => .subObject (prunedBlock (n + 1) b)
  | .subObjectArray items => .subObjectArray (prunedBlocks (n + 2) items)
  | flat => flat

/-- A block of a class with no properties but those that are visited. -/
def prunedBlock (n : Nat) : SubObject → SubObject
  | ⟨typeName, fields⟩ =>
    ⟨typeName, (prunedFields n fields).filter fun p => isVisited n fields p.1⟩

/-- Blocks with no properties but those that are visited. -/
def prunedBlocks (n : Nat) : List SubObject → List SubObject
  | [] => []
  | b :: rest => prunedBlock n b :: prunedBlocks n rest

/-- Properties whose blocks have no properties but those that are visited. -/
def prunedFields (n : Nat) : List (Text × Value) → List (Text × Value)
  | [] => []
  | (key, x) :: rest => (key, prunedValue n x) :: prunedFields n rest

end

/-- An instance with no properties but those that are visited. -/
def prunedInstance (n : Nat) (i : Instance) : Instance :=
  { i with
    properties := (prunedFields n i.properties).filter fun p => isVisited n i.properties p.1 }

theorem prunedFields_eq_map (n : Nat) (fields : List (Text × Value)) :
    prunedFields n fields = fields.map fun p => (p.1, prunedValue n p.2) := by
  induction fields with
  | nil => rfl
  | cons p rest ih => rw [prunedFields, ih]; rfl

/-- As a comment, a value is the same before and after. -/
theorem metadata_prunedValue (n : Nat) (path : Path) (x : Value) :
    metadata path (prunedValue n x).toJson = metadata path x.toJson := by
  cases x <;> rfl

theorem opensBlock_prunedValue (n : Nat) (x : Value) :
    opensBlock (prunedValue n x).toJson = opensBlock x.toJson := by
  cases x <;> rfl

theorem isGiven_toJson (x : Value) : x.toJson.isGiven := by
  cases x <;> rfl

section Fields

variable (n : Nat) (fields : Fields Value)

theorem get?_pruned {key : Text} (h : isVisited n fields key) :
    Fields.get? key ((prunedFields n fields).filter fun p => isVisited n fields p.1) =
      (fields.get? key).map (prunedValue n) := by
  rw [Fields.get?_filter h, prunedFields_eq_map, Fields.get?_map]

/-- A property that is written is written with the same comment. -/
theorem property_pruned (path : Path) (width : Nat) {p : Text × Value} (hp : p ∈ fields)
    (hwritten : isWritten (.whole n) p.1) (text : Text) :
    property (.whole n) path width (Value.encodeFields
        ((prunedFields n fields).filter fun q => isVisited n fields q.1)) p.1 text =
      property (.whole n) path width (Value.encodeFields fields) p.1 text := by
  have hkey : isVisited n fields p.1 := by
    rw [isVisited, hwritten, Bool.true_or]
  have hcomment : isVisited n fields (metadataKey p.1) := by
    refine (Bool.or_eq_true _ _).mpr (Or.inr (List.any_eq_true.mpr ⟨p, hp, ?_⟩))
    rw [hwritten, Bool.true_and]
    exact beq_self_eq_true _
  unfold property
  rw [Layout.get?_encodeFields, Layout.get?_encodeFields, Layout.get?_encodeFields,
    Layout.get?_encodeFields, get?_pruned n fields hkey, get?_pruned n fields hcomment]
  have hopens : (((fields.get? p.1).map (prunedValue n)).map Value.toJson).any opensBlock =
      ((fields.get? p.1).map Value.toJson).any opensBlock := by
    cases fields.get? p.1 with
    | none => rfl
    | some x => exact opensBlock_prunedValue n x
  rw [hopens]
  cases fields.get? (metadataKey p.1) with
  | none => rfl
  | some content =>
    rw [Option.map_some, Option.map_some, Option.map_some, Option.filter_some, Option.filter_some,
      if_pos (isGiven_toJson _), if_pos (isGiven_toJson _)]
    dsimp only
    rw [metadata_prunedValue]

theorem properties_pruned (path : Path) (width : Nat) {written : List (Text × Value)}
    (hwritten : ∀ p ∈ written, p ∈ fields ∧ isWritten (.whole n) p.1)
    (text : Text × Value → Output) :
    properties (.whole n) path width (Value.encodeFields
        ((prunedFields n fields).filter fun q => isVisited n fields q.1))
        (written.map fun p => (p.1, text p)) =
      properties (.whole n) path width (Value.encodeFields fields)
        (written.map fun p => (p.1, text p)) := by
  induction written with
  | nil => rfl
  | cons p rest ih =>
    obtain ⟨⟨hp, hkey⟩, hrest⟩ := List.forall_mem_cons.mp hwritten
    simp only [List.map_cons, properties, ih hrest, property_pruned n fields path width hp hkey]

theorem filter_isWritten_pruned :
    (((prunedFields n fields).filter fun q => isVisited n fields q.1).filter fun q =>
        isWritten (.whole n) q.1) =
      (fields.filter fun p => isWritten (.whole n) p.1).map fun p => (p.1, prunedValue n p.2) := by
  have hboth (p : Text × Value) : (isWritten (.whole n) p.1 && isVisited n fields p.1) =
      isWritten (.whole n) p.1 := by
    rw [isVisited]
    cases isWritten (.whole n) p.1 with
    | true => rfl
    | false => rfl
  rw [List.filter_filter, prunedFields_eq_map, List.filter_map]
  simp only [Function.comp_def, hboth]

theorem body_pruned (path : Path)
    (hvalue : ∀ p ∈ fields, ∀ path,
      value (.whole n) path (prunedValue n p.2).toJson = value (.whole n) path p.2.toJson) :
    let pruned := (prunedFields n fields).filter fun p => isVisited n fields p.1
    body (.whole n) path (Value.encodeFields pruned)
        (fieldTexts (.whole n) path (Value.encodeFields pruned)) =
      body (.whole n) path (Value.encodeFields fields)
        (fieldTexts (.whole n) path (Value.encodeFields fields)) := by
  intro pruned
  have hmem : ∀ p ∈ Text.sortByKey (fields.filter fun p => isWritten (.whole n) p.1),
      p ∈ fields ∧ isWritten (.whole n) p.1 := fun p hp =>
    List.mem_filter.mp (Text.mem_sortByKey.mp hp)
  rw [body_encodeFields, body_encodeFields, filter_isWritten_pruned,
    Text.sortByKey_map fun p : Text × Value => prunedValue n p.2]
  have htexts : (Text.sortByKey (fields.filter fun p => isWritten (.whole n) p.1)).map
      ((fun p : Text × Value => (p.1, value (.whole n) (path ++ [.string p.1]) p.2.toJson)) ∘
        fun p => (p.1, prunedValue n p.2)) =
      (Text.sortByKey (fields.filter fun p => isWritten (.whole n) p.1)).map fun p =>
        (p.1, value (.whole n) (path ++ [.string p.1]) p.2.toJson) :=
    List.map_congr_left fun p hp => congrArg (Prod.mk p.1) (hvalue p (hmem p hp).1 _)
  dsimp only
  rw [List.map_map, List.map_map, htexts]
  exact properties_pruned n fields path _ hmem _

end Fields

mutual

/-- **What is not visited does not show in a value.** -/
theorem value_pruned (n : Nat) (path : Path) (x : Value) :
    value (.whole n) path (prunedValue n x).toJson = value (.whole n) path x.toJson := by
  match x with
  | .subObject b =>
    rw [prunedValue, Layout.value_subObject, Layout.value_subObject, Level.deeper_whole,
      block_pruned (n + 1) path b]
  | .subObjectArray items =>
    have hempty : (prunedBlocks (n + 2) items).isEmpty = items.isEmpty := by
      cases items <;> rfl
    rw [prunedValue, Layout.value_subObjectArray, Layout.value_subObjectArray, hempty,
      Level.deeper_whole, blocks_pruned (n + 2) path items]
  | .string _ => rfl
  | .integer _ => rfl
  | .boolean _ => rfl
  | .stringArray _ => rfl
  | .integerArray _ => rfl
  | .raw _ => rfl

theorem block_pruned (n : Nat) (path : Path) (b : SubObject) :
    block (.whole n) path (prunedBlock n b).toJson = block (.whole n) path b.toJson := by
  match b with
  | ⟨typeName, fields⟩ =>
    have hbody (here : Path) := body_pruned n fields here (fields_pruned n fields)
    cases typeName with
    | none =>
      rw [prunedBlock, SubObject.toJson, SubObject.toJson, block, block, bodyOf_untagged,
        bodyOf_untagged]
      dsimp only
      rw [hbody]
      rfl
    | some name =>
      rw [prunedBlock, SubObject.toJson, SubObject.toJson, block, block, Layout.bodyOf_members,
        Layout.bodyOf_members]
      dsimp only
      rw [hbody]
      rfl

theorem blocks_pruned (n : Nat) (path : Path) (items : List SubObject) :
    blocks (.whole n) path (SubObject.encodeAll (prunedBlocks n items)) =
      blocks (.whole n) path (SubObject.encodeAll items) := by
  match items with
  | [] => rfl
  | b :: rest =>
    rw [prunedBlocks, SubObject.encodeAll, SubObject.encodeAll, blocks, blocks,
      block_pruned n path b, blocks_pruned n path rest]

theorem fields_pruned (n : Nat) (fields : List (Text × Value)) :
    ∀ p ∈ fields, ∀ path,
      value (.whole n) path (prunedValue n p.2).toJson = value (.whole n) path p.2.toJson := by
  match fields with
  | [] => exact fun p hp => absurd hp List.not_mem_nil
  | (key, x) :: rest =>
    exact List.forall_mem_cons.mpr ⟨fun path => value_pruned n path x, fields_pruned n rest⟩

end

theorem instance_pruned (n : Nat) (path : Path) (i : Instance) :
    block (.whole n) path (prunedInstance n i).toJson = block (.whole n) path i.toJson := by
  obtain ⟨resource, name, fields⟩ := i
  have hbody (here : Path) := body_pruned n fields here (fields_pruned n fields)
  rw [prunedInstance, Instance.toJson, Instance.toJson, block, block, Layout.bodyOf_instance,
    Layout.bodyOf_instance]
  · dsimp only
    rw [hbody]
    rfl
  all_goals
    intro _ h
    cases h

/-! ### Entries -/

/-- An entry of the data model: an instance, or a block of a class. -/
inductive TypedEntry where
  | ofInstance (i : Instance)
  | ofBlock (b : SubObject)

namespace TypedEntry

/-- The form in which an entry is rendered. -/
def toJson : TypedEntry → Json
  | ofInstance i => i.toJson
  | ofBlock b => b.toJson

/-- The visits to the parts of an entry. -/
def visits (n : Nat) : TypedEntry → List Visit
  | ofInstance i => instanceVisits n [] i
  | ofBlock b => blockVisits n [] b

/-- An entry with no properties but those that are visited. -/
def pruned (n : Nat) : TypedEntry → TypedEntry
  | ofInstance i => .ofInstance (prunedInstance n i)
  | ofBlock b => .ofBlock (prunedBlock n b)

theorem block_failsAtFirst (n : Nat) (entry : TypedEntry) :
    FailsAtFirst (entry.visits n) (block (.whole n) [] entry.toJson) := by
  cases entry with
  | ofInstance i => exact instance_failsAtFirst n [] i
  | ofBlock b => exact Render.block_failsAtFirst n [] b

theorem block_pruned (n : Nat) (entry : TypedEntry) :
    block (.whole n) [] (entry.pruned n).toJson = block (.whole n) [] entry.toJson := by
  cases entry with
  | ofInstance i => exact instance_pruned n [] i
  | ofBlock b => exact Render.block_pruned n [] b

end TypedEntry

/-- Entries fail at the first fault of their parts. -/
theorem entries_failsAtFirst (n : Nat) (list : List TypedEntry) :
    FailsAtFirst (list.flatMap (TypedEntry.visits n))
      (entries (.whole n) (list.map TypedEntry.toJson)) := by
  unfold entries
  induction list with
  | nil => exact .ok []
  | cons entry rest ih =>
    rw [List.flatMap_cons, List.map_cons, blocks]
    exact (entry.block_failsAtFirst n).bind fun first =>
      ih.bind_ok fun more => ⟨first ++ more, rfl⟩

theorem entries_pruned (n : Nat) (list : List TypedEntry) :
    entries (.whole n) ((list.map (TypedEntry.pruned n)).map TypedEntry.toJson) =
      entries (.whole n) (list.map TypedEntry.toJson) := by
  unfold entries
  induction list with
  | nil => rfl
  | cons entry rest ih =>
    rw [List.map_cons, List.map_cons, List.map_cons, blocks, blocks, entry.block_pruned n, ih]

/-- **Entries are refused for the first fault of their parts, and for nothing else.**  The
violation is the one of the first part at fault, at the end of the way to it; there is a text if no
part is at fault.  Properties that are not visited do not show in either of them.  The same goes
for the level that a number is, if a block of that level fits into a text. -/
theorem entries_violation_iff (n : Nat) (list : List TypedEntry) :
    (∀ what path, entries (.whole n) (list.map TypedEntry.toJson) = violation what path ↔
      ∃ before v after, list.flatMap (TypedEntry.visits n) = before ++ v :: after ∧
        (∀ u ∈ before, u.part.fault? = none) ∧ v.part.fault? = some what ∧
          path = v.way.map .string) ∧
    ((∃ text, entries (.whole n) (list.map TypedEntry.toJson) = .ok text) ↔
      ∀ v ∈ list.flatMap (TypedEntry.visits n), v.part.fault? = none) ∧
    entries (.whole n) ((list.map (TypedEntry.pruned n)).map TypedEntry.toJson) =
      entries (.whole n) (list.map TypedEntry.toJson) ∧
    ∀ x, Level.ofNumber x = .ok (.whole n) → (list.isEmpty || (Level.whole n).holds 3) →
      entriesAt x (list.map TypedEntry.toJson) =
        entries (.whole n) (list.map TypedEntry.toJson) := by
  have hfails := entries_failsAtFirst n list
  refine ⟨fun what path => hfails.eq_violation_iff, hfails.exists_ok_iff, entries_pruned n list,
    fun x hx hholds => ?_⟩
  have hempty : (list.map TypedEntry.toJson).isEmpty = list.isEmpty := by
    cases list <;> rfl
  unfold entriesAt
  rw [hx]
  simp only [bind, Except.bind, hempty, hholds, if_true]

/-- A site with limits, of which the second is not a number.  The number that identifies it and the
comment on what is not there are no better, but are not visited. -/
def limitedSite : TypedEntry :=
  .ofInstance ⟨"Site", "s", [("Limits", .integerArray [.ofInt 1, .nan]),
    ("ciminstance", .integer .nan), ("_metadata_Port", .integer .nan)]⟩

theorem entries_violation_iff_limitedSite :
    entries (.whole 0) [limitedSite.toJson] =
        violation (.notInteger "NaN") [.string "Site/s", .string "Limits", .string "1"] ∧
      entriesAt (.ofInt 0) [limitedSite.toJson] =
        violation (.notInteger "NaN") [.string "Site/s", .string "Limits", .string "1"] := by
  obtain ⟨hiff, -, -, hat⟩ := entries_violation_iff 0 [limitedSite]
  have hone : (Binary64.ofInt 1).isInteger := Binary64.isInteger_ofInt (by decide)
  have hentries := (hiff (.notInteger "NaN") [.string "Site/s", .string "Limits", .string "1"]).mpr
    ⟨[⟨["Site/s"], .instanceHead "Site"⟩, ⟨["Site/s", "Limits", "0"], .integer (.ofInt 1)⟩],
      ⟨["Site/s", "Limits", "1"], .integer .nan⟩, [], by rfl, by simp [Part.fault?, hone], rfl,
      rfl⟩
  have hlevel : Level.ofNumber (.ofInt 0) = .ok (.whole 0) := by
    have htruncate : (Binary64.ofInt 0).truncate? = some 0 := by decide +kernel
    have hplace : Level.place (.ofInt 0) = .whole 0 := by decide +kernel
    rw [Level.ofNumber, htruncate, hplace]
    rfl
  exact ⟨hentries, (hat _ hlevel rfl).trans hentries⟩

end Render

end DesiredState
