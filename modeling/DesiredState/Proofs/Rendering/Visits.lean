/-
Where rendering fails.

Of the parts of an entry only some can be at fault: the head of a block that has no name, a
number that is no integer, and a comment that is no string.  Rendering visits them in a fixed
order, block after block, the head of each before its properties in the order of their keys, and
a value before the comment on it.  It fails at the first fault that it meets, and whatever it
does not visit may be anything.
-/
import DesiredState.Proofs.Rendering
import DesiredState.Proofs.Rendering.Parts

namespace DesiredState.Render

/-! ### Visits

The visits are listed in the order in which rendering comes to the parts, and each has
its fault or none.  Where rendering fails can then be said without rendering anything.
-/

/-- A part of an entry that may be at fault. -/
inductive Part where
  /-- The head of an instance, with the type of the resource. -/
  | instanceHead (resourceName : Text)
  /-- The head of a block of a class, with the name of the class. -/
  | blockHead (typeName : Option Text)
  /-- A number that stands for an integer. -/
  | integer (number : Binary64)
  /-- What stands for the comment on a property. -/
  | comment (content : Value)

/-- What is wrong with a part. -/
def Part.fault? : Part → Option Violation
  | instanceHead resourceName => if resourceName.isEmpty then some .noResourceName else none
  | blockHead typeName => if (typeName.getD []).isEmpty then some .noTypeName else none
  | integer number => if number.isInteger then none else some (.notInteger number.toText)
  | comment content =>
    if content.kind = .string then none else some (.metadataKind content.kind.name)

/-- A part of an entry and the way to it, by labels of blocks, keys and positions in arrays. -/
structure Visit where
  way : List Text
  part : Part

/-- What a visit finds wrong, and where. -/
def Visit.fault? (v : Visit) : Option (Violation × Path) :=
  v.part.fault?.map fun what => (what, v.way.map .string)

/-- The visit to the comment on a property, if there is one. -/
def commentVisits (way : List Text) (fields : Fields Value) (key : Text) : List Visit :=
  match fields.get? (metadataKey key) with
  | some content => [⟨way ++ [key], .comment content⟩]
  | none => []

/-- The visits to the properties of a block that are written, in the order of their keys, each
value before the comment on it. -/
def propertyVisits (n : Nat) (way : List Text) (fields : Fields Value)
    (values : List (Text × List Visit)) : List Visit :=
  (Text.sortByKey (values.filter fun p => isWritten (.whole n) p.1)).flatMap fun p =>
    p.2 ++ commentVisits way fields p.1

mutual

/-- The visits to the parts of a value. -/
def valueVisits (n : Nat) (way : List Text) : Value → List Visit
  | .integer number => [⟨way, .integer number⟩]
  | .integerArray numbers =>
    numbers.zipIdx.map fun p => ⟨way ++ [Text.ofNat p.2], .integer p.1⟩
  | .subObject b => blockVisits (n + 1) way b
  | .subObjectArray items => blocksVisits (n + 2) way items
  | .string _ | .boolean _ | .stringArray _ | .raw _ => []

/-- The visits to the parts of a block of a class. -/
def blockVisits (n : Nat) (way : List Text) : SubObject → List Visit
  | ⟨typeName, fields⟩ =>
    let here := way ++ [typeName.getD ['?']]
    ⟨here, .blockHead typeName⟩ :: propertyVisits n here fields (fieldVisits n here fields)

/-- The visits to the parts of blocks, one after another. -/
def blocksVisits (n : Nat) (way : List Text) : List SubObject → List Visit
  | [] => []
  | b :: rest => blockVisits n way b ++ blocksVisits n way rest

/-- The visits to the parts of each property. -/
def fieldVisits (n : Nat) (way : List Text) : List (Text × Value) → List (Text × List Visit)
  | [] => []
  | (key, x) :: rest => (key, valueVisits n (way ++ [key]) x) :: fieldVisits n way rest

end

/-- The visits to the parts of an instance. -/
def instanceVisits (n : Nat) (way : List Text) (i : Instance) : List Visit :=
  let here := way ++ [i.resourceName ++ '/' :: i.instanceName]
  ⟨here, .instanceHead i.resourceName⟩ ::
    propertyVisits n here i.properties (fieldVisits n here i.properties)

theorem fieldVisits_eq_map (n : Nat) (way : List Text) (fields : List (Text × Value)) :
    fieldVisits n way fields = fields.map fun p => (p.1, valueVisits n (way ++ [p.1]) p.2) := by
  induction fields with
  | nil => rfl
  | cons p rest ih => rw [fieldVisits, ih]; rfl

/-- The properties that are visited are those that are written. -/
theorem propertyVisits_eq (n : Nat) (way : List Text) (fields : Fields Value) :
    propertyVisits n way fields (fieldVisits n way fields) =
      (Text.sortByKey (fields.filter fun p => isWritten (.whole n) p.1)).flatMap fun p =>
        valueVisits n (way ++ [p.1]) p.2 ++ commentVisits way fields p.1 := by
  have hwritten : (fieldVisits n way fields).filter (fun p => isWritten (.whole n) p.1) =
      (fields.filter fun p => isWritten (.whole n) p.1).map fun p =>
        (p.1, valueVisits n (way ++ [p.1]) p.2) := by
    rw [fieldVisits_eq_map, List.filter_map]
    rfl
  rw [propertyVisits, hwritten,
    Text.sortByKey_map fun p : Text × Value => valueVisits n (way ++ [p.1]) p.2, List.flatMap_map]

/-! ### Failing at the first fault

Rendering stops at a failure, so that visits that come later do not count.  Put one
after another, two lists of visits fail where the first fails, or else where the second
does.
-/

/-- What is computed fails at the first fault that visits meet, and not at all if they meet
none. -/
def FailsAtFirst {α : Type} (visits : List Visit) (out : Except RenderFailure α) : Prop :=
  match visits.findSome? Visit.fault? with
  | some (what, path) => out = violation what path
  | none => ∃ a, out = .ok a

namespace FailsAtFirst

variable {α β : Type} {visits more : List Visit} {out : Except RenderFailure α}

theorem ok (a : α) : FailsAtFirst [] (.ok a) := ⟨a, rfl⟩

/-- What is computed of one part. -/
theorem part {way : List Text} {part : Part}
    (h : match part.fault? with
      | some what => out = violation what (way.map .string)
      | none => ∃ a, out = .ok a) : FailsAtFirst [⟨way, part⟩] out := by
  unfold FailsAtFirst
  rw [List.findSome?_singleton, Visit.fault?]
  dsimp only
  cases hfault : part.fault? with
  | none =>
    rw [hfault] at h
    exact h
  | some what =>
    rw [hfault] at h
    exact h

/-- What is computed of parts that were visited, and then of others. -/
theorem bind {next : α → Except RenderFailure β} (h : FailsAtFirst visits out)
    (hnext : ∀ a, FailsAtFirst more (next a)) : FailsAtFirst (visits ++ more) (out >>= next) := by
  unfold FailsAtFirst at h ⊢
  rw [List.findSome?_append]
  cases hfirst : visits.findSome? Visit.fault? with
  | some found =>
    rw [hfirst] at h
    obtain ⟨what, path⟩ := found
    obtain rfl : out = violation what path := h
    rfl
  | none =>
    rw [hfirst] at h
    obtain ⟨a, rfl⟩ := h
    exact hnext a

theorem map (h : FailsAtFirst visits out) (f : α → β) : FailsAtFirst visits (out.map f) := by
  unfold FailsAtFirst at h ⊢
  cases hfirst : visits.findSome? Visit.fault? with
  | some found =>
    rw [hfirst] at h
    obtain ⟨what, path⟩ := found
    obtain rfl : out = violation what path := h
    rfl
  | none =>
    rw [hfirst] at h
    obtain ⟨a, rfl⟩ := h
    exact ⟨f a, rfl⟩

/-- What fails, fails with a fault that one visit meets and no visit before it does. -/
theorem eq_violation_iff (h : FailsAtFirst visits out) {what : Violation} {path : Path} :
    out = violation what path ↔ ∃ before v after, visits = before ++ v :: after ∧
      (∀ u ∈ before, u.part.fault? = none) ∧ v.part.fault? = some what ∧
        path = v.way.map .string := by
  have hfirst : out = violation what path ↔
      visits.findSome? Visit.fault? = some (what, path) := by
    unfold FailsAtFirst at h
    split at h
    · next what' path' hfound =>
      rw [h, hfound, violation, violation, Except.error.injEq, RenderFailure.violation.injEq,
        Option.some.injEq, Prod.mk.injEq]
    · next hnone =>
      obtain ⟨a, rfl⟩ := h
      rw [hnone]
      exact ⟨nofun, nofun⟩
  rw [hfirst, List.findSome?_eq_some_iff]
  simp only [Visit.fault?, Option.map_eq_some_iff, Option.map_eq_none_iff, Prod.mk.injEq]
  refine exists_congr fun before => exists_congr fun v => exists_congr fun after => ?_
  constructor
  · rintro ⟨hvisits, ⟨_, hfault, rfl, rfl⟩, hbefore⟩
    exact ⟨hvisits, hbefore, hfault, rfl⟩
  · rintro ⟨hvisits, hbefore, hfault, rfl⟩
    exact ⟨hvisits, ⟨what, hfault, rfl, rfl⟩, hbefore⟩

/-- What fails in no other way is computed where no visit meets a fault. -/
theorem exists_ok_iff (h : FailsAtFirst visits out) :
    (∃ a, out = .ok a) ↔ ∀ v ∈ visits, v.part.fault? = none := by
  have hnone : (∀ v ∈ visits, v.part.fault? = none) ↔ visits.findSome? Visit.fault? = none := by
    simp only [List.findSome?_eq_none_iff, Visit.fault?, Option.map_eq_none_iff]
  rw [hnone]
  unfold FailsAtFirst at h
  split at h
  · next what path hfound =>
    rw [h, hfound]
    exact ⟨nofun, nofun⟩
  · next hfound => exact iff_of_true h hfound

/-- What comes after it was computed does not fail. -/
theorem bind_ok {next : α → Except RenderFailure β} (h : FailsAtFirst visits out)
    (hnext : ∀ a, ∃ b, next a = .ok b) : FailsAtFirst visits (out >>= next) := by
  rw [← List.append_nil visits]
  exact h.bind hnext

end FailsAtFirst

/-! ### Values without blocks -/

theorem integer_failsAtFirst (way : List Text) (x : Binary64) :
    FailsAtFirst [⟨way, .integer x⟩] (integer (way.map .string) (some (.number x))) := by
  refine .part ?_
  rw [Part.fault?, integer]
  cases x.isInteger with
  | true => exact ⟨x.toText, rfl⟩
  | false => rfl

/-- The numbers of an array are visited one after another, from a position on. -/
theorem integers_failsAtFirst (way : List Text) (numbers : List Binary64) (k : Nat) :
    FailsAtFirst ((numbers.zipIdx k).map fun p => ⟨way ++ [Text.ofNat p.2], .integer p.1⟩)
      (itemsFrom integer (way.map .string) k (numbers.map .number)) := by
  induction numbers generalizing k with
  | nil => exact .ok []
  | cons x rest ih =>
    have hfirst := integer_failsAtFirst (way ++ [Text.ofNat k]) x
    rw [List.map_append] at hfirst
    rw [List.zipIdx_cons, List.map_cons, List.map_cons, itemsFrom]
    exact hfirst.bind fun _ => (ih (k + 1)).bind_ok fun _ => ⟨_, rfl⟩

/-! ### Properties -/

theorem comment_failsAtFirst (way : List Text) (content : Value) :
    FailsAtFirst [⟨way, .comment content⟩] (metadata (way.map .string) content.toJson) := by
  refine .part ?_
  cases content with
  | string t => exact ⟨comment t, rfl⟩
  | _ => rfl

section Properties

variable (n : Nat) (way : List Text) (fields : Fields Value)

/-- Beside the value, only the comment on a property is visited. -/
theorem property_failsAtFirst (width : Nat) (key text : Text) :
    FailsAtFirst (commentVisits way fields key)
      (property (.whole n) (way.map .string) width (Value.encodeFields fields) key text) := by
  unfold property commentVisits
  rw [Layout.get?_encodeFields]
  cases fields.get? (metadataKey key) with
  | none => exact .ok _
  | some content =>
    have hgiven : (some content.toJson).filter Json.isGiven = some content.toJson := by
      cases content <;> rfl
    have hcomment := comment_failsAtFirst (way ++ [key]) content
    rw [List.map_append] at hcomment
    dsimp only
    rw [Option.map_some, hgiven]
    refine hcomment.bind_ok fun note => ?_
    split
    · exact ⟨_, rfl⟩
    · exact ⟨_, rfl⟩

theorem properties_failsAtFirst (width : Nat) {visits : Text × Value → List Visit}
    {text : Text × Value → Output} {written : Fields Value}
    (h : ∀ p ∈ written, FailsAtFirst (visits p) (text p)) :
    FailsAtFirst (written.flatMap fun p => visits p ++ commentVisits way fields p.1)
      (properties (.whole n) (way.map .string) width (Value.encodeFields fields)
        (written.map fun p => (p.1, text p))) := by
  induction written with
  | nil => exact .ok []
  | cons p rest ih =>
    obtain ⟨hfirst, hrest⟩ := List.forall_mem_cons.mp h
    rw [List.flatMap_cons, List.map_cons, properties, List.append_assoc]
    refine hfirst.bind fun value => ?_
    refine (property_failsAtFirst n way fields width p.1 value).bind fun first => ?_
    exact (ih hrest).bind_ok fun more => ⟨first ++ more, rfl⟩

theorem body_encodeFields (level : Level) (path : Path) :
    body level path (Value.encodeFields fields)
        (fieldTexts level path (Value.encodeFields fields)) =
      let written := Text.sortByKey (fields.filter fun p => isWritten level p.1)
      properties level path ((written.map fun p => p.1.size).foldl max 0)
        (Value.encodeFields fields)
        (written.map fun p => (p.1, value level (path ++ [.string p.1]) p.2.toJson)) := by
  have hwritten : (fields.map fun p => (p.1, value level (path ++ [.string p.1]) p.2.toJson)).filter
        (fun p => isWritten level p.1) =
      (fields.filter fun p => isWritten level p.1).map fun p =>
        (p.1, value level (path ++ [.string p.1]) p.2.toJson) := by
    rw [List.filter_map]
    rfl
  unfold body
  dsimp only
  rw [Layout.fieldTexts_eq, hwritten,
    Text.sortByKey_map fun p : Text × Value => value level (path ++ [Json.string p.1]) p.2.toJson,
    List.map_map]
  rfl

theorem body_failsAtFirst
    (h : ∀ p ∈ fields, FailsAtFirst (valueVisits n (way ++ [p.1]) p.2)
      (value (.whole n) ((way ++ [p.1]).map .string) p.2.toJson)) :
    FailsAtFirst (propertyVisits n way fields (fieldVisits n way fields))
      (body (.whole n) (way.map .string) (Value.encodeFields fields)
        (fieldTexts (.whole n) (way.map .string) (Value.encodeFields fields))) := by
  rw [propertyVisits_eq, body_encodeFields]
  refine properties_failsAtFirst n way fields _ fun p hp => ?_
  have hvalue := h p (List.mem_filter.mp (Text.mem_sortByKey.mp hp)).1
  rwa [List.map_append] at hvalue

end Properties

/-! ### Blocks -/

theorem blockHead_failsAtFirst (n : Nat) (way : List Text) (typeName : Option Text)
    (fields : Json) :
    FailsAtFirst [⟨way, .blockHead typeName⟩] (header (.whole n) (way.map .string)
      (match typeName with
        | some name => [("typeName".toList, .string name), ("properties".toList, fields)]
        | none => [("properties".toList, fields)])) := by
  refine .part ?_
  cases typeName with
  | none => rfl
  | some name =>
    cases name with
    | nil => rfl
    | cons c rest => exact ⟨_, Layout.header_block (List.cons_ne_nil c rest) _ _ _⟩

theorem instanceHead_failsAtFirst (n : Nat) (way : List Text) (resource name : Text)
    (fields : Json) :
    FailsAtFirst [⟨way, .instanceHead resource⟩] (header (.whole n) (way.map .string)
      [("resourceName", .string resource), ("instanceName", .string name),
        ("properties", fields)]) := by
  refine .part ?_
  cases resource with
  | nil => rfl
  | cons c rest => exact exists_header (List.cons_ne_nil c rest) _ _ name fields

/-- A block fails at the first fault in its head or between its braces. -/
theorem framed_failsAtFirst {head lines : Output} {visit : Visit} {visits : List Visit}
    (hhead : FailsAtFirst [visit] head) (hlines : FailsAtFirst visits lines)
    (build : Text → Text → Text) :
    FailsAtFirst (visit :: visits) (do
      let first ← head
      let text ← lines
      .ok (build first text)) :=
  hhead.bind fun first => hlines.bind_ok fun text => ⟨build first text, rfl⟩

mutual

/-- **Rendering a value fails at the first fault of its parts.** -/
theorem value_failsAtFirst (n : Nat) (way : List Text) (x : Value) :
    FailsAtFirst (valueVisits n way x) (value (.whole n) (way.map .string) x.toJson) := by
  match x with
  | .integer number => exact integer_failsAtFirst way number
  | .integerArray numbers => exact (integers_failsAtFirst way numbers 0).map _
  | .subObject b =>
    rw [valueVisits, Layout.value_subObject]
    exact (block_failsAtFirst (n + 1) way b).map inline
  | .subObjectArray items =>
    rw [valueVisits, Layout.value_subObjectArray]
    match items with
    | [] => exact .ok _
    | b :: rest => exact (blocks_failsAtFirst (n + 2) way (b :: rest)).map (inArray (.whole n))
  | .string t => exact .ok _
  | .boolean v => cases v <;> exact .ok _
  | .stringArray texts =>
    have htext := Layout.rendered_flat (x := .stringArray texts) rfl trivial (.whole n)
      (way.map .string)
    rw [htext]
    exact .ok _
  | .raw t => exact .ok _

/-- Rendering a block of a class fails at the first fault of its parts. -/
theorem block_failsAtFirst (n : Nat) (way : List Text) (b : SubObject) :
    FailsAtFirst (blockVisits n way b) (block (.whole n) (way.map .string) b.toJson) := by
  match b with
  | ⟨typeName, fields⟩ =>
    have hbody := body_failsAtFirst n (way ++ [typeName.getD ['?']]) fields
      (fields_failsAtFirst n (way ++ [typeName.getD ['?']]) fields)
    have hhead := blockHead_failsAtFirst n (way ++ [typeName.getD ['?']]) typeName
      (.object (Value.encodeFields fields))
    rw [List.map_append] at hbody hhead
    cases typeName with
    | none =>
      rw [SubObject.toJson, block, bodyOf_untagged]
      exact framed_failsAtFirst hhead hbody _
    | some name =>
      rw [SubObject.toJson, block, Layout.bodyOf_members]
      exact framed_failsAtFirst hhead hbody _

/-- Rendering blocks fails at the first fault of their parts. -/
theorem blocks_failsAtFirst (n : Nat) (way : List Text) (items : List SubObject) :
    FailsAtFirst (blocksVisits n way items)
      (blocks (.whole n) (way.map .string) (SubObject.encodeAll items)) := by
  match items with
  | [] => exact .ok []
  | b :: rest =>
    rw [blocksVisits, SubObject.encodeAll, blocks]
    exact (block_failsAtFirst n way b).bind fun first =>
      (blocks_failsAtFirst n way rest).bind_ok fun more => ⟨first ++ more, rfl⟩

/-- Rendering the value of a property fails at the first fault of its parts. -/
theorem fields_failsAtFirst (n : Nat) (way : List Text) (fields : List (Text × Value)) :
    ∀ p ∈ fields, FailsAtFirst (valueVisits n (way ++ [p.1]) p.2)
      (value (.whole n) ((way ++ [p.1]).map .string) p.2.toJson) := by
  match fields with
  | [] => exact fun p hp => absurd hp List.not_mem_nil
  | (key, x) :: rest =>
    exact List.forall_mem_cons.mpr
      ⟨value_failsAtFirst n (way ++ [key]) x, fields_failsAtFirst n way rest⟩

end

/-- Rendering an instance fails at the first fault of its parts. -/
theorem instance_failsAtFirst (n : Nat) (way : List Text) (i : Instance) :
    FailsAtFirst (instanceVisits n way i) (block (.whole n) (way.map .string) i.toJson) := by
  obtain ⟨resource, name, fields⟩ := i
  have hbody := body_failsAtFirst n (way ++ [resource ++ '/' :: name]) fields
    (fields_failsAtFirst n (way ++ [resource ++ '/' :: name]) fields)
  have hhead := instanceHead_failsAtFirst n (way ++ [resource ++ '/' :: name]) resource name
    (.object (Value.encodeFields fields))
  rw [List.map_append] at hbody hhead
  rw [Instance.toJson, block, Layout.bodyOf_instance]
  · exact framed_failsAtFirst hhead hbody _
  all_goals
    intro _ h
    cases h

end DesiredState.Render
