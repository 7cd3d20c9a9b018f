/-
What can be rendered.

A value can be rendered if its numbers are integers and its blocks name their classes.
Where blocks are not to name them, a property that holds a block is refused, and nothing
else is.  Both cases are one statement: an output is refused exactly if some condition
holds, and it is a text in every other case; and the conditions of the parts of a value
add up to the condition of the whole.
-/
import DesiredState.Proofs.Layout.Rendered

namespace DesiredState

/-- Whether a value holds a block. -/
def Value.holdsBlock : Value → Bool
  | .subObject _ => true
  | .subObjectArray items => !items.isEmpty
  | _ => false

/-- A block records its class if it is to, and otherwise it does not. -/
def SubObject.IsTagged (records : Bool) (b : SubObject) : Prop :=
  if records then ∃ name, b.typeName = some name ∧ name ≠ [] else b.typeName = none

/-- Values of a conversion: numbers are integers, and the blocks record their classes if they are
to and have no comments. -/
inductive Value.IsRenderable (records : Bool) : Value → Prop where
  | flat {x : Value} (integers : Layout.HasIntegers x) (isFlat : x.isFlat) : IsRenderable records x
  | block {b : SubObject} (tagged : b.IsTagged records)
      (keys : ∀ p ∈ b.properties, isMetadataKey p.1 = false)
      (renderable : ∀ p ∈ b.properties, IsRenderable records p.2) :
      IsRenderable records (.subObject b)
  | blocks {items : List SubObject} (tagged : ∀ b ∈ items, b.IsTagged records)
      (keys : ∀ b ∈ items, ∀ p ∈ b.properties, isMetadataKey p.1 = false)
      (renderable : ∀ b ∈ items, ∀ p ∈ b.properties, IsRenderable records p.2) :
      IsRenderable records (.subObjectArray items)

/-- Instances of a conversion: they name their resource, comments are strings, and all other
properties can be rendered. -/
structure Instance.IsRenderable (records : Bool) (i : Instance) : Prop where
  resourceName : i.resourceName ≠ []
  comments : ∀ p ∈ i.properties, isMetadataKey p.1 → ∃ t, p.2 = .string t
  values : ∀ p ∈ i.properties, isMetadataKey p.1 = false → p.2.IsRenderable records

namespace Render

/-! ### Refusals

Rendering may be refused for one reason here, and for no other.  So what is said of a
part is when it is refused, and a whole is refused where one of its parts is.
-/

/-- An output is refused in some case, and a text in every other. -/
def RefusedIff (refused : Prop) (out : Output) : Prop :=
  (refused ∧ ∃ what path, out = violation what path) ∨ (¬refused ∧ ∃ text, out = .ok text)

variable {p q : Prop} {out : Output} {α : Type}

theorem RefusedIff.congr (h : RefusedIff p out) (hpq : p ↔ q) : RefusedIff q out := by
  rwa [RefusedIff, ← hpq]

theorem RefusedIff.of_ok {text : Text} (h : ¬p) : RefusedIff p (.ok text) :=
  Or.inr ⟨h, text, rfl⟩

theorem RefusedIff.ok (text : Text) : RefusedIff False (.ok text) := .of_ok id

theorem RefusedIff.map (h : RefusedIff p out) (f : Text → Text) : RefusedIff p (out.map f) := by
  rcases h with ⟨hp, what, path, rfl⟩ | ⟨hp, text, rfl⟩
  · exact Or.inl ⟨hp, what, path, rfl⟩
  · exact Or.inr ⟨hp, f text, rfl⟩

theorem RefusedIff.bind {next : Text → Output} (h : RefusedIff p out)
    (hnext : ∀ text, RefusedIff q (next text)) : RefusedIff (p ∨ q) (out >>= next) := by
  rcases h with ⟨hp, what, path, rfl⟩ | ⟨hp, text, rfl⟩
  · exact Or.inl ⟨Or.inl hp, what, path, rfl⟩
  · exact (hnext text).congr ⟨Or.inr, fun h => h.resolve_left hp⟩

/-- What goes on after a text that is there. -/
theorem RefusedIff.after {first : Output} {next : Text → Output} (hfirst : ∃ text, first = .ok text)
    (hnext : ∀ text, RefusedIff p (next text)) : RefusedIff p (first >>= next) := by
  obtain ⟨text, rfl⟩ := hfirst
  exact hnext text

/-! ### Properties -/

/-- Comments among properties are strings. -/
def CommentsAreStrings (fields : Fields Value) : Prop :=
  ∀ p ∈ fields, isMetadataKey p.1 → ∃ t, p.2 = .string t

theorem exists_property (level : Level) (path : Path) (width : Nat) {fields : Fields Value}
    (h : CommentsAreStrings fields) (key value : Text) :
    ∃ text, property level path width (Value.encodeFields fields) key value = .ok text := by
  unfold property
  rw [Layout.get?_encodeFields]
  cases hget : fields.get? (metadataKey key) with
  | none => exact ⟨_, rfl⟩
  | some x =>
    obtain ⟨t, hx⟩ := h _ (Fields.mem_of_get? hget) (isMetadataKey_metadataKey key)
    obtain rfl : x = .string t := hx
    have hgiven : Option.filter Json.isGiven (some (Value.string t).toJson) =
        some (Value.string t).toJson := rfl
    have hcomment : metadata (path ++ [.string key]) (Value.string t).toJson = .ok (comment t) := rfl
    simp only [Option.map_some, hgiven, hcomment, bind, Except.bind]
    split
    · exact ⟨_, rfl⟩
    · exact ⟨_, rfl⟩

theorem properties_refusedIff (level : Level) (path : Path) (width : Nat) {fields : Fields Value}
    (h : CommentsAreStrings fields) {refused : Text × Value → Prop} {text : Text × Value → Output}
    {written : Fields Value} (htext : ∀ p ∈ written, RefusedIff (refused p) (text p)) :
    RefusedIff (∃ p ∈ written, refused p)
      (properties level path width (Value.encodeFields fields)
        (written.map fun p => (p.1, text p))) := by
  induction written with
  | nil => exact .of_ok fun ⟨_, hp, _⟩ => absurd hp List.not_mem_nil
  | cons p rest ih =>
    have hrest := ih fun q hq => htext q (List.mem_cons_of_mem p hq)
    rw [List.map_cons, properties]
    refine ((htext p List.mem_cons_self).bind fun value =>
      RefusedIff.after (exists_property level path width h p.1 value) fun first =>
        hrest.bind fun _ => RefusedIff.ok _).congr ?_
    simp

/-- The lines of a block are refused exactly if one of the properties that are written is. -/
theorem body_refusedIff (level : Level) (path : Path) {fields : Fields Value}
    (h : CommentsAreStrings fields) {refused : Text × Value → Prop}
    (hvalue : ∀ p ∈ fields, isWritten level p.1 →
      RefusedIff (refused p) (value level (path ++ [.string p.1]) p.2.toJson)) :
    RefusedIff (∃ p ∈ fields, isWritten level p.1 ∧ refused p)
      (body level path (Value.encodeFields fields)
        (fieldTexts level path (Value.encodeFields fields))) := by
  have hwritten : ((fields.map fun p =>
      (p.1, value level (path ++ [.string p.1]) p.2.toJson)).filter fun p => isWritten level p.1) =
      (fields.filter fun p => isWritten level p.1).map fun p =>
        (p.1, value level (path ++ [.string p.1]) p.2.toJson) := by
    rw [List.filter_map]
    rfl
  unfold body
  simp only []
  rw [Layout.fieldTexts_eq, hwritten,
    Text.sortByKey_map fun p : Text × Value => value level (path ++ [Json.string p.1]) p.2.toJson]
  have hall : ∀ p ∈ Text.sortByKey (fields.filter fun p => isWritten level p.1),
      RefusedIff (refused p) (value level (path ++ [.string p.1]) p.2.toJson) := by
    intro p hp
    obtain ⟨hp, hw⟩ := List.mem_filter.mp (Text.mem_sortByKey.mp hp)
    exact hvalue p hp hw
  refine (properties_refusedIff level path _ h hall).congr ?_
  simp only [Text.mem_sortByKey, List.mem_filter, and_assoc]

/-! ### Blocks -/

theorem blocks_refusedIff (level : Level) (path : Path) {items : List α} {encode : α → Json}
    {refused : α → Prop}
    (h : ∀ a ∈ items, RefusedIff (refused a) (block level path (encode a))) :
    RefusedIff (∃ a ∈ items, refused a) (blocks level path (items.map encode)) := by
  induction items with
  | nil => exact .of_ok fun ⟨_, ha, _⟩ => absurd ha List.not_mem_nil
  | cons a rest ih =>
    have hrest := ih fun b hb => h b (List.mem_cons_of_mem a hb)
    rw [List.map_cons, blocks]
    refine ((h a List.mem_cons_self).bind fun first =>
      hrest.bind fun _ => RefusedIff.ok _).congr ?_
    simp

theorem bodyOf_untagged (level : Level) (path : Path) (fields : List (Text × Json)) :
    bodyOf level path [("properties", .object fields)] =
      some (body level path fields (fieldTexts level path fields)) := by
  rw [bodyOf, if_pos rfl]

/-- A block is refused exactly if it does not record its class. -/
theorem block_refusedIff {records : Bool} (level : Level) (path : Path) {b : SubObject}
    (htagged : b.IsTagged records) (hkeys : ∀ p ∈ b.properties, isMetadataKey p.1 = false)
    (hvalue : ∀ p ∈ b.properties, ∀ path, RefusedIff (records = false ∧ p.2.holdsBlock)
      (value level path p.2.toJson)) :
    RefusedIff (records = false) (block level path b.toJson) := by
  obtain ⟨typeName, properties⟩ := b
  cases records with
  | false =>
    obtain rfl : typeName = none := htagged
    rw [SubObject.toJson, block, bodyOf_untagged]
    exact Or.inl ⟨rfl, .noTypeName, _, rfl⟩
  | true =>
    obtain ⟨name, rfl, hname⟩ := htagged
    have hcomments : CommentsAreStrings properties := by
      intro p hp hm
      rw [hkeys p hp] at hm
      cases hm
    rw [SubObject.toJson, block, Layout.bodyOf_members]
    simp only []
    refine RefusedIff.after ⟨_, Layout.header_block hname level _ _⟩ fun head => ?_
    refine ((body_refusedIff level _ hcomments fun p hp _ => hvalue p hp _).bind fun lines =>
      RefusedIff.ok _).congr ?_
    simp

/-- **A value of a conversion is refused exactly if it holds a block that is not to record its
class.** -/
theorem value_refusedIff {records : Bool} {x : Value} (h : x.IsRenderable records) (n : Nat)
    (path : Path) :
    RefusedIff (records = false ∧ x.holdsBlock) (value (.whole n) path x.toJson) := by
  induction h generalizing n path with
  | @flat x integers isFlat =>
    rw [Layout.rendered_flat isFlat integers]
    refine RefusedIff.of_ok ?_
    rintro ⟨-, hx⟩
    cases x <;> first | exact absurd hx Bool.false_ne_true | exact absurd isFlat Bool.false_ne_true
  | @block b tagged keys _ ih =>
    rw [Layout.value_subObject]
    refine ((block_refusedIff _ path tagged keys fun p hp path => ih p hp (n + 1) path).map
      inline).congr ?_
    simp [Value.holdsBlock]
  | @blocks items tagged keys _ ih =>
    rw [Layout.value_subObjectArray, Layout.encodeAll_eq]
    have hblocks := (blocks_refusedIff (.whole (n + 2)) path fun b hb =>
      block_refusedIff _ path (tagged b hb) (keys b hb) fun p hp path =>
        ih b hb p hp (n + 2) path).map (inArray (.whole n))
    cases items with
    | nil => exact .of_ok fun h => absurd h.2 Bool.false_ne_true
    | cons b rest =>
      refine hblocks.congr ?_
      simp [Value.holdsBlock]

/-! ### Instances -/

theorem exists_header {resource : Text} (h : resource ≠ []) (level : Level) (path : Path)
    (name : Text) (fields : Json) :
    ∃ text, header level path [("resourceName", .string resource), ("instanceName", .string name),
      ("properties", fields)] = .ok text := by
  have hgiven : Json.isGiven (.string resource) = true := by
    cases resource with
    | nil => exact absurd rfl h
    | cons c run => rfl
  have hname : ∃ text, instanceName (some (.string name)) = .ok text := by
    unfold instanceName
    simp only []
    split
    · exact ⟨_, rfl⟩
    · exact ⟨_, rfl⟩
  obtain ⟨text, htext⟩ := hname
  unfold header
  rw [show Fields.get? "resourceName".toList [("resourceName".toList, Json.string resource),
      ("instanceName".toList, .string name), ("properties".toList, fields)] =
        some (.string resource) from rfl]
  simp only []
  rw [if_pos hgiven, show Fields.get? "instanceName".toList
      [("resourceName".toList, Json.string resource), ("instanceName".toList, .string name),
        ("properties".toList, fields)] = some (.string name) from rfl, htext]
  exact ⟨_, rfl⟩

/-- An instance is refused exactly if one of the properties that are written holds a block that is
not to record its class. -/
theorem instance_refusedIff {records : Bool} {i : Instance} (h : i.IsRenderable records) (n : Nat)
    (path : Path) :
    RefusedIff (∃ p ∈ i.properties, isWritten (.whole n) p.1 ∧ records = false ∧ p.2.holdsBlock)
      (block (.whole n) path i.toJson) := by
  obtain ⟨resource, name, properties⟩ := i
  rw [Instance.toJson, block, Layout.bodyOf_instance]
  · simp only []
    refine RefusedIff.after (exists_header h.resourceName _ _ name _) fun head => ?_
    refine ((body_refusedIff (.whole n) _ h.comments fun p hp hw =>
      value_refusedIff (h.values p hp ?_) n _).bind fun lines =>
        RefusedIff.ok _).congr ?_
    · cases hm : isMetadataKey p.1 with
      | false => rfl
      | true =>
        rw [Layout.isWritten_of_isMetadataKey hm] at hw
        cases hw
    · simp
  all_goals
    intro _ h
    cases h

/-- **Instances are refused exactly if a property of one of them, among those that are written,
holds a block that is not to record its class.** -/
theorem write_refusedIff {records : Bool} {instances : List Instance}
    (h : ∀ i ∈ instances, i.IsRenderable records) (n : Nat) :
    RefusedIff (∃ i ∈ instances, ∃ p ∈ i.properties,
        isWritten (.whole n) p.1 ∧ records = false ∧ p.2.holdsBlock)
      (Configuration.write (.whole n) instances) :=
  blocks_refusedIff (.whole n) [] fun i hi => instance_refusedIff (h i hi) n []

end Render

end DesiredState
