/-
The order of properties does not matter.

The properties of a block are written in the order of their keys, and what is looked up
among them is looked up by name.  So they may be listed in any order, at any depth, and
the same text comes out, or the same failure of the same part.

One step reorders one map of properties.  Everything around it is rendered from what is
rendered of it, and the induction goes from that map outwards.
-/
import DesiredState.Proofs.Rendering.Parts
import DesiredState.Proofs.Sorting.KeyOrder
import Mathlib.Logic.Relation

namespace DesiredState.Render

/-! ### Reordering

A step reorders one map, at any depth, and leaves all the rest.  Other orders are
reached by several steps, so that it is enough to look at one.
-/

/-- What a part of an entry stands for. -/
inductive Role where
  | block
  /-- The properties of a block. -/
  | properties
  /-- The value of a property. -/
  | value
  deriving DecidableEq, Repr

/-- An object with a member between others. -/
def objectWith (front : Fields Json) (name : Text) (part : Json) (back : Fields Json) : Json :=
  .object (front ++ (name, part) :: back)

/-- One map of properties with distinct keys is put into another order, at any depth. -/
inductive Reorders : Role → Json → Json → Prop where
  | here {fields fields' : Fields Json} (distinct : fields.names.Nodup)
      (perm : fields.Perm fields') : Reorders .properties (.object fields) (.object fields')
  | ofProperty {front back : Fields Json} {name : Text} {part part' : Json}
      (step : Reorders .value part part') :
      Reorders .properties (objectWith front name part back) (objectWith front name part' back)
  | ofItem {front back : List Json} {part part' : Json} (step : Reorders .value part part') :
      Reorders .properties (.array (front ++ part :: back)) (.array (front ++ part' :: back))
  | ofBlock {front back : Fields Json} {part part' : Json} (step : Reorders .block part part') :
      Reorders .value (objectWith front "value" part back) (objectWith front "value" part' back)
  | ofBlocks {front back : Fields Json} {before after : List Json} {part part' : Json}
      (step : Reorders .block part part') :
      Reorders .value (objectWith front "value" (.array (before ++ part :: after)) back)
        (objectWith front "value" (.array (before ++ part' :: after)) back)
  | ofBody {front back : Fields Json} {part part' : Json} (step : Reorders .properties part part') :
      Reorders .block (objectWith front "properties" part back)
        (objectWith front "properties" part' back)

/-- One map of properties in one of the entries is put into another order. -/
def EntriesReorder (parts parts' : List Json) : Prop :=
  ∃ front part part' back, parts = front ++ part :: back ∧ parts' = front ++ part' :: back ∧
    Reorders .block part part'

/-! ### Looking up beside a part

Names among members need not be distinct around the reordered map.  A part may therefore
be hidden by an earlier one of its name, and then it is no matter what it is.
-/

section Lookup

variable (front back : Fields Json) (name : Text) (part part' : Json)

theorem get?_beside {other : Text} (h : other ≠ name) :
    Fields.get? other (front ++ (name, part) :: back) =
      Fields.get? other (front ++ (name, part') :: back) := by
  induction front with
  | nil =>
    rw [List.nil_append, List.nil_append, Fields.get?, Fields.get?, if_neg h.symm, if_neg h.symm]
  | cons m rest ih => rw [List.cons_append, List.cons_append, Fields.get?, Fields.get?, ih]

/-- A part is looked up under its name, unless it is hidden by an earlier one. -/
theorem get?_replaced :
    Fields.get? name (front ++ (name, part) :: back) =
        Fields.get? name (front ++ (name, part') :: back) ∨
      Fields.get? name (front ++ (name, part) :: back) = some part ∧
        Fields.get? name (front ++ (name, part') :: back) = some part' := by
  induction front with
  | nil =>
    rw [List.nil_append, List.nil_append, Fields.get?, Fields.get?, if_pos rfl, if_pos rfl]
    exact .inr ⟨rfl, rfl⟩
  | cons m rest ih =>
    rw [List.cons_append, List.cons_append, Fields.get?, Fields.get?]
    split
    · exact .inl rfl
    · exact ih

end Lookup

theorem get?_perm {fields fields' : Fields Json} (distinct : fields.names.Nodup)
    (perm : fields.Perm fields') (name : Text) :
    Fields.get? name fields = Fields.get? name fields' := by
  induction perm with
  | nil => rfl
  | cons m _ ih =>
    rw [Fields.get?, Fields.get?, ih (List.nodup_cons.mp distinct).2]
  | swap m m' rest =>
    have hne : m'.1 ≠ m.1 := fun h =>
      (List.nodup_cons.mp distinct).1 (List.mem_cons.mpr (.inl h))
    rw [Fields.get?, Fields.get?, Fields.get?, Fields.get?]
    split
    · next h => rw [if_neg fun h' => hne (h.trans h'.symm)]
    · rfl
  | trans hfirst _ ih ih' =>
    exact (ih distinct).trans (ih' ((hfirst.map _).nodup_iff.mp distinct))

/-! ### The parts around a reordered map

What has to be kept depends on what a part stands for.  A block is rendered as one,
properties are the lines between braces, and a value may be asked for as a property or
as a comment on one.
-/

/-- Values that are rendered alike, as properties and as comments. -/
structure SameValue (part part' : Json) : Prop where
  value : ∀ level path, value level path part = value level path part'
  metadata : ∀ path, metadata path part = metadata path part'
  isGiven : part.isGiven = part'.isGiven
  opensBlock : opensBlock part = opensBlock part'

theorem SameValue.refl (part : Json) : SameValue part part :=
  ⟨fun _ _ => rfl, fun _ => rfl, rfl, rfl⟩

theorem SameValue.rel_refl (part : Option Json) : Option.Rel SameValue part part := by
  cases part with
  | none => exact .none
  | some j => exact .some (.refl j)

/-- What a step leaves as it is, for a part of each role. -/
def Role.Same : Role → Json → Json → Prop
  | block, part, part' =>
      (∃ members, part = .object members) ∧ (∃ members, part' = .object members) ∧
        ∀ level path, Render.block level path part = Render.block level path part'
  | properties, part, part' => ∀ level path,
      (propertyMap? (some part)).map (fun fields => body level path fields
        (fieldTexts level path fields)) =
      (propertyMap? (some part')).map fun fields => body level path fields
        (fieldTexts level path fields)
  | value, part, part' => SameValue part part'

theorem any_opensBlock_congr {part part' : Option Json} (h : Option.Rel SameValue part part') :
    part.any opensBlock = part'.any opensBlock := by
  cases h with
  | none => rfl
  | some hsame => exact hsame.opensBlock

theorem filter_isGiven_congr {part part' : Option Json} (h : Option.Rel SameValue part part') :
    Option.Rel SameValue (part.filter Json.isGiven) (part'.filter Json.isGiven) := by
  cases h with
  | none => exact .none
  | some hsame =>
    rw [Option.filter_some, Option.filter_some, hsame.isGiven]
    split
    · exact .some hsame
    · exact .none

/-- A property is written alike where the values of its map are. -/
theorem property_congr (level : Level) (path : Path) (width : Nat) {fields fields' : Fields Json}
    (h : ∀ name, Option.Rel SameValue (fields.get? name) (fields'.get? name)) (key value : Text) :
    property level path width fields key value = property level path width fields' key value := by
  have hnote := filter_isGiven_congr (h (metadataKey key))
  unfold property
  rw [any_opensBlock_congr (h key)]
  revert hnote
  generalize (fields.get? (metadataKey key)).filter Json.isGiven = note
  generalize (fields'.get? (metadataKey key)).filter Json.isGiven = note'
  intro hnote
  cases hnote with
  | none => rfl
  | some hsame =>
    dsimp only
    rw [hsame.metadata]

theorem properties_congr (level : Level) (path : Path) (width : Nat) {fields fields' : Fields Json}
    (h : ∀ name, Option.Rel SameValue (fields.get? name) (fields'.get? name))
    (written : List (Text × Output)) :
    properties level path width fields written = properties level path width fields' written := by
  induction written with
  | nil => rfl
  | cons p rest ih => simp only [properties, ih, property_congr level path width h]

/-- The lines of a block are the same for maps whose values are rendered alike, in any order. -/
theorem body_congr (level : Level) (path : Path) {fields fields' : Fields Json}
    (h : ∀ name, Option.Rel SameValue (fields.get? name) (fields'.get? name))
    (hsorted : Text.sortByKey ((fieldTexts level path fields).filter fun p => isWritten level p.1) =
      Text.sortByKey ((fieldTexts level path fields').filter fun p => isWritten level p.1)) :
    body level path fields (fieldTexts level path fields) =
      body level path fields' (fieldTexts level path fields') := by
  unfold body
  dsimp only
  rw [hsorted]
  exact properties_congr level path _ h _

/-! ### Values -/

/-- Contents of values that are rendered alike, whatever kind the values say they have. -/
structure SameContent (content content' : Option Json) : Prop where
  string : ∀ path, string path content = string path content'
  integer : ∀ path, integer path content = integer path content'
  boolean : ∀ path, boolean path content = boolean path content'
  strings : ∀ path, array Render.string path content = array Render.string path content'
  integers : ∀ path, array Render.integer path content = array Render.integer path content'
  block : ∀ level path, blockIn level path content = blockIn level path content'
  blocks : ∀ level path, blocksIn level path content = blocksIn level path content'
  comment : commentIn content = commentIn content'

theorem SameContent.refl (content : Option Json) : SameContent content content :=
  ⟨fun _ => rfl, fun _ => rfl, fun _ => rfl, fun _ => rfl, fun _ => rfl, fun _ _ => rfl,
    fun _ _ => rfl, rfl⟩

/-- Values with such contents, and with nothing else that is different, are rendered alike. -/
theorem SameContent.sameValue {members members' : Fields Json}
    (hothers : ∀ name, name ≠ "value".toList → members.get? name = members'.get? name)
    (h : SameContent (members.get? "value") (members'.get? "value")) :
    SameValue (.object members) (.object members') := by
  have hkind := hothers "kind" (by decide)
  have hkindOf : kindOf? members = kindOf? members' := by
    unfold kindOf?
    rw [hkind]
  refine ⟨fun level path => ?_, fun path => ?_, rfl, ?_⟩
  · rw [Render.value, Render.value, hkindOf, kindText, kindText, hkind, blockOf_eq, blockOf_eq,
      blocksOf_eq, blocksOf_eq, h.block, h.blocks]
    have hflat (kind : ValueKind) : flatValue path kind members = flatValue path kind members' := by
      cases kind with
      | string => exact h.string path
      | integer => exact h.integer path
      | boolean => exact h.boolean path
      | stringArray => exact h.strings path
      | integerArray => exact h.integers path
      | raw => exact congrArg (raw path) (hothers "text" (by decide))
      | subObject | subObjectArray => rfl
    simp only [hflat]
  · rw [metadata_eq, metadata_eq, hkind, h.comment]
  · dsimp only [opensBlock]
    rw [hkindOf]

/-- Where contents under the same name are rendered alike, the values are. -/
theorem sameValue_of_content (front back : Fields Json) {part part' : Json}
    (h : SameContent (some part) (some part')) :
    SameValue (objectWith front "value" part back) (objectWith front "value" part' back) := by
  refine SameContent.sameValue (fun name hne => get?_beside front back "value" part part' hne) ?_
  rcases get?_replaced front back "value" part part' with hsame | ⟨hpart, hpart'⟩
  · rw [hsame]
    exact .refl _
  · rw [hpart, hpart']
    exact h

/-- Blocks are alike as contents if they are as blocks. -/
theorem sameContent_of_block {part part' : Json} (h : Role.block.Same part part') :
    SameContent (some part) (some part') := by
  obtain ⟨⟨members, rfl⟩, ⟨members', rfl⟩, hblock⟩ := h
  exact ⟨fun _ => rfl, fun _ => rfl, fun _ => rfl, fun _ => rfl, fun _ => rfl, hblock,
    fun _ _ => rfl, rfl⟩

/-! ### Items of arrays -/

section Items

variable (before after : List Json) {part part' : Json}

theorem itemsFrom_replaced {item : Path → Option Json → Output}
    (h : ∀ path, item path (some part) = item path (some part')) (path : Path) (n : Nat) :
    itemsFrom item path n (before ++ part :: after) =
      itemsFrom item path n (before ++ part' :: after) := by
  induction before generalizing n with
  | nil => rw [List.nil_append, List.nil_append, itemsFrom, itemsFrom, h]
  | cons j rest ih => rw [List.cons_append, List.cons_append, itemsFrom, itemsFrom, ih]

theorem displayItems_replaced (h : part.displayItem = part'.displayItem) :
    Json.displayItems (before ++ part :: after) = Json.displayItems (before ++ part' :: after) := by
  induction before with
  | nil =>
    cases after with
    | nil => exact h
    | cons j rest =>
      rw [List.nil_append, List.nil_append, displayItems_cons _ (List.cons_ne_nil j rest), h,
        displayItems_cons _ (List.cons_ne_nil j rest)]
  | cons j rest ih =>
    have hrest (i : Json) : rest ++ i :: after ≠ [] :=
      List.append_ne_nil_of_right_ne_nil rest (List.cons_ne_nil i after)
    rw [List.cons_append, List.cons_append, displayItems_cons j (hrest part), ih,
      displayItems_cons j (hrest part')]

theorem blocks_replaced {level : Level} {path : Path}
    (h : block level path part = block level path part') :
    blocks level path (before ++ part :: after) = blocks level path (before ++ part' :: after) := by
  induction before with
  | nil => rw [List.nil_append, List.nil_append, blocks, blocks, h]
  | cons j rest ih => rw [List.cons_append, List.cons_append, blocks, blocks, ih]

/-- Arrays of blocks are alike as contents if the blocks are. -/
theorem sameContent_of_blocks (h : Role.block.Same part part') :
    SameContent (some (.array (before ++ part :: after)))
      (some (.array (before ++ part' :: after))) := by
  obtain ⟨⟨members, rfl⟩, ⟨members', rfl⟩, hblock⟩ := h
  have harray {item : Path → Option Json → Output}
      (hitem : ∀ path, item path (some (.object members)) = item path (some (.object members')))
      (path : Path) : array item path (some (.array (before ++ .object members :: after))) =
        array item path (some (.array (before ++ .object members' :: after))) :=
    congrArg (Except.map _) (itemsFrom_replaced before after hitem path 0)
  refine ⟨fun _ => rfl, fun path => ?_, fun _ => rfl, harray fun _ => rfl, harray fun _ => rfl,
    fun _ _ => rfl, fun level path => ?_, rfl⟩
  · have hdisplay : Json.displayItems (before ++ .object members :: after) =
        Json.displayItems (before ++ .object members' :: after) :=
      displayItems_replaced before after rfl
    exact congrArg (fun shown => violation (.notInteger shown) path) hdisplay
  · have hempty (j : Json) : (before ++ j :: after).isEmpty = false :=
      List.isEmpty_eq_false_iff.mpr (List.append_ne_nil_of_right_ne_nil _ (List.cons_ne_nil _ _))
    dsimp only [blocksIn]
    rw [hempty, hempty, blocks_replaced before after (hblock _ path)]

end Items

/-! ### Maps of properties -/

/-- A map with one value replaced by another that is rendered alike. -/
theorem body_replaced (level : Level) (path : Path) (front back : Fields Json) (name : Text)
    {part part' : Json} (h : SameValue part part') :
    body level path (front ++ (name, part) :: back)
        (fieldTexts level path (front ++ (name, part) :: back)) =
      body level path (front ++ (name, part') :: back)
        (fieldTexts level path (front ++ (name, part') :: back)) := by
  have htexts : fieldTexts level path (front ++ (name, part) :: back) =
      fieldTexts level path (front ++ (name, part') :: back) := by
    rw [fieldTexts_eq_map, fieldTexts_eq_map, List.map_append, List.map_append, List.map_cons,
      List.map_cons, h.value]
  refine body_congr level path (fun other => ?_) (by rw [htexts])
  by_cases hname : other = name
  · subst hname
    rcases get?_replaced front back other part part' with hsame | ⟨hpart, hpart'⟩
    · rw [hsame]
      exact SameValue.rel_refl _
    · rw [hpart, hpart']
      exact .some h
  · rw [get?_beside front back name part part' hname]
    exact SameValue.rel_refl _

/-- A map in another order. -/
theorem body_perm (level : Level) (path : Path) {fields fields' : Fields Json}
    (distinct : fields.names.Nodup) (perm : fields.Perm fields') :
    body level path fields (fieldTexts level path fields) =
      body level path fields' (fieldTexts level path fields') := by
  refine body_congr level path (fun name => ?_) ?_
  · rw [get?_perm distinct perm name]
    exact SameValue.rel_refl _
  · rw [fieldTexts_eq_map, fieldTexts_eq_map]
    refine Text.sortByKey_eq_of_perm ((perm.map _).filter _) ?_
    refine List.Nodup.sublist (List.filter_sublist.map _) ?_
    rw [List.map_map]
    exact distinct

/-- Items with names, around one of them. -/
theorem exists_zip_around (names : List Text) (front back : List Json)
    (h : names.length = front.length + (back.length + 1)) :
    ∃ before name after, ∀ part,
      names.zip (front ++ part :: back) = before ++ (name, part) :: after := by
  induction front generalizing names with
  | nil =>
    cases names with
    | nil => rw [List.length_nil, List.length_nil] at h; omega
    | cons name rest => exact ⟨[], name, rest.zip back, fun part => rfl⟩
  | cons j front ih =>
    cases names with
    | nil => rw [List.length_nil, List.length_cons] at h; omega
    | cons first rest =>
      rw [List.length_cons, List.length_cons] at h
      obtain ⟨before, name, after, hzip⟩ := ih rest (by omega)
      refine ⟨(first, j) :: before, name, after, fun part => ?_⟩
      rw [List.cons_append, List.zip_cons_cons, hzip, List.cons_append]

/-- A list of values as a map, with one of them replaced. -/
theorem same_of_item (front back : List Json) {part part' : Json} (h : SameValue part part') :
    Role.properties.Same (.array (front ++ part :: back)) (.array (front ++ part' :: back)) := by
  intro level path
  have hlength (j : Json) : (front ++ j :: back).length = front.length + (back.length + 1) := by
    rw [List.length_append, List.length_cons]
  obtain ⟨before, name, after, hzip⟩ := exists_zip_around
    ((List.range (front.length + (back.length + 1))).map Text.ofNat) front back
    (by rw [List.length_map, List.length_range])
  dsimp only [propertyMap?]
  rw [hlength, hlength, hzip, hzip]
  exact congrArg some (body_replaced level path before after name h)

/-! ### Entries -/

/-- A block around its properties. -/
theorem same_of_body (front back : Fields Json) {part part' : Json}
    (h : Role.properties.Same part part') :
    Role.block.Same (objectWith front "properties" part back)
      (objectWith front "properties" part' back) := by
  refine ⟨⟨_, rfl⟩, ⟨_, rfl⟩, fun level path => ?_⟩
  have hbeside (name : Text) (hne : name ≠ "properties".toList) :=
    get?_beside front back "properties" part part' hne
  have hresource := hbeside "resourceName" (by decide)
  have hinstance := hbeside "instanceName" (by decide)
  have htype := hbeside "typeName" (by decide)
  have hlabel : label (front ++ ("properties".toList, part) :: back) =
      label (front ++ ("properties".toList, part') :: back) := by
    unfold label
    rw [hresource, hinstance, htype]
  have hheader (path : Path) : header level path (front ++ ("properties".toList, part) :: back) =
      header level path (front ++ ("properties".toList, part') :: back) := by
    unfold header
    rw [hresource, hinstance, htype]
  have hbody (path : Path) : bodyOf level path (front ++ ("properties".toList, part) :: back) =
      bodyOf level path (front ++ ("properties".toList, part') :: back) := by
    rw [bodyOf_eq, bodyOf_eq]
    rcases get?_replaced front back "properties" part part' with hsame | ⟨hpart, hpart'⟩
    · rw [hsame]
    · rw [hpart, hpart']
      exact h level path
  rw [objectWith, objectWith, block, block, hlabel, hbody, hheader]

/-- **One step keeps what is rendered.**  The induction goes from the map that is reordered to the
parts around it. -/
theorem Reorders.same {role : Role} {part part' : Json} (h : Reorders role part part') :
    role.Same part part' := by
  induction h with
  | here distinct perm =>
    exact fun level path => congrArg some (body_perm level path distinct perm)
  | @ofProperty front back name part part' _ ih =>
    exact fun level path => congrArg some (body_replaced level path front back name ih)
  | ofItem _ ih => exact same_of_item _ _ ih
  | ofBlock _ ih => exact sameValue_of_content _ _ (sameContent_of_block ih)
  | ofBlocks _ ih => exact sameValue_of_content _ _ (sameContent_of_blocks _ _ ih)
  | ofBody _ ih => exact same_of_body _ _ ih

/-- Any number of steps in entries keep what is rendered. -/
theorem entries_of_reorder {parts parts' : List Json}
    (h : Relation.ReflTransGen EntriesReorder parts parts') (level : Level) :
    entries level parts = entries level parts' := by
  induction h with
  | refl => rfl
  | tail _ hstep ih =>
    obtain ⟨front, part, part', back, rfl, rfl, hreorders⟩ := hstep
    exact ih.trans (blocks_replaced front back (hreorders.same.2.2 level []))

/-- At a level that is a number, where lines may not fit, the first entry is looked at alone. -/
theorem entriesAt_of_reorder {parts parts' : List Json}
    (h : Relation.ReflTransGen EntriesReorder parts parts') (x : Binary64) :
    entriesAt x parts = entriesAt x parts' := by
  have hshape : parts.isEmpty = parts'.isEmpty ∧
      entries (.whole 1) (parts.take 1) = entries (.whole 1) (parts'.take 1) := by
    induction h with
    | refl => exact ⟨rfl, rfl⟩
    | tail _ hstep ih =>
      obtain ⟨front, part, part', back, rfl, rfl, hreorders⟩ := hstep
      refine ⟨ih.1.trans ?_, ih.2.trans ?_⟩
      · cases front <;> rfl
      · cases front with
        | nil => exact blocks_replaced [] [] (hreorders.same.2.2 (.whole 1) [])
        | cons j front => rfl
  unfold entriesAt
  simp only [hshape.1, hshape.2, entries_of_reorder h]

/-- **What is written does not depend on the order of properties.**  Entries whose maps of
properties have distinct keys and are listed in another order, at any depth, give the same text or
the same failure, at every level.  Keys are written in an order that is a strict total one. -/
theorem entries_reordered {parts parts' : List Json}
    (h : Relation.ReflTransGen EntriesReorder parts parts') :
    (∀ level, entries level parts = entries level parts') ∧
      (∀ x, entriesAt x parts = entriesAt x parts') ∧
      (∀ s t, Text.keyOrder s t = .eq ↔ s = t) ∧
      (∀ s t, Text.keyOrder t s = (Text.keyOrder s t).swap) ∧
      ∀ s t u, Text.keyOrder s t = .lt → Text.keyOrder t u = .lt → Text.keyOrder s u = .lt :=
  ⟨entries_of_reorder h, entriesAt_of_reorder h, fun _ _ => Text.keyOrder_eq_iff,
    Text.keyOrder_swap, fun _ _ _ => Text.keyOrder_trans⟩

/-- A site with properties. -/
def siteOf (fields : Fields Json) : Json :=
  objectWith [("resourceName", .string "Site"), ("instanceName", .string "s")] "properties"
    (.object fields) []

/-- A binding with properties, as a value. -/
def bindingOf (fields : Fields Json) : Json :=
  objectWith [("kind", .string "SubObject")] "value"
    (objectWith [("typeName", .string "Bind")] "properties" (.object fields) []) []

/-- A number as a value. -/
def numberOf (n : Int) : Json :=
  .object [("kind", .string "Integer"), ("value", .number (.ofInt n))]

/-- The properties of a site, and those of the binding within it, in two orders. -/
theorem entries_reordered_site :
    entries (.whole 0) [siteOf [("port", numberOf 2),
        ("Bind", bindingOf [("b", numberOf 1), ("A", numberOf 0)])]] =
      entries (.whole 0) [siteOf [("Bind", bindingOf [("A", numberOf 0), ("b", numberOf 1)]),
        ("port", numberOf 2)]] := by
  have hport : Reorders .properties
      (.object [("port", numberOf 2), ("Bind", bindingOf [("b", numberOf 1), ("A", numberOf 0)])])
      (.object [("Bind", bindingOf [("b", numberOf 1), ("A", numberOf 0)]),
        ("port", numberOf 2)]) :=
    .here (by decide) (.swap ..)
  have hinner : Reorders .properties (.object [("b", numberOf 1), ("A", numberOf 0)])
      (.object [("A", numberOf 0), ("b", numberOf 1)]) := .here (by decide) (.swap ..)
  have hbind : Reorders .properties
      (objectWith [] "Bind" (bindingOf [("b", numberOf 1), ("A", numberOf 0)])
        [("port", numberOf 2)])
      (objectWith [] "Bind" (bindingOf [("A", numberOf 0), ("b", numberOf 1)])
        [("port", numberOf 2)]) := .ofProperty (.ofBlock (.ofBody hinner))
  have houter : EntriesReorder
      [siteOf [("port", numberOf 2), ("Bind", bindingOf [("b", numberOf 1), ("A", numberOf 0)])]]
      [siteOf [("Bind", bindingOf [("b", numberOf 1), ("A", numberOf 0)]), ("port", numberOf 2)]] :=
    ⟨[], _, _, [], rfl, rfl, .ofBody hport⟩
  have hnested : EntriesReorder
      [siteOf [("Bind", bindingOf [("b", numberOf 1), ("A", numberOf 0)]), ("port", numberOf 2)]]
      [siteOf [("Bind", bindingOf [("A", numberOf 0), ("b", numberOf 1)]), ("port", numberOf 2)]] :=
    ⟨[], _, _, [], rfl, rfl, .ofBody hbind⟩
  exact (entries_reordered (.tail (.single houter) hnested)).1 (.whole 0)

end DesiredState.Render
