/-
The values of a conversion.

Whatever a script says, its values are such that they can be rendered: a literal becomes
an integer only if it is a safe one, and a block takes the name of its class from the
catalog, from the host or from its own head.
-/
import DesiredState.Proofs.Rendering
import DesiredState.Proofs.Script.Heads
import DesiredState.Proofs.Session
import DesiredState.Value.Binding

namespace DesiredState

/-! ### Literals -/

theorem Binary64.isInteger_of_isSafe {x : Binary64} (h : x.toSafeInt?.isSome) : x.isInteger := by
  obtain ⟨n, hn⟩ := Option.isSome_iff_exists.mp h
  obtain ⟨hn, -⟩ := Option.filter_eq_some_iff.mp hn
  exact Option.isSome_iff_exists.mpr ⟨n, hn⟩

theorem Term.isSafe_of_integerOfText? {t : Text} {x : Binary64} (h : integerOfText? t = some x) :
    x.toSafeInt?.isSome := by
  obtain ⟨⟨negative, n⟩, -, hx⟩ := Option.bind_eq_some_iff.mp h
  simp only at hx
  split at hx
  · next hsafe =>
    cases hx
    exact hsafe
  · cases hx

/-- The integer that a scalar denotes is exact. -/
theorem Term.isSafe_of_integer? {t : Term} {x : Binary64} (h : t.integer? = some x) :
    x.toSafeInt?.isSome := by
  unfold integer? at h
  split at h
  · split at h
    · next hsafe =>
      cases h
      exact hsafe
    · cases h
  · exact isSafe_of_integerOfText? h
  · split at h
    · exact isSafe_of_integerOfText? h
    · cases h
  · cases h

theorem Term.isInteger_of_integer? {t : Term} {x : Binary64} (h : t.integer? = some x) :
    x.isInteger := Binary64.isInteger_of_isSafe (isSafe_of_integer? h)

namespace Coercion

/-- A value without blocks whose numbers are integers. -/
def IsPlain (c : Coercion) : Prop := c.value.isFlat ∧ Layout.HasIntegers c.value

theorem isPlain_verbatim (t : Term) : (verbatim t).IsPlain := ⟨rfl, trivial⟩

theorem isPlain_notScalar (target : Target) (t : Term) : (notScalar target t).IsPlain := by
  unfold notScalar
  split
  · exact ⟨rfl, trivial⟩
  · exact isPlain_verbatim t

theorem isPlain_toString (t : Term) : (toString t).IsPlain := by
  unfold toString
  split
  · exact ⟨rfl, trivial⟩
  · exact isPlain_notScalar _ t

theorem isPlain_toInteger (t : Term) : (toInteger t).IsPlain := by
  unfold toInteger
  split
  · split
    · next x hx => exact ⟨rfl, Term.isInteger_of_integer? hx⟩
    · exact ⟨rfl, trivial⟩
  · exact isPlain_notScalar _ t

theorem isPlain_toBoolean (t : Term) : (toBoolean t).IsPlain := by
  unfold toBoolean
  split
  · exact ⟨rfl, trivial⟩
  · dsimp only
    split
    · split
      · exact ⟨rfl, trivial⟩
      · split
        · exact ⟨rfl, trivial⟩
        · exact ⟨rfl, trivial⟩
    · exact isPlain_notScalar _ t

theorem isPlain_toIntegers (t : Term) : (toIntegers t).IsPlain := by
  unfold toIntegers
  split
  · next numbers hnumbers =>
    refine ⟨rfl, fun x hx => ?_⟩
    obtain ⟨element, -, helement⟩ := exists_of_mem_mapM hnumbers hx
    exact Term.isInteger_of_integer? helement
  · exact ⟨rfl, trivial⟩

theorem isPlain_asIs (t : Term) : (asIs t).IsPlain := by
  unfold asIs
  split
  · split
    · next hsafe => exact ⟨rfl, Binary64.isInteger_of_isSafe hsafe⟩
    · split
      · exact ⟨rfl, trivial⟩
      · exact isPlain_verbatim _
  · exact ⟨rfl, trivial⟩
  · split
    · exact ⟨rfl, trivial⟩
    · exact isPlain_verbatim _

theorem isPlain_ofStatic (expected : DeclaredType) (t : Term) : (ofStatic expected t).IsPlain := by
  cases expected with
  | string => exact isPlain_toString t
  | stringArray => exact ⟨rfl, trivial⟩
  | integer => exact isPlain_toInteger t
  | integerArray => exact isPlain_toIntegers t
  | boolean => exact isPlain_toBoolean t
  | _ => exact isPlain_asIs t

/-- A literal is read as a value without blocks whose numbers are integers. -/
theorem isPlain_of (expected : DeclaredType) (t : Term) : (of expected t).IsPlain := by
  unfold of
  split
  · dsimp only
    split
    · exact ⟨rfl, trivial⟩
    · split
      · exact ⟨rfl, trivial⟩
      · exact isPlain_verbatim _
  · exact isPlain_ofStatic _ _
  · exact isPlain_ofStatic _ _
  · exact isPlain_ofStatic _ _
  · split
    · exact isPlain_ofStatic _ _
    · exact isPlain_verbatim _
  · exact isPlain_verbatim _

end Coercion

/-! ### Binding -/

/-- A block with a head and without keys of comments. -/
structure Block.IsOrdinary (b : Block) : Prop where
  keyword : b.keyword ≠ []
  keys : ∀ e ∈ b.body.entries, isMetadataKey e.key = false

/-- Properties that are no comments and can be rendered. -/
def Fields.AreRenderable (records : Bool) (fields : Fields Value) : Prop :=
  ∀ p ∈ fields, isMetadataKey p.1 = false ∧ p.2.IsRenderable records

theorem Fields.AreRenderable.bind {records : Bool} {fields : Fields Value}
    (h : fields.AreRenderable records) {key : Text} (hkey : isMetadataKey key = false) {x : Value}
    (hx : x.IsRenderable records) : (fields.bind key x).AreRenderable records := by
  intro p hp
  unfold Fields.bind at hp
  dsimp only at hp
  split at hp
  · exact h p hp
  rcases Fields.mem_set hp with rfl | hp
  · refine ⟨?_, hx⟩
    -- An earlier spelling is the key of a property that was there.
    unfold Fields.spelling
    cases hfind : fields.names.find? fun name => Text.sameName name key with
    | none => exact hkey
    | some name =>
      obtain ⟨q, hq, rfl⟩ := List.mem_map.mp (List.mem_of_find?_eq_some hfind)
      exact (h q hq).1
  · exact h p hp

/-- A block that records its class if it is to, and whose properties can be rendered. -/
def SubObject.IsRenderable (records : Bool) (b : SubObject) : Prop :=
  b.IsTagged records ∧ Fields.AreRenderable records b.properties

theorem Value.IsRenderable.of_blocks {records : Bool} {items : List SubObject}
    (h : ∀ b ∈ items, b.IsRenderable records) :
    (Value.subObjectArray items).IsRenderable records :=
  .blocks (fun b hb => (h b hb).1) (fun b hb p hp => ((h b hb).2 p hp).1)
    fun b hb p hp => ((h b hb).2 p hp).2

namespace Binding

open Interpreting

theorem isRenderable_loneBlock {records : Bool} {b : SubObject} (h : b.IsRenderable records)
    (expected : DeclaredType) : (loneBlock expected b).IsRenderable records := by
  unfold loneBlock
  split
  · exact .of_blocks fun c hc => List.mem_singleton.mp hc ▸ h
  · exact .block h.1 (fun p hp => (h.2 p hp).1) fun p hp => (h.2 p hp).2

variable {lookup : DeclLookup} {scope : ImportScope} {c : Context}

/-- Work gives a value of some sort, whatever it reports. -/
abbrev Yields (lookup : DeclLookup) (scope : ImportScope) (work : Interpreting α)
    (P : α → Prop) : Prop :=
  Gives lookup scope (fun _ => True) work P

/-- A literal is kept as a value without blocks whose numbers are integers. -/
theorem yields_plain (subject : Subject) (expected : DeclaredType) (t : Term) :
    Yields lookup scope (literal subject expected t) fun x => x.isFlat ∧ Layout.HasIntegers x := by
  have hplain := Coercion.isPlain_of expected t
  unfold literal
  dsimp only
  split
  · exact Gives.bind (gives_report trivial) fun _ _ => Gives.pure hplain
  · exact Gives.pure hplain

theorem yields_literal (subject : Subject) (expected : DeclaredType) (t : Term) :
    Yields lookup scope (literal subject expected t) fun x => x.IsRenderable c.recordsTypes :=
  (yields_plain subject expected t).mono fun _ h => .flat h.2 h.1

theorem yields_reportSkipped (subject : Subject) (skipped : Nat) :
    Yields lookup scope (reportSkipped subject skipped) fun _ => True := by
  unfold reportSkipped
  split
  · exact Gives.pure trivial
  · exact gives_report trivial

/-- The classes that the blocks of an instance can be of have names. -/
def NamesClasses (lookup : DeclLookup) (scope : ImportScope) (owner : Text) : Prop :=
  ∀ key class', Schema.Resource.classOf? (Schema.Resource.found? lookup scope owner) key =
    some class' → class'.typeName ≠ []

/-- A block is of a class that has a name, or goes by its head. -/
theorem isTagged_of_names {owner keyword : Text} (hnames : NamesClasses lookup scope owner)
    (hkeyword : keyword ≠ []) {records : Bool} (properties : Fields Value) :
    SubObject.IsTagged records ⟨if records then some (((Schema.Resource.classOf?
      (Schema.Resource.found? lookup scope owner) (Text.lower keyword)).map
        (·.typeName)).getD keyword) else none, properties⟩ := by
  cases records with
  | false => rfl
  | true =>
    refine ⟨_, rfl, ?_⟩
    cases hclass : Schema.Resource.classOf? (Schema.Resource.found? lookup scope owner)
        (Text.lower keyword) with
    | none => exact hkeyword
    | some found => exact hnames _ found hclass

mutual

/-- A block of a class can be rendered. -/
theorem yields_classBlock (hcase : lookup.IgnoresCase) (hnames : NamesClasses lookup scope c.owner)
    (subject : Subject) {keyword : Text} (hkeyword : keyword ≠ []) (place : Location) (body : Table)
    (hkeys : ∀ e ∈ body.entries, isMetadataKey e.key = false)
    (hblocks : ∀ b ∈ body.blocks, b.IsOrdinary) :
    Yields lookup scope (classBlock c subject keyword place body)
      fun b => b.IsRenderable c.recordsTypes := by
  match body with
  | ⟨_, body⟩ =>
    rw [classBlock]
    refine Gives.bind (gives_resolveClass hcase c.owner keyword) ?_
    rintro schema rfl
    dsimp only
    have hrest : ∀ subject declared, Yields lookup scope (do
        let properties ← entries c subject keyword declared [] body
        pure ⟨if c.recordsTypes then some (((Schema.Resource.classOf?
          (Schema.Resource.found? lookup scope c.owner) (Text.lower keyword)).map
            (·.typeName)).getD keyword) else none, properties⟩)
        fun b : SubObject => b.IsRenderable c.recordsTypes := by
      intro subject declared
      refine Gives.bind (yields_entries hcase hnames subject keyword declared body hkeys hblocks
        fun _ hp => absurd hp List.not_mem_nil) ?_
      exact fun properties hproperties => Gives.pure ⟨isTagged_of_names hnames hkeyword _, hproperties⟩
    split
    · exact Gives.bind (gives_report trivial) fun _ _ => hrest _ _
    · exact hrest _ _

/-- The properties that entries give can be rendered. -/
theorem yields_entries (hcase : lookup.IgnoresCase) (hnames : NamesClasses lookup scope c.owner)
    (subject : Subject) (declaredBy : Text) (schema : Option (List Schema.Property))
    (list : List Entry) (hkeys : ∀ e ∈ list, isMetadataKey e.key = false)
    (hblocks : ∀ b ∈ Entry.blocksOf list, b.IsOrdinary) {done : Fields Value}
    (hdone : done.AreRenderable c.recordsTypes) :
    Yields lookup scope (entries c subject declaredBy schema done list)
      fun fields => fields.AreRenderable c.recordsTypes := by
  match list with
  | [] => exact Gives.pure hdone
  | ⟨key, place, value⟩ :: rest =>
    have hkey : isMetadataKey key = false := hkeys _ List.mem_cons_self
    have hvalue : ∀ b ∈ value.blocks, b.IsOrdinary :=
      fun b hb => hblocks b (List.mem_append_left _ hb)
    have hmore : ∀ {done : Fields Value}, done.AreRenderable c.recordsTypes →
        Yields lookup scope (entries c subject declaredBy schema done rest)
          fun fields => fields.AreRenderable c.recordsTypes :=
      fun hdone => yields_entries hcase hnames subject declaredBy schema rest
        (fun e he => hkeys e (List.mem_cons_of_mem _ he))
        (fun b hb => hblocks b (List.mem_append_right _ hb)) hdone
    cases schema with
    | none =>
      rw [entries]
      exact hmore (hdone.bind hkey (.flat trivial rfl))
    | some declared =>
      rw [entries]
      cases Schema.Property.find? key declared with
      | none => exact Gives.bind (gives_report trivial) fun _ _ => hmore hdone
      | some property =>
        refine Gives.bind (yields_statement hcase hnames _ property.type value hvalue) ?_
        exact fun x hx => hmore (hdone.bind hkey hx)

/-- The value of a statement can be rendered. -/
theorem yields_statement (hcase : lookup.IgnoresCase) (hnames : NamesClasses lookup scope c.owner)
    (subject : Subject) (expected : DeclaredType) (s : Statement)
    (hblocks : ∀ b ∈ s.blocks, b.IsOrdinary) :
    Yields lookup scope (statement c subject expected s)
      fun x => x.IsRenderable c.recordsTypes := by
  match s with
  | .block ⟨extent, keyword, place, some name, body⟩ =>
    rw [statement]
    exact Gives.pure (.flat trivial rfl)
  | .block ⟨extent, keyword, place, none, body⟩ =>
    have hhere := hblocks _ List.mem_cons_self
    rw [statement]
    exact Gives.bind (yields_classBlock hcase hnames subject hhere.keyword place body hhere.keys
        fun b hb => hblocks b (List.mem_cons_of_mem _ hb))
      fun b hb => Gives.pure (isRenderable_loneBlock hb expected)
  | .pipeline _ [t] =>
    rw [statement]
    exact yields_term hcase hnames subject expected t
      fun b hb => hblocks b (List.mem_append_left _ hb)
  | .pipeline _ [] | .pipeline _ (_ :: _ :: _) | .configuration .. | .node .. | .param _
  | .assignment .. => exact Gives.pure (.flat trivial rfl)

/-- The value of a term can be rendered. -/
theorem yields_term (hcase : lookup.IgnoresCase) (hnames : NamesClasses lookup scope c.owner)
    (subject : Subject) (expected : DeclaredType) (t : Term)
    (hblocks : ∀ b ∈ t.blocks, b.IsOrdinary) :
    Yields lookup scope (term c subject expected t) fun x => x.IsRenderable c.recordsTypes := by
  match t with
  | .block ⟨extent, keyword, place, some name, body⟩ =>
    rw [term]
    exact Gives.pure (.flat trivial rfl)
  | .block ⟨extent, keyword, place, none, body⟩ =>
    have hhere := hblocks _ List.mem_cons_self
    rw [term]
    exact Gives.bind (yields_classBlock hcase hnames subject hhere.keyword place body hhere.keys
        fun b hb => hblocks b (List.mem_cons_of_mem _ hb))
      fun b hb => Gives.pure (isRenderable_loneBlock hb expected)
  | .expression (.array extent bracketed elements) =>
    have hitems := yields_classBlocks hcase hnames subject elements hblocks
    rw [term.eq_def]
    dsimp only
    split
    · exact Gives.pure (.of_blocks fun _ hb => absurd hb List.not_mem_nil)
    · split
      · refine Gives.bind (yields_reportSkipped subject _) fun _ _ => ?_
        exact Gives.bind hitems fun blocks hall => Gives.pure (.of_blocks hall)
      · exact Gives.bind (yields_reportSkipped subject _) fun _ _ => yields_literal subject expected _
  | .command _ | .expression (.string ..) | .expression (.number ..) | .expression (.variable _)
  | .expression (.member ..) | .expression (.table _) | .expression (.scriptBlock _)
  | .expression (.unrecognized _) => exact yields_literal subject expected _

/-- The blocks of an array can be rendered. -/
theorem yields_classBlocks (hcase : lookup.IgnoresCase) (hnames : NamesClasses lookup scope c.owner)
    (subject : Subject) (list : List Term) (hblocks : ∀ b ∈ Term.blocksOf list, b.IsOrdinary) :
    Yields lookup scope (classBlocks c subject list)
      fun items => ∀ b ∈ items, b.IsRenderable c.recordsTypes := by
  match list with
  | [] => exact Gives.pure fun _ hb => absurd hb List.not_mem_nil
  | .block ⟨extent, keyword, place, none, body⟩ :: rest =>
    have hhere := hblocks _ (List.mem_append_left _ List.mem_cons_self)
    rw [classBlocks]
    refine Gives.bind (yields_classBlock hcase hnames subject hhere.keyword place body hhere.keys
      fun b hb => hblocks b (List.mem_append_left _ (List.mem_cons_of_mem _ hb))) ?_
    intro first hfirst
    refine Gives.bind (yields_classBlocks hcase hnames subject rest
      fun b hb => hblocks b (List.mem_append_right _ hb)) ?_
    intro more hmore
    refine Gives.pure fun b hb => ?_
    rcases List.mem_cons.mp hb with rfl | hb
    · exact hfirst
    · exact hmore b hb
  | .block ⟨extent, keyword, place, some name, body⟩ :: rest | .command _ :: rest
  | .expression _ :: rest =>
    rw [classBlocks]
    · exact yields_classBlocks hcase hnames subject rest
        fun b hb => hblocks b (List.mem_append_right _ hb)
    · intro _ _ _ _ h
      cases h

end

end Binding

end DesiredState
