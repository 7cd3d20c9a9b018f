/-
What a conversion gives.

The instances of a conversion have values that can be rendered, and comments come to them
as strings.  So they can be written, unless blocks were not to record their classes; then
they can exactly if no property that is written holds a block.
-/
import DesiredState.Configuration.Exchange
import DesiredState.Proofs.Catalog
import DesiredState.Proofs.Conversion.Values

namespace DesiredState

/-! ### Building

An invariant of a session is kept by every step of a build, and a property of what a
step comes to goes along with it.  The rules are stated for any two of these, so that
later modules use them for other invariants.
-/

/-- Properties that are no comments make an instance. -/
theorem Instance.IsRenderable.of_fields {records : Bool} {resource name : Text}
    (hresource : resource ≠ []) {properties : Fields Value}
    (h : properties.AreRenderable records) :
    Instance.IsRenderable records ⟨resource, name, properties⟩ where
  resourceName := hresource
  comments p hp hm := by
    rw [(h p hp).1] at hm
    cases hm
  values p hp _ := (h p hp).2

namespace Building

/-- Work that succeeds does so with a value of some sort, and keeps what is kept of a session. -/
def Keeps (kept : Session → Prop) (work : Building α) (P : α → Prop) : Prop :=
  ∀ s : Session, kept s → ∀ a after, work s = .ok (a, after) → P a ∧ kept after

section Keeps

variable {kept : Session → Prop} {α β : Type}

theorem Keeps.mono {work : Building α} {P Q : α → Prop} (h : Keeps kept work P)
    (hPQ : ∀ a, P a → Q a) : Keeps kept work Q := by
  intro s hs a after hwork
  obtain ⟨ha, hafter⟩ := h s hs a after hwork
  exact ⟨hPQ a ha, hafter⟩

theorem Keeps.pure {a : α} {P : α → Prop} (h : P a) : Keeps kept (Pure.pure a) P := by
  rintro s hs _ _ ⟨⟩
  exact ⟨h, hs⟩

theorem Keeps.throw (e : BuildError) (P : α → Prop) : Keeps kept (MonadExcept.throw e) P := by
  rintro s _ _ _ ⟨⟩

theorem Keeps.interpreted {work : Interpreting α} {P : α → Prop}
    (h : ∀ s, kept s → P (work s).1 ∧ kept (work s).2) :
    Keeps kept (Building.interpreted work) P := by
  intro s hs a after hwork
  have hdone := h s hs
  rwa [Except.ok.inj hwork] at hdone

theorem Keeps.bind {work : Building α} {next : α → Building β} {P : α → Prop} {Q : β → Prop}
    (h : Keeps kept work P) (hnext : ∀ a, P a → Keeps kept (next a) Q) :
    Keeps kept (work >>= next) Q := by
  intro s hs b after hb
  change (work s).bind (fun p => next p.1 p.2) = _ at hb
  cases hwork : work s with
  | error e =>
    rw [hwork] at hb
    cases hb
  | ok found =>
    obtain ⟨a, middle⟩ := found
    rw [hwork] at hb
    obtain ⟨ha, hmiddle⟩ := h s hs a middle hwork
    exact hnext a ha middle hmiddle b after hb

/-- What is kept does not depend on events that are no diagnostics. -/
def DisregardsNotes (kept : Session → Prop) : Prop :=
  ∀ (e : Event) (s : Session), e.diagnostic? = none → kept s →
    kept { s with events := s.events ++ [e] }

theorem Keeps.note (hnotes : DisregardsNotes kept) {e : Event} (he : e.diagnostic? = none) :
    Keeps kept (Building.interpreted (Interpreting.note e)) fun _ => True :=
  Keeps.interpreted fun s hs => ⟨trivial, hnotes e s he hs⟩

/-- What every statement keeps all of them keep, one after another. -/
theorem Keeps.statements (hnotes : DisregardsNotes kept) (o : ReadOptions) (total : Nat)
    {list : List Statement} {P : Instance → Prop}
    (h : ∀ s ∈ list, Keeps kept (statement o s) fun read => ∀ i ∈ read, P i) (before : Nat) :
    Keeps kept (statements o total before list) fun instances => ∀ i ∈ instances, P i := by
  induction list generalizing before with
  | nil => exact Keeps.pure fun _ hi => absurd hi List.not_mem_nil
  | cons s rest ih =>
    rw [Building.statements]
    refine Keeps.bind (h s List.mem_cons_self) fun read hread => ?_
    refine Keeps.bind (Keeps.note hnotes rfl) fun _ _ => ?_
    refine Keeps.bind (ih (fun s hs => h s (List.mem_cons_of_mem _ hs)) (before + 1))
      fun more hmore => ?_
    refine Keeps.pure fun i hi => ?_
    rcases List.mem_append.mp hi with hi | hi
    · exact hread i (Option.mem_toList.mp hi)
    · exact hmore i hi

end Keeps

/-- Work that succeeds does so with a value of some sort, and keeps the memo right. -/
def Ensures (lookup : DeclLookup) (scope : ImportScope) (work : Building α) (P : α → Prop) : Prop :=
  ∀ s : Session, s.Consults lookup scope → ∀ a after, work s = .ok (a, after) →
    P a ∧ after.Consults lookup scope

variable {lookup : DeclLookup} {scope : ImportScope} {α β : Type}

theorem disregardsNotes_consults :
    DisregardsNotes fun s : Session => s.Consults lookup scope :=
  fun _ _ _ hs => ⟨hs.lookup, hs.scope, hs.answers⟩

theorem Ensures.pure {a : α} {P : α → Prop} (h : P a) :
    Ensures lookup scope (Pure.pure a) P := Keeps.pure h

theorem Ensures.throw (e : BuildError) (P : α → Prop) :
    Ensures lookup scope (MonadExcept.throw e) P := Keeps.throw e P

theorem Ensures.interpreted {work : Interpreting α} {P : α → Prop}
    (h : Binding.Yields lookup scope work P) : Ensures lookup scope (interpreted work) P :=
  Keeps.interpreted fun s hs => ⟨(h s hs).1, (h s hs).2.1⟩

theorem Ensures.bind {work : Building α} {next : α → Building β} {P : α → Prop} {Q : β → Prop}
    (h : Ensures lookup scope work P) (hnext : ∀ a, P a → Ensures lookup scope (next a) Q) :
    Ensures lookup scope (work >>= next) Q := Keeps.bind h hnext

theorem ensures_schemaOf (hcase : lookup.IgnoresCase) (o : ReadOptions) (b : Block)
    (subject : Subject) : Ensures lookup scope (schemaOf o b subject) fun _ => True := by
  refine Ensures.bind (Ensures.interpreted (Interpreting.gives_resolve hcase b.keyword)) ?_
  rintro schema -
  cases schema with
  | some found => exact Ensures.pure trivial
  | none =>
    dsimp only
    split
    · exact Ensures.bind (Ensures.throw _ fun _ => True) fun _ _ =>
        Ensures.bind (Ensures.interpreted (Interpreting.gives_report trivial)) fun _ _ =>
          Ensures.pure trivial
    · exact Ensures.bind (Ensures.interpreted (Interpreting.gives_report trivial)) fun _ _ =>
        Ensures.pure trivial

/-- The instance that a block declares can be rendered. -/
theorem ensures_instanceOf (hcase : lookup.IgnoresCase)
    (hnames : ∀ owner, Binding.NamesClasses lookup scope owner) (o : ReadOptions) {b : Block}
    (hordinary : b.IsOrdinary) (hblocks : ∀ inner ∈ b.body.blocks, inner.IsOrdinary)
    (name : Expression) :
    Ensures lookup scope (instanceOf o b name) fun i => i.IsRenderable o.recordsTypes := by
  refine Ensures.bind (ensures_schemaOf hcase o b _) fun schema _ => ?_
  have hproperties := fun subject => Binding.yields_entries (c := ⟨b.keyword, o.recordsTypes⟩) hcase
    (hnames b.keyword) subject b.keyword (schema.map (·.properties)) b.body.entries
    hordinary.keys (by rwa [← Table.blocks_eq]) fun _ hp => absurd hp List.not_mem_nil
  refine Ensures.bind (Ensures.interpreted (hproperties _)) fun properties hrenderable => ?_
  refine Ensures.bind (Ensures.interpreted (Interpreting.gives_note rfl)) fun _ _ => ?_
  exact Ensures.pure (.of_fields hordinary.keyword hrenderable)

theorem mem_blocks_of_declaration? {s : Statement} {b : Block} {name : Expression}
    (h : declaration? s = some (b, name)) : b ∈ s.blocks ∧ ∀ inner ∈ b.body.blocks, inner ∈ s.blocks := by
  cases s with
  | block block =>
    obtain ⟨extent, keyword, place, given, body⟩ := block
    cases given with
    | none => cases h
    | some given =>
      cases h
      exact ⟨List.mem_cons_self, fun inner hinner =>
        List.mem_cons_of_mem _ (List.mem_append_right _ hinner)⟩
  | _ => cases h

/-- What holds of the instance that a block declares holds of that of its statement. -/
theorem ensures_statement (o : ReadOptions) {s : Statement} {P : Instance → Prop}
    (h : ∀ b name, declaration? s = some (b, name) → Ensures lookup scope (instanceOf o b name) P) :
    Ensures lookup scope (statement o s) fun read => ∀ i ∈ read, P i := by
  unfold statement
  cases hdeclared : declaration? s with
  | none =>
    exact Ensures.bind (Ensures.interpreted (Interpreting.gives_report trivial)) fun _ _ =>
      Ensures.pure fun _ hi => absurd hi (Option.not_mem_none _)
  | some found =>
    refine Ensures.bind (h found.1 found.2 hdeclared) fun declared hi => ?_
    refine Ensures.pure fun i he => ?_
    rwa [← Option.some.inj he]

end Building

namespace Build

theorem mem_of_configuration? {script : List Statement} {c : Configuration}
    (h : configuration? script = some c) : .configuration c.extent c.name c.body ∈ script := by
  fun_induction configuration? script with
  | case1 => cases h
  | case2 extent name body rest =>
    cases h
    exact List.mem_cons_self
  | case3 s rest hne ih => exact List.mem_cons_of_mem s (ih h)

/-- A statement of a configuration, or of a node block of it. -/
def Configuration.Holds (c : Configuration) (s : Statement) : Prop :=
  s ∈ c.body ∨ ∃ body ∈ nodeBodies c.body, s ∈ body

theorem Configuration.Holds.blocks {c : Configuration} {s : Statement} (h : c.Holds s) {b : Block}
    (hb : b ∈ s.blocks) : b ∈ Statement.blocksOf c.body := by
  rw [Statement.blocksOf_eq]
  rcases h with hs | ⟨body, hbody, hs⟩
  · exact List.mem_flatMap_of_mem hs hb
  · obtain ⟨node, hnode, hfound⟩ := List.mem_filterMap.mp hbody
    cases node with
    | node extent target inner =>
      cases hfound
      refine List.mem_flatMap_of_mem hnode (List.mem_append_right _ ?_)
      rw [Statement.blocksOf_eq]
      exact List.mem_flatMap_of_mem hs hb
    | _ => cases hfound

/-- The statements that declare resources are statements of the configuration, or of a node block
of it. -/
theorem keeps_declaringStatements {kept : Session → Prop}
    (hnotes : Building.DisregardsNotes kept) (o : ReadOptions) (c : Configuration) :
    Building.Keeps kept (declaringStatements o c)
      fun statements => ∀ s ∈ statements, c.Holds s := by
  unfold declaringStatements
  split
  · next body heq =>
    exact Building.Keeps.pure fun s hs => .inr ⟨body, heq ▸ List.mem_cons_self, hs⟩
  · next body more _ heq =>
    exact Building.Keeps.bind (Building.Keeps.note hnotes rfl)
      fun _ _ => Building.Keeps.pure fun s hs => .inr ⟨body, heq ▸ List.mem_cons_self, hs⟩
  · have hrest : Building.Keeps kept
        (if (c.body.filter isResourceLike).any fun s => (Building.declaration? s).isSome then
          pure (c.body.filter isResourceLike) else throw (.noResources c.name c.extent.location))
        fun statements => ∀ s ∈ statements, c.Holds s := by
      split
      · exact Building.Keeps.pure fun s hs => .inl (List.mem_filter.mp hs).1
      · exact Building.Keeps.throw _ _
    dsimp only
    split
    · exact Building.Keeps.bind (Building.Keeps.throw _ fun _ => True) fun _ _ => hrest
    · exact hrest

theorem ensures_declaringStatements {lookup : DeclLookup} {scope : ImportScope} (o : ReadOptions)
    (c : Configuration) :
    Building.Ensures lookup scope (declaringStatements o c)
      fun statements => ∀ s ∈ statements, c.Holds s :=
  keeps_declaringStatements Building.disregardsNotes_consults o c

/-- What every statement of the configuration keeps is kept by the build of the script. -/
theorem keeps_ofStatements {kept : Configuration → Session → Prop} {lookup : DeclLookup}
    {o : ReadOptions} {script : List Statement} {P : Instance → Prop}
    (hnotes : ∀ c, Building.DisregardsNotes (kept c))
    (hnew : ∀ c, kept c (.new (.new lookup ⟨Import.ofStatements c.body, o.versionRule⟩)))
    (hP : ∀ c, configuration? script = some c → ∀ s, c.Holds s →
      Building.Keeps (kept c) (Building.statement o s) fun read => ∀ i ∈ read, P i)
    {built : Build} (h : ofStatements o lookup script = .ok built) :
    (∀ i ∈ built.instances, P i) ∧
      ∃ c, configuration? script = some c ∧ kept c built.session := by
  unfold ofStatements at h
  cases hc : configuration? script with
  | none =>
    rw [hc] at h
    cases h
  | some c =>
    rw [hc] at h
    have hwork : Building.Keeps (kept c) (do
        let statements ← declaringStatements o c
        Building.statements o statements.length 0 statements)
        fun instances => ∀ i ∈ instances, P i :=
      Building.Keeps.bind (keeps_declaringStatements (hnotes c) o c) fun statements hs =>
        Building.Keeps.statements (hnotes c) o statements.length
          (fun s hmem => hP c hc s (hs s hmem)) 0
    simp only [] at h
    cases hresult : (do
        let statements ← declaringStatements o c
        Building.statements o statements.length 0 statements : Building (List Instance))
        (Session.new (Schema.Memo.new lookup ⟨Import.ofStatements c.body, o.versionRule⟩)) with
    | error e =>
      rw [hresult] at h
      cases h
    | ok found =>
      obtain ⟨instances, after⟩ := found
      rw [hresult] at h
      obtain rfl := Except.ok.inj h
      obtain ⟨hinstances, hkept⟩ := hwork _ (hnew c) instances after hresult
      exact ⟨hinstances, c, rfl, hkept⟩

/-- What holds of every instance that a statement of the configuration can declare holds of the
instances of the script. -/
theorem all_of_ofStatements {lookup : DeclLookup} {o : ReadOptions} {script : List Statement}
    {P : Instance → Prop}
    (hP : ∀ c, configuration? script = some c → ∀ s, c.Holds s → ∀ b name,
      Building.declaration? s = some (b, name) →
        Building.Ensures lookup ⟨Import.ofStatements c.body, o.versionRule⟩
          (Building.instanceOf o b name) P)
    {built : Build} (h : ofStatements o lookup script = .ok built) : ∀ i ∈ built.instances, P i := by
  refine (keeps_ofStatements (fun _ => Building.disregardsNotes_consults)
    (fun c => Session.consults_new lookup ⟨Import.ofStatements c.body, o.versionRule⟩)
    (fun c hc s hs => ?_) h).1
  exact Building.ensures_statement o fun b name => hP c hc s hs b name

/-- **The instances that are built from a script can be rendered.** -/
theorem isRenderable_of_ofStatements {lookup : DeclLookup} (hcase : lookup.IgnoresCase)
    (hnames : ∀ scope owner, Binding.NamesClasses lookup scope owner) {o : ReadOptions}
    {script : List Statement} (hblocks : ∀ b ∈ Statement.blocksOf script, b.IsOrdinary)
    {built : Build} (h : ofStatements o lookup script = .ok built) :
    ∀ i ∈ built.instances, i.IsRenderable o.recordsTypes := by
  refine all_of_ofStatements (fun c hc s hs b name hdeclared => ?_) h
  have hordinary : ∀ inner ∈ s.blocks, inner.IsOrdinary := by
    intro inner hinner
    rw [Statement.blocksOf_eq] at hblocks
    exact hblocks inner (List.mem_flatMap_of_mem (mem_of_configuration? hc) (hs.blocks hinner))
  obtain ⟨hb, hinner⟩ := Building.mem_blocks_of_declaration? hdeclared
  exact Building.ensures_instanceOf hcase (hnames _) o (hordinary b hb)
    (fun inner hi => hordinary inner (hinner inner hi)) name

end Build

/-! ### Comments -/

namespace PropertyComment

variable {records : Bool}

/-- A comment comes to an instance as a string. -/
theorem isRenderable_addTo (c : PropertyComment) {i : Instance} (h : i.IsRenderable records) :
    (c.addTo i).IsRenderable records := by
  unfold addTo
  split
  · exact h
  · exact h
  · next key _ _ =>
    refine ⟨h.resourceName, fun p hp hm => ?_, fun p hp hm => ?_⟩
    · rcases Fields.mem_set hp with rfl | hp
      · exact ⟨c.comment, rfl⟩
      · exact h.comments p hp hm
    · rcases Fields.mem_set hp with rfl | hp
      · rw [isMetadataKey_metadataKey] at hm
        cases hm
      · exact h.values p hp hm

theorem isRenderable_apply (c : PropertyComment) {instances : List Instance}
    (h : ∀ i ∈ instances, i.IsRenderable records) :
    ∀ i ∈ c.apply instances, i.IsRenderable records := by
  induction instances with
  | nil => exact h
  | cons first rest ih =>
    have hfirst := h first List.mem_cons_self
    have hrest := fun i hi => h i (List.mem_cons_of_mem first hi)
    intro i hi
    rw [apply] at hi
    split at hi
    · rcases List.mem_cons.mp hi with rfl | hi
      · exact c.isRenderable_addTo hfirst
      · exact hrest i hi
    · rcases List.mem_cons.mp hi with rfl | hi
      · exact hfirst
      · exact ih hrest i hi

end PropertyComment

theorem isRenderable_attachComments {records : Bool} (tokens : List ClassifiedToken)
    {instances : List Instance} (h : ∀ i ∈ instances, i.IsRenderable records) :
    ∀ i ∈ attachComments tokens instances, i.IsRenderable records := by
  unfold attachComments
  induction PropertyComment.ofTokens tokens generalizing instances with
  | nil => exact h
  | cons c rest ih => exact ih (c.isRenderable_apply h)

/-! ### Conversions -/

namespace Configuration

/-- **Every instance of a conversion can be rendered.** -/
theorem isRenderable_of_read {catalog : Catalog} (hnames : catalog.NamesClasses) {o : ReadOptions}
    {source : Text} {script : Script} (hparse : Script.parse source = .ok script)
    (hkeys : ∀ b ∈ Statement.blocksOf script.statements, ∀ e ∈ b.body.entries,
      isMetadataKey e.key = false)
    {conversion : Conversion} (h : read o catalog.find? source = .ok conversion) :
    ∀ i ∈ conversion.instances, i.IsRenderable o.recordsTypes := by
  unfold read at h
  rw [hparse] at h
  cases hbuilt : Build.ofStatements o catalog.find? script.statements with
  | error e =>
    simp only [Except.mapError, bind, Except.bind, hbuilt] at h
    cases h
  | ok built =>
    simp only [Except.mapError, bind, Except.bind, hbuilt] at h
    obtain rfl := Except.ok.inj h
    have hinstances := Build.isRenderable_of_ofStatements catalog.find?_ignoresCase
      (fun _ _ _ _ hc => hnames.typeName_ne_nil hc)
      (fun b hb => ⟨Script.head_ne_nil hparse hb, hkeys b hb⟩) hbuilt
    dsimp only
    split
    · exact isRenderable_attachComments _ hinstances
    · exact hinstances

/-- **What was converted can be written.**  If blocks record their classes, writing the instances of
a conversion succeeds; otherwise it is refused exactly if some instance has a property that is
written and holds a block, and it succeeds in every other case. -/
theorem write_of_read {json : Text} {catalog : Catalog} (hcatalog : Catalog.read json = .ok catalog)
    {o : ReadOptions} {source : Text} {script : Script} (hparse : Script.parse source = .ok script)
    (hkeys : ∀ b ∈ Statement.blocksOf script.statements, ∀ e ∈ b.body.entries,
      isMetadataKey e.key = false)
    {conversion : Conversion} (hread : read o catalog.find? source = .ok conversion) (n : Nat) :
    (o.recordsTypes = true → ∃ text, write (.whole n) conversion.instances = .ok text) ∧
    (o.recordsTypes = false →
      ((∃ what path, write (.whole n) conversion.instances = .error (.violation what path)) ↔
        ∃ i ∈ conversion.instances, ∃ p ∈ i.properties,
          Render.isWritten (.whole n) p.1 ∧ p.2.holdsBlock) ∧
      ((∃ what path, write (.whole n) conversion.instances = .error (.violation what path)) ∨
        ∃ text, write (.whole n) conversion.instances = .ok text)) := by
  have hrefused := Render.write_refusedIff
    (isRenderable_of_read (Catalog.namesClasses_of_read hcatalog) hparse hkeys hread) n
  constructor
  · intro hrecords
    simp only [hrecords, Bool.true_eq_false, false_and, and_false, exists_false] at hrefused
    rcases hrefused with ⟨h, -⟩ | ⟨-, h⟩
    · exact h.elim
    · exact h
  · intro hrecords
    simp only [hrecords, true_and] at hrefused
    rcases hrefused with ⟨hblock, hviolation⟩ | ⟨hblock, text, htext⟩
    · exact ⟨⟨fun _ => hblock, fun _ => hviolation⟩, Or.inl hviolation⟩
    · refine ⟨⟨?_, fun h => absurd h hblock⟩, Or.inr ⟨text, htext⟩⟩
      rintro ⟨what, path, h⟩
      rw [htext] at h
      cases h

/-- A catalog of one resource, which takes a block of a class. -/
def siteCatalog : Text :=
  "\x7b\"resources\": [\x7b\"name\": \"Site\"," ++
  "\"properties\": [\x7b\"name\": \"Owner\", \"propertyType\": \"[Person]\"\x7d]," ++
  "\"embeddedTypes\": [\x7b\"typeName\": \"Person\"," ++
  "\"properties\": [\x7b\"name\": \"Title\", \"propertyType\": \"[String]\"\x7d]\x7d]\x7d]\x7d"

/-- A configuration with a resource of this catalog. -/
def siteSource : Text :=
  "Configuration C \x7b Node n \x7b Site s \x7b Owner = Person\x7bTitle = 1\x7d # first\n\x7d\x7d\x7d"

theorem write_of_read_site : ∃ catalog script conversion,
    Catalog.read siteCatalog = .ok catalog ∧ Script.parse siteSource = .ok script ∧
      (∀ b ∈ Statement.blocksOf script.statements, ∀ e ∈ b.body.entries,
        isMetadataKey e.key = false) ∧
      read ⟨true, .exact, false, true⟩ catalog.find? siteSource = .ok conversion ∧
      ∃ what path, write (.whole 1) conversion.instances = .error (.violation what path) := by
  have hcatalog : Catalog.read siteCatalog = .ok [⟨"Site", none, none, none,
      [⟨"Owner", "[Person]", false, []⟩], [⟨"Person", [⟨"Title", "[String]", false, []⟩]⟩]⟩] := by
    decide +kernel
  have hkeys : (match Script.parse siteSource with
      | .ok script => (Statement.blocksOf script.statements).all fun b =>
          b.body.entries.all fun e => !isMetadataKey e.key
      | .error _ => false) = true := by
    decide +kernel
  have hblock : (match read ⟨true, .exact, false, true⟩ (Catalog.find? [⟨"Site", none, none, none,
        [⟨"Owner", "[Person]", false, []⟩], [⟨"Person", [⟨"Title", "[String]", false, []⟩]⟩]⟩])
        siteSource with
      | .ok conversion => conversion.instances.any fun i => i.properties.any fun p =>
          Render.isWritten (.whole 1) p.1 && p.2.holdsBlock
      | .error _ => false) = true := by
    decide +kernel
  split at hkeys
  · next script hparse =>
    split at hblock
    · next conversion hread =>
      simp only [List.all_eq_true, Bool.not_eq_true'] at hkeys
      simp only [List.any_eq_true, Bool.and_eq_true] at hblock
      exact ⟨_, script, conversion, hcatalog, hparse, hkeys, hread,
        ((write_of_read hcatalog hparse hkeys hread 1).2 rfl).1.mpr hblock⟩
    · cases hblock
  · cases hkeys

end Configuration

end DesiredState
