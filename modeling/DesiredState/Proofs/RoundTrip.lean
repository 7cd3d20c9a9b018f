/-
Reading back what was written.

Instances are written, a configuration is put around them, and this is read.  The text
is known piece by piece, so it is known what it is parsed to and what the statements are
bound to; if every value fits its declaration, these are the instances again, each with
its properties in the order of their keys, but for what maps do not hold.
-/
import DesiredState.Proofs.Building

namespace DesiredState

/-- An instance with other values in place of those without blocks. -/
def Instance.mapLeaves (f : Value → Value) (i : Instance) : Instance :=
  { i with properties := Value.mapFields f i.properties }

/-- An instance without the properties that a map would not hold, at every depth. -/
def Instance.kept (i : Instance) : Instance :=
  { i with properties := Value.keptFields i.properties }

theorem Instance.kept_eq_self_iff {i : Instance} :
    i.kept = i ↔ Value.keptFields i.properties = i.properties := by
  obtain ⟨resourceName, instanceName, properties⟩ := i
  rw [Instance.kept, Instance.mk.injEq]
  simp only [true_and]

/-- Nothing is lost of an instance if and only if nothing is lost of it sorted. -/
theorem Instance.kept_sorted_iff (i : Instance) : i.sorted.kept = i.sorted ↔ i.kept = i := by
  rw [kept_eq_self_iff, kept_eq_self_iff, Instance.sorted, Value.keptFields_sortByKey_iff,
    Value.keptFields_sorted_iff]

namespace Layout

open Piece Grammar Reading Cursor

section

variable {leaf : Value → Prop} {stated : Value → Statement → Prop} {quiet : Prop}

/-- What the blocks of instances need in order to be read. -/
structure Spelt (leaf : Value → Prop) (notes : Text → List Piece) (i : Instance) : Prop where
  resourceName : Token.IsWord .bareword i.resourceName
  keys : AreKeys i.properties.names
  shaped : ∀ p ∈ i.properties, p.2.IsShaped leaf
  noted : ∀ p ∈ i.properties, AreNotes (notes p.1)
  spaces : ∀ p ∈ i.properties, p.2.isFlat → notes p.1 ≠ [] → EndsBefore ' ' p.2

/-- What it takes to write an instance with its comments and to read it again. -/
structure IsCarried (leaf : Value → Prop) (notes : Text → List Piece) (i : Instance) : Prop where
  resourceName : Token.IsWord .bareword i.resourceName
  instanceName : Text.startsWith i.instanceName ['$'] = false
  names : i.properties.names.Nodup
  areKeys : AreKeys (plain i.properties).names
  shaped : ∀ p ∈ plain i.properties, p.2.IsShaped leaf
  commented : ∀ p ∈ plain i.properties, NotesOf i.properties notes p.1
  noted : ∀ p ∈ plain i.properties, AreNotes (notes p.1)
  spaces : ∀ p ∈ plain i.properties, p.2.isFlat → notes p.1 ≠ [] → EndsBefore ' ' p.2

variable {notes : Text → List Piece} {i : Instance}

theorem mem_laidOut {p : Text × Value} (h : p ∈ (laidOut i).properties) :
    ∃ q ∈ plain i.properties, p = (q.1, q.2.sorted) := mem_sorted h

theorem IsCarried.writable (h : IsCarried leaf notes i) : IsWritable leaf notes i where
  resourceName := ⟨.bareword, h.resourceName⟩
  instanceName := h.instanceName
  names := h.names
  isKey := fun _ hp => h.areKeys.of_mem hp
  shaped := fun p hp => (h.shaped p hp).isShapedOf
  notes := h.commented

theorem IsCarried.keys (h : IsCarried leaf notes i) : AreKeys (laidOut i).properties.names :=
  h.areKeys.perm (names_sorted (plain i.properties))

theorem IsCarried.spelt (h : IsCarried leaf notes i) : Spelt leaf notes (laidOut i) where
  resourceName := h.resourceName
  keys := h.keys
  shaped := by
    intro p hp
    obtain ⟨q, hq, rfl⟩ := mem_laidOut hp
    exact (h.shaped q hq).sorted
  noted := by
    intro p hp
    obtain ⟨q, hq, rfl⟩ := mem_laidOut hp
    exact h.noted q hq
  spaces := by
    intro p hp hflat hnotes
    obtain ⟨q, hq, rfl⟩ := mem_laidOut hp
    have hq' : q.2.isFlat := by
      rw [← Value.isFlat_sorted]
      exact hflat
    rw [Value.sorted_of_isFlat hq']
    exact h.spaces q hq hq' hnotes

theorem Spelt.isSpellable (h : Spelt leaf notes i) : IsSpellable leaf notes i where
  resourceName := ⟨.bareword, h.resourceName⟩
  isKey := fun _ hp => h.keys.of_mem hp
  shaped := fun p hp => (h.shaped p hp).isShapedOf
  noted := fun p hp => (h.noted p hp).fitsLine
  spaces := h.spaces

theorem IsCarried.isReadable (h : IsCarried leaf notes i)
    (hread : ∀ x, leaf x → IsFlatRead stated quiet x) (n : Nat) :
    IsReadable stated quiet n notes (laidOut i) where
  resourceName := h.resourceName
  keys := fun _ hp => h.keys.of_mem hp
  values := fun p hp => isRead_of_isShaped hread (h.spelt.shaped p hp) n (h.spelt.noted p hp)

/-- The blocks of instances are read piece by piece. -/
theorem spells_of_isSpellable (hends : ∀ x, leaf x → EndsBefore '\n' x) (n : Nat)
    {notes : Instance → Text → List Piece} {instances : List Instance}
    (h : ∀ i ∈ instances, IsSpellable leaf (notes i) (laidOut i)) (rest : Text) :
    Spells (declarations n notes instances) rest := by
  induction instances with
  | nil => trivial
  | cons i instances ih =>
    rw [declarations_cons, spells_append]
    exact ⟨spells_declaration hends (h i List.mem_cons_self) n _,
      ih fun j hj => h j (List.mem_cons_of_mem i hj)⟩

theorem spells_declarations (hends : ∀ x, leaf x → EndsBefore '\n' x) (n : Nat)
    {notes : Instance → Text → List Piece} {instances : List Instance}
    (h : ∀ i ∈ instances, IsCarried leaf (notes i) i) (rest : Text) :
    Spells (declarations n notes instances) rest :=
  spells_of_isSpellable hends n (fun i hi => (h i hi).spelt.isSpellable) rest

/-- What a document is built from is what was declared. -/
theorem declares_of_areDeclared (view : Instance → β) {n : Nat}
    {notes : Instance → Text → List Piece} {instances : List Instance} {start : Position}
    {read : List Item} (hread : AreDeclared stated quiet n notes start instances read)
    {gives : Block → Expression → β → Prop}
    (h : ∀ i ∈ instances, ∀ block extent, block.keyword = i.resourceName →
      Value.CarriedFields stated (laidOut i).properties block.body.entries →
        gives block (.string extent i.instanceName .double) (view (laidOut i))) :
    List.Forall₂ (fun s v => ∃ b name, Building.declaration? s = some (b, name) ∧ gives b name v)
      (read.map (·.statement)) (instances.map fun i => view (laidOut i)) := by
  induction instances generalizing start read with
  | nil =>
    obtain rfl : read = [] := hread
    exact .nil
  | cons i instances ih =>
    obtain ⟨item, block, more, rfl, hitem, hmore⟩ := hread
    obtain ⟨extent, hname⟩ := hitem.name
    refine .cons ⟨block, _, ?_, h i List.mem_cons_self block extent hitem.keyword hitem.carried⟩
      (ih hmore fun j hj => h j (List.mem_cons_of_mem i hj))
    simp only [hitem.statement, Building.declaration?, hname]
    rfl

variable {lookup : DeclLookup} {allowed : Diagnostic → Prop} {f : Value → Value}

/-- An instance whose properties are declared and fit. -/
def IsDeclaredBy (leaf : Value → Prop) (lookup : DeclLookup) (scope : ImportScope)
    (resourceName : Text) (properties : Fields Value) : Prop :=
  ∃ schema, Schema.Resource.found? lookup scope resourceName = some schema ∧
    Value.FitFields leaf (some schema) schema.properties properties

theorem IsDeclaredBy.laidOut {scope : ImportScope}
    (h : IsDeclaredBy leaf lookup scope i.resourceName (plain i.properties)) :
    IsDeclaredBy leaf lookup scope i.resourceName (laidOut i).properties := by
  obtain ⟨schema, hfound, hfields⟩ := h
  refine ⟨schema, hfound, Value.fitFields_iff.mpr ?_⟩
  intro p hp
  exact Value.fitFields_iff.mp hfields.sorted p (Text.mem_sortByKey.mp hp)

/-- A block that carries properties which fit gives what is held of the instance. -/
theorem gives_instanceOf_carried (hcase : lookup.IgnoresCase) {o : ReadOptions}
    (ho : o.recordsTypes = true)
    (hbinds : ∀ owner, Binding.BindsLeaves lookup ⟨[], o.versionRule⟩ allowed owner leaf stated f)
    {i : Instance} {block : Block} {extent : Extent} (hkeyword : block.keyword = i.resourceName)
    (hkeys : AreKeys i.properties.names)
    (hfits : IsDeclaredBy leaf lookup ⟨[], o.versionRule⟩ i.resourceName i.properties)
    (hcarried : Value.CarriedFields stated i.properties block.body.entries) :
    Building.Gives lookup ⟨[], o.versionRule⟩ allowed
      (Building.instanceOf o block (.string extent i.instanceName .double))
      fun j => j.mapLeaves f = i.kept.mapLeaves f := by
  obtain ⟨schema, hfound, hfields⟩ := hfits
  rw [← hkeyword] at hfound
  have hnew : (Fields.names ([] : Fields Value) ++ Fields.names i.properties).Pairwise
      fun a b => Text.sameName a b = false := hkeys.distinct
  rw [← hfound] at hfields
  have hentries := fun subject => Binding.gives_entries hcase (hbinds block.keyword) hfields hcarried
    subject block.keyword hnew
  rw [← ho] at hentries
  refine (Building.gives_instanceOf (Building.gives_schemaOf hcase o hfound) hentries).mono ?_
  rintro j ⟨hresource, hname, more, hproperties, hmore⟩
  obtain ⟨resourceName, instanceName, properties⟩ := j
  rw [List.nil_append] at hproperties
  subst hproperties
  rw [Instance.mapLeaves, Instance.mapLeaves, Instance.kept, hmore]
  exact congrArg₂ (fun r m => Instance.mk r m _) (hresource.trans hkeyword) hname

/-- **What is written is parsed, and built to what is held of it.** -/
theorem built_of_write (hcase : lookup.IgnoresCase) {o : ReadOptions} (ho : o.recordsTypes = true)
    (hnumbers : ∀ x, leaf x → HasIntegers x) (hends : ∀ x, leaf x → EndsBefore '\n' x)
    (hread : ∀ x, leaf x → IsFlatRead stated quiet x)
    (hbinds : ∀ owner, Binding.BindsLeaves lookup ⟨[], o.versionRule⟩ allowed owner leaf stated f)
    {n : Nat} {notes : Instance → Text → List Piece} {instances : List Instance}
    (h : ∀ i ∈ instances, IsCarried leaf (notes i) i)
    (hfits : ∀ i ∈ instances,
      IsDeclaredBy leaf lookup ⟨[], o.versionRule⟩ i.resourceName (plain i.properties)) :
    ∃ text script built read, Configuration.write (.whole n) instances = .ok text ∧
      Script.parse (Configuration.wrapped text) = .ok script ∧
      Build.ofStatements o lookup script.statements = .ok built ∧
      (built.instances.map (Instance.mapLeaves f) =
        instances.map fun i => (laidOut i).kept.mapLeaves f) ∧
      (∀ d ∈ built.session.diagnostics, allowed d) ∧
      AreDeclared stated quiet n notes blocksPlace instances read ∧
      script.tokens = Script.streamOf (read.flatMap (·.marks))
        (place .start (document (declarations n notes instances))) := by
  obtain ⟨extent, name, inner, target, read, hdeclared, hparse⟩ :=
    parse_document (spells_declarations hends n h) fun i hi => (h i hi).isReadable hread n
  have hinstances : List.Forall₂ (fun s v => ∃ b name, Building.declaration? s = some (b, name) ∧
      Building.Gives lookup ⟨[], o.versionRule⟩ allowed (Building.instanceOf o b name)
        fun j => j.mapLeaves f = v)
      (read.map (·.statement)) (instances.map fun i => (laidOut i).kept.mapLeaves f) := by
    refine declares_of_areDeclared (fun i => i.kept.mapLeaves f) hdeclared ?_
    intro i hi block extent hkeyword hcarried
    exact gives_instanceOf_carried (i := laidOut i) hcase ho hbinds hkeyword (h i hi).keys
      (hfits i hi).laidOut hcarried
  obtain ⟨built, hbuilt, hview, hallowed⟩ := Build.ofStatements_node
    (Building.gives_statements (read.map (·.statement)).length 0 hinstances)
  exact ⟨_, _, built, read, write_eq hnumbers (fun i hi => (h i hi).writable) n, hparse, hbuilt,
    hview, hallowed, hdeclared, rfl⟩

end

/-- Instances without comments. -/
theorem isCarried_of_areKeys {leaf : Value → Prop} {i : Instance}
    (hresource : Token.IsWord .bareword i.resourceName)
    (hname : Text.startsWith i.instanceName ['$'] = false) (hkeys : AreKeys i.properties.names)
    (hshaped : ∀ p ∈ i.properties, p.2.IsShaped leaf) :
    IsCarried leaf (fun _ => []) i := by
  have hplain := plain_eq_self hkeys
  refine ⟨hresource, hname, nodup_of_areKeys hkeys, ?_, ?_, ?_, ?_, ?_⟩
  · rw [hplain]
    exact hkeys
  · rw [hplain]
    exact hshaped
  · exact fun p _ => notesOf_of_isKey (fun _ hq => hkeys.of_mem hq) p.1
  · exact fun _ _ => areNotes_nil
  · exact fun _ _ _ h => absurd rfl h

theorem laidOut_of_areKeys {i : Instance} (h : AreKeys i.properties.names) :
    laidOut i = i.sorted := by
  rw [laidOut, plain_eq_self h]

/-- Of an instance of which nothing is lost, nothing is lost when it is laid out. -/
theorem kept_laidOut {i : Instance} (h : i.kept = i) : (laidOut i).kept = laidOut i := by
  have hall := Value.keptFields_eq_self_iff.mp (Instance.kept_eq_self_iff.mp h)
  refine (Instance.kept_sorted_iff _).mpr (Instance.kept_eq_self_iff.mpr ?_)
  exact Value.keptFields_eq_self_iff.mpr fun p hp => hall p ((List.mem_filter.mp hp).1)

end Layout

/-! ### Canonical instances

These are the instances that a text can carry: their names are words of the grammar,
their values are of the declared kinds, and no string goes out without quotes.
-/

/-- An instance of a resource of a catalog: its properties are declared, and their values, literals
and blocks of the declared classes, are of the declared kinds. -/
structure Instance.IsCanonical (catalog : Catalog) (i : Instance) : Prop where
  resourceName : Token.IsWord .bareword i.resourceName
  /-- A name that starts like a variable may be written as one. -/
  instanceName : Text.startsWith i.instanceName ['$'] = false
  keys : AreKeys i.properties.names
  declared : Layout.IsDeclaredBy Value.IsLiteral catalog.find? .everything i.resourceName
    i.properties

theorem Instance.mapLeaves_id (i : Instance) : i.mapLeaves id = i := by
  rw [Instance.mapLeaves, Value.mapFields_id]

/-- An instance of a catalog is carried by its text. -/
theorem Instance.IsCanonical.isCarried {catalog : Catalog} {i : Instance}
    (h : i.IsCanonical catalog) : Layout.IsCarried Value.IsLiteral (fun _ => []) i := by
  obtain ⟨schema, -, hfields⟩ := h.declared
  exact Layout.isCarried_of_areKeys h.resourceName h.instanceName h.keys hfields.isShaped

/-- A resource with a text, numbers and a block. -/
def ResourceDecl.sample : ResourceDecl where
  name := "Site"
  moduleName := none
  moduleVersion := none
  friendlyName := none
  properties := [
    ⟨"Contents", "[String]", false, []⟩,
    ⟨"Ports", "[Int32[]]", false, []⟩,
    ⟨"Owner", "[Person]", false, []⟩]
  embeddedTypes := [⟨"Person", [⟨"Title", "[String]", false, []⟩]⟩]

/-- An instance of the sample resource. -/
def Instance.sample : Instance where
  resourceName := "Site"
  instanceName := "the \"first\""
  properties := [
    ("Ports".toList, .integerArray [.ofInt 80, .ofInt (-1)]),
    ("Owner".toList, .subObject ⟨some "Person".toList, [("Title".toList, .string "a\n\x7d# $b`")]⟩),
    ("Contents".toList, .string "")]

theorem areKeys_sample : AreKeys Instance.sample.properties.names where
  isKey := by
    intro name hname
    have hmem : name ∈ ["Ports".toList, "Owner".toList, "Contents".toList] := hname
    simp only [List.mem_cons, List.not_mem_nil, or_false] at hmem
    obtain rfl | rfl | rfl := hmem <;>
      exact ⟨⟨.bareword, by decide +kernel⟩, by decide +kernel, by decide +kernel⟩
  distinct := by decide +kernel

theorem isDeclaredBy_sample : Layout.IsDeclaredBy Value.IsLiteral (Catalog.find? [.sample])
    .everything Instance.sample.resourceName Instance.sample.properties := by
  have hports : ∀ x ∈ [Binary64.ofInt 80, .ofInt (-1)], x.IsSafe := by
    intro x hx
    simp only [List.mem_cons, List.not_mem_nil, or_false] at hx
    obtain rfl | rfl := hx
    · exact ⟨80, by decide, rfl⟩
    · exact ⟨-1, by decide, rfl⟩
  have hkeys : AreKeys (Fields.names [("Title".toList, Value.string "a\n\x7d# $b`")]) := by
    refine ⟨?_, List.pairwise_singleton _ _⟩
    intro name hname
    rw [List.mem_singleton.mp hname]
    exact ⟨⟨.bareword, by decide +kernel⟩, by decide +kernel, by decide +kernel⟩
  have hplain : Text.IsPlain "a\n\x7d# $b`" ∧ Text.IsPlain "" := by
    unfold Text.IsPlain
    decide +kernel
  refine ⟨.ofDecl .sample, by decide +kernel, ⟨_, rfl, rfl, hports⟩, ⟨_, rfl, rfl, ?_⟩,
    ⟨_, rfl, rfl, hplain.2⟩, trivial⟩
  exact ⟨⟨"Person", [⟨"Title", .string, false, []⟩]⟩, rfl, by decide +kernel, rfl, hkeys,
    ⟨_, rfl, rfl, hplain.1⟩, trivial⟩

theorem isCanonical_sample : Instance.sample.IsCanonical [.sample] :=
  ⟨by decide +kernel, by decide, areKeys_sample, isDeclaredBy_sample⟩

/-- A resource with a property that is called by the name of a parent. -/
def ResourceDecl.parented : ResourceDecl where
  name := "Site"
  moduleName := none
  moduleVersion := none
  friendlyName := none
  properties := [⟨Fields.parentName, "[String]", false, []⟩]
  embeddedTypes := []

/-- An instance of it. -/
def Instance.parented : Instance where
  resourceName := "Site"
  instanceName := "f"
  properties := [(Fields.parentName, .string "x")]

theorem areKeys_parented : AreKeys Instance.parented.properties.names where
  isKey := by
    intro name hname
    obtain rfl : name = Fields.parentName := List.mem_singleton.mp hname
    exact ⟨⟨.bareword, by decide +kernel⟩, by decide +kernel, by decide +kernel⟩
  distinct := List.pairwise_singleton _ _

theorem isDeclaredBy_parented : Layout.IsDeclaredBy Value.IsLiteral (Catalog.find? [.parented])
    .everything Instance.parented.resourceName Instance.parented.properties := by
  have hplain : Text.IsPlain "x" := ⟨by decide +kernel, by decide +kernel⟩
  exact ⟨.ofDecl .parented, by decide +kernel, ⟨_, rfl, rfl, hplain⟩, trivial⟩

theorem isCanonical_parented : Instance.parented.IsCanonical [.parented] :=
  ⟨by decide +kernel, by decide, areKeys_parented, isDeclaredBy_parented⟩

namespace Configuration

theorem read_of_built {o : ReadOptions} {lookup : DeclLookup} {source : Text} {script : Script}
    {built : Build} (hparse : Script.parse source = .ok script)
    (hbuilt : Build.ofStatements o lookup script.statements = .ok built) :
    read o lookup source = .ok ⟨if o.includesComments then
      attachComments script.tokens built.instances else built.instances, built.session⟩ := by
  unfold read
  rw [hparse]
  change ((Build.ofStatements o lookup script.statements).mapError ReadError.build).bind _ = _
  rw [hbuilt]
  rfl

/-- What is read was parsed and built. -/
theorem built_of_read {o : ReadOptions} {lookup : DeclLookup} {source : Text}
    {conversion : Conversion} (h : read o lookup source = .ok conversion) :
    ∃ script built, Script.parse source = .ok script ∧
      Build.ofStatements o lookup script.statements = .ok built ∧
      conversion = ⟨if o.includesComments then
        attachComments script.tokens built.instances else built.instances, built.session⟩ := by
  unfold read at h
  cases hparse : Script.parse source with
  | error e =>
    rw [hparse] at h
    cases h
  | ok script =>
    rw [hparse] at h
    cases hbuilt : Build.ofStatements o lookup script.statements with
    | error e =>
      simp only [Except.mapError, bind, Except.bind, hbuilt] at h
      cases h
    | ok built =>
      simp only [Except.mapError, bind, Except.bind, hbuilt] at h
      exact ⟨script, built, rfl, hbuilt, (Except.ok.inj h).symm⟩

/-- **Canonical instances are read back as maps hold them**, each with its properties in the
order of their keys, and nothing is reported; they are read back as they were written exactly if
no property, at any depth, is called by the name of a parent. -/
theorem read_write (catalog : Catalog) (n : Nat) {instances : List Instance}
    (h : ∀ i ∈ instances, i.IsCanonical catalog) :
    ∃ text conversion, write (.whole n) instances = .ok text ∧
      read .lenient catalog.find? (wrapped text) = .ok conversion ∧
      (conversion.instances = instances.map Instance.sorted ↔ ∀ i ∈ instances, i.kept = i) ∧
      conversion.instances = instances.map (fun i => i.sorted.kept) ∧
      conversion.session.diagnostics = [] := by
  have hfits : ∀ i ∈ instances, Layout.IsDeclaredBy Value.IsLiteral catalog.find? .everything
      i.resourceName (Layout.plain i.properties) := by
    intro i hi
    rw [Layout.plain_eq_self (h i hi).keys]
    exact (h i hi).declared
  have hread : ∀ x, Value.IsLiteral x → Layout.IsFlatRead Value.Stated False x :=
    fun _ hx => Layout.isFlatRead_literal hx
  have hbinds : ∀ owner, Binding.BindsLeaves catalog.find? .everything (fun _ => False) owner
      Value.IsLiteral Value.Stated id := fun _ => Binding.bindsLeaves_literal id
  obtain ⟨text, script, built, -, hwrite, hparse, hbuilt, hview, hallowed, -, -⟩ :=
    Layout.built_of_write (o := .lenient) (n := n) catalog.find?_ignoresCase rfl
      (fun _ hx => Layout.hasIntegers_literal hx)
      (fun _ hx => Layout.endsBefore_literal hx (by decide)) hread hbinds
      (fun i hi => (h i hi).isCarried) hfits
  have hinstances : built.instances = instances.map fun i => i.sorted.kept := by
    rw [List.map_congr_left fun i _ => Instance.mapLeaves_id i, List.map_id'] at hview
    rw [hview]
    refine List.map_congr_left ?_
    intro i hi
    rw [Instance.mapLeaves_id, Layout.laidOut_of_areKeys (h i hi).keys]
  refine ⟨text, ⟨built.instances, built.session⟩, hwrite, read_of_built hparse hbuilt, ?_,
    hinstances, ?_⟩
  · change built.instances = _ ↔ _
    rw [hinstances, List.map_inj_left]
    exact forall₂_congr fun i _ => Instance.kept_sorted_iff i
  · rw [List.eq_nil_iff_forall_not_mem]
    exact hallowed

theorem read_write_sample :
    Instance.sample.IsCanonical [.sample] ∧
      ∃ text conversion, write (.whole 2) [.sample] = .ok text ∧
        read .lenient (Catalog.find? [.sample]) (wrapped text) = .ok conversion ∧
        conversion.instances = [Instance.sample.sorted] ∧
        conversion.session.diagnostics = [] := by
  obtain ⟨text, conversion, hwrite, hread, hall, -, hdiagnostics⟩ :=
    read_write [.sample] 2 fun _ hi => List.mem_singleton.mp hi ▸ isCanonical_sample
  have hkept : ∀ i ∈ [Instance.sample], i.kept = i := fun _ hi => List.mem_singleton.mp hi ▸ rfl
  exact ⟨isCanonical_sample, text, conversion, hwrite, hread, hall.mpr hkept, hdiagnostics⟩

/-- A property that is called by the name of a parent is not read back. -/
theorem read_write_parented :
    ¬ ∀ (catalog : Catalog) (n : Nat) (instances : List Instance),
      (∀ i ∈ instances, i.IsCanonical catalog) →
      ∃ text conversion, write (.whole n) instances = .ok text ∧
        read .lenient catalog.find? (wrapped text) = .ok conversion ∧
        conversion.instances = instances.map Instance.sorted ∧
        conversion.session.diagnostics = [] := by
  intro h
  obtain ⟨text, conversion, hwrite, hread, hinstances, -⟩ := h [.parented] 2 [.parented]
    fun i hi => List.mem_singleton.mp hi ▸ isCanonical_parented
  have hnames : ((write (.whole 2) [.parented]).toOption.bind fun text =>
      (read .lenient (Catalog.find? [.parented]) (wrapped text)).toOption.map
        fun conversion => conversion.instances.map fun i => i.properties.names) = some [[]] := by
    decide +kernel
  simp only [hwrite, hread, hinstances, Except.toOption, Option.bind_some, Option.map_some]
    at hnames
  exact absurd hnames (by decide)

end Configuration

end DesiredState
