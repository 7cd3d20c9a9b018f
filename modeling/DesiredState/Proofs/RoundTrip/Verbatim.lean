/-
Conversion without schemas.

Where no schema is found, every value is kept as its text, whatever statement it is.  The
text states its value, so it may be written as it stands: in the document around the
written instances it is read as the same statement, and since no schema is found there
either, it is kept as the same text.
-/
import DesiredState.Proofs.Conversion
import DesiredState.Proofs.RoundTrip
import DesiredState.Proofs.Script.Entries

namespace DesiredState

/-! ### Properties that are kept as texts -/

/-- A value that is kept as a text, which states some value. -/
def Value.IsVerbatim (x : Value) : Prop := ∃ t s, x = .raw t ∧ t.States s

/-- Properties of a map with words as names, no two of them equal, letter case disregarded, whose
values are kept as texts. -/
structure Fields.AreVerbatim (fields : Fields Value) : Prop where
  words : ∀ name ∈ fields.names, ∃ kind, Token.IsWord kind name
  held : Fields.parentName ∉ fields.names
  distinct : fields.names.Pairwise fun a b => Text.sameName a b = false
  values : ∀ p ∈ fields, p.2.IsVerbatim

theorem Fields.areVerbatim_nil : Fields.AreVerbatim [] :=
  ⟨fun _ h => absurd h List.not_mem_nil, List.not_mem_nil, .nil,
    fun _ h => absurd h List.not_mem_nil⟩

/-- A key that is given a value was there under an earlier spelling or cannot be held, or it comes
last. -/
theorem Fields.names_bind (key : Text) (x : Value) (fields : Fields Value) :
    (fields.bind key x).names = fields.names ∨
      (∀ name ∈ fields.names, Text.sameName name key = false) ∧ key ≠ Fields.parentName ∧
        (fields.bind key x).names = fields.names ++ [key] := by
  cases hfind : fields.names.find? fun name => Text.sameName name key with
  | some name =>
    refine .inl ?_
    rw [Fields.bind, Fields.spelling, hfind, Option.getD_some]
    split
    · rfl
    · rw [Fields.names_set, if_pos (List.mem_of_find?_eq_some hfind)]
  | none =>
    have hnew : ∀ name ∈ fields.names, Text.sameName name key = false := fun name hn =>
      Bool.eq_false_iff.mpr (List.find?_eq_none.mp hfind name hn)
    by_cases hkey : key = Fields.parentName
    · subst hkey
      rw [Binding.bind_parentName x hnew]
      exact .inl rfl
    · refine .inr ⟨hnew, hkey, ?_⟩
      rw [Binding.bind_of_new x hnew hkey]
      simp [Fields.names]

theorem Fields.mem_bind {key : Text} {x : Value} {fields : Fields Value} {p : Text × Value}
    (h : p ∈ fields.bind key x) : p.2 = x ∨ p ∈ fields := by
  unfold Fields.bind at h
  dsimp only at h
  split at h
  · exact .inr h
  · exact (Fields.mem_set h).imp_left fun hp => congrArg Prod.snd hp

theorem Fields.AreVerbatim.bind {fields : Fields Value} (h : fields.AreVerbatim) {key : Text}
    (hkey : ∃ kind, Token.IsWord kind key) {x : Value} (hx : x.IsVerbatim) :
    (fields.bind key x).AreVerbatim := by
  have hvalues : ∀ p ∈ fields.bind key x, p.2.IsVerbatim := by
    intro p hp
    rcases Fields.mem_bind hp with hp | hp
    · rwa [hp]
    · exact h.values p hp
  rcases Fields.names_bind key x fields with hnames | ⟨hnew, hheld, hnames⟩
  · exact ⟨by rw [hnames]; exact h.words, by rw [hnames]; exact h.held,
      by rw [hnames]; exact h.distinct, hvalues⟩
  · refine ⟨?_, ?_, ?_, hvalues⟩
    · rw [hnames]
      intro name hname
      rcases List.mem_append.mp hname with hname | hname
      · exact h.words name hname
      · rw [List.mem_singleton.mp hname]
        exact hkey
    · rw [hnames]
      intro hname
      rcases List.mem_append.mp hname with hname | hname
      · exact h.held hname
      · exact hheld (List.mem_singleton.mp hname).symm
    · rw [hnames, List.pairwise_append]
      refine ⟨h.distinct, List.pairwise_singleton _ _, fun name hname other hother => ?_⟩
      rw [List.mem_singleton.mp hother]
      exact hnew name hname

/-- An instance of which all properties are kept as texts. -/
structure Instance.IsVerbatim (i : Instance) : Prop where
  resourceName : Token.IsWord .bareword i.resourceName
  properties : i.properties.AreVerbatim

/-! ### Blocks of a script

The text of a value was cut out of a script, and where it stood it was one value.  It is
so again between the lines of another script, as it brings along all that it was made
of.
-/

/-- A block whose head and keys are words, and whose values are stated by their texts. -/
structure Block.IsStated (b : Block) : Prop where
  keyword : Token.IsWord .bareword b.keyword
  keys : ∀ e ∈ b.body.entries, ∃ kind, Token.IsWord kind e.key
  values : ∀ e ∈ b.body.entries, e.value.extent.text.States e.value

namespace Piece

/-- A block that was read among the tokens of a source is stated there. -/
theorem isStated_of_readAmong {pieces : List Piece} (h : Lexes pieces [])
    (hopen : ¬ ['<', '#'] <:+: textOf pieces) {item : Item}
    (hitem : Grammar.ReadAmong (textOf pieces) (tokens .start pieces) item) {b : Block}
    (hb : item.statement = .block b) : b.IsStated := by
  obtain ⟨⟨t, ht, hk, hkeyword⟩, list, marks, hentries, hlist⟩ := hitem.block hb
  have hentry : ∀ e ∈ b.body.entries, ∃ key : Token, key ∈ tokens .start pieces ∧
      key.kind.isName ∧ e.key = key.text ∧
      Grammar.ValueAmong (textOf pieces) (tokens .start pieces) e.value := by
    intro e he
    obtain ⟨x, hx, key, hkeyed, hkey⟩ := Grammar.mem_of_entriesOf hentries he
    obtain ⟨hmem, hname, hvalue⟩ := (hlist x hx).keyed hkeyed
    exact ⟨key, hmem, hname, hkey, hvalue⟩
  refine ⟨?_, fun e he => ?_, fun e he => ?_⟩
  · rw [hkeyword, ← hk]
    exact isWord_of_mem h hopen ht (by rw [hk]; rfl)
  · obtain ⟨key, hmem, hname, hkey, -⟩ := hentry e he
    exact ⟨key.kind, hkey ▸ isWord_of_mem h hopen hmem hname⟩
  · obtain ⟨-, -, -, -, hvalue⟩ := hentry e he
    refine states_of_valueAmong h hvalue fun hin => ?_
    exact Text.closesComments_of_not_infix fun hmark => hopen (hmark.trans hin)

end Piece

/-- **The blocks that declare instances in a script are stated in it.** -/
theorem Script.isStated_of_holds {source : Text} {script : Script}
    (hparse : parse source = .ok script) (hopen : ¬ ['<', '#'] <:+: source)
    {c : Build.Configuration} (hc : Build.configuration? script.statements = some c) {s : Statement}
    (hs : c.Holds s) {b : Block} (hb : s = .block b) : b.IsStated := by
  obtain ⟨hunknowns, items, hitems, rfl⟩ := parse_eq_ok_iff.mp hparse
  obtain ⟨pieces, rfl, hlexes, hplace⟩ := Token.exists_pieces hunknowns
  rw [hplace] at hitems
  obtain ⟨item, hitem, hsection⟩ := List.mem_map.mp (Build.mem_of_configuration? hc)
  obtain ⟨list, hbody, hlist⟩ := (Grammar.readAmong_of_script hitems hitem).configuration hsection
  have hread : ∃ x : Item, Grammar.ReadAmong (Piece.textOf pieces) (Piece.tokens .start pieces) x ∧
      x.statement = s := by
    rcases hs with hs | ⟨body, hnode, hs⟩
    · rw [hbody] at hs
      obtain ⟨x, hx, hxs⟩ := List.mem_map.mp hs
      exact ⟨x, hlist x hx, hxs⟩
    · obtain ⟨node, hmem, hfound⟩ := List.mem_filterMap.mp hnode
      rw [hbody] at hmem
      obtain ⟨x, hx, hxs⟩ := List.mem_map.mp hmem
      cases node with
      | node extent target inner =>
        cases hfound
        obtain ⟨more, hinner, hmore⟩ := (hlist x hx).nodeBody hxs
        rw [hinner] at hs
        obtain ⟨y, hy, hys⟩ := List.mem_map.mp hs
        exact ⟨y, hmore y hy, hys⟩
      | _ => cases hfound
  obtain ⟨x, hx, hxs⟩ := hread
  exact Piece.isStated_of_readAmong hlexes hopen hx (hxs.trans hb)

/-! ### Binding without a schema -/

namespace Binding

/-- Properties with the texts of entries behind others. -/
def verbatim (done : Fields Value) (list : List Entry) : Fields Value :=
  list.foldl (fun fields e => fields.bind e.key (.raw e.value.extent.text)) done

/-- Without a schema every entry is kept as its text. -/
theorem entries_none (c : Context) (subject : Subject) (declaredBy : Text) (done : Fields Value)
    (list : List Entry) :
    entries c subject declaredBy none done list = pure (verbatim done list) := by
  induction list generalizing done with
  | nil => rfl
  | cons e rest ih =>
    obtain ⟨key, place, value⟩ := e
    rw [entries]
    exact ih _

theorem areVerbatim_verbatim {list : List Entry}
    (hkeys : ∀ e ∈ list, ∃ kind, Token.IsWord kind e.key)
    (hvalues : ∀ e ∈ list, e.value.extent.text.States e.value) {done : Fields Value}
    (hdone : done.AreVerbatim) : (verbatim done list).AreVerbatim := by
  induction list generalizing done with
  | nil => exact hdone
  | cons e rest ih =>
    refine ih (fun x hx => hkeys x (List.mem_cons_of_mem e hx))
      (fun x hx => hvalues x (List.mem_cons_of_mem e hx)) ?_
    exact hdone.bind (hkeys e List.mem_cons_self)
      ⟨_, e.value, rfl, hvalues e List.mem_cons_self⟩

/-- A statement whose text is that of a value. -/
def HasText (x : Value) (s : Statement) : Prop := x = .raw s.extent.text

/-- Entries with the texts of properties give the properties again. -/
theorem verbatim_of_carried {fields : List (Text × Value)} {list : List Entry}
    (hflat : ∀ p ∈ fields, p.2.isFlat) (hheld : Fields.parentName ∉ Fields.names fields)
    (hcarried : Value.CarriedFields HasText fields list) {done : Fields Value}
    (hnew : (done.names ++ Fields.names fields).Pairwise fun a b => Text.sameName a b = false) :
    verbatim done list = done ++ fields := by
  induction fields generalizing list done with
  | nil =>
    obtain rfl : list = [] := hcarried
    exact (List.append_nil done).symm
  | cons p rest ih =>
    obtain ⟨key, x⟩ := p
    obtain ⟨e, more, rfl, rfl, hx, hmore⟩ := hcarried
    have hkey : ∀ name ∈ done.names, Text.sameName name e.key = false :=
      fun name hn => (List.pairwise_append.mp hnew).2.2 name hn e.key List.mem_cons_self
    have htext : x = .raw e.value.extent.text := by
      have hfirst := hflat _ List.mem_cons_self
      cases x <;> first | exact hx | exact absurd hfirst Bool.false_ne_true
    have hlater : (Fields.names (done ++ [(e.key, x)]) ++ Fields.names rest).Pairwise
        fun a b => Text.sameName a b = false := by
      simpa [Fields.names] using hnew
    have hrest := ih (fun q hq => hflat q (List.mem_cons_of_mem _ hq))
      (fun hmem => hheld (List.mem_cons_of_mem _ hmem)) hmore hlater
    have hparent : e.key ≠ Fields.parentName := fun he => hheld (he ▸ List.mem_cons_self)
    rw [verbatim, List.foldl_cons, ← htext, bind_of_new x hkey hparent]
    exact hrest.trans (by simp)

end Binding

/-! ### Instances without schemas -/

section

variable {lookup : DeclLookup} {scope : ImportScope} {allowed : Diagnostic → Prop}

/-- Work that always succeeds gives what it gives. -/
theorem Building.Gives.ensures {work : Building α} {P : α → Prop}
    (h : Building.Gives lookup scope allowed work P) : Building.Ensures lookup scope work P := by
  intro s hs a after hwork
  obtain ⟨a', after', hwork', hp, hconsults, -⟩ := h s hs
  obtain ⟨rfl, rfl⟩ := Prod.mk.inj (Except.ok.inj (hwork.symm.trans hwork'))
  exact ⟨hp, hconsults⟩

/-- A block of a resource without a schema declares an instance whose properties are the texts of
its entries; that there is no schema is all that is reported. -/
theorem Building.gives_instanceOf_none (hcase : lookup.IgnoresCase) {o : ReadOptions}
    (ho : o.strict = false) {b : Block}
    (hnone : Schema.Resource.found? lookup scope b.keyword = none)
    (hallowed : ∀ d : Diagnostic, d.cause = .unknownResource b.keyword → allowed d)
    (name : Expression) :
    Building.Gives lookup scope allowed (Building.instanceOf o b name) fun i =>
      i.resourceName = b.keyword ∧ i.instanceName = Building.instanceName name ∧
        i.properties = Binding.verbatim [] b.body.entries := by
  have hproperties (subject : Subject) : Interpreting.Gives lookup scope allowed
      (Binding.properties ⟨b.keyword, o.recordsTypes⟩ subject b.keyword
        ((none : Option Schema.Resource).map (·.properties)) b.body)
      (· = Binding.verbatim [] b.body.entries) := by
    rw [Option.map_none, Binding.properties, Binding.entries_none]
    exact Interpreting.Gives.pure rfl
  exact gives_instanceOf (fun subject => gives_schemaOf_none hcase ho hnone hallowed subject)
    hproperties

end

/-- A catalog without resources. -/
theorem Catalog.found?_nil (scope : ImportScope) (name : Text) :
    Schema.Resource.found? (Catalog.find? []) scope name = none := rfl

/-- **Without schemas the instances of a script keep all values as texts.** -/
theorem Build.isVerbatim_of_ofStatements {o : ReadOptions} (ho : o.strict = false) {source : Text}
    {script : Script} (hparse : Script.parse source = .ok script)
    (hopen : ¬ ['<', '#'] <:+: source) {built : Build}
    (h : ofStatements o (Catalog.find? []) script.statements = .ok built) :
    ∀ i ∈ built.instances, i.IsVerbatim := by
  refine all_of_ofStatements (fun c hc s hs b name hdeclared => ?_) h
  have hstated : b.IsStated := by
    cases s with
    | block block =>
      obtain ⟨name', -, heq⟩ := Option.map_eq_some_iff.mp hdeclared
      obtain ⟨rfl, -⟩ := Prod.mk.inj heq
      exact Script.isStated_of_holds hparse hopen hc hs rfl
    | _ => cases hdeclared
  have hgives : Building.Gives (Catalog.find? []) ⟨Import.ofStatements c.body, o.versionRule⟩
      (fun _ => True) (Building.instanceOf o b name) _ :=
    Building.gives_instanceOf_none (Catalog.find?_ignoresCase []) ho (Catalog.found?_nil _ _)
      (fun _ _ => trivial) name
  refine (hgives.mono ?_).ensures
  rintro i ⟨hresource, -, hproperties⟩
  refine ⟨hresource ▸ hstated.keyword, ?_⟩
  rw [hproperties]
  exact Binding.areVerbatim_verbatim hstated.keys hstated.values Fields.areVerbatim_nil

namespace Layout

open Piece

/-! ### Writing texts as they stand

A text that was kept may run over several lines.  It is one piece for the layout, which
neither quotes it nor looks into it.
-/

theorem endsBefore_verbatim {x : Value} (h : x.IsVerbatim) : EndsBefore '\n' x := by
  obtain ⟨t, s, rfl, hstates⟩ := h
  exact fun rest => hstates.lexes (.lineFeed rest)

theorem isFlatRead_verbatim {x : Value} (h : x.IsVerbatim) :
    IsFlatRead Binding.HasText False x := by
  obtain ⟨t, s, rfl, hstates⟩ := h
  intro source start m consumed rest hstands _ hm hends
  refine (hstates.passes hstands hm hends).mono ?_
  rintro v ⟨htext, -⟩
  exact ⟨congrArg Value.raw htext.symm, False.elim⟩

theorem isFlat_of_isVerbatim {x : Value} (h : x.IsVerbatim) : x.isFlat := by
  obtain ⟨t, s, rfl, -⟩ := h
  rfl

theorem hasIntegers_of_isVerbatim {x : Value} (h : x.IsVerbatim) : HasIntegers x := by
  obtain ⟨t, s, rfl, -⟩ := h
  exact trivial

/-- An instance of texts whose names serve as keys is carried by its text. -/
theorem isCarried_of_isVerbatim {i : Instance} (h : i.IsVerbatim)
    (hname : Text.startsWith i.instanceName ['$'] = false) (hkeys : AreKeys i.properties.names) :
    IsCarried Value.IsVerbatim (fun _ => []) i :=
  isCarried_of_areKeys h.resourceName hname hkeys fun p hp =>
    .flat (h.properties.values p hp) (isFlat_of_isVerbatim (h.properties.values p hp))

/-- A block that carries texts gives the instance again, where no schema is found. -/
theorem gives_instanceOf_verbatim {o : ReadOptions} (ho : o.strict = false) {scope : ImportScope}
    {i : Instance} (hkeys : AreKeys i.properties.names) (hflat : ∀ p ∈ i.properties, p.2.isFlat)
    (hheld : Fields.parentName ∉ i.properties.names)
    {block : Block} {extent : Extent} (hkeyword : block.keyword = i.resourceName)
    (hcarried : Value.CarriedFields Binding.HasText i.properties block.body.entries) :
    Building.Gives (Catalog.find? []) scope (fun d => ∃ name, d.cause = .unknownResource name)
      (Building.instanceOf o block (.string extent i.instanceName .double)) (· = i) := by
  refine (Building.gives_instanceOf_none (Catalog.find?_ignoresCase []) ho
    (Catalog.found?_nil _ _) (fun d hd => ⟨_, hd⟩) _).mono ?_
  rintro j ⟨hresource, hname, hproperties⟩
  have hnew : (Fields.names ([] : Fields Value) ++ Fields.names i.properties).Pairwise
      fun a b => Text.sameName a b = false := hkeys.distinct
  rw [Binding.verbatim_of_carried hflat hheld hcarried hnew, List.nil_append] at hproperties
  obtain ⟨resourceName, instanceName, properties⟩ := j
  exact Instance.mk.injEq .. |>.mpr ⟨hresource.trans hkeyword, hname, hproperties⟩

end Layout

namespace Configuration

/-- **Conversion without schemas loses nothing.**  Where no resource has a schema, every value of a
lenient conversion is kept as its text; the instances can be written, and the configuration around
them is converted to the same instances with the same texts, each with its properties in the order
of their keys.  Nothing is reported but that there are no schemas. -/
theorem read_write_verbatim {o : ReadOptions} (hlenient : o.strict = false)
    (hcomments : o.includesComments = false) {source : Text} {conversion : Conversion}
    (hread : read o (Catalog.find? []) source = .ok conversion)
    (hopen : ¬ ['<', '#'] <:+: source)
    (hnames : ∀ i ∈ conversion.instances, Text.startsWith i.instanceName ['$'] = false)
    (hkeys : ∀ i ∈ conversion.instances, ∀ name ∈ i.properties.names,
      isMetadataKey name = false ∧ Text.lower name ∉
        ["resourcename".toList, "resourceinstancename".toList, "ciminstance".toList])
    (n : Nat) :
    (∀ i ∈ conversion.instances, ∀ p ∈ i.properties, ∃ t, p.2 = .raw t) ∧
      ∃ text again, write (.whole n) conversion.instances = .ok text ∧
        read o (Catalog.find? []) (wrapped text) = .ok again ∧
        again.instances = conversion.instances.map Instance.sorted ∧
        ∀ d ∈ again.session.diagnostics, ∃ name, d.cause = .unknownResource name := by
  obtain ⟨script, built, hparse, hbuilt, rfl⟩ : ∃ script built, Script.parse source = .ok script ∧
      Build.ofStatements o (Catalog.find? []) script.statements = .ok built ∧
      conversion = ⟨built.instances, built.session⟩ := by
    obtain ⟨script, built, hparse, hbuilt, hconversion⟩ := built_of_read hread
    rw [hcomments] at hconversion
    exact ⟨script, built, hparse, hbuilt, hconversion⟩
  have hverbatim := Build.isVerbatim_of_ofStatements hlenient hparse hopen hbuilt
  have hareKeys : ∀ i ∈ built.instances, AreKeys i.properties.names := fun i hi =>
    ⟨fun name hname => ⟨(hverbatim i hi).properties.words name hname, (hkeys i hi name hname).1,
      (hkeys i hi name hname).2⟩, (hverbatim i hi).properties.distinct⟩
  have hcarried : ∀ i ∈ built.instances, Layout.IsCarried Value.IsVerbatim (fun _ => []) i :=
    fun i hi => Layout.isCarried_of_isVerbatim (hverbatim i hi) (hnames i hi) (hareKeys i hi)
  obtain ⟨extent, name, inner, target, read, hdeclared, hparse'⟩ :=
    Layout.parse_document
      (Layout.spells_declarations (fun _ hx => Layout.endsBefore_verbatim hx) n hcarried)
      fun i hi => (hcarried i hi).isReadable (fun _ hx => Layout.isFlatRead_verbatim hx) n
  have hinstances : List.Forall₂ (fun s v => ∃ b name, Building.declaration? s = some (b, name) ∧
      Building.Gives (Catalog.find? []) ⟨[], o.versionRule⟩
        (fun d => ∃ name, d.cause = .unknownResource name) (Building.instanceOf o b name)
          fun j => id j = v)
      (read.map (·.statement)) (built.instances.map fun i => id (Layout.laidOut i)) := by
    refine Layout.declares_of_areDeclared id hdeclared ?_
    intro i hi block extent hkeyword hblock
    have hproperties := (hverbatim i hi).properties
    refine Layout.gives_instanceOf_verbatim hlenient (hcarried i hi).keys ?_ ?_ hkeyword hblock
    · intro p hp
      obtain ⟨q, hq, rfl⟩ := Layout.mem_laidOut hp
      rw [Layout.plain_eq_self (hareKeys i hi)] at hq
      rw [Value.isFlat_sorted]
      exact Layout.isFlat_of_isVerbatim (hproperties.values q hq)
    · intro hname
      have hplain := (names_sorted (Layout.plain i.properties)).mem_iff.mp hname
      rw [Layout.plain_eq_self (hareKeys i hi)] at hplain
      exact hproperties.held hplain
  obtain ⟨built', hbuilt', hview, hallowed⟩ := Build.ofStatements_node
    (Building.gives_statements (read.map (·.statement)).length 0 hinstances)
  refine ⟨fun i hi p hp => ?_, _, ⟨built'.instances, built'.session⟩,
    Layout.write_eq (fun _ hx => Layout.hasIntegers_of_isVerbatim hx)
      (fun i hi => (hcarried i hi).writable) n, ?_, ?_, hallowed⟩
  · obtain ⟨t, -, ht, -⟩ := (hverbatim i hi).properties.values p hp
    exact ⟨t, ht⟩
  · rw [read_of_built hparse' hbuilt', hcomments]
    rfl
  · rw [List.map_id] at hview
    refine hview.trans (List.map_congr_left fun i hi => ?_)
    exact Layout.laidOut_of_areKeys (hareKeys i hi)

/-- A configuration whose values are a here-string with a brace, a command with a block over several
lines and a nested assignment. -/
def verbatimSource : Text :=
  "Configuration C\n\x7b\nNode n\n\x7b\nSite \"the first\"\n\x7b\n" ++
  "Text = @'\na \x7d b\n'@\n" ++
  "Owner = Get-Owner -Of x | # all of them\n  Select Name \x7b Title = 1 \x7d\n" ++
  "Count = Total = 1 +\n 2; owner = $x\n\x7d\n\x7d\n\x7d\n"

theorem read_write_verbatim_source : ∃ conversion,
    read .lenient (Catalog.find? []) verbatimSource = .ok conversion ∧
      ¬ ['<', '#'] <:+: verbatimSource ∧
      (∀ i ∈ conversion.instances, Text.startsWith i.instanceName ['$'] = false) ∧
      (∀ i ∈ conversion.instances, ∀ name ∈ i.properties.names,
        isMetadataKey name = false ∧ Text.lower name ∉
          ["resourcename".toList, "resourceinstancename".toList, "ciminstance".toList]) ∧
      conversion.instances ≠ [] ∧
      ∃ text again, write (.whole 1) conversion.instances = .ok text ∧
        read .lenient (Catalog.find? []) (wrapped text) = .ok again ∧
        again.instances = conversion.instances.map Instance.sorted := by
  have hopen : ¬ ['<', '#'] <:+: verbatimSource := by decide +kernel
  have hfound : ∃ conversion ∈ (read .lenient (Catalog.find? []) verbatimSource).toOption,
      (∀ i ∈ conversion.instances, Text.startsWith i.instanceName ['$'] = false) ∧
      (∀ i ∈ conversion.instances, ∀ name ∈ i.properties.names,
        isMetadataKey name = false ∧ Text.lower name ∉
          ["resourcename".toList, "resourceinstancename".toList, "ciminstance".toList]) ∧
      conversion.instances ≠ [] := by
    decide +kernel
  obtain ⟨conversion, hmem, hnames, hkeys, hne⟩ := hfound
  have hread : read .lenient (Catalog.find? []) verbatimSource = .ok conversion := by
    cases hresult : read .lenient (Catalog.find? []) verbatimSource with
    | error e => rw [hresult] at hmem; cases hmem
    | ok found => rw [hresult] at hmem; cases hmem; rfl
  obtain ⟨-, text, again, hwrite, hagain, hinstances, -⟩ :=
    read_write_verbatim rfl rfl hread hopen hnames hkeys 1
  exact ⟨conversion, hread, hopen, hnames, hkeys, hne, text, again, hwrite, hagain, hinstances⟩

end Configuration

end DesiredState
