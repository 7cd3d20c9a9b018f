/-
What the options of a reading change.

Two options decide what an instance is to hold beside the values of its properties: the
names of the classes of blocks, and comments.  Either of them only adds.  With the names
left out, the instances are what remains of the others when the names are taken away,
and what remains cannot be told apart from a record without names.  With comments left
out, they are what remains when the keys of comments are taken away, if the source has
no such keys of its own.
-/
import DesiredState.Proofs.Building.Outcome
import DesiredState.Proofs.Conversion
import DesiredState.Value.Record

namespace DesiredState

/-! ### Records -/

mutual

/-- Where no class is named, it makes no difference whether names are asked for. -/
theorem Value.toRecord_untagged (tagged : Bool) (x : Value) :
    x.untagged.toRecord tagged = x.toRecord false := by
  match x with
  | .subObject block =>
    rw [Value.untagged, Value.toRecord, Value.toRecord]
    exact block.toRecord_untagged tagged
  | .subObjectArray blocks =>
    rw [Value.untagged, Value.toRecord, Value.toRecord, SubObject.toRecords_untagged]
  | .string _ | .integer _ | .boolean _ | .stringArray _ | .integerArray _ | .raw _ =>
    rw [Value.untagged.eq_def]
    simp only [Value.toRecord]

theorem SubObject.toRecord_untagged (tagged : Bool) (block : SubObject) :
    block.untagged.toRecord tagged = block.toRecord false := by
  match block with
  | ⟨typeName, properties⟩ =>
    rw [SubObject.untagged, SubObject.toRecord, SubObject.toRecord.eq_def,
      Value.toFields_untagged tagged properties]
    cases typeName with
    | none => rfl
    | some name => cases name <;> rfl

theorem SubObject.toRecords_untagged (tagged : Bool) (blocks : List SubObject) :
    SubObject.toRecords tagged (SubObject.untaggedAll blocks) =
      SubObject.toRecords false blocks := by
  match blocks with
  | [] => rfl
  | block :: rest =>
    rw [SubObject.untaggedAll, SubObject.toRecords, SubObject.toRecords,
      block.toRecord_untagged tagged, SubObject.toRecords_untagged tagged rest]

theorem Value.toFields_untagged (tagged : Bool) (fields : List (Text × Value)) :
    Value.toFields tagged (Value.untaggedFields fields) = Value.toFields false fields := by
  match fields with
  | [] => rfl
  | (name, value) :: rest =>
    rw [Value.untaggedFields, Value.toFields, Value.toFields, value.toRecord_untagged tagged,
      Value.toFields_untagged tagged rest]

end

/-- The record of an instance that names no classes is the one that shows none. -/
theorem Instance.toRecord_untagged (tagged : Bool) (i : Instance) :
    i.untagged.toRecord tagged = i.toRecord false := by
  unfold toRecord untagged
  rw [Value.toFields_untagged]

/-! ### Names of classes

Whether classes are named is asked for where a block is closed, when everything in it
has been read.  So the two builds take the same steps, and the names can be taken away
afterwards.
-/

namespace Building

variable {o : ReadOptions}

theorem declared_untagged (b : Block) (name : Expression) (schema : Option Schema.Resource) :
    declared { o with recordsTypes := false } b name schema =
      ((declared o b name schema).1.untagged, (declared o b name schema).2) := by
  unfold declared
  rw [@Binding.bound_untagged b.keyword schema o.recordsTypes]
  simp only [Instance.untagged, Value.untaggedFields_eq, List.length_map]

theorem statement_untagged (st : Statement) (s : Session) :
    statement { o with recordsTypes := false } st s =
      (statement o st s).map fun r => (r.1.map Instance.untagged, r.2) := by
  cases hst : declaration? st with
  | none =>
    rw [statement_of_other hst, statement_of_other hst]
    rfl
  | some found =>
    obtain ⟨b, name⟩ := found
    by_cases hnone : (o.strict && (s.memo.resolve b.keyword).1.isNone) = true
    · rw [statement_of_unresolved (o := o) hst hnone,
        statement_of_unresolved (o := { o with recordsTypes := false }) hst hnone]
      rfl
    · have hsome := Bool.eq_false_iff.mpr hnone
      rw [statement_of_declaration (o := o) hst hsome,
        statement_of_declaration (o := { o with recordsTypes := false }) hst hsome,
        declared_untagged]
      rfl

/-- The run over the statements, by induction on them. -/
theorem statements_untagged (total : Nat) (list : List Statement) (before : Nat) (s : Session) :
    statements { o with recordsTypes := false } total before list s =
      (statements o total before list s).map fun r => (r.1.map Instance.untagged, r.2) := by
  induction list generalizing before s with
  | nil => rfl
  | cons st rest ih =>
    rw [statements_cons, statements_cons, statement_untagged]
    cases statement o st s with
    | error e => rfl
    | ok first =>
      simp only [Except.map, Except.bind, ih]
      cases statements o total (before + 1) rest
          ⟨first.2.memo, first.2.events ++ [.processed (before + 1) total]⟩ with
      | error e => rfl
      | ok more =>
        simp only [List.map_append]
        cases first.1 <;> rfl

end Building

namespace Build

/-- What is built without the names of classes is what is built with them, but for the names. -/
theorem ofStatements_untagged (o : ReadOptions) (lookup : DeclLookup) (script : List Statement) :
    ofStatements { o with recordsTypes := false } lookup script =
      (ofStatements o lookup script).map fun built =>
        { built with instances := built.instances.map Instance.untagged } := by
  unfold ofStatements
  cases configuration? script with
  | none => rfl
  | some c =>
    simp only []
    have hdeclaring (s : Session) :
        declaringStatements { o with recordsTypes := false } c s = declaringStatements o c s := rfl
    cases hlist : declaringStatements o c
        (.new (.new lookup ⟨Import.ofStatements c.body, o.versionRule⟩)) with
    | error e =>
      rw [Building.bind_of_error hlist, Building.bind_of_error ((hdeclaring _).trans hlist)]
      rfl
    | ok found =>
      rw [Building.bind_of_ok hlist, Building.bind_of_ok ((hdeclaring _).trans hlist),
        Building.statements_untagged]
      cases Building.statements o found.1.length 0 found.1 found.2 <;> rfl

end Build

namespace PropertyComment

/-- A comment goes to the same property whether classes are named or not. -/
theorem addTo_untagged (c : PropertyComment) (i : Instance) :
    c.addTo i.untagged = (c.addTo i).untagged := by
  have hkey : c.key? i.untagged = c.key? i := by
    unfold key? Instance.untagged
    rw [Value.untaggedFields_eq, Fields.names_map]
  unfold addTo
  rw [hkey]
  split
  · rfl
  · rfl
  · next key _ _ =>
    unfold Instance.untagged
    rw [Value.untaggedFields_eq, Value.untaggedFields_eq, ← Fields.set_map]
    rfl

theorem apply_untagged (c : PropertyComment) (instances : List Instance) :
    c.apply (instances.map Instance.untagged) = (c.apply instances).map Instance.untagged := by
  induction instances with
  | nil => rfl
  | cons i rest ih =>
    have his : c.isOf i.untagged = c.isOf i := rfl
    rw [List.map_cons, apply, apply, his, addTo_untagged, ih]
    by_cases h : c.isOf i
    · rw [if_pos h, if_pos h]
      rfl
    · rw [if_neg h, if_neg h]
      rfl

end PropertyComment

theorem attachComments_untagged (tokens : List ClassifiedToken) (instances : List Instance) :
    attachComments tokens (instances.map Instance.untagged) =
      (attachComments tokens instances).map Instance.untagged := by
  unfold attachComments
  induction PropertyComment.ofTokens tokens generalizing instances with
  | nil => rfl
  | cons c rest ih => rw [List.foldl_cons, List.foldl_cons, c.apply_untagged, ih]

/-! ### Comments

A comment is kept under a key of its own, so that taking it away again is a filter on
names.  That nothing else is under such a key has to be known of the blocks of the
source.
-/

/-- Building takes no notice of whether comments are to be attached. -/
theorem Build.ofStatements_comments (o : ReadOptions) (comments : Bool) (lookup : DeclLookup)
    (script : List Statement) :
    ofStatements { o with includesComments := comments } lookup script =
      ofStatements o lookup script := by
  have hstatements (total before : Nat) (list : List Statement) :
      Building.statements { o with includesComments := comments } total before list =
        Building.statements o total before list := by
    induction list generalizing before with
    | nil => rfl
    | cons st rest ih =>
      have hfirst : Building.statement { o with includesComments := comments } st =
          Building.statement o st := rfl
      rw [Building.statements, Building.statements, hfirst, ih]
  have hdeclaring (c : Configuration) :
      declaringStatements { o with includesComments := comments } c =
        declaringStatements o c := rfl
  unfold ofStatements
  cases configuration? script with
  | none => rfl
  | some c => simp only [hstatements, hdeclaring]

/-- An instance without the comments on its properties. -/
def Instance.withoutComments (i : Instance) : Instance :=
  { i with properties := i.properties.filter fun p => !isMetadataKey p.1 }

/-- A name that is filtered out may as well not be set. -/
theorem Fields.filter_set {α : Type} {name : Text} {keep : Text → Bool} (h : keep name = false)
    (value : α) (fields : Fields α) :
    (fields.set name value).filter (fun p => keep p.1) = fields.filter fun p => keep p.1 := by
  fun_induction set name value fields with
  | case1 => simp [h]
  | case2 old rest => simp [h]
  | case3 other old rest hne ih => rw [List.filter_cons, List.filter_cons, ih]

namespace PropertyComment

theorem addTo_withoutComments (c : PropertyComment) (i : Instance) :
    (c.addTo i).withoutComments = i.withoutComments := by
  unfold addTo
  split
  · rfl
  · rfl
  · next key _ _ =>
    have hkey : (!isMetadataKey (metadataKey key)) = false := by
      rw [isMetadataKey_metadataKey]
      rfl
    unfold Instance.withoutComments
    rw [@Fields.filter_set Value _ (fun name => !isMetadataKey name) hkey]

theorem apply_withoutComments (c : PropertyComment) (instances : List Instance) :
    (c.apply instances).map Instance.withoutComments =
      instances.map Instance.withoutComments := by
  induction instances with
  | nil => rfl
  | cons i rest ih =>
    rw [apply]
    by_cases h : c.isOf i
    · rw [if_pos h, List.map_cons, List.map_cons, addTo_withoutComments]
    · rw [if_neg h, List.map_cons, List.map_cons, ih]

theorem foldl_apply_withoutComments (comments : List PropertyComment) (instances : List Instance) :
    (comments.foldl (fun instances c => c.apply instances) instances).map
        Instance.withoutComments =
      instances.map Instance.withoutComments := by
  induction comments generalizing instances with
  | nil => rfl
  | cons c rest ih => rw [List.foldl_cons, ih, c.apply_withoutComments]

end PropertyComment

/-- Attaching comments adds nothing but comments. -/
theorem attachComments_withoutComments (tokens : List ClassifiedToken)
    (instances : List Instance) :
    (attachComments tokens instances).map Instance.withoutComments =
      instances.map Instance.withoutComments :=
  PropertyComment.foldl_apply_withoutComments _ instances

/-- Binding a key adds no name but the key. -/
theorem Fields.mem_names_bind {α : Type} {key name : Text} {value : α} {fields : Fields α}
    (h : name ∈ (fields.bind key value).names) : name ∈ fields.names ∨ name = key := by
  unfold Fields.bind at h
  dsimp only at h
  split at h
  · exact .inl h
  rw [names_set] at h
  split at h
  · exact .inl h
  · rcases List.mem_append.mp h with h | h
    · exact .inl h
    · -- A spelling that is not there yet is no earlier one.
      rw [List.mem_singleton.mp h]
      unfold spelling
      cases hfind : fields.names.find? fun name => Text.sameName name key with
      | none => exact .inr rfl
      | some found => exact .inl (List.mem_of_find?_eq_some hfind)

namespace Binding

/-- Properties are kept under keys of the source. -/
theorem names_entries (c : Context) (subject : Subject) (declaredBy : Text)
    (schema : Option (List Schema.Property)) (list : List Entry) (done : Fields Value)
    (s : Session) : ∀ name ∈ (entries c subject declaredBy schema done list s).1.names,
      name ∈ done.names ∨ ∃ e ∈ list, e.key = name := by
  induction list generalizing done s with
  | nil =>
    intro name hname
    rw [entries] at hname
    exact .inl hname
  | cons e rest ih =>
    obtain ⟨key, place, value⟩ := e
    have hskip (s' : Session) :
        ∀ name ∈ (entries c subject declaredBy schema done rest s').1.names,
          name ∈ done.names ∨ ∃ e ∈ ⟨key, place, value⟩ :: rest, e.key = name := by
      intro name hname
      exact (ih done s' name hname).imp_right fun ⟨e, he, hkey⟩ =>
        ⟨e, List.mem_cons_of_mem _ he, hkey⟩
    have hbind (x : Value) (s' : Session) :
        ∀ name ∈ (entries c subject declaredBy schema (done.bind key x) rest s').1.names,
          name ∈ done.names ∨ ∃ e ∈ ⟨key, place, value⟩ :: rest, e.key = name := by
      intro name hname
      rcases ih _ s' name hname with h | ⟨e, he, hkey⟩
      · rcases Fields.mem_names_bind h with h | rfl
        · exact .inl h
        · exact .inr ⟨_, List.mem_cons_self, rfl⟩
      · exact .inr ⟨e, List.mem_cons_of_mem _ he, hkey⟩
    cases schema with
    | none =>
      rw [entries]
      exact hbind _ s
    | some declared =>
      rw [entries]
      cases Schema.Property.find? key declared with
      | none => exact hskip _
      | some property => exact hbind _ _

/-- The properties of an instance are kept under keys of its block. -/
theorem names_bound {c : Context} {subject : Subject} {declaredBy : Text}
    {schema : Option Schema.Resource} {body : Table} {name : Text}
    (h : name ∈ (bound c subject declaredBy schema body).1.names) :
    ∃ e ∈ body.entries, e.key = name :=
  (names_entries c subject declaredBy _ body.entries [] _ name h).resolve_left List.not_mem_nil

end Binding

/-- Of two lists that are related each item of the second one has one at its place in the first. -/
theorem exists_getElem?_of_forall₂ {α β : Type} {R : α → β → Prop} {xs : List α} {ys : List β}
    (h : List.Forall₂ R xs ys) {n : Nat} {y : β} (hy : ys[n]? = some y) :
    ∃ x, xs[n]? = some x ∧ R x y := by
  induction h generalizing n with
  | nil => cases hy
  | cons hfirst _ ih =>
    cases n with
    | zero =>
      cases hy
      exact ⟨_, rfl, hfirst⟩
    | succ n => exact ih hy

/-- An instance is what a block with a name comes to. -/
def Instance.IsOf (o : ReadOptions) (declared : Block × Expression) (i : Instance) : Prop :=
  ∃ schema, i = (Building.declared o declared.1 declared.2 schema).1

namespace Building

/-- **The instances of statements are those of the blocks that they declare**, in order. -/
theorem forall₂_statements {o : ReadOptions} {total before : Nat} {list : List Statement}
    {s after : Session} {instances : List Instance}
    (h : statements o total before list s = .ok (instances, after)) :
    List.Forall₂ (fun declared i => Instance.IsOf o declared i) (list.filterMap declaration?)
      instances := by
  induction list generalizing before s instances with
  | nil =>
    cases h
    exact .nil
  | cons st rest ih =>
    rw [statements_cons] at h
    cases hfirst : statement o st s with
    | error e =>
      rw [hfirst] at h
      cases h
    | ok first =>
      rw [hfirst] at h
      cases hmore : statements o total (before + 1) rest
          ⟨first.2.memo, first.2.events ++ [.processed (before + 1) total]⟩ with
      | error e =>
        simp only [Except.bind, hmore] at h
        cases h
      | ok more =>
        simp only [Except.bind, hmore] at h
        cases h
        cases hst : declaration? st with
        | none =>
          rw [statement_of_other hst] at hfirst
          cases hfirst
          rw [List.filterMap_cons_none hst]
          exact ih hmore
        | some found =>
          obtain ⟨b, name⟩ := found
          rw [List.filterMap_cons_some hst]
          by_cases hnone : (o.strict && (s.memo.resolve b.keyword).1.isNone) = true
          · rw [statement_of_unresolved hst hnone] at hfirst
            cases hfirst
          · rw [statement_of_declaration hst (Bool.eq_false_iff.mpr hnone)] at hfirst
            cases hfirst
            exact .cons ⟨_, rfl⟩ (ih hmore)

/-- Every instance is declared by a statement. -/
theorem mem_statements {o : ReadOptions} {total before : Nat} {list : List Statement}
    {s after : Session} {instances : List Instance}
    (h : statements o total before list s = .ok (instances, after)) :
    ∀ i ∈ instances, ∃ st ∈ list, ∃ b name schema, declaration? st = some (b, name) ∧
      i = (declared o b name schema).1 := by
  intro i hi
  obtain ⟨n, hn⟩ := List.mem_iff_getElem?.mp hi
  obtain ⟨⟨b, name⟩, hdeclared, schema, hi⟩ := exists_getElem?_of_forall₂ (forall₂_statements h) hn
  obtain ⟨st, hst, hdeclaration⟩ := List.mem_filterMap.mp (List.mem_of_getElem? hdeclared)
  exact ⟨st, hst, b, name, schema, hdeclaration, hi⟩

end Building

/-- What is built of a script has no comments, unless it has keys of comments. -/
theorem Build.withoutComments_of_ofStatements {o : ReadOptions} {lookup : DeclLookup}
    {script : List Statement} (hkeys : ∀ b ∈ Statement.blocksOf script, ∀ e ∈ b.body.entries,
      isMetadataKey e.key = false) {built : Build}
    (h : ofStatements o lookup script = .ok built) :
    built.instances.map Instance.withoutComments = built.instances := by
  have hplain : ∀ i ∈ built.instances, i.withoutComments = i := by
    unfold ofStatements at h
    cases hc : configuration? script with
    | none =>
      rw [hc] at h
      cases h
    | some c =>
      rw [hc] at h
      simp only [] at h
      have hbody : ∀ b ∈ Statement.blocksOf c.body, ∀ e ∈ b.body.entries,
          isMetadataKey e.key = false := by
        intro b hb
        rw [Statement.blocksOf_eq] at hkeys
        exact hkeys b (List.mem_flatMap_of_mem (mem_of_configuration? hc) hb)
      cases hlist : declaringStatements o c
          (.new (.new lookup ⟨Import.ofStatements c.body, o.versionRule⟩)) with
      | error e =>
        rw [Building.bind_of_error hlist] at h
        cases h
      | ok found =>
        rw [Building.bind_of_ok hlist] at h
        cases hresult : Building.statements o found.1.length 0 found.1 found.2 with
        | error e =>
          rw [hresult] at h
          cases h
        | ok result =>
          rw [hresult] at h
          obtain rfl := Except.ok.inj h
          have hholds := (ensures_declaringStatements o c _
            (Session.consults_new lookup _) found.1 found.2 hlist).1
          intro i hi
          obtain ⟨st, hst, b, name, schema, hdeclares, rfl⟩ :=
            Building.mem_statements hresult i hi
          have hb := hbody b ((hholds st hst).blocks (Building.mem_blocks_of_declaration? hdeclares).1)
          have hfilter : (Building.declared o b name schema).1.properties.filter
              (fun p => !isMetadataKey p.1) = (Building.declared o b name schema).1.properties := by
            refine List.filter_eq_self.mpr fun p hp => ?_
            obtain ⟨e, he, hkey⟩ := Binding.names_bound (List.mem_map_of_mem hp)
            rw [← hkey, hb e he]
            rfl
          unfold Instance.withoutComments
          rw [hfilter]
  exact (List.map_congr_left hplain).trans (List.map_id _)

/-! ### Conversions -/

namespace Conversion

/-- A conversion whose blocks do not name their classes. -/
def untagged (c : Conversion) : Conversion :=
  { c with instances := c.instances.map Instance.untagged }

/-- A conversion without comments. -/
def withoutComments (c : Conversion) : Conversion :=
  { c with instances := c.instances.map Instance.withoutComments }

end Conversion

namespace Configuration

theorem read_untagged (o : ReadOptions) (lookup : DeclLookup) (source : Text) :
    read { o with recordsTypes := false } lookup source =
      (read o lookup source).map Conversion.untagged := by
  unfold read
  cases Script.parse source with
  | error e => rfl
  | ok script =>
    simp only [Except.mapError, bind, Except.bind, Build.ofStatements_untagged]
    cases Build.ofStatements o lookup script.statements with
    | error e => rfl
    | ok built =>
      simp only [Except.map]
      cases o.includesComments with
      | false => rfl
      | true =>
        simp only [if_true, attachComments_untagged]
        rfl

theorem read_withoutComments (o : ReadOptions) (lookup : DeclLookup) {source : Text}
    (hkeys : ∀ script, Script.parse source = .ok script →
      ∀ b ∈ Statement.blocksOf script.statements, ∀ e ∈ b.body.entries,
        isMetadataKey e.key = false) :
    read { o with includesComments := false } lookup source =
      (read { o with includesComments := true } lookup source).map Conversion.withoutComments := by
  unfold read
  cases hparse : Script.parse source with
  | error e => rfl
  | ok script =>
    simp only [Except.mapError, bind, Except.bind]
    rw [Build.ofStatements_comments o false, Build.ofStatements_comments o true]
    cases hbuilt : Build.ofStatements o lookup script.statements with
    | error e => rfl
    | ok built =>
      have hplain := Build.withoutComments_of_ofStatements (hkeys script hparse) hbuilt
      change Except.ok _ = Except.ok (Conversion.withoutComments _)
      simp only [Conversion.withoutComments, if_true, attachComments_withoutComments, hplain]
      rfl

/-- **What the options of a reading leave out is all that they change.**  A reading without the names
of classes comes to the same instances with the names taken away, and to the same session, which
holds the diagnostics; as records its instances are those of the other reading without names,
however the records are asked for.  A reading with comments comes to the same instances and the
same session as one without, once its comments are taken away, if no key of the source is one of
a comment. -/
theorem read_projections (o : ReadOptions) (lookup : DeclLookup) (source : Text) :
    read { o with recordsTypes := false } lookup source =
      (read { o with recordsTypes := true } lookup source).map Conversion.untagged ∧
    (∀ tagged untagged, read { o with recordsTypes := true } lookup source = .ok tagged →
      read { o with recordsTypes := false } lookup source = .ok untagged → ∀ shown,
        untagged.instances.map (Instance.toRecord shown) =
          tagged.instances.map (Instance.toRecord false)) ∧
    ((∀ script, Script.parse source = .ok script → ∀ b ∈ Statement.blocksOf script.statements,
        ∀ e ∈ b.body.entries, isMetadataKey e.key = false) →
      (read { o with includesComments := true } lookup source).map Conversion.withoutComments =
        read { o with includesComments := false } lookup source) := by
  have huntagged := read_untagged { o with recordsTypes := true } lookup source
  refine ⟨huntagged, ?_, fun hkeys => (read_withoutComments o lookup hkeys).symm⟩
  intro tagged untagged htagged hread shown
  rw [show read { o with recordsTypes := false } lookup source = _ from huntagged, htagged] at hread
  obtain rfl := Except.ok.inj hread
  simp only [Conversion.untagged, List.map_map]
  exact List.map_congr_left fun i _ => i.toRecord_untagged shown

theorem read_projections_site :
    ∃ catalog : Catalog, ∃ script tagged untagged,
      Script.parse siteSource = .ok script ∧
      (∀ b ∈ Statement.blocksOf script.statements, ∀ e ∈ b.body.entries,
        isMetadataKey e.key = false) ∧
      read ⟨true, .exact, true, true⟩ catalog.find? siteSource = .ok tagged ∧
      read ⟨true, .exact, false, true⟩ catalog.find? siteSource = .ok untagged ∧
      untagged.instances.map (Instance.toRecord true) =
        tagged.instances.map (Instance.toRecord false) ∧
      read ⟨true, .exact, true, false⟩ catalog.find? siteSource = .ok tagged.withoutComments := by
  let catalog : Catalog := [⟨"Site", none, none, none, [⟨"Owner", "[Person]", false, []⟩],
    [⟨"Person", [⟨"Title", "[String]", false, []⟩]⟩]⟩]
  have hkeys : (match Script.parse siteSource with
      | .ok script => (Statement.blocksOf script.statements).all fun b =>
          b.body.entries.all fun e => !isMetadataKey e.key
      | .error _ => false) = true := by
    decide +kernel
  have hread : (read ⟨true, .exact, true, true⟩ catalog.find? siteSource).isOk = true := by
    decide +kernel
  split at hkeys
  · next script hparse =>
    simp only [List.all_eq_true, Bool.not_eq_true'] at hkeys
    cases htagged : read ⟨true, .exact, true, true⟩ catalog.find? siteSource with
    | error e =>
      rw [htagged] at hread
      cases hread
    | ok tagged =>
      obtain ⟨huntagged, hrecords, hcomments⟩ :=
        read_projections ⟨true, .exact, true, true⟩ catalog.find? siteSource
      rw [htagged] at huntagged
      have hplain := hcomments fun script' hscript => by
        obtain rfl := Except.ok.inj (hparse.symm.trans hscript)
        exact hkeys
      rw [htagged] at hplain
      exact ⟨catalog, script, tagged, _, hparse, hkeys, htagged, huntagged,
        hrecords tagged _ htagged huntagged true, hplain.symm⟩
  · cases hkeys

end Configuration

end DesiredState
