/-
Reading back comments.

The comments of an instance are written on the lines of their properties, and reading
with comments attaches them again: every comment that is found on a property comes to
the instance that it was written for, since no two instances answer to the same names,
and to the property, since no two keys do.
-/
import DesiredState.Proofs.Layout.Commented
import DesiredState.Proofs.RoundTrip

namespace DesiredState

/-! ### Instances with comments -/

/-- The comment on a property. -/
def Instance.comment? (i : Instance) (name : Text) : Option Text :=
  match i.properties.get? (metadataKey name) with
  | some (.string t) => some t
  | _ => none

/-- An instance of a catalog whose properties may have comments: a comment has no white space
around it and is one token. -/
structure Instance.IsCommented (catalog : Catalog) (i : Instance) : Prop where
  resourceName : Token.IsWord .bareword i.resourceName
  instanceName : Text.startsWith i.instanceName ['$'] = false
  names : i.properties.names.Nodup
  keys : AreKeys (Layout.plain i.properties).names
  declared : Layout.IsDeclaredBy Value.IsLiteral catalog.find? .everything i.resourceName
    (Layout.plain i.properties)
  comments : ∀ p ∈ i.properties, isMetadataKey p.1 →
    ∃ name ∈ (Layout.plain i.properties).names, p.1 = metadataKey name ∧
      ∃ t kind, p.2 = .string t ∧ Text.trim t = t ∧ Token.IsNote kind t

/-- The comments of properties, as properties. -/
def Instance.commentFields (i : Instance) (names : List Text) : Fields Value :=
  names.filterMap fun name => (i.comment? name).map fun t => (metadataKey name, .string t)

/-- An instance with its properties in the order of their keys, and behind them their comments in
the same order. -/
def Instance.arranged (i : Instance) : Instance :=
  let sorted := Layout.laidOut i
  { sorted with properties := sorted.properties ++ i.commentFields sorted.properties.names }

/-- Whether two instances answer to the same names. -/
def Instance.sameNames (i j : Instance) : Bool :=
  Text.sameName i.resourceName j.resourceName && Text.sameName i.instanceName j.instanceName

namespace Layout

open Piece

/-- The notes of an instance are its comments. -/
def notesOn (i : Instance) (name : Text) : List Piece :=
  match i.comment? name with
  | none => []
  | some t => (Token.next? t).elim [] fun found => note ⟨found.1, t⟩

theorem startsWith_of_isNote {kind : TokenKind} {t : Text} (h : Token.IsNote kind t) :
    (Text.startsWith t ['#'] || Text.startsWith t ['<', '#']) = true := by
  obtain ⟨hk, hn⟩ := h
  cases t with
  | nil => exact absurd (Token.next?_takes hn).2.2 (Nat.lt_irrefl _)
  | cons c t =>
    obtain ⟨hc, hr⟩ := Token.recognise_of_next? hn
    cases kind <;> simp only [TokenKind.isComment, Bool.false_eq_true] at hk
    case comment =>
      simp only [TokenKind.mayStart, beq_iff_eq] at hc
      subst hc
      rfl
    case blockComment =>
      simp only [TokenKind.recognise, Pattern.blockComment] at hr
      split at hr
      · next heq =>
        rw [heq]
        rfl
      · cases hr

/-- What comment a property has, and what it is written as. -/
theorem notesOn_cases {catalog : Catalog} {i : Instance} (h : i.IsCommented catalog) (name : Text) :
    i.comment? name = none ∧ i.properties.get? (metadataKey name) = none ∧ notesOn i name = [] ∨
      ∃ t kind, i.comment? name = some t ∧ i.properties.get? (metadataKey name) = some (.string t) ∧
        notesOn i name = note ⟨kind, t⟩ ∧ Text.trim t = t ∧ Token.IsNote kind t := by
  cases hget : i.properties.get? (metadataKey name) with
  | none =>
    have hnone : i.comment? name = none := by rw [Instance.comment?, hget]
    exact Or.inl ⟨hnone, rfl, by rw [notesOn, hnone]⟩
  | some x =>
    obtain ⟨-, -, -, t, kind, hx, htrim, hnote⟩ :=
      h.comments _ (Fields.mem_of_get? hget) (isMetadataKey_metadataKey name)
    obtain rfl : x = .string t := hx
    have hsome : i.comment? name = some t := by rw [Instance.comment?, hget]
    refine Or.inr ⟨t, kind, hsome, rfl, ?_, htrim, hnote⟩
    rw [notesOn, hsome]
    simp only [hnote.2]
    rfl

/-- Instances with comments are carried by their text. -/
theorem isCarried_of_isCommented {catalog : Catalog} {i : Instance} (h : i.IsCommented catalog) :
    IsCarried Value.IsLiteral (notesOn i) i := by
  obtain ⟨schema, -, hfields⟩ := h.declared
  refine ⟨h.resourceName, h.instanceName, h.names, h.keys, hfields.isShaped, ?_, ?_, ?_⟩
  · intro p _
    rcases notesOn_cases h p.1 with ⟨-, hget, hnotes⟩ | ⟨t, kind, -, hget, hnotes, htrim, hnote⟩
    · exact Or.inl ⟨hnotes, hget⟩
    · refine Or.inr ⟨t, ?_, hget⟩
      have htext : Render.comment t = t := by
        unfold Render.comment
        simp only [htrim, startsWith_of_isNote hnote, if_true]
      rw [hnotes, htext]
      simp [note, gap, Text.spaces, textOf]
  · intro p _
    rcases notesOn_cases h p.1 with ⟨-, -, hnotes⟩ | ⟨t, kind, -, -, hnotes, -, hnote⟩
    · exact Or.inl hnotes
    · exact Or.inr ⟨⟨kind, t⟩, hnotes, hnote.1, fun rest => hnote.next? rest⟩
  · rintro ⟨name, x⟩ hp hflat _
    have hshaped : x.IsShaped Value.IsLiteral := hfields.isShaped (name, x) hp
    cases hshaped with
    | flat hx _ => exact endsBefore_literal hx (by decide)
    | block _ _ => exact absurd hflat Bool.false_ne_true
    | blocks _ _ => exact absurd hflat Bool.false_ne_true

/-! ### Attaching comments

The comments come one by one, those of an instance in the order of its keys.  What has
been attached is told by the keys so far, and one more comment is one more key.
-/

theorem names_plain (fields : Fields Value) :
    (plain fields).names = fields.names.filter fun name => !isMetadataKey name := by
  unfold plain Fields.names
  rw [List.filter_map]
  rfl

/-- Of keys the one of a name is this name. -/
theorem find?_of_areKeys {names : List Text} (h : AreKeys names) {name : Text} (hm : name ∈ names) :
    (names.find? fun key => Text.sameName key name) = some name := by
  induction names with
  | nil => exact absurd hm List.not_mem_nil
  | cons first rest ih =>
    obtain ⟨hfirst, hdistinct⟩ := List.pairwise_cons.mp h.distinct
    rcases List.mem_cons.mp hm with rfl | hm
    · rw [List.find?_cons_of_pos]
      exact beq_self_eq_true _
    · rw [List.find?_cons_of_neg (by rw [hfirst name hm]; exact Bool.false_ne_true)]
      exact ih ⟨fun key hk => h.isKey key (List.mem_cons_of_mem _ hk), hdistinct⟩ hm

/-- The comment of a property that has none yet is put behind all the properties. -/
theorem addTo_of_new {c : PropertyComment} {i : Instance} (hkeys : AreKeys (plain i.properties).names)
    (hmem : c.propertyName ∈ (plain i.properties).names)
    (hnew : metadataKey c.propertyName ∉ i.properties.names) :
    c.addTo i = { i with properties :=
      i.properties ++ [(metadataKey c.propertyName, .string c.comment)] } := by
  have hkey : c.key? i = some c.propertyName := by
    rw [PropertyComment.key?, ← find?_of_areKeys hkeys hmem, names_plain, List.find?_filter]
    simp only [Bool.decide_and, Bool.decide_eq_true]
  obtain ⟨kind, hword⟩ := (hkeys.isKey _ hmem).isWord
  obtain ⟨first, run, hshape, -⟩ := hword.shape
  unfold PropertyComment.addTo
  rw [hshape] at hnew
  rw [hkey, hshape]
  simp only [Fields.set_of_new _ hnew]

/-- Comments of one instance come to it, whatever stands around it. -/
theorem apply_append {c : PropertyComment} {done rest : List Instance} {i : Instance}
    (hdone : ∀ j ∈ done, c.isOf j = false) (hi : c.isOf i) :
    c.apply (done ++ i :: rest) = done ++ c.addTo i :: rest := by
  induction done with
  | nil => exact if_pos hi
  | cons j done ih =>
    rw [List.cons_append, PropertyComment.apply, if_neg (by
      rw [hdone j List.mem_cons_self]; exact Bool.false_ne_true)]
    exact congrArg _ (ih fun k hk => hdone k (List.mem_cons_of_mem j hk))

theorem metadataKey_injective {a b : Text} (h : metadataKey a = metadataKey b) : a = b :=
  List.append_cancel_left h

theorem isMetadataKey_of_mem_commentFields {i : Instance} {names : List Text} {p : Text × Value}
    (h : p ∈ i.commentFields names) : ∃ name ∈ names, p.1 = metadataKey name := by
  obtain ⟨name, hname, hp⟩ := List.mem_filterMap.mp h
  obtain ⟨t, -, rfl⟩ := Option.map_eq_some_iff.mp hp
  exact ⟨name, hname, rfl⟩

/-- Comments that were attached are not among the properties proper. -/
theorem plain_append_commentFields {fields : Fields Value} (h : AreKeys fields.names) (i : Instance)
    (names : List Text) : plain (fields ++ i.commentFields names) = fields := by
  have hnone : plain (i.commentFields names) = [] := by
    refine List.filter_eq_nil_iff.mpr ?_
    intro p hp
    obtain ⟨name, -, hname⟩ := isMetadataKey_of_mem_commentFields hp
    rw [hname, isMetadataKey_metadataKey]
    exact Bool.false_ne_true
  have := plain_eq_self h
  unfold plain at this hnone ⊢
  rw [List.filter_append, this, hnone, List.append_nil]

/-- An instance in order whose comments on some properties are attached. -/
def attached (i : Instance) (names : List Text) : Instance :=
  { laidOut i with properties := (laidOut i).properties ++ i.commentFields names }

/-- The next comment of an instance is attached to it. -/
theorem apply_attached {catalog : Catalog} {i : Instance} (h : i.IsCommented catalog)
    {done rest : List Instance} (hdone : ∀ j ∈ done, Instance.sameNames j i = false)
    {before : List Text} {name t : Text} (hname : name ∈ (laidOut i).properties.names)
    (hnew : name ∉ before) (ht : i.comment? name = some t) :
    PropertyComment.apply ⟨i.resourceName, i.instanceName, name, t⟩
        (done ++ attached i before :: rest) = done ++ attached i (before ++ [name]) :: rest := by
  have hkeys : AreKeys (laidOut i).properties.names := (isCarried_of_isCommented h).keys
  have hplain := plain_append_commentFields hkeys i before
  have hfields : i.commentFields (before ++ [name]) =
      i.commentFields before ++ [(metadataKey name, .string t)] := by
    simp [Instance.commentFields, ht]
  have hfresh : metadataKey name ∉ Fields.names (attached i before).properties := by
    intro hm
    obtain ⟨p, hp, hpname⟩ := List.mem_map.mp hm
    rcases List.mem_append.mp hp with hp | hp
    · have := (hkeys.of_mem hp).notMetadata
      rw [hpname, isMetadataKey_metadataKey] at this
      exact absurd this (by decide)
    · obtain ⟨other, hother, hpother⟩ := isMetadataKey_of_mem_commentFields hp
      rw [metadataKey_injective (hpname.symm.trans hpother)] at hnew
      exact hnew hother
  rw [apply_append hdone, addTo_of_new]
  · show done ++ { laidOut i with properties := ((laidOut i).properties ++ i.commentFields before) ++
      [(metadataKey name, Value.string t)] } :: rest = _
    rw [attached, hfields, List.append_assoc]
  · exact hplain.symm ▸ hkeys
  · exact hplain.symm ▸ hname
  · exact hfresh
  · simp [PropertyComment.isOf, attached, laidOut, Instance.sorted, Text.sameName]

/-- The comments of an instance are attached one after another. -/
theorem foldl_comments {catalog : Catalog} {i : Instance} (h : i.IsCommented catalog)
    {done rest : List Instance} (hdone : ∀ j ∈ done, Instance.sameNames j i = false) :
    ((commentsOn (notesOn i) (laidOut i)).foldl (fun instances c => c.apply instances)
      (done ++ laidOut i :: rest)) = done ++ i.arranged :: rest := by
  have hkeys : AreKeys (laidOut i).properties.names := (isCarried_of_isCommented h).keys
  -- Those of the properties before are attached already.
  have hsteps : ∀ before fields : Fields Value, (laidOut i).properties = before ++ fields →
      (commentsOf ⟨i.resourceName, i.instanceName⟩ (notesOn i) fields).foldl
        (fun instances c => c.apply instances) (done ++ attached i before.names :: rest) =
        done ++ i.arranged :: rest := by
    intro before fields
    induction fields generalizing before with
    | nil =>
      intro hsplit
      rw [List.append_nil] at hsplit
      rw [← hsplit]
      rfl
    | cons p fields ih =>
      intro hsplit
      have hlater := ih (before ++ [p]) (by rw [hsplit, List.append_assoc]; rfl)
      rw [show Fields.names (before ++ [p]) = before.names ++ [p.1] from List.map_append] at hlater
      have hnames : (laidOut i).properties.names = before.names ++ p.1 :: Fields.names fields := by
        rw [hsplit]
        exact List.map_append
      rw [commentsOf, List.flatMap_cons, List.foldl_append]
      rcases notesOn_cases h p.1 with ⟨hnone, -, hnotes⟩ | ⟨t, kind, hsome, -, hnotes, -, hnote⟩
      · have hsame : i.commentFields (before.names ++ [p.1]) = i.commentFields before.names := by
          simp [Instance.commentFields, hnone]
        rw [attached, hsame] at hlater
        rw [hnotes]
        exact hlater
      · have hmem : p.1 ∈ (laidOut i).properties.names := by
          rw [hnames]
          exact List.mem_append_right _ List.mem_cons_self
        have hnew : p.1 ∉ before.names := by
          have hdistinct := nodup_of_areKeys hkeys
          rw [hnames] at hdistinct
          exact fun hp => (List.nodup_append.mp hdistinct).2.2 _ hp _ List.mem_cons_self rfl
        have hcomment : (note ⟨kind, t⟩).filter (·.kind.isComment) = [⟨kind, t⟩] := by
          rw [note, List.filter_cons_of_neg Bool.false_ne_true]
          exact List.filter_eq_self.mpr fun _ hm => List.mem_singleton.mp hm ▸ hnote.1
        rw [hnotes, hcomment]
        show List.foldl _ (PropertyComment.apply _ _) _ = _
        rw [apply_attached h hdone hmem hnew hsome]
        exact hlater
  have hstart : attached i [] = laidOut i := by
    simp [attached, Instance.commentFields]
  have := hsteps [] (laidOut i).properties rfl
  rw [show Fields.names ([] : Fields Value) = [] from rfl, hstart] at this
  exact this

/-- **All comments are attached to the instances that they were written for.** -/
theorem foldl_allComments {catalog : Catalog} {instances : List Instance}
    (h : ∀ i ∈ instances, i.IsCommented catalog)
    (hdistinct : instances.Pairwise fun i j => Instance.sameNames i j = false) (done : List Instance)
    (hdone : ∀ j ∈ done, ∀ i ∈ instances, Instance.sameNames j i = false) :
    ((instances.flatMap fun i => commentsOn (notesOn i) (laidOut i)).foldl
      (fun instances c => c.apply instances) (done ++ instances.map laidOut)) =
        done ++ instances.map Instance.arranged := by
  induction instances generalizing done with
  | nil => rfl
  | cons i instances ih =>
    obtain ⟨hfirst, hrest⟩ := List.pairwise_cons.mp hdistinct
    rw [List.flatMap_cons, List.foldl_append, List.map_cons,
      foldl_comments (h i List.mem_cons_self) fun j hj => hdone j hj i List.mem_cons_self]
    have hlater := ih (fun j hj => h j (List.mem_cons_of_mem i hj)) hrest (done ++ [i.arranged])
      (by
        intro j hj k hk
        rcases List.mem_append.mp hj with hj | hj
        · exact hdone j hj k (List.mem_cons_of_mem i hk)
        · rw [List.mem_singleton.mp hj]
          exact hfirst k hk)
    rw [List.append_assoc, List.append_assoc] at hlater
    exact hlater

theorem isCode_atom {piece : Piece} (h : IsAtomPiece piece) : IsCode piece := by
  have hatom := h.isAtom
  unfold IsCode
  cases hk : piece.kind <;> simp_all [TokenKind.isAtom, TokenKind.isComment, TokenKind.isString]

theorem isCode_bracketed {atoms : List Piece} (h : ∀ p ∈ atoms, IsAtomPiece p) :
    ∀ piece ∈ bracketed atoms, IsCode piece := by
  have hatoms : ∀ piece ∈ commaSeparated atoms, IsCode piece := by
    intro piece hp
    cases atoms with
    | nil => exact absurd hp List.not_mem_nil
    | cons first rest =>
      rcases List.mem_cons.mp hp with rfl | hp
      · exact isCode_atom (h piece List.mem_cons_self)
      · obtain ⟨other, hother, hp⟩ := List.mem_flatMap.mp hp
        simp only [List.mem_cons, List.not_mem_nil, or_false] at hp
        obtain rfl | rfl := hp
        · rfl
        · exact isCode_atom (h piece (List.mem_cons_of_mem first hother))
  intro piece hp
  simp only [bracketed, List.mem_cons, List.mem_append, List.not_mem_nil, or_false] at hp
  obtain rfl | hp | rfl := hp
  · rfl
  · exact hatoms piece hp
  · rfl

/-- There are no comments in literals. -/
theorem isCode_literal {x : Value} (h : x.IsLiteral) :
    ∀ piece ∈ ofText (flatText x), IsCode piece := by
  rw [ofText_flatText h]
  cases x with
  | string t => exact fun _ hp => List.mem_singleton.mp hp ▸ rfl
  | integer x => exact fun _ hp => List.mem_singleton.mp hp ▸ rfl
  | boolean value => exact fun _ hp => List.mem_singleton.mp hp ▸ rfl
  | stringArray texts =>
    refine isCode_bracketed ?_
    intro p hp
    obtain ⟨t, -, rfl⟩ := List.mem_map.mp hp
    exact isAtomPiece_quoted t
  | integerArray numbers =>
    refine isCode_bracketed ?_
    intro p hp
    obtain ⟨x, hx, rfl⟩ := List.mem_map.mp hp
    exact isAtomPiece_number (h x hx)
  | raw | subObject | subObjectArray => exact False.elim h

end Layout

/-- The sample instance with comments on two properties. -/
def Instance.commentedSample : Instance :=
  { Instance.sample with properties := Instance.sample.properties ++ [
      (metadataKey "Owner", .string "<# known\n# to all #>"),
      (metadataKey "Ports", .string "# \x7d not \"quoted")] }

theorem isCommented_sample : Instance.commentedSample.IsCommented [.sample] where
  resourceName := by decide +kernel
  instanceName := by decide
  names := by decide +kernel
  keys := areKeys_sample
  declared := isDeclaredBy_sample
  comments := by
    intro p hp hmetadata
    rcases List.mem_append.mp hp with hp | hp
    · have := (areKeys_sample.of_mem hp).notMetadata
      exact absurd hmetadata (by simp [this])
    · simp only [List.mem_cons, List.not_mem_nil, or_false] at hp
      obtain rfl | rfl := hp
      · exact ⟨"Owner".toList, by decide +kernel, rfl, _, .blockComment, rfl, by decide +kernel⟩
      · exact ⟨"Ports".toList, by decide +kernel, rfl, _, .comment, rfl, by decide +kernel⟩

/-- An instance with a comment on a property that is called by the name of a parent. -/
def Instance.commentedParented : Instance :=
  { Instance.parented with properties := Instance.parented.properties ++ [
      (metadataKey Fields.parentName, .string "# note")] }

theorem isCommented_parented : Instance.commentedParented.IsCommented [.parented] where
  resourceName := by decide +kernel
  instanceName := by decide
  names := by decide +kernel
  keys := areKeys_parented
  declared := isDeclaredBy_parented
  comments := by
    intro p hp hmetadata
    rcases List.mem_append.mp hp with hp | hp
    · have := (areKeys_parented.of_mem hp).notMetadata
      exact absurd hmetadata (by simp [this])
    · obtain rfl := List.mem_singleton.mp hp
      exact ⟨Fields.parentName, by decide +kernel, rfl, _, .comment, rfl, by decide +kernel⟩

namespace Configuration

/-- **Comments are read back with their instances**: each instance comes back with its properties in
the order of their keys and its comments behind them, where no property is called by the name of a
parent. -/
theorem read_write_comments (catalog : Catalog) (n : Nat) {instances : List Instance}
    (h : ∀ i ∈ instances, i.IsCommented catalog) (hkept : ∀ i ∈ instances, i.kept = i)
    (hdistinct : instances.Pairwise fun i j => Instance.sameNames i j = false) :
    ∃ text conversion, write (.whole n) instances = .ok text ∧
      read { ReadOptions.lenient with includesComments := true } catalog.find? (wrapped text) =
        .ok conversion ∧
      conversion.instances = instances.map Instance.arranged ∧
      conversion.session.diagnostics = [] := by
  have hcarried := fun i hi => Layout.isCarried_of_isCommented (h i hi)
  have hread : ∀ x, Value.IsLiteral x → Layout.IsFlatRead Value.Stated True x :=
    fun _ hx => Layout.isFlatRead_literal hx
  have hbinds : ∀ owner, Binding.BindsLeaves catalog.find? .everything (fun _ => False) owner
      Value.IsLiteral Value.Stated id := fun _ => Binding.bindsLeaves_literal id
  have hends : ∀ x, Value.IsLiteral x → Layout.EndsBefore '\n' x :=
    fun _ hx => Layout.endsBefore_literal hx (by decide)
  obtain ⟨text, script, built, items, hwrite, hparse, hbuilt, hview, hallowed, hdeclared, htokens⟩ :=
    Layout.built_of_write (o := { ReadOptions.lenient with includesComments := true }) (n := n)
      catalog.find?_ignoresCase rfl (fun _ hx => Layout.hasIntegers_literal hx) hends hread hbinds
      hcarried fun i hi => (h i hi).declared
  rw [List.map_congr_left fun i _ => Instance.mapLeaves_id i, List.map_id',
    List.map_congr_left fun i _ => Instance.mapLeaves_id _,
    List.map_congr_left fun i hi => Layout.kept_laidOut (hkept i hi)] at hview
  refine ⟨text, _, hwrite, read_of_built hparse hbuilt, ?_, ?_⟩
  · have hcomments := Layout.ofTokens_document hdeclared rfl
      (Layout.spells_declarations hends n hcarried) (fun i hi => (h i hi).resourceName)
      (fun i hi p hp => (hcarried i hi).keys.of_mem hp)
      (fun i hi p hp => (hcarried i hi).spelt.noted p hp)
      (fun i hi p hp => Layout.isCode_value (fun _ => Layout.isCode_literal)
        ((hcarried i hi).spelt.shaped p hp) n)
    show attachComments script.tokens built.instances = _
    rw [attachComments, htokens, hview, show Script.streamOf _ _ = Layout.stream _ _ _ from rfl,
      hcomments]
    exact Layout.foldl_allComments h hdistinct [] fun _ hj => absurd hj List.not_mem_nil
  · rw [List.eq_nil_iff_forall_not_mem]
    exact hallowed

theorem read_write_comments_sample :
    Instance.commentedSample.IsCommented [.sample] ∧
      ∃ text conversion, write (.whole 2) [.commentedSample] = .ok text ∧
        read { ReadOptions.lenient with includesComments := true } (Catalog.find? [.sample])
          (wrapped text) = .ok conversion ∧
        conversion.instances = [Instance.commentedSample.arranged] ∧
        conversion.session.diagnostics = [] :=
  ⟨isCommented_sample, read_write_comments [.sample] 2
    (fun _ hi => List.mem_singleton.mp hi ▸ isCommented_sample)
    (fun _ hi => List.mem_singleton.mp hi ▸ rfl) (List.pairwise_singleton _ _)⟩

/-- A property that is called by the name of a parent is not read back, nor is its comment. -/
theorem read_write_comments_parented :
    ¬ ∀ (catalog : Catalog) (n : Nat) (instances : List Instance),
      (∀ i ∈ instances, i.IsCommented catalog) →
      instances.Pairwise (fun i j => Instance.sameNames i j = false) →
      ∃ text conversion, write (.whole n) instances = .ok text ∧
        read { ReadOptions.lenient with includesComments := true } catalog.find? (wrapped text) =
          .ok conversion ∧
        conversion.instances = instances.map Instance.arranged ∧
        conversion.session.diagnostics = [] := by
  intro h
  obtain ⟨text, conversion, hwrite, hread, hinstances, -⟩ := h [.parented] 2 [.commentedParented]
    (fun i hi => List.mem_singleton.mp hi ▸ isCommented_parented) (List.pairwise_singleton _ _)
  have hnames : ((write (.whole 2) [.commentedParented]).toOption.bind fun text =>
      (read { ReadOptions.lenient with includesComments := true } (Catalog.find? [.parented])
        (wrapped text)).toOption.map
          fun conversion => conversion.instances.map fun i => i.properties.names) = some [[]] := by
    decide +kernel
  simp only [hwrite, hread, hinstances, Except.toOption, Option.bind_some, Option.map_some]
    at hnames
  exact absurd hnames (by decide)

end Configuration

end DesiredState
