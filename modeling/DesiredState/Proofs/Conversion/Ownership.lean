/-
Whose comment a comment is.

A comment is attached by three things: the head and the key that stand last before it in
the stream, and the first instance that is called like the block with that head.  Each of
them is taken from the stream alone, without the braces.  What is said here is when the
key is one of the very resource that the instance was built of: heads and keys have to be
those of blocks, names have to be read alike, no other block may be called like a
resource, and no block without a name may have a key that a resource has.
-/
import DesiredState.Proofs.Building.Outcome
import DesiredState.Proofs.Conversion.Projection
import DesiredState.Proofs.Script.Rows

namespace DesiredState

/-! ### Comments with their tokens

A comment does not say which token it was.  To speak of what stands before it in the
source, it is kept together with its token, and the scan is the same.
-/

namespace PropertyComment

/-- The comments on properties among tokens, after a head and a key, each with its token. -/
def located : (head : Option BlockHead) → (key : Option Text) → List ClassifiedToken →
    List (ClassifiedToken × PropertyComment)
  | _, _, [] => []
  | head, key, t :: rest =>
    match t.role with
    | .dynamicKeyword => located (some ⟨t.text, nameIn rest⟩) none rest
    | .identifier => located head (some t.text) rest
    | .comment =>
      match head, key with
      | some head, some key =>
        (t, ⟨head.resourceName, head.instanceName, key, t.text⟩) ::
          located (some head) (some key) rest
      | head, key => located head key rest
    | _ => located head key rest

/-- The comments on properties in a token stream, each with its token. -/
def locatedIn (tokens : List ClassifiedToken) : List (ClassifiedToken × PropertyComment) :=
  located none none (fromNode tokens)

theorem map_snd_located (head : Option BlockHead) (key : Option Text)
    (tokens : List ClassifiedToken) :
    (located head key tokens).map Prod.snd = scan head key tokens := by
  fun_induction located head key tokens with
  | case1 => rfl
  | case2 head key t rest hrole ih => rw [scan_head hrole, ih]
  | case3 head key t rest hrole ih => rw [scan_key hrole, ih]
  | case4 t rest hrole head key ih => rw [scan_comment hrole, List.map_cons, ih]
  | case5 t rest hrole head key hnone ih =>
    have hmissing : (head.isSome && key.isSome) = false := by
      cases head with
      | none => rfl
      | some head =>
        cases key with
        | none => rfl
        | some key => exact (hnone head key rfl rfl).elim
    rw [scan_comment_of_none hrole hmissing, ih]
  | case6 head key t rest hhead hkey hcomment ih =>
    rw [scan_other ⟨⟨hcomment, hhead⟩, hkey⟩, ih]

/-- The instances with the first comments of a stream, so many of them. -/
def attachFirst (count : Nat) (tokens : List ClassifiedToken) (instances : List Instance) :
    List Instance :=
  (((locatedIn tokens).take count).map Prod.snd).foldl (fun instances c => c.apply instances)
    instances

theorem attachFirst_zero (tokens : List ClassifiedToken) (instances : List Instance) :
    attachFirst 0 tokens instances = instances := rfl

/-- A comment is attached after those before it, and in the end all are. -/
theorem attachFirst_succ {tokens : List ClassifiedToken} {n : Nat} {t : ClassifiedToken}
    {c : PropertyComment} (h : (locatedIn tokens)[n]? = some (t, c)) (instances : List Instance) :
    attachFirst (n + 1) tokens instances = c.apply (attachFirst n tokens instances) := by
  unfold attachFirst
  rw [List.take_add_one, h, List.map_append, List.foldl_append]
  rfl

theorem attachFirst_length (tokens : List ClassifiedToken) (instances : List Instance) :
    attachFirst (locatedIn tokens).length tokens instances = attachComments tokens instances := by
  rw [attachFirst, List.take_length, locatedIn, map_snd_located]
  rfl

theorem attachFirst_withoutComments (count : Nat) (tokens : List ClassifiedToken)
    (instances : List Instance) :
    (attachFirst count tokens instances).map Instance.withoutComments =
      instances.map Instance.withoutComments :=
  foldl_apply_withoutComments _ instances

/-- What the head and the key stand for that are kept in mind after tokens: the last head, the name
behind it, and the last key behind the head. -/
def Reached (seen rest : List ClassifiedToken) (head : Option BlockHead) (key : Option Text) :
    Prop :=
  ∀ found, head = some found → ∃ before t middle, seen = before ++ t :: middle ∧
    t.role = .dynamicKeyword ∧ found = ⟨t.text, nameIn (middle ++ rest)⟩ ∧
    (∀ u ∈ middle, u.role ≠ .dynamicKeyword) ∧
    ∀ word, key = some word → ∃ front k between, middle = front ++ k :: between ∧
      k.role = .identifier ∧ k.text = word ∧ ∀ u ∈ between, u.role ≠ .identifier

variable {seen rest : List ClassifiedToken} {head : Option BlockHead} {key : Option Text}
  {t : ClassifiedToken}

theorem reached_nil : Reached [] rest none key := fun _ hfound => nomatch hfound

theorem reached_head (h : t.role = .dynamicKeyword) :
    Reached (seen ++ [t]) rest (some ⟨t.text, nameIn rest⟩) none := by
  rintro _ ⟨⟩
  exact ⟨seen, t, [], rfl, h, rfl, List.forall_mem_nil _, nofun⟩

theorem reached_key (hreached : Reached seen (t :: rest) head key) (h : t.role = .identifier) :
    Reached (seen ++ [t]) rest head (some t.text) := by
  intro found hfound
  obtain ⟨before, w, middle, rfl, hw, rfl, hmiddle, -⟩ := hreached found hfound
  refine ⟨before, w, middle ++ [t], by simp, hw, by simp, ?_, ?_⟩
  · refine List.forall_mem_append.mpr ⟨hmiddle, List.forall_mem_singleton.mpr ?_⟩
    rw [h]
    decide
  · rintro _ ⟨⟩
    exact ⟨middle, t, [], rfl, h, rfl, List.forall_mem_nil _⟩

theorem reached_other (hreached : Reached seen (t :: rest) head key)
    (hhead : t.role ≠ .dynamicKeyword) (hkey : t.role ≠ .identifier) :
    Reached (seen ++ [t]) rest head key := by
  intro found hfound
  obtain ⟨before, w, middle, rfl, hw, rfl, hmiddle, hkeys⟩ := hreached found hfound
  refine ⟨before, w, middle ++ [t], by simp, hw, by simp,
    List.forall_mem_append.mpr ⟨hmiddle, List.forall_mem_singleton.mpr hhead⟩, fun word hword => ?_⟩
  obtain ⟨front, k, between, rfl, hk, htext, hbetween⟩ := hkeys word hword
  exact ⟨front, k, between ++ [t], by simp, hk, htext,
    List.forall_mem_append.mpr ⟨hbetween, List.forall_mem_singleton.mpr hkey⟩⟩

/-- **A comment belongs to the last head before it and to the last key behind that head.** -/
theorem exists_of_mem_located {tokens : List ClassifiedToken} {c : PropertyComment}
    (hreached : Reached seen tokens head key) (h : (t, c) ∈ located head key tokens) :
    ∃ before w middle k between after,
      seen ++ tokens = before ++ w :: (middle ++ k :: (between ++ t :: after)) ∧
      w.role = .dynamicKeyword ∧ k.role = .identifier ∧
      (∀ u ∈ middle ++ k :: between, u.role ≠ .dynamicKeyword) ∧
      (∀ u ∈ between, u.role ≠ .identifier) ∧
      c = ⟨w.text, nameIn (middle ++ k :: (between ++ t :: after)), k.text, t.text⟩ := by
  fun_induction located head key tokens generalizing seen with
  | case1 => cases h
  | case2 head key u rest hrole ih =>
    rw [List.append_cons]
    exact ih (reached_head hrole) h
  | case3 head key u rest hrole ih =>
    rw [List.append_cons]
    exact ih (reached_key hreached hrole) h
  | case4 u rest hrole head key ih =>
    rcases List.mem_cons.mp h with heq | h
    · obtain ⟨rfl, rfl⟩ := Prod.mk.inj heq
      obtain ⟨before, w, middle, rfl, hw, rfl, hmiddle, hkeys⟩ := hreached head rfl
      obtain ⟨front, k, between, rfl, hk, rfl, hbetween⟩ := hkeys key rfl
      exact ⟨before, w, front, k, between, rest, by simp, hw, hk, hmiddle, hbetween, by simp⟩
    · rw [List.append_cons]
      exact ih (reached_other hreached (by rw [hrole]; decide) (by rw [hrole]; decide)) h
  | case5 u rest hrole head key hnone ih =>
    rw [List.append_cons]
    exact ih (reached_other hreached (by rw [hrole]; decide) (by rw [hrole]; decide)) h
  | case6 head key u rest hhead hkey hcomment ih =>
    rw [List.append_cons]
    exact ih (reached_other hreached hhead hkey) h

/-- The property that a comment is put on is one of the instance without its comments. -/
theorem mem_of_key? {c : PropertyComment} {i : Instance} {name : Text} (h : c.key? i = some name) :
    name ∈ i.withoutComments.properties.names ∧ Text.sameName name c.propertyName := by
  have hfound := List.find?_some h
  obtain ⟨hplain, hsame⟩ := Bool.and_eq_true_iff.mp hfound
  obtain ⟨p, hp, rfl⟩ := List.mem_map.mp (List.mem_of_find?_eq_some h)
  exact ⟨List.mem_map_of_mem (List.mem_filter.mpr ⟨hp, hplain⟩), hsame⟩

end PropertyComment

theorem Instance.IsOf.called {o : ReadOptions} {r : Block} {e : Expression} {i : Instance}
    (h : i.IsOf o (r, e)) :
    i.withoutComments.resourceName = r.keyword ∧
      i.withoutComments.instanceName = Building.instanceName e := by
  obtain ⟨schema, rfl⟩ := h
  exact ⟨rfl, rfl⟩

/-- The properties of an instance are called like keys of its block. -/
theorem Instance.IsOf.exists_key {o : ReadOptions} {r : Block} {e : Expression} {i : Instance}
    (h : i.IsOf o (r, e)) {name : Text} (hname : name ∈ i.withoutComments.properties.names) :
    ∃ entry ∈ r.body.entries, entry.key = name := by
  obtain ⟨schema, rfl⟩ := h
  obtain ⟨p, hp, rfl⟩ := List.mem_map.mp hname
  exact Binding.names_bound (List.mem_map_of_mem (List.mem_filter.mp hp).1)

/-- The instances of a build are those of the blocks that its node block declares. -/
theorem Build.forall₂_instances {script body : List Statement} {extent : Extent}
    (hnode : nodeBlock? script = some (extent, body)) {o : ReadOptions} {lookup : DeclLookup}
    {built : Build} (hbuilt : ofStatements o lookup script = .ok built) :
    List.Forall₂ (fun declared i => Instance.IsOf o declared i)
      (body.filterMap Building.declaration?) built.instances := by
  obtain ⟨c, hc, hfirst⟩ := Option.bind_eq_some_iff.mp hnode
  obtain ⟨more, hmore⟩ := nodeBodies_eq_cons hfirst
  rw [ofStatements_of_nodes hc hmore] at hbuilt
  cases hstatements : Building.statements o body.length 0 body (opening o lookup c more) with
  | error e =>
    rw [hstatements] at hbuilt
    cases hbuilt
  | ok result =>
    rw [hstatements] at hbuilt
    cases hbuilt
    exact Building.forall₂_statements hstatements

/-- An instance with comments on it is one that was built of a resource. -/
theorem Build.exists_declared {script body : List Statement} {extent : Extent}
    (hnode : nodeBlock? script = some (extent, body)) {o : ReadOptions} {lookup : DeclLookup}
    {built : Build} (hbuilt : ofStatements o lookup script = .ok built) {m n : Nat}
    {tokens : List ClassifiedToken} {i : Instance}
    (h : (PropertyComment.attachFirst m tokens built.instances)[n]? = some i) :
    ∃ r e i₀, (body.filterMap Building.declaration?)[n]? = some (r, e) ∧
      built.instances[n]? = some i₀ ∧ i₀.IsOf o (r, e) ∧
      i₀.withoutComments = i.withoutComments := by
  have hplain := congrArg (·[n]?)
    (PropertyComment.attachFirst_withoutComments m tokens built.instances)
  simp only [List.getElem?_map, h, Option.map_some] at hplain
  obtain ⟨i₀, hi₀, hsame⟩ := Option.map_eq_some_iff.mp hplain.symm
  obtain ⟨⟨r, e⟩, hdeclared, hof⟩ :=
    exists_getElem?_of_forall₂ (forall₂_instances hnode hbuilt) hi₀
  exact ⟨r, e, i₀, hdeclared, hi₀, hof, hsame⟩

/-! ### Owners of comments

The stream knows heads and keys by their texts only.  These are the conditions under
which that is enough to tell whose they are, and a test for them on given texts.
-/

/-- The stream tells the resources of a node block apart. -/
structure Script.TellsApart (script : Script) (body : List Statement) : Prop where
  /-- Heads and keys are those of blocks in the tree. -/
  heads : ∀ t ∈ script.tokens, t.role = .dynamicKeyword → script.IsHead t.text t.start.toLocation
  keys : ∀ t ∈ script.tokens, t.role = .identifier → script.IsKey t.text t.start.toLocation
  /-- Names in the stream are those in the tree. -/
  named : ∀ b e, Node.Occurs script.statements (.block b) → b.instanceName = some e →
    ∀ before t rest, script.tokens = before ++ t :: rest → b.IsHead t.text t.start.toLocation →
      PropertyComment.nameIn rest = Building.instanceName e
  /-- No other block is called like a resource. -/
  alone : ∀ r name, .block r ∈ body → r.instanceName = some name →
    ∀ b e, Node.Occurs script.statements (.block b) → b.instanceName = some e →
      Text.sameName r.keyword b.keyword →
      Text.sameName (Building.instanceName name) (Building.instanceName e) →
        b.keywordLocation = r.keywordLocation
  /-- A block without a name has no key that a resource has, unless it stands in another one. -/
  apart : ∀ r b, Script.IsDeclared body r → Node.Occurs script.statements (.block b) →
    b.instanceName = none →
    (∀ r', Script.IsDeclared body r' → (Node.block r').Holds (.block b) → r' = r) →
      ∀ own ∈ r.body.entries, ∀ entry ∈ b.body.entries, ¬ Text.sameName own.key entry.key

namespace Script

/-- A test for heads and keys. -/
def hasBlock (script : Script) (t : ClassifiedToken) : Bool :=
  let blocks := Statement.blocksOf script.statements
  match t.role with
  | .dynamicKeyword => blocks.any fun b =>
    b.instanceName.isSome && b.keyword == t.text && b.keywordLocation == t.start.toLocation
  | .identifier => blocks.any fun b => b.body.entries.any fun entry =>
    entry.key == t.text && entry.keyLocation == t.start.toLocation
  | _ => true

/-- A test for the name of a block at the tokens from a place on. -/
def agreesOn (b : Block) (e : Expression) : List ClassifiedToken → Bool
  | [] => true
  | t :: rest =>
    (b.keywordLocation != t.start.toLocation ||
      PropertyComment.nameIn rest == Building.instanceName e) && agreesOn b e rest

/-- A test for blocks that are told apart from a resource. -/
def isApartFrom (b r : Block) (name : Expression) : Bool :=
  match b.instanceName with
  | some e => b.keywordLocation == r.keywordLocation || !(Text.sameName r.keyword b.keyword &&
      Text.sameName (Building.instanceName name) (Building.instanceName e))
  | none => r.body.entries.all fun own => b.body.entries.all fun entry =>
      !Text.sameName own.key entry.key

/-- A test for streams that tell resources apart; where a block without a name stands is not looked
at. -/
def tellsApart (script : Script) (body : List Statement) : Bool :=
  script.tokens.all script.hasBlock && (Statement.blocksOf script.statements).all fun b =>
    (b.instanceName.all fun e => agreesOn b e script.tokens) &&
      (body.filterMap Building.declaration?).all fun (r, name) => isApartFrom b r name

variable {script : Script} {body : List Statement}

theorem isHead_of_hasBlock {t : ClassifiedToken} (h : script.hasBlock t)
    (hrole : t.role = .dynamicKeyword) : script.IsHead t.text t.start.toLocation := by
  simp only [hasBlock, hrole, List.any_eq_true, Bool.and_eq_true, beq_iff_eq] at h
  obtain ⟨b, hb, ⟨hnamed, hkeyword⟩, hlocation⟩ := h
  exact ⟨b, Node.occurs_of_mem_blocksOf hb, hnamed, hkeyword, hlocation⟩

theorem isKey_of_hasBlock {t : ClassifiedToken} (h : script.hasBlock t)
    (hrole : t.role = .identifier) : script.IsKey t.text t.start.toLocation := by
  simp only [hasBlock, hrole, List.any_eq_true, Bool.and_eq_true, beq_iff_eq] at h
  obtain ⟨b, hb, entry, hentry, hkey, hlocation⟩ := h
  exact ⟨b, Node.occurs_of_mem_blocksOf hb, entry, hentry, hkey, hlocation⟩

theorem nameIn_of_agreesOn {b : Block} {e : Expression} {before rest : List ClassifiedToken}
    {t : ClassifiedToken} (h : agreesOn b e (before ++ t :: rest))
    (hlocation : b.keywordLocation = t.start.toLocation) :
    PropertyComment.nameIn rest = Building.instanceName e := by
  induction before with
  | nil =>
    obtain ⟨hhere, -⟩ := Bool.and_eq_true_iff.mp h
    simpa [hlocation] using hhere
  | cons u before ih => exact ih (Bool.and_eq_true_iff.mp h).2

/-- **The test finds streams that tell resources apart.** -/
theorem TellsApart.of_test (h : script.tellsApart body) : script.TellsApart body := by
  obtain ⟨htokens, hblocks⟩ := Bool.and_eq_true_iff.mp h
  rw [List.all_eq_true] at htokens hblocks
  have hblock {b : Block} (hb : Node.Occurs script.statements (.block b)) :=
    Bool.and_eq_true_iff.mp (hblocks b (Node.mem_blocksOf hb))
  have hresource {b : Block} (hb : Node.Occurs script.statements (.block b)) {r : Block}
      {name : Expression} (hr : .block r ∈ body) (hname : r.instanceName = some name) :
      isApartFrom b r name := by
    refine List.all_eq_true.mp (hblock hb).2 (r, name) (List.mem_filterMap.mpr ⟨_, hr, ?_⟩)
    rw [Building.declaration?, hname]
    rfl
  refine ⟨fun t ht => isHead_of_hasBlock (htokens t ht), fun t ht => isKey_of_hasBlock (htokens t ht),
    fun b e hb hname before t rest hsplit hhead => ?_, fun r name hr hname b e hb he hkeyword hsame => ?_,
    fun r b hr hb hnone _ own hown entry hentry hsame => ?_⟩
  · have hnamed := (hblock hb).1
    rw [hname, hsplit] at hnamed
    exact nameIn_of_agreesOn hnamed hhead.location
  · have hapart := hresource hb hr hname
    rw [isApartFrom, he] at hapart
    simpa [hkeyword, hsame] using hapart
  · obtain ⟨name, hname⟩ := Option.isSome_iff_exists.mp hr.2
    have hapart := hresource hb hr.1 hname
    rw [isApartFrom, hnone] at hapart
    have hdifferent := List.all_eq_true.mp (List.all_eq_true.mp hapart own hown) entry hentry
    rw [hsame] at hdifferent
    cases hdifferent

end Script

/-- The tokens from the first node keyword on are at the end of the stream. -/
theorem PropertyComment.fromNode_suffix (tokens : List ClassifiedToken) :
    fromNode tokens <:+ tokens := by
  unfold fromNode
  have hsuffix := List.dropWhile_suffix (l := tokens) fun t => !isNodeKeyword t
  split
  · exact List.suffix_refl tokens
  · next t after hdrop =>
    rw [hdrop] at hsuffix
    exact (List.suffix_cons t after).trans hsuffix

/-- A comment among the tokens of a node belongs to the last head and the last key before it. -/
theorem PropertyComment.exists_of_mem_locatedIn {tokens : List ClassifiedToken}
    {t : ClassifiedToken} {c : PropertyComment} (h : (t, c) ∈ locatedIn tokens) :
    ∃ before w middle k between after,
      tokens = before ++ w :: (middle ++ k :: (between ++ t :: after)) ∧
      w.role = .dynamicKeyword ∧ k.role = .identifier ∧
      (∀ u ∈ middle ++ k :: between, u.role ≠ .dynamicKeyword) ∧
      (∀ u ∈ between, u.role ≠ .identifier) ∧
      c = ⟨w.text, nameIn (middle ++ k :: (between ++ t :: after)), k.text, t.text⟩ := by
  obtain ⟨before, w, middle, k, between, after, hsplit, hrest⟩ := exists_of_mem_located reached_nil h
  obtain ⟨skipped, hskipped⟩ := fromNode_suffix tokens
  refine ⟨skipped ++ before, w, middle, k, between, after, ?_, hrest⟩
  rw [List.append_assoc, ← hsplit]
  exact hskipped.symm

namespace Configuration

/-- **A comment that is attached to a property of an instance belongs to the resource that the
instance is built of**: the last key of a block before it is a key of this resource, and the one
of the property.  The instances meet the comments one at a time, and after the last one they are
those that `attachComments` returns. -/
theorem attached_owned {source : Text} {script : Script} (h : Script.parse source = .ok script)
    {extent : Extent} {body : List Statement}
    (hnode : Build.nodeBlock? script.statements = some (extent, body))
    (hapart : script.TellsApart body) {o : ReadOptions} {lookup : DeclLookup} {built : Build}
    (hbuilt : Build.ofStatements o lookup script.statements = .ok built) {m n : Nat}
    {t : ClassifiedToken} {c : PropertyComment}
    (hcomment : (PropertyComment.locatedIn script.tokens)[m]? = some (t, c)) {i : Instance}
    (hinstance : (PropertyComment.attachFirst m script.tokens built.instances)[n]? = some i)
    (hof : c.isOf i) {name : Text} (hname : c.key? i = some name) :
    (PropertyComment.attachFirst 0 script.tokens built.instances = built.instances ∧
      PropertyComment.attachFirst (m + 1) script.tokens built.instances =
        c.apply (PropertyComment.attachFirst m script.tokens built.instances) ∧
      PropertyComment.attachFirst (PropertyComment.locatedIn script.tokens).length script.tokens
        built.instances = attachComments script.tokens built.instances) ∧
    ∃ r e i₀ before key between after,
      (body.filterMap Building.declaration?)[n]? = some (r, e) ∧
      built.instances[n]? = some i₀ ∧ i₀.IsOf o (r, e) ∧
      script.tokens = before ++ key :: (between ++ t :: after) ∧
      (∀ u ∈ between, ¬ script.IsKey u.text u.start.toLocation) ∧
      r.IsKey key.text key.start.toLocation ∧ Text.sameName name key.text := by
  refine ⟨⟨PropertyComment.attachFirst_zero _ _, PropertyComment.attachFirst_succ hcomment _,
    PropertyComment.attachFirst_length _ _⟩, ?_⟩
  obtain ⟨before, w, middle, k, between, after, htokens, hw, hk, hheadless, hkeyless, rfl⟩ :=
    PropertyComment.exists_of_mem_locatedIn (List.mem_of_getElem? hcomment)
  -- The head is that of a block, by which the comment is called.
  obtain ⟨b, hb, hhead⟩ := hapart.heads w (by rw [htokens]; simp) hw
  obtain ⟨e', he'⟩ := Option.isSome_iff_exists.mp hhead.named
  have hcalled := hapart.named b e' hb he' _ _ _ htokens hhead
  -- The instance is built of a resource, which is called like it.
  obtain ⟨r, e, i₀, hdeclared, hi₀, hof₀, hsame⟩ := Build.exists_declared hnode hbuilt hinstance
  obtain ⟨hr, hre⟩ := Building.of_mem_declarations (List.mem_of_getElem? hdeclared)
  obtain ⟨hkeyword, hnamed⟩ := hof₀.called
  rw [hsame] at hkeyword hnamed
  obtain ⟨hsameKeyword, hsameName⟩ := Bool.and_eq_true_iff.mp hof
  have hplace := hapart.alone r e hr hre b e' hb he'
    (by rw [← hkeyword, hhead.keyword]; exact hsameKeyword)
    (by rw [← hnamed, ← hcalled]; exact hsameName)
  -- The key is that of a block, which is the resource: others have no such key.
  obtain ⟨b', hb', hk'⟩ := hapart.keys k (by rw [htokens]; simp) hk
  have hkeyless' : ∀ u ∈ between, ¬ script.IsKey u.text u.start.toLocation := fun u hu hkey =>
    hkeyless u hu (Script.role_of_isKey h (by rw [htokens]; simp [hu]) hkey)
  have hheadless' : ∀ u ∈ middle, ¬ script.IsHead u.text u.start.toLocation := fun u hu hhead =>
    hheadless u (List.mem_append_left _ hu)
      (Script.role_of_isHead h (by rw [htokens]; simp [hu]) hhead)
  obtain ⟨hin, hsameKey⟩ := PropertyComment.mem_of_key? hname
  have hr' : Script.IsDeclared body r := ⟨hr, by rw [hre]; rfl⟩
  have howner := Script.owner_of_key h hnode hr' hb' htokens
    (hplace.symm.trans hhead.location) hk' hheadless'
  refine ⟨r, e, i₀, before ++ w :: middle, k, between, after, hdeclared, hi₀, hof₀,
    by rw [htokens]; simp, hkeyless', ?_, hsameKey⟩
  rcases howner with rfl | ⟨hnameless, hwithin⟩
  · exact hk'
  · obtain ⟨entry, hentry, hkey, -⟩ := hk'
    obtain ⟨own, hown, rfl⟩ := hof₀.exists_key (by rwa [hsame])
    exact absurd (by rwa [hkey]) (hapart.apart r b' hr' hb' hnameless hwithin own hown entry hentry)

/-- Two resources with comments, the first of them with a block within it. -/
def sitesSource : Text :=
  "Configuration C \x7b Node n \x7b
    Site a \x7b Name = 1 # one\n Bind = Host \x7b Port = 2 # two\n \x7d \x7d
    Site b \x7b Name = 3 # three\n \x7d \x7d \x7d"

theorem attached_owned_sites : ∃ script extent body built t c i name,
    Script.parse sitesSource = .ok script ∧
    Build.nodeBlock? script.statements = some (extent, body) ∧ script.TellsApart body ∧
    Build.ofStatements .lenient (fun _ _ => none) script.statements = .ok built ∧
    (PropertyComment.locatedIn script.tokens)[2]? = some (t, c) ∧
    (PropertyComment.attachFirst 2 script.tokens built.instances)[1]? = some i ∧
    c.isOf i ∧ c.key? i = some name ∧
    (PropertyComment.attachFirst 0 script.tokens built.instances = built.instances ∧
      PropertyComment.attachFirst 3 script.tokens built.instances =
        c.apply (PropertyComment.attachFirst 2 script.tokens built.instances) ∧
      PropertyComment.attachFirst (PropertyComment.locatedIn script.tokens).length script.tokens
        built.instances = attachComments script.tokens built.instances) ∧
    ∃ r e i₀ before key between after,
      (body.filterMap Building.declaration?)[1]? = some (r, e) ∧
      built.instances[1]? = some i₀ ∧ i₀.IsOf .lenient (r, e) ∧
      script.tokens = before ++ key :: (between ++ t :: after) ∧
      (∀ u ∈ between, ¬ script.IsKey u.text u.start.toLocation) ∧
      r.IsKey key.text key.start.toLocation ∧ Text.sameName name key.text := by
  have hread : ((Script.parse sitesSource).toOption.any fun script =>
      (Build.nodeBlock? script.statements).any fun found =>
        (Build.ofStatements .lenient (fun _ _ => none) script.statements).toOption.any fun built =>
          (PropertyComment.locatedIn script.tokens)[2]?.any fun comment =>
            (PropertyComment.attachFirst 2 script.tokens built.instances)[1]?.any fun i =>
              script.tellsApart found.2 && (comment.2.isOf i && (comment.2.key? i).isSome)) = true := by
    decide +kernel
  simp only [Option.any_eq_true, Bool.and_eq_true, toOption_eq_some_iff] at hread
  obtain ⟨script, h, ⟨extent, body⟩, hnode, built, hbuilt, ⟨t, c⟩, hcomment, i, hinstance, htest, hof,
    hkey⟩ := hread
  obtain ⟨name, hname⟩ := Option.isSome_iff_exists.mp hkey
  have hapart := Script.TellsApart.of_test htest
  exact ⟨script, extent, body, built, t, c, i, name, h, hnode, hapart, hbuilt, hcomment, hinstance, hof,
    hname, attached_owned h hnode hapart hbuilt hcomment hinstance hof hname⟩

/-- A resource with a block within it that has a key of the same name, and a comment behind that. -/
def nestedCommentSource : Text :=
  "Configuration C \x7b Node n \x7b Site s \x7b Name = 1; Binding = Bind \x7b Name = 2 # nested\n" ++
    "\x7d \x7d \x7d \x7d"

/-- The last key before the comment, what stands between, and the comment. -/
def nestedKey : ClassifiedToken := .inFirstLine .identifier "Name" 63

def nestedValue : List ClassifiedToken :=
  [.inFirstLine .punctuation "=" 68, .inFirstLine .number "2" 70]

def nestedComment : ClassifiedToken := .inFirstLine .comment "# nested" 72

/-- **A comment within a block without a name is attached to the resource around it**, if the
resource has a property of that name. -/
theorem attached_nested : ∃ script r e built c i name before after,
    Script.parse nestedCommentSource = .ok script ∧ script.statements.length = 1 ∧
    (∃ config extent body, Build.configuration? script.statements = some config ∧
      config.body.length = 1 ∧ Build.nodeBlock? script.statements = some (extent, body) ∧
      body.filterMap Building.declaration? = [(r, e)]) ∧
    Build.ofStatements .lenient (fun _ _ => none) script.statements = .ok built ∧
    built.instances[0]? = some i ∧
    (PropertyComment.locatedIn script.tokens)[0]? = some (nestedComment, c) ∧
    c.isOf i ∧ c.key? i = some name ∧
    script.tokens = before ++ nestedKey :: (nestedValue ++ nestedComment :: after) ∧
    script.IsKey nestedKey.text nestedKey.start.toLocation ∧
    (∀ u ∈ nestedValue, ¬ script.IsKey u.text u.start.toLocation) ∧
    ¬ r.IsKey nestedKey.text nestedKey.start.toLocation := by
  have hread : ((Script.parse nestedCommentSource).toOption.any fun script =>
      (Build.configuration? script.statements).any fun config =>
        (Build.nodeBlock? script.statements).any fun found =>
          (found.2.filterMap Building.declaration?).head?.any fun declared =>
            (Build.ofStatements .lenient (fun _ _ => none) script.statements).toOption.any fun built =>
              built.instances[0]?.any fun i =>
                (PropertyComment.locatedIn script.tokens)[0]?.any fun comment =>
                  script.statements.length == 1 && config.body.length == 1 &&
                  (found.2.filterMap Building.declaration?).length == 1 &&
                  comment.1 == nestedComment && comment.2.isOf i && (comment.2.key? i).isSome &&
                  script.tokens.drop 17 ==
                    nestedKey :: (nestedValue ++ nestedComment :: script.tokens.drop 21) &&
                  script.hasBlock nestedKey && declared.1.body.entries.all fun entry =>
                    entry.keyLocation != nestedKey.start.toLocation) = true := by
    decide +kernel
  simp only [Option.any_eq_true, Bool.and_eq_true, beq_iff_eq, toOption_eq_some_iff] at hread
  obtain ⟨script, h, config, hconfig, ⟨extent, body⟩, hnode, ⟨r, e⟩, hfirst, built, hbuilt, i,
    hinstance, ⟨t, c⟩, hcomment, ⟨⟨⟨⟨⟨⟨⟨⟨hscript, hbody⟩, hone⟩, rfl⟩, hof⟩, hkey⟩, htokens⟩, hblock⟩,
      hother⟩⟩ := hread
  obtain ⟨name, hname⟩ := Option.isSome_iff_exists.mp hkey
  have hdeclared : body.filterMap Building.declaration? = [(r, e)] := by
    obtain ⟨declared, hdeclared⟩ := List.length_eq_one_iff.mp hone
    rw [hdeclared] at hfirst ⊢
    exact congrArg List.singleton (Option.some.inj hfirst)
  have hsplit : script.tokens = script.tokens.take 17 ++
      nestedKey :: (nestedValue ++ nestedComment :: script.tokens.drop 21) := by
    rw [← htokens, List.take_append_drop]
  have hkeyless : ∀ u ∈ nestedValue, u.role ≠ .identifier := by decide
  refine ⟨script, r, e, built, c, i, name, _, _, h, hscript,
    ⟨config, extent, body, hconfig, hbody, hnode, hdeclared⟩, hbuilt, hinstance, hcomment, hof, hname,
    hsplit, Script.isKey_of_hasBlock hblock rfl, fun u hu hisKey => ?_, ?_⟩
  · exact hkeyless u hu (Script.role_of_isKey h (by rw [hsplit]; simp [hu]) hisKey)
  · rintro ⟨entry, hentry, -, hlocation⟩
    have hdifferent := List.all_eq_true.mp hother entry hentry
    rw [hlocation, bne_self_eq_false] at hdifferent
    cases hdifferent

end Configuration

end DesiredState
