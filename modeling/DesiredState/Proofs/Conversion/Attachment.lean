/-
Attaching comments adds comments and nothing else, and adds them once.

A comment goes to one instance and under one key.  Neither depends on the comments that have
been attached before: instances keep their names, and a key is looked for among the others than
those of comments.  So a list of comments does to a list of instances what it does to each of
them, and to one instance it gives values under keys that are known beforehand.  Values that are
given twice, in the same order, end up as they were.
-/
import DesiredState.Proofs.Conversion.Ownership

namespace DesiredState

/-! ### Values given one after another

Comments overwrite each other, so that attaching them twice is not attaching each of
them twice in a row.  The later values are what counts: giving the whole list again runs
into the values that it has left.
-/

namespace Fields

variable {α : Type} {fields : Fields α} {name other : Text} {value : α}

/-- Gives names values, one after another. -/
def setAll (fields : Fields α) (pairs : List (Text × α)) : Fields α :=
  pairs.foldl (fun fields pair => fields.set pair.1 pair.2) fields

theorem setAll_cons (fields : Fields α) (pair : Text × α) (rest : List (Text × α)) :
    fields.setAll (pair :: rest) = (fields.set pair.1 pair.2).setAll rest := rfl

theorem setAll_append (fields : Fields α) (front behind : List (Text × α)) :
    fields.setAll (front ++ behind) = (fields.setAll front).setAll behind :=
  List.foldl_append

/-- Of two values of a name the later one stays. -/
theorem set_set (name : Text) (old value : α) (fields : Fields α) :
    (fields.set name old).set name value = fields.set name value := by
  fun_induction set name old fields with
  | case1 => simp [set]
  | case2 => simp [set]
  | case3 other kept rest hne ih => simp [set, hne, ih]

theorem set_of_get? (h : fields.get? name = some value) : fields.set name value = fields := by
  fun_induction set name value fields with
  | case1 => cases h
  | case2 old rest =>
    rw [get?, if_pos rfl] at h
    rw [Option.some.inj h]
  | case3 other old rest hne ih =>
    rw [get?, if_neg hne] at h
    rw [ih h]

/-- A name that has a place already may be given its value later. -/
theorem set_comm (h : name ∈ fields.names) (hne : name ≠ other) (value value' : α) :
    (fields.set name value).set other value' = (fields.set other value').set name value := by
  fun_induction set name value fields with
  | case1 => cases h
  | case2 old rest => simp [set, hne]
  | case3 key old rest hkey ih =>
    have hrest : name ∈ names rest := (List.mem_cons.mp h).resolve_left fun he => hkey he.symm
    by_cases hother : key = other
    · simp [set, hother, Ne.symm hne]
    · simp [set, hother, hkey, ih hrest]

theorem mem_names_set_self : name ∈ (fields.set name value).names := by
  rw [names_set]
  split
  · assumption
  · exact List.mem_append_right _ List.mem_cons_self

theorem mem_names_set (h : other ∈ fields.names) : other ∈ (fields.set name value).names := by
  rw [names_set]
  split
  · exact h
  · exact List.mem_append_left _ h

/-- What is given before another value of the same name is forgotten. -/
theorem setAll_set_of_mem {pairs : List (Text × α)} (hpairs : name ∈ pairs.map Prod.fst)
    (h : name ∈ fields.names) (value : α) :
    (fields.set name value).setAll pairs = fields.setAll pairs := by
  induction pairs generalizing fields with
  | nil => cases hpairs
  | cons pair rest ih =>
    rw [setAll_cons, setAll_cons]
    by_cases hname : name = pair.1
    · rw [hname, set_set]
    · rw [set_comm h hname, ih ((List.mem_cons.mp hpairs).resolve_left hname) (mem_names_set h)]

theorem get?_setAll_of_not_mem {pairs : List (Text × α)} (hpairs : name ∉ pairs.map Prod.fst) :
    (fields.setAll pairs).get? name = fields.get? name := by
  induction pairs generalizing fields with
  | nil => rfl
  | cons pair rest ih =>
    obtain ⟨hname, hrest⟩ := not_or.mp (mt List.mem_cons.mpr hpairs)
    rw [setAll_cons, ih hrest, get?_set_of_ne _ _ hname]

theorem mem_names_setAll {pairs : List (Text × α)} (h : name ∈ fields.names) :
    name ∈ (fields.setAll pairs).names := by
  induction pairs generalizing fields with
  | nil => exact h
  | cons pair rest ih => exact ih (mem_names_set h)

/-- **Values that are given twice end up as they were.**  The first value either is overwritten by a
later one, both times, or is still there when it is given again. -/
theorem setAll_setAll (fields : Fields α) (pairs : List (Text × α)) :
    (fields.setAll pairs).setAll pairs = fields.setAll pairs := by
  induction pairs generalizing fields with
  | nil => rfl
  | cons pair rest ih =>
    rw [setAll_cons, setAll_cons]
    by_cases hmem : pair.1 ∈ rest.map Prod.fst
    · rw [setAll_set_of_mem hmem (mem_names_setAll mem_names_set_self), ih]
    · have hthere : ((fields.set pair.1 pair.2).setAll rest).get? pair.1 = some pair.2 := by
        rw [get?_setAll_of_not_mem hmem, get?_set_self]
      rw [set_of_get? hthere, ih]

/-- Names stay in their places, and new ones come behind them. -/
theorem names_prefix_setAll (fields : Fields α) (pairs : List (Text × α)) :
    fields.names <+: (fields.setAll pairs).names := by
  induction pairs generalizing fields with
  | nil => exact List.prefix_rfl
  | cons pair rest ih =>
    refine List.IsPrefix.trans ?_ (ih _)
    rw [names_set]
    split
    · exact List.prefix_rfl
    · exact List.prefix_append _ _

/-- A field that is not given a value stays in its place. -/
theorem getElem?_set_of_ne {n : Nat} (h : fields[n]? = some (other, value)) (hne : other ≠ name)
    (given : α) : (fields.set name given)[n]? = some (other, value) := by
  fun_induction set name given fields generalizing n with
  | case1 => cases h
  | case2 old rest =>
    cases n with
    | zero =>
      cases h
      exact absurd rfl hne
    | succ n => exact h
  | case3 key old rest hkey ih =>
    cases n with
    | zero => exact h
    | succ n => exact ih h

theorem getElem?_setAll_of_not_mem {pairs : List (Text × α)} {n : Nat}
    (h : fields[n]? = some (name, value)) (hpairs : name ∉ pairs.map Prod.fst) :
    (fields.setAll pairs)[n]? = some (name, value) := by
  induction pairs generalizing fields with
  | nil => exact h
  | cons pair rest ih =>
    obtain ⟨hname, hrest⟩ := not_or.mp (mt List.mem_cons.mpr hpairs)
    exact ih (getElem?_set_of_ne h hname _) hrest

/-- What stands in a place either stood there before or has been given. -/
theorem getElem?_set {n : Nat} {field : Text × α}
    (h : (fields.set name value)[n]? = some field) :
    fields[n]? = some field ∨ field = (name, value) := by
  fun_induction set name value fields generalizing n with
  | case1 =>
    cases n with
    | zero => exact .inr (Option.some.inj h).symm
    | succ n => cases h
  | case2 old rest =>
    cases n with
    | zero => exact .inr (Option.some.inj h).symm
    | succ n => exact .inl h
  | case3 key old rest hkey ih =>
    cases n with
    | zero => exact .inl h
    | succ n => exact ih h

theorem getElem?_setAll {pairs : List (Text × α)} {n : Nat} {field : Text × α}
    (h : (fields.setAll pairs)[n]? = some field) : fields[n]? = some field ∨ field ∈ pairs := by
  induction pairs generalizing fields with
  | nil => exact .inl h
  | cons pair rest ih =>
    rcases ih h with h | h
    · exact (getElem?_set h).imp_right fun he => by rw [he]; exact List.mem_cons_self
    · exact .inr (List.mem_cons_of_mem _ h)

end Fields

/-! ### Comments on one instance

A comment looks for a property under any spelling of its key and passes over the keys of
comments.  What it finds is therefore the same before and after other comments, and can
be said beforehand.
-/

namespace PropertyComment

/-- The field that a comment gives to an instance, if it belongs to one of its properties. -/
def field? (c : PropertyComment) (i : Instance) : Option (Text × Value) :=
  match c.key? i with
  | none | some [] => none
  | some key => some (metadataKey key, .string c.comment)

/-- What comments give to an instance. -/
def fieldsOf (comments : List PropertyComment) (i : Instance) : List (Text × Value) :=
  comments.filterMap (·.field? i)

theorem fieldsOf_cons (c : PropertyComment) (rest : List PropertyComment) (i : Instance) :
    fieldsOf (c :: rest) i = (c.field? i).toList ++ fieldsOf rest i := by
  cases h : c.field? i <;> simp [fieldsOf, h]

theorem field?_eq_some {c : PropertyComment} {i : Instance} {field : Text × Value}
    (h : c.field? i = some field) :
    ∃ key ∈ i.properties.names, isMetadataKey key = false ∧
      field = (metadataKey key, .string c.comment) := by
  unfold field? at h
  split at h
  · cases h
  · cases h
  · next key _ hkey =>
    have hfound := List.find?_some hkey
    rw [Bool.and_eq_true, Bool.not_eq_true'] at hfound
    exact ⟨key, List.mem_of_find?_eq_some hkey, hfound.1, (Option.some.inj h).symm⟩

theorem addTo_eq (c : PropertyComment) (i : Instance) :
    c.addTo i = { i with properties := i.properties.setAll (c.field? i).toList } := by
  unfold addTo field?
  cases c.key? i with
  | none => rfl
  | some key =>
    cases key with
    | nil => rfl
    | cons => rfl

/-- Where comments are put does not depend on the comments that are there. -/
theorem key?_addTo (c d : PropertyComment) (i : Instance) : c.key? (d.addTo i) = c.key? i := by
  unfold addTo
  split
  · rfl
  · rfl
  · next key _ _ =>
    unfold key?
    rw [Fields.names_set]
    split
    · rfl
    · rw [List.find?_append, List.find?_singleton, isMetadataKey_metadataKey, Bool.not_true,
        Bool.false_and, if_neg Bool.false_ne_true, Option.or_none]

theorem fieldsOf_addTo (comments : List PropertyComment) (d : PropertyComment) (i : Instance) :
    fieldsOf comments (d.addTo i) = fieldsOf comments i := by
  unfold fieldsOf field?
  simp only [key?_addTo]

/-- Comments give an instance values under keys that are known beforehand. -/
theorem foldl_addTo (comments : List PropertyComment) (i : Instance) :
    comments.foldl (fun i c => c.addTo i) i =
      { i with properties := i.properties.setAll (fieldsOf comments i) } := by
  induction comments generalizing i with
  | nil => rfl
  | cons c rest ih =>
    rw [List.foldl_cons, ih, fieldsOf_addTo, addTo_eq, fieldsOf_cons, Fields.setAll_append]

theorem fieldsOf_foldl_addTo (comments more : List PropertyComment) (i : Instance) :
    fieldsOf comments (more.foldl (fun i c => c.addTo i) i) = fieldsOf comments i := by
  induction more generalizing i with
  | nil => rfl
  | cons d rest ih => rw [List.foldl_cons, ih, fieldsOf_addTo]

theorem foldl_addTo_twice (comments : List PropertyComment) (i : Instance) :
    comments.foldl (fun i c => c.addTo i) (comments.foldl (fun i c => c.addTo i) i) =
      comments.foldl (fun i c => c.addTo i) i := by
  rw [foldl_addTo, fieldsOf_foldl_addTo, foldl_addTo, Fields.setAll_setAll]

theorem isOf_foldl_addTo (c : PropertyComment) (comments : List PropertyComment) (i : Instance) :
    c.isOf (comments.foldl (fun i c => c.addTo i) i) = c.isOf i := by
  rw [foldl_addTo]
  rfl

/-! ### Comments on all instances -/

/-- **Of the comments on a list of instances the first instance gets those that are on it**, and the
others those that are left. -/
theorem foldl_apply_cons (comments : List PropertyComment) (i : Instance)
    (rest : List Instance) :
    comments.foldl (fun instances c => c.apply instances) (i :: rest) =
      (comments.filter (·.isOf i)).foldl (fun i c => c.addTo i) i ::
        (comments.filter fun c => !c.isOf i).foldl (fun instances c => c.apply instances) rest := by
  induction comments generalizing i rest with
  | nil => rfl
  | cons c more ih =>
    rw [List.foldl_cons, apply]
    by_cases h : c.isOf i
    · have hsame (d : PropertyComment) : d.isOf (c.addTo i) = d.isOf i :=
        d.isOf_foldl_addTo [c] i
      have hpos : ((c :: more).filter fun d => d.isOf i) = c :: more.filter (·.isOf i) :=
        List.filter_cons_of_pos h
      have hneg : ((c :: more).filter fun d => !d.isOf i) = more.filter fun d => !d.isOf i :=
        List.filter_cons_of_neg (by simpa using h)
      rw [if_pos h, ih, hpos, hneg, List.foldl_cons]
      simp only [hsame]
    · have hpos : ((c :: more).filter fun d => !d.isOf i) = c :: more.filter fun d => !d.isOf i :=
        List.filter_cons_of_pos (by simpa using h)
      have hneg : ((c :: more).filter fun d => d.isOf i) = more.filter (·.isOf i) :=
        List.filter_cons_of_neg h
      rw [if_neg h, ih, hpos, hneg, List.foldl_cons]

theorem foldl_apply_nil (comments : List PropertyComment) :
    comments.foldl (fun instances c => c.apply instances) [] = [] := by
  induction comments with
  | nil => rfl
  | cons c rest ih => exact ih

theorem foldl_apply_twice (comments : List PropertyComment) (instances : List Instance) :
    comments.foldl (fun instances c => c.apply instances)
        (comments.foldl (fun instances c => c.apply instances) instances) =
      comments.foldl (fun instances c => c.apply instances) instances := by
  induction instances generalizing comments with
  | nil => rw [foldl_apply_nil, foldl_apply_nil]
  | cons i rest ih =>
    rw [foldl_apply_cons, foldl_apply_cons]
    simp only [isOf_foldl_addTo]
    rw [foldl_addTo_twice, ih]

/-- The instances with comments are the instances, each with some of the comments. -/
theorem forall₂_foldl_apply (comments : List PropertyComment) (instances : List Instance) :
    List.Forall₂ (fun i j => ∃ own : List PropertyComment, own.Sublist comments ∧
        j = own.foldl (fun i c => c.addTo i) i)
      instances (comments.foldl (fun instances c => c.apply instances) instances) := by
  induction instances generalizing comments with
  | nil =>
    rw [foldl_apply_nil]
    exact .nil
  | cons i rest ih =>
    rw [foldl_apply_cons]
    refine .cons ⟨_, List.filter_sublist, rfl⟩ ((ih _).imp fun i j ⟨own, hown, hj⟩ => ?_)
    exact ⟨own, hown.trans List.filter_sublist, hj⟩

/-! ### The comments of a stream -/

/-- A token is a comment behind the first node keyword, or anywhere if there is no such keyword. -/
def Counts (tokens : List ClassifiedToken) (t : ClassifiedToken) : Prop :=
  t.role = .comment ∧ ∃ front behind, tokens = front ++ t :: behind ∧
    ((∃ u ∈ front, isNodeKeyword u) ∨ ∀ u ∈ tokens, ¬ isNodeKeyword u)

/-- What stands behind the first node keyword. -/
theorem fromNode_eq (tokens : List ClassifiedToken) :
    (fromNode tokens = tokens ∧ ∀ u ∈ tokens, ¬ isNodeKeyword u) ∨
      ∃ front u, tokens = front ++ u :: fromNode tokens ∧ isNodeKeyword u := by
  have hsplit := List.takeWhile_append_dropWhile (p := fun t => !isNodeKeyword t) (l := tokens)
  have hhead := List.head?_dropWhile_not (fun t => !isNodeKeyword t) tokens
  unfold fromNode
  cases hdrop : tokens.dropWhile fun t => !isNodeKeyword t with
  | nil => exact .inl ⟨rfl, by simpa using hdrop⟩
  | cons u rest =>
    rw [hdrop] at hsplit hhead
    exact .inr ⟨_, u, hsplit.symm, by simpa using hhead⟩

theorem exists_of_mem_scan {head : Option BlockHead} {key : Option Text}
    {tokens : List ClassifiedToken} {c : PropertyComment} (h : c ∈ scan head key tokens) :
    ∃ t ∈ tokens, t.role = .comment ∧ c.comment = t.text := by
  fun_induction scan head key tokens with
  | case1 => cases h
  | case4 t rest hrole head key ih =>
    rcases List.mem_cons.mp h with rfl | h
    · exact ⟨t, List.mem_cons_self, hrole, rfl⟩
    · obtain ⟨u, hu, hcomment⟩ := ih h
      exact ⟨u, List.mem_cons_of_mem t hu, hcomment⟩
  | case2 _ _ t rest _ ih | case3 _ _ t rest _ ih | case5 t rest _ _ _ _ ih
  | case6 _ _ t rest _ _ _ ih =>
    obtain ⟨u, hu, hcomment⟩ := ih h
    exact ⟨u, List.mem_cons_of_mem t hu, hcomment⟩

/-- The text of a comment on a property is that of a comment of the stream. -/
theorem exists_counts {tokens : List ClassifiedToken} {c : PropertyComment}
    (h : c ∈ ofTokens tokens) : ∃ t, Counts tokens t ∧ c.comment = t.text := by
  obtain ⟨t, ht, hrole, htext⟩ := exists_of_mem_scan h
  obtain ⟨between, behind, hfrom⟩ := List.append_of_mem ht
  refine ⟨t, ⟨hrole, ?_⟩, htext⟩
  rcases fromNode_eq tokens with ⟨hall, hnone⟩ | ⟨front, u, hsplit, hu⟩
  · exact ⟨between, behind, hall.symm.trans hfrom, .inr hnone⟩
  · refine ⟨front ++ u :: between, behind, ?_, .inl ⟨u, by simp, hu⟩⟩
    rw [hsplit, hfrom, List.append_assoc]
    rfl

end PropertyComment

/-- One instance is another one with comments of a stream on some of its properties: names stay in
their places, with new ones behind them, and every value that is not the same is a comment under the
key of its property. -/
structure Instance.GainsComments (tokens : List ClassifiedToken) (before after : Instance) : Prop where
  resourceName : after.resourceName = before.resourceName
  instanceName : after.instanceName = before.instanceName
  names : before.properties.names <+: after.properties.names
  kept : ∀ (n : Nat) name value, before.properties[n]? = some (name, value) →
    isMetadataKey name = false → after.properties[n]? = some (name, value)
  comments : ∀ (n : Nat) name value, after.properties[n]? = some (name, value) →
    before.properties[n]? ≠ some (name, value) →
      ∃ key ∈ before.properties.names, isMetadataKey key = false ∧ name = metadataKey key ∧
        ∃ t, PropertyComment.Counts tokens t ∧ value = .string t.text

/-- Comments of a stream on an instance. -/
theorem PropertyComment.gainsComments_foldl_addTo {tokens : List ClassifiedToken}
    {comments : List PropertyComment} (h : comments ⊆ ofTokens tokens) (i : Instance) :
    i.GainsComments tokens (comments.foldl (fun i c => c.addTo i) i) := by
  rw [foldl_addTo]
  refine ⟨rfl, rfl, Fields.names_prefix_setAll _ _, fun n name value hn hname => ?_,
    fun n name value hn hnew => ?_⟩
  · refine Fields.getElem?_setAll_of_not_mem hn fun hgiven => ?_
    obtain ⟨field, hfield, rfl⟩ := List.mem_map.mp hgiven
    obtain ⟨c, -, hc⟩ := List.mem_filterMap.mp hfield
    obtain ⟨key, -, -, rfl⟩ := field?_eq_some hc
    rw [isMetadataKey_metadataKey] at hname
    cases hname
  · obtain ⟨c, hc, hfield⟩ := List.mem_filterMap.mp ((Fields.getElem?_setAll hn).resolve_left hnew)
    obtain ⟨key, hkey, hplain, hgiven⟩ := field?_eq_some hfield
    obtain ⟨t, ht, htext⟩ := exists_counts (h hc)
    obtain ⟨rfl, rfl⟩ := Prod.mk.inj hgiven
    exact ⟨key, hkey, hplain, rfl, t, ht, congrArg Value.string htext⟩

/-- **Attaching comments only adds comments, and adds them once.**  Instance by instance everything
but the comments stays where it is, and what is new is the text of a comment of the stream under the
key of a property of that instance; done again, it changes nothing. -/
theorem attachComments_annotates (tokens : List ClassifiedToken) (instances : List Instance) :
    List.Forall₂ (Instance.GainsComments tokens) instances (attachComments tokens instances) ∧
      attachComments tokens (attachComments tokens instances) = attachComments tokens instances := by
  refine ⟨?_, PropertyComment.foldl_apply_twice _ _⟩
  refine (PropertyComment.forall₂_foldl_apply _ instances).imp fun i j ⟨own, hown, hj⟩ => ?_
  rw [hj]
  exact PropertyComment.gainsComments_foldl_addTo hown.subset i

end DesiredState
