/-
What an index finds.

The resources that an index keeps under a name are those of the catalog that answer to it,
in the order of the catalog.  Of these the ones in scope are compared one after another,
and as versions are in order, the one that is left is the first of the highest.
-/
import DesiredState.Catalog.Index
import DesiredState.Proofs.Catalog.Order
import Mathlib.Data.List.Induction

namespace DesiredState

namespace ResourceDecl

/-! ### Names -/

/-- A resource answers to its names in lower case. -/
theorem lower_mem_keys (r : ResourceDecl) (name : Text) :
    Text.lower name ∈ r.keys ↔ r.answersTo name := by
  obtain ⟨own, _, _, friendly, _, _⟩ := r
  have hsame (other : Text) :
      Text.lower name = Text.lower other ↔ Text.sameName other name = true := by
    rw [Text.sameName, beq_iff_eq, eq_comm]
  simp only [keys, answersTo, List.mem_cons, Bool.or_eq_true, hsame]
  cases friendly with
  | none => simp
  | some friendly =>
    cases friendly with
    | nil => simp
    | cons c rest =>
      dsimp only
      split
      · next heq =>
        -- The friendly name says nothing that the other one does not say.
        rw [← hsame (c :: rest), heq, hsame]
        simp
      · rw [List.mem_singleton, hsame]

/-- No name is there twice. -/
theorem nodup_keys (r : ResourceDecl) : r.keys.Nodup := by
  obtain ⟨own, _, _, friendly, _, _⟩ := r
  refine List.nodup_cons.mpr ?_
  dsimp only
  split
  · simp
  · simp
  · next friendly _ =>
    by_cases hsame : Text.lower friendly = Text.lower own
    · simp [hsame]
    · simp [hsame, Ne.symm hsame]

/-! ### The highest version

The resources are compared one after another, while what is to be found is told by all
of them at once.  The two agree if versions are in order, and they are if their parts
are numbers.
-/

/-- Whether a resource has no higher version than another one. -/
def isUpTo (other r : ResourceDecl) : Bool := (Version.compare other.version r.version).isLE

/-- The first resource with a version that no other one exceeds. -/
def firstNewest? (resources : List ResourceDecl) : Option ResourceDecl :=
  resources.find? fun r => resources.all (isUpTo · r)

theorem newest?_concat (resources : List ResourceDecl) (r : ResourceDecl) :
    newest? (resources ++ [r]) = some (((newest? resources).map (newer · r)).getD r) := by
  cases resources with
  | nil => rfl
  | cons first rest =>
    rw [List.cons_append, newest?, List.foldl_append]
    rfl

theorem newest?_eq_none_iff {resources : List ResourceDecl} :
    newest? resources = none ↔ resources = [] := by
  cases resources <;> simp [newest?]

theorem isUpTo_refl {r : ResourceDecl} (h : Version.IsFinite r.version) : isUpTo r r := by
  rw [isUpTo, Version.compare_self h]
  rfl

variable {resources : List ResourceDecl} {best last : ResourceDecl}

/-- A resource with no higher version than the first of the highest leaves that one in place. -/
theorem firstNewest?_concat_of_isUpTo (hbest : firstNewest? resources = some best)
    (hup : isUpTo last best) : firstNewest? (resources ++ [last]) = some best := by
  obtain ⟨hall, before, behind, hsplit, hearlier⟩ := List.find?_eq_some_iff_append.mp hbest
  refine List.find?_eq_some_iff_append.mpr
    ⟨?_, before, behind ++ [last], by rw [hsplit, List.append_assoc]; rfl, fun r hr => ?_⟩
  · rw [List.all_append, hall, List.all_cons, hup]
    rfl
  · rw [List.all_append, Bool.not_and, hearlier r hr, Bool.true_or]

/-- A resource with a higher version than the first of the highest exceeds all, and takes its
place. -/
theorem firstNewest?_concat_of_gt (hbest : firstNewest? resources = some best)
    (hfinite : ∀ r ∈ resources, Version.IsFinite r.version) (hlast : Version.IsFinite last.version)
    (hhigher : Version.compare last.version best.version = .gt) :
    firstNewest? (resources ++ [last]) = some last := by
  obtain ⟨hall, -⟩ := List.find?_eq_some_iff_append.mp hbest
  rw [List.all_eq_true] at hall
  have hfbest := hfinite best (List.mem_of_find?_eq_some hbest)
  have hlower : isUpTo best last := by
    rw [isUpTo, Version.compare_swap hlast hfbest, hhigher]
    rfl
  have hnot : ¬ isUpTo last best := by
    rw [isUpTo, hhigher]
    decide
  refine List.find?_eq_some_iff_append.mpr ⟨?_, resources, [], rfl, fun r hr => ?_⟩
  · refine List.all_eq_true.mpr (List.forall_mem_append.mpr
      ⟨fun r hr => ?_, List.forall_mem_singleton.mpr (isUpTo_refl hlast)⟩)
    exact Version.compare_trans (hfinite r hr) hfbest hlast (hall r hr) hlower
  · have hnone : ¬ isUpTo last r := fun h =>
      hnot (Version.compare_trans hlast (hfinite r hr) hfbest h (hall r hr))
    simp [hnone]

/-- **One resource after another, the first of the highest version is kept**, as versions are in
order. -/
theorem newest?_eq_firstNewest? (hfinite : ∀ r ∈ resources, Version.IsFinite r.version) :
    newest? resources = firstNewest? resources := by
  induction resources using List.reverseRecOn with
  | nil => rfl
  | append_singleton resources last ih =>
    obtain ⟨hbefore, hlast⟩ := List.forall_mem_append.mp hfinite
    have hlast := List.forall_mem_singleton.mp hlast
    rw [newest?_concat]
    cases hbest : newest? resources with
    | none =>
      rw [newest?_eq_none_iff.mp hbest]
      simpa [firstNewest?] using isUpTo_refl hlast
    | some best =>
      rw [ih hbefore] at hbest
      rw [Option.map_some, Option.getD_some, newer]
      by_cases hhigher : Version.compare last.version best.version = .gt
      · rw [if_pos hhigher, firstNewest?_concat_of_gt hbest hbefore hlast hhigher]
      · have hup : isUpTo last best := by
          rw [isUpTo]
          cases h : Version.compare last.version best.version <;> first | rfl | exact absurd h hhigher
        rw [if_neg hhigher, firstNewest?_concat_of_isUpTo hbest hup]

end ResourceDecl

namespace Catalog.Index

/-! ### What is kept under a name

An index is filled resource by resource, and each is put under several names.  What one
name is answered with is followed through both loops.
-/

theorem under_add (r : ResourceDecl) (index : Index) (key other : Text) :
    (index.add r key).under other = index.under other ++ if other = key then [r] else [] := by
  unfold add under
  by_cases h : other = key
  · rw [h, Fields.get?_set_self, if_pos rfl]
    rfl
  · rw [Fields.get?_set_of_ne _ _ h, if_neg h, List.append_nil]

/-- Under each of its names a resource is put once. -/
theorem under_addAll (r : ResourceDecl) {keys : List Text} (hkeys : keys.Nodup) (index : Index)
    (other : Text) :
    under (keys.foldl (add r) index) other =
      index.under other ++ if other ∈ keys then [r] else [] := by
  induction keys generalizing index with
  | nil => simp
  | cons key rest ih =>
    obtain ⟨hkey, hrest⟩ := List.nodup_cons.mp hkeys
    rw [List.foldl_cons, ih hrest, under_add, List.append_assoc]
    by_cases h : other = key
    · subst h
      simp [hkey]
    · simp [h]

/-- **Under a name stand the resources that answer to it**, in the order of the catalog. -/
theorem under_ofCatalog (catalog : Catalog) (name : Text) :
    (ofCatalog catalog).under (Text.lower name) = catalog.filter (·.answersTo name) := by
  induction catalog using List.reverseRecOn with
  | nil => rfl
  | append_singleton catalog r ih =>
    rw [ofCatalog, List.foldl_append, ← ofCatalog, List.foldl_cons, List.foldl_nil,
      under_addAll r r.nodup_keys, ih, List.filter_append]
    congr 1
    by_cases h : r.answersTo name
    · rw [if_pos ((r.lower_mem_keys name).mpr h), List.filter_cons, if_pos h, List.filter_nil]
    · rw [if_neg (mt (r.lower_mem_keys name).mp h), List.filter_cons, if_neg h, List.filter_nil]

/-- **An index finds what a search of the catalog finds.** -/
theorem find?_ofCatalog (catalog : Catalog) (name : Text) (scope : ImportScope) :
    (ofCatalog catalog).find? name scope = catalog.find? name scope := by
  rw [find?, under_ofCatalog, List.filter_filter, Catalog.find?]
  exact congrArg _ (List.filter_congr fun r _ => Bool.and_comm _ _)

end Catalog.Index

/-- **Of the resources that answer to a name and are in scope, the first of the highest version is
found.**  Versions with finite parts are in order, so that there is a highest one; that nothing is
found does not depend on it. -/
theorem Catalog.Index.find?_firstNewest :
    (∀ a b c, Version.IsFinite a → Version.IsFinite b → Version.IsFinite c →
      Version.compare a a = .eq ∧ Version.compare b a = (Version.compare a b).swap ∧
        ((Version.compare a b).isLE → (Version.compare b c).isLE →
          (Version.compare a c).isLE)) ∧
    ∀ (catalog : Catalog) (name : Text) (scope : ImportScope),
      ((ofCatalog catalog).find? name scope = none ↔
        ∀ r ∈ catalog, ¬ (r.answersTo name ∧ scope.admits r)) ∧
      ((∀ r ∈ catalog, Version.IsFinite r.version) →
        let eligible := catalog.filter fun r => r.answersTo name && scope.admits r
        (ofCatalog catalog).find? name scope = eligible.find? fun r =>
          eligible.all fun other => (Version.compare other.version r.version).isLE) := by
  refine ⟨fun a b c ha hb hc => ⟨Version.compare_self ha, Version.compare_swap ha hb,
    Version.compare_trans ha hb hc⟩, fun catalog name scope => ?_⟩
  rw [find?_ofCatalog, Catalog.find?]
  refine ⟨?_, fun hfinite => ?_⟩
  · rw [ResourceDecl.newest?_eq_none_iff, List.filter_eq_nil_iff]
    simp only [Bool.and_eq_true]
  · exact ResourceDecl.newest?_eq_firstNewest? fun r hr => hfinite r (List.mem_filter.mp hr).1

/-- Three versions of one resource, the latest of them twice, and a resource with its name as a
friendly one. -/
def siteVersions : Catalog :=
  let site (version : Option Text) (properties : List PropertyDecl) : ResourceDecl :=
    ⟨"Site", some "Web", version, none, properties, []⟩
  [site (some "1.9") [], site (some "1.10.0") [⟨"Port", "[Int32]", false, []⟩], site none [],
    site (some "1.10") [], ⟨"WebSite", some "Web", some "1.2", some "SITE", [], []⟩]

theorem Catalog.Index.find?_firstNewest_site :
    (∀ r ∈ siteVersions, Version.IsFinite r.version) ∧
      (ofCatalog siteVersions).find? "site" .everything = siteVersions[1]? ∧
      Version.IsFinite "1.9" ∧ Version.IsFinite "1.10" ∧ Version.IsFinite "2.x" ∧
      (Version.compare "1.9" "1.10").isLE ∧ (Version.compare "1.10" "2.x").isLE ∧
      (Version.compare "1.9" "2.x").isLE := by
  have hfinite : ∀ r ∈ siteVersions, Version.IsFinite r.version := by decide +kernel
  have hparts : Version.IsFinite "1.9" ∧ Version.IsFinite "1.10" ∧ Version.IsFinite "2.x" := by
    decide +kernel
  have hup : (Version.compare "1.9" "1.10").isLE ∧ (Version.compare "1.10" "2.x").isLE := by
    decide +kernel
  refine ⟨hfinite, ?_, hparts.1, hparts.2.1, hparts.2.2, hup.1, hup.2, ?_⟩
  · rw [(find?_firstNewest.2 siteVersions "site" .everything).2 hfinite]
    decide +kernel
  · exact (find?_firstNewest.1 _ _ _ hparts.1 hparts.2.1 hparts.2.2).2.2 hup.1 hup.2

end DesiredState
