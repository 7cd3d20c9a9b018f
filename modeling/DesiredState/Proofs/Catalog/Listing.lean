/-
What a listing shows.

A listing goes through the catalog once and keeps what is to be seen: resources that are no
infrastructure, are in scope and have a name that one of the patterns matches.  What it shows
can be looked up: the resource itself is among those that answer to its name and are in
scope, so that one with a version at least as high is found.
-/
import DesiredState.Proofs.Catalog.Scope
import DesiredState.Proofs.Wildcard

namespace DesiredState

/-- A pattern matches one of the names of a resource. -/
def ResourceDecl.IsMatchedBy (r : ResourceDecl) (pattern : Text) : Prop :=
  Wildcard.Matches pattern r.name ∨
    ∃ friendly, r.friendlyName = some friendly ∧ Wildcard.Matches pattern friendly

/-- A resource is to be listed: it is no infrastructure, it is in scope, and some pattern matches
one of its names. -/
structure ResourceDecl.IsListed (r : ResourceDecl) (patterns : List Text) (scope : ImportScope) :
    Prop where
  visible : isHidden r.name = false
  inScope : scope.admits r
  isMatched : ∃ pattern ∈ patterns, r.IsMatchedBy pattern

namespace ResourceDecl

theorem hasMatch_iff (r : ResourceDecl) (pattern : Text) :
    r.hasMatch pattern ↔ r.IsMatchedBy pattern := by
  unfold hasMatch IsMatchedBy
  rw [Bool.or_eq_true, Wildcard.isMatch_iff]
  cases r.friendlyName with
  | none => simp
  | some friendly => simp [Wildcard.isMatch_iff]

theorem isListed_iff (r : ResourceDecl) (patterns : List Text) (scope : ImportScope) :
    (!isHidden r.name && scope.admits r && patterns.any r.hasMatch) ↔
      r.IsListed patterns scope := by
  simp only [Bool.and_eq_true, Bool.not_eq_true', List.any_eq_true, hasMatch_iff]
  exact ⟨fun h => ⟨h.1.1, h.1.2, h.2⟩, fun h => ⟨⟨h.visible, h.inScope⟩, h.isMatched⟩⟩

theorem answersTo_name (r : ResourceDecl) : r.answersTo r.name := by
  rw [answersTo, Text.sameName, beq_self_eq_true, Bool.true_or]

end ResourceDecl

/-! ### Places -/

/-- The items of a list stand in the places below its length. -/
theorem map_some_eq_range {α : Type} (xs : List α) :
    xs.map some = (List.range xs.length).map (xs[·]?) := by
  refine List.ext_getElem? fun n => ?_
  rw [List.getElem?_map, List.getElem?_map]
  by_cases h : n < xs.length
  · rw [List.getElem?_range h, Option.map_some, List.getElem?_eq_getElem h]
    rfl
  · rw [List.getElem?_eq_none (Nat.le_of_not_lt h),
      List.getElem?_eq_none (by rw [List.length_range]; omega)]
    rfl

/-- What a filter keeps stands in places that go up. -/
theorem exists_places {α : Type} (p : α → Bool) (xs : List α) :
    ∃ places : List Nat, places.Pairwise (· < ·) ∧
      (∀ n, n ∈ places ↔ ∃ x, xs[n]? = some x ∧ p x) ∧
      (xs.filter p).map some = places.map (xs[·]?) := by
  refine ⟨(List.range xs.length).filter fun n => xs[n]?.any p, List.pairwise_lt_range.filter _,
    fun n => ?_, ?_⟩
  · rw [List.mem_filter, List.mem_range, Option.any_eq_true]
    refine ⟨And.right, fun h => ⟨?_, h⟩⟩
    obtain ⟨x, hx, -⟩ := h
    exact (List.getElem?_eq_some_iff.mp hx).1
  · have hfilter : (xs.map some).filter (·.any p) = (xs.filter p).map some := List.filter_map
    rw [← hfilter, map_some_eq_range, List.filter_map]
    rfl

/-! ### Listing and looking up -/

/-- What is in scope is found by its name, if not in a higher version. -/
theorem Catalog.exists_find?_name {catalog : Catalog} {r : ResourceDecl} {scope : ImportScope}
    (hr : r ∈ catalog) (hscope : scope.admits r) :
    ∃ found, catalog.find? r.name scope = some found ∧
      ((∀ r ∈ catalog, Version.IsFinite r.version) →
        (Version.compare found.version r.version).isGE) := by
  have hmem : r ∈ catalog.filter fun other => other.answersTo r.name && scope.admits other :=
    List.mem_filter.mpr ⟨hr, (Bool.and_eq_true _ _).mpr ⟨r.answersTo_name, hscope⟩⟩
  have hfound : catalog.find? r.name scope ≠ none := fun hnone =>
    List.ne_nil_of_mem hmem (ResourceDecl.newest?_eq_none_iff.mp hnone)
  obtain ⟨found, hfound⟩ := Option.ne_none_iff_exists'.mp hfound
  refine ⟨found, hfound, fun hfinite => ?_⟩
  have halone : ResourceDecl.newest? [r] = some r := rfl
  obtain ⟨highest, hhighest, hversion⟩ := ResourceDecl.newest?_mono
    (fun other hother => hfinite other (List.mem_filter.mp hother).1)
    (List.cons_subset.mpr ⟨hmem, List.nil_subset _⟩) halone
  obtain rfl : found = highest := Option.some.inj (hfound.symm.trans hhighest)
  exact hversion

/-- **A listing is exact, and what it shows can be looked up.**  It goes through the places of the
catalog in their order, each of them once, and shows what is to be listed; of each resource it
shows the name finds one that is in scope and, as versions are in order, in no lower version. -/
theorem Catalog.list_listed (catalog : Catalog) (patterns : List Text) (scope : ImportScope) :
    (∃ places : List Nat, places.Pairwise (· < ·) ∧
      (∀ n, n ∈ places ↔ ∃ r, catalog[n]? = some r ∧ r.IsListed patterns scope) ∧
      (catalog.list patterns scope).map some = places.map (catalog[·]?)) ∧
    ∀ r ∈ catalog.list patterns scope, ∃ found,
      (Index.ofCatalog catalog).find? r.name scope = some found ∧
        ((∀ r ∈ catalog, Version.IsFinite r.version) →
          (Version.compare found.version r.version).isGE) := by
  refine ⟨?places, fun r hr => ?found⟩
  case places =>
    obtain ⟨places, hup, hmem, hmap⟩ := exists_places
      (fun r => !ResourceDecl.isHidden r.name && scope.admits r && patterns.any r.hasMatch) catalog
    refine ⟨places, hup, fun n => (hmem n).trans ?_, hmap⟩
    simp only [ResourceDecl.isListed_iff]
  case found =>
    obtain ⟨hcatalog, hlisted⟩ := List.mem_filter.mp hr
    have hscope := ((r.isListed_iff patterns scope).mp hlisted).inScope
    obtain ⟨found, hfound, hversion⟩ := exists_find?_name hcatalog hscope
    refine ⟨found, ?_, hversion⟩
    rw [Index.find?_ofCatalog]
    exact hfound

theorem Catalog.list_listed_site :
    let r : ResourceDecl := ⟨"Site", some "Web", some "1.9", none, [], []⟩
    r ∈ siteVersions.list ["*.*", "s?TE"] .everything ∧
      (∀ r ∈ siteVersions, Version.IsFinite r.version) ∧
      ∃ found, (Index.ofCatalog siteVersions).find? "Site" .everything = some found ∧
        (Version.compare found.version "1.9").isGE := by
  intro r
  have hr : r ∈ siteVersions.list ["*.*", "s?TE"] .everything := by decide +kernel
  have hfinite : ∀ r ∈ siteVersions, Version.IsFinite r.version := by decide +kernel
  obtain ⟨found, hfound, hversion⟩ := (list_listed siteVersions _ .everything).2 r hr
  exact ⟨hr, hfinite, found, hfound, hversion hfinite⟩

end DesiredState
