/-
Wider scopes.

An import lets resources through one by one, so more imports let more of them through, and so
does an import that is content with later versions.  Where more resources are in scope a name
finds one at least where it did before, and as versions are in order, in no lower version.
-/
import DesiredState.Proofs.Catalog
import DesiredState.Proofs.Catalog.Index
import Mathlib.Data.List.Basic

namespace DesiredState

/-! ### A version and itself -/

namespace Version

/-- A part is no lower than itself, even one that is not equal to itself. -/
theorem isGE_compareParts_self (part : Binary64) : (compareParts part part).isGE := by
  cases part with
  | infinite negative => cases negative <;> rfl
  | nan => rfl
  | finite =>
    rw [compareParts_of_isFinite rfl rfl, Std.ReflOrd.compare_self]
    rfl

theorem isGE_compareAll_self (parts : List Binary64) : (compareAll parts parts).isGE := by
  induction parts with
  | nil => rfl
  | cons part rest ih =>
    have hpart := isGE_compareParts_self part
    rw [compareAll]
    cases h : compareParts part part with
    | lt => rw [h] at hpart; cases hpart
    | eq => exact ih
    | gt => rfl

theorem isGE_compare_self (version : Text) : (compare version version).isGE :=
  isGE_compareAll_self (parts version)

end Version

/-! ### What is in scope -/

/-- Whether a resource belongs to no module, or to the one that needs no import. -/
def ResourceDecl.IsBuiltIn (r : ResourceDecl) : Prop :=
  r.moduleName = none ∨ r.moduleName = some [] ∨
    ∃ module, r.moduleName = some module ∧ Text.sameName module hostModule

/-- Whether an import asks for a resource. -/
def Import.AsksFor (wanted : Import) (rule : VersionRule) (r : ResourceDecl) : Prop :=
  ∃ module, r.moduleName = some module ∧ Text.sameName wanted.moduleName module ∧
    rule.admits r.moduleVersion wanted.moduleVersion

/-- The version that is asked for meets the request for a later one, too. -/
theorem VersionRule.admits_minimum {actual wanted : Option Text}
    (h : VersionRule.exact.admits actual wanted) : VersionRule.minimum.admits actual wanted := by
  cases wanted with
  | none => cases actual <;> rfl
  | some wanted =>
    cases actual with
    | none => cases h
    | some actual =>
      obtain rfl : actual = wanted := eq_of_beq h
      exact Version.isGE_compare_self actual

theorem Import.AsksFor.minimum {wanted : Import} {r : ResourceDecl} (h : wanted.AsksFor .exact r) :
    wanted.AsksFor .minimum r := by
  obtain ⟨module, hmodule, hsame, hversion⟩ := h
  exact ⟨module, hmodule, hsame, VersionRule.admits_minimum hversion⟩

namespace ImportScope

/-- **A resource is in scope if it is built in, if nothing is imported, or if an import asks for
it.** -/
theorem admits_iff {scope : ImportScope} {r : ResourceDecl} :
    scope.admits r ↔ r.IsBuiltIn ∨ scope.imports = [] ∨
      ∃ wanted ∈ scope.imports, wanted.AsksFor scope.versionRule r := by
  unfold admits ResourceDecl.IsBuiltIn Import.AsksFor
  cases hmodule : r.moduleName with
  | none => simp
  | some module =>
    cases module with
    | nil => simp
    | cons c rest =>
      simp only [Bool.or_eq_true, List.isEmpty_iff, List.any_eq_true, Bool.and_eq_true,
        Option.some.injEq, reduceCtorEq, false_or, exists_eq_left', or_left_comm, or_assoc]

/-- One scope lets through whatever another one does. -/
def IsWithin (scope wider : ImportScope) : Prop :=
  ∀ r : ResourceDecl, scope.admits r → wider.admits r

theorem isWithin_of_subset {imports more : List Import} (rule : VersionRule) (hne : imports ≠ [])
    (hsub : imports ⊆ more) : IsWithin ⟨imports, rule⟩ ⟨more, rule⟩ := by
  intro r hr
  obtain hbuiltIn | hnone | ⟨wanted, hwanted, hasks⟩ := admits_iff.mp hr
  · exact admits_iff.mpr (Or.inl hbuiltIn)
  · exact absurd hnone hne
  · exact admits_iff.mpr (Or.inr (Or.inr ⟨wanted, hsub hwanted, hasks⟩))

theorem isWithin_minimum (imports : List Import) :
    IsWithin ⟨imports, .exact⟩ ⟨imports, .minimum⟩ := by
  intro r hr
  obtain hbuiltIn | hnone | ⟨wanted, hwanted, hasks⟩ := admits_iff.mp hr
  · exact admits_iff.mpr (Or.inl hbuiltIn)
  · exact admits_iff.mpr (Or.inr (Or.inl hnone))
  · exact admits_iff.mpr (Or.inr (Or.inr ⟨wanted, hwanted, hasks.minimum⟩))

end ImportScope

/-! ### What is found -/

/-- **Of a wider choice the highest version is no lower.** -/
theorem ResourceDecl.newest?_mono {resources more : List ResourceDecl} {r : ResourceDecl}
    (hfinite : ∀ r ∈ more, Version.IsFinite r.version) (hsub : resources ⊆ more)
    (h : newest? resources = some r) :
    ∃ r', newest? more = some r' ∧ (Version.compare r'.version r.version).isGE := by
  have hr : r ∈ more := hsub (mem_of_newest? h)
  cases hnewest : newest? more with
  | none =>
    rw [newest?_eq_none_iff.mp hnewest] at hr
    cases hr
  | some r' =>
    have hr' : r' ∈ more := mem_of_newest? hnewest
    rw [newest?_eq_firstNewest? hfinite] at hnewest
    obtain ⟨hall, -⟩ := List.find?_eq_some_iff_append.mp hnewest
    have hup : isUpTo r r' := List.all_eq_true.mp hall r hr
    refine ⟨r', rfl, ?_⟩
    rw [Version.compare_swap (hfinite r hr) (hfinite r' hr'), Ordering.isGE_swap]
    exact hup

theorem Catalog.find?_mono {catalog : Catalog} {name : Text} {scope wider : ImportScope}
    {r : ResourceDecl} (hfinite : ∀ r ∈ catalog, Version.IsFinite r.version)
    (hwithin : scope.IsWithin wider) (h : catalog.find? name scope = some r) :
    ∃ r', catalog.find? name wider = some r' ∧ (Version.compare r'.version r.version).isGE := by
  refine ResourceDecl.newest?_mono (fun r hr => hfinite r (List.mem_filter.mp hr).1) ?_ h
  intro r hr
  obtain ⟨hmem, heligible⟩ := List.mem_filter.mp hr
  obtain ⟨hname, hscope⟩ := (Bool.and_eq_true _ _).mp heligible
  exact List.mem_filter.mpr ⟨hmem, (Bool.and_eq_true _ _).mpr ⟨hname, hwithin r hscope⟩⟩

/-- In a wider scope the same patterns list at least the same resources, in the same order. -/
theorem Catalog.list_sublist (catalog : Catalog) (patterns : List Text)
    {scope wider : ImportScope} (hwithin : scope.IsWithin wider) :
    (catalog.list patterns scope).Sublist (catalog.list patterns wider) := by
  apply List.monotone_filter_right
  intro r hr
  simp only [Bool.and_eq_true] at hr ⊢
  exact ⟨⟨hr.1.1, hwithin r hr.1.2⟩, hr.2⟩

/-- **Wider scopes find no less.**  What is in scope with some imports is in scope with more of
them, and with the same ones when later versions do as well; a name that is found stays found, and
its version does not go down.  What needs no import is in every scope. -/
theorem Catalog.Index.find?_isGE_of_wider :
    (∀ (rule : VersionRule) (imports more : List Import), imports ≠ [] → imports ⊆ more →
      (∀ r, ImportScope.admits ⟨imports, rule⟩ r → ImportScope.admits ⟨more, rule⟩ r) ∧
        ∀ (catalog : Catalog) (name : Text), (∀ r ∈ catalog, Version.IsFinite r.version) →
          ∀ r, (ofCatalog catalog).find? name ⟨imports, rule⟩ = some r →
            ∃ r', (ofCatalog catalog).find? name ⟨more, rule⟩ = some r' ∧
              (Version.compare r'.version r.version).isGE) ∧
    (∀ imports : List Import,
      (∀ r, ImportScope.admits ⟨imports, .exact⟩ r → ImportScope.admits ⟨imports, .minimum⟩ r) ∧
        ∀ (catalog : Catalog) (name : Text), (∀ r ∈ catalog, Version.IsFinite r.version) →
          ∀ r, (ofCatalog catalog).find? name ⟨imports, .exact⟩ = some r →
            ∃ r', (ofCatalog catalog).find? name ⟨imports, .minimum⟩ = some r' ∧
              (Version.compare r'.version r.version).isGE) ∧
    ∀ (scope : ImportScope) (r : ResourceDecl), r.IsBuiltIn → scope.admits r := by
  refine ⟨?more, ?later, ?builtIn⟩
  case more =>
    intro rule imports more hne hsub
    have hwithin := ImportScope.isWithin_of_subset rule hne hsub
    refine ⟨hwithin, fun catalog name hfinite r hr => ?_⟩
    rw [find?_ofCatalog] at hr ⊢
    exact Catalog.find?_mono hfinite hwithin hr
  case later =>
    intro imports
    have hwithin := ImportScope.isWithin_minimum imports
    refine ⟨hwithin, fun catalog name hfinite r hr => ?_⟩
    rw [find?_ofCatalog] at hr ⊢
    exact Catalog.find?_mono hfinite hwithin hr
  case builtIn =>
    intro scope r hr
    exact ImportScope.admits_iff.mpr (Or.inl hr)

theorem Catalog.Index.find?_isGE_of_wider_site :
    let file : ResourceDecl := ⟨"File", some "psDesiredStateConfiguration", none, none, [], []⟩
    let pinned : Import := ⟨"web", some "1.9"⟩
    let more : List Import := [⟨"WEB", some "1.10"⟩, pinned]
    (∀ r ∈ siteVersions, Version.IsFinite r.version) ∧ [pinned] ⊆ more ∧
      (ofCatalog siteVersions).find? "Site" ⟨[pinned], .exact⟩ = siteVersions[0]? ∧
      (∃ r, (ofCatalog siteVersions).find? "Site" ⟨more, .exact⟩ = some r ∧
        (Version.compare r.version "1.9").isGE) ∧
      (∃ r, (ofCatalog siteVersions).find? "Site" ⟨[pinned], .minimum⟩ = some r ∧
        (Version.compare r.version "1.9").isGE) ∧
      ImportScope.admits ⟨more, .exact⟩ file := by
  intro file pinned more
  have hfinite : ∀ r ∈ siteVersions, Version.IsFinite r.version := by decide +kernel
  have hsub : [pinned] ⊆ more := List.subset_cons_self _ _
  have hfound : (ofCatalog siteVersions).find? "Site" ⟨[pinned], .exact⟩ = siteVersions[0]? := by
    rw [find?_ofCatalog]
    decide +kernel
  obtain ⟨hmore, hlater, hbuiltIn⟩ := find?_isGE_of_wider
  exact ⟨hfinite, hsub, hfound,
    (hmore .exact [pinned] more (List.cons_ne_nil _ _) hsub).2 siteVersions "Site" hfinite _ hfound,
    (hlater [pinned]).2 siteVersions "Site" hfinite _ hfound,
    hbuiltIn _ _ (Or.inr (Or.inr ⟨_, rfl, by decide +kernel⟩))⟩

end DesiredState
