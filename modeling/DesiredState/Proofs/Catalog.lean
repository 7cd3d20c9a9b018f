/-
What a catalog that was read is like.

Reading checks every part of a value, so what a check lets through has the property that
the check is there for, and arrays and members have it from their parts.  Of a catalog it
is used that every class has a name; then so has every class that a schema knows.
-/
import DesiredState.Catalog.Lookup
import DesiredState.Catalog.Reader
import DesiredState.Proofs.Session

namespace DesiredState

namespace Checked

variable {α β : Type}

theorem also_eq_ok {f : Checked (α → β)} {x : Checked α} {b : β} :
    also f x = .ok b ↔ ∃ g a, f = .ok g ∧ x = .ok a ∧ g a = b := by
  cases f <;> cases x <;> simp [also]

end Checked

namespace Catalog

variable {α : Type} {P : α → Prop}

/-- What a check lets through has a property. -/
def Check.Ensures (check : Check α) (P : α → Prop) : Prop :=
  ∀ path value a, check path value = .ok a → P a

theorem ensures_someText : Check.Ensures someText (· ≠ []) := by
  intro path value t h
  cases value with
  | string text =>
    cases text with
    | nil => cases h
    | cons c rest =>
      obtain rfl : c :: rest = t := Except.ok.inj h
      exact List.cons_ne_nil c rest
  | _ => cases h

theorem ensures_array {check : Check α} (h : check.Ensures P) :
    (array check).Ensures fun values => ∀ a ∈ values, P a := by
  have hitems : ∀ (path : List Text) (parts : List Json) (n : Nat) (values : List α),
      items check path n parts = .ok values → ∀ a ∈ values, P a := by
    intro path parts
    induction parts with
    | nil =>
      intro n values hvalues a ha
      obtain rfl : [] = values := Except.ok.inj hvalues
      cases ha
    | cons part rest ih =>
      intro n values hvalues a ha
      obtain ⟨g, more, hfirst, hmore, rfl⟩ := Checked.also_eq_ok.mp hvalues
      obtain ⟨build, first, hbuild, hpart, rfl⟩ := Checked.also_eq_ok.mp hfirst
      obtain rfl : List.cons = build := Except.ok.inj hbuild
      rcases List.mem_cons.mp ha with rfl | ha
      · exact h _ part _ hpart
      · exact ih (n + 1) more hmore a ha
  intro path value values hvalues
  cases value with
  | array parts => exact hitems path parts 0 values hvalues
  | _ => cases hvalues

theorem of_required {check : Check α} (h : check.Ensures P) {path : List Text}
    {members : Fields Json} {name : Text} {a : α} (ha : required check path members name = .ok a) :
    P a := by
  unfold required at ha
  split at ha
  · exact h _ _ _ ha
  · cases ha

theorem of_defaulted {check : Check α} (h : check.Ensures P) {default : α} (hdefault : P default)
    {path : List Text} {members : Fields Json} {name : Text} {a : α}
    (ha : defaulted check default path members name = .ok a) : P a := by
  unfold defaulted optional at ha
  split at ha
  · next value _ =>
    cases hvalue : check (path ++ [name]) value with
    | error issues =>
      rw [hvalue] at ha
      cases ha
    | ok b =>
      rw [hvalue] at ha
      obtain rfl : b = a := Except.ok.inj ha
      exact h _ _ _ hvalue
  · obtain rfl : default = a := Except.ok.inj ha
    exact hdefault

theorem ensures_object {check : List Text → Fields Json → Checked α}
    (h : ∀ path members a, check path members = .ok a → P a) : Check.Ensures (object check) P := by
  intro path value a ha
  cases value with
  | object members => exact h path members a ha
  | _ => cases ha

/-- A class is read with a name. -/
theorem ensures_embeddedType : embeddedType.Ensures (·.typeName ≠ []) := by
  refine ensures_object ?_
  intro path members c hc
  obtain ⟨g, properties, hname, -, rfl⟩ := Checked.also_eq_ok.mp hc
  obtain ⟨build, typeName, hbuild, htypeName, rfl⟩ := Checked.also_eq_ok.mp hname
  obtain rfl : ClassDecl.mk = build := Except.ok.inj hbuild
  exact of_required ensures_someText htypeName

/-- The classes of a resource are read with names. -/
theorem ensures_resource : resource.Ensures fun r => ∀ c ∈ r.embeddedTypes, c.typeName ≠ [] := by
  refine ensures_object ?_
  intro path members r hr
  obtain ⟨_, classes, h₅, hclasses, rfl⟩ := Checked.also_eq_ok.mp hr
  obtain ⟨_, _, h₄, -, rfl⟩ := Checked.also_eq_ok.mp h₅
  obtain ⟨_, _, h₃, -, rfl⟩ := Checked.also_eq_ok.mp h₄
  obtain ⟨_, _, h₂, -, rfl⟩ := Checked.also_eq_ok.mp h₃
  obtain ⟨_, _, h₁, -, rfl⟩ := Checked.also_eq_ok.mp h₂
  obtain ⟨build, _, h₀, -, rfl⟩ := Checked.also_eq_ok.mp h₁
  obtain rfl : ResourceDecl.mk = build := Except.ok.inj h₀
  exact of_defaulted (ensures_array ensures_embeddedType)
    (fun _ hc => absurd hc List.not_mem_nil) hclasses

/-- A catalog in which every class has a name. -/
def NamesClasses (catalog : Catalog) : Prop :=
  ∀ r ∈ catalog, ∀ c ∈ r.embeddedTypes, c.typeName ≠ []

/-- **A catalog that was read names its classes.** -/
theorem namesClasses_of_read {t : Text} {catalog : Catalog} (h : read t = .ok catalog) :
    catalog.NamesClasses := by
  unfold read at h
  split at h
  · cases h
  · next value _ =>
    have hchecked : ofJson value = .ok catalog := by
      cases hvalue : ofJson value with
      | error issues =>
        rw [hvalue] at h
        cases h
      | ok found =>
        rw [hvalue] at h
        exact congrArg Except.ok (Except.ok.inj h)
    refine ensures_object ?_ [] value catalog hchecked
    intro path members resources hresources
    exact of_required (ensures_array ensures_resource) hresources

end Catalog

/-! ### Schemas of a catalog -/

theorem ResourceDecl.mem_of_newest? {resources : List ResourceDecl} {r : ResourceDecl}
    (h : newest? resources = some r) : r ∈ resources := by
  have hfold : ∀ (rest : List ResourceDecl) (best : ResourceDecl),
      rest.foldl newer best = best ∨ rest.foldl newer best ∈ rest := by
    intro rest
    induction rest with
    | nil => exact fun _ => Or.inl rfl
    | cons other rest ih =>
      intro best
      rcases ih (newer best other) with he | hm
      · rw [List.foldl_cons, he, newer]
        split
        · exact Or.inr List.mem_cons_self
        · exact Or.inl rfl
      · exact Or.inr (List.mem_cons_of_mem other hm)
  cases resources with
  | nil => cases h
  | cons first rest =>
    obtain rfl : rest.foldl newer first = r := Option.some.inj h
    rcases hfold rest first with he | hm
    · rw [he]
      exact List.mem_cons_self
    · exact List.mem_cons_of_mem first hm

theorem Schema.Class.mem_of_byName {classes : List Schema.Class} {key : Text} {c : Schema.Class}
    (h : (byName classes).get? key = some c) : c ∈ classes := by
  have hmem := Fields.mem_ofPairs (Fields.mem_of_get? h)
  obtain ⟨other, hother, he⟩ := List.mem_map.mp hmem
  cases he
  exact hother

/-- **Every class that a resource of a catalog may use has a name**, whether it is its own or one of
the host. -/
theorem Catalog.NamesClasses.typeName_ne_nil {catalog : Catalog} (h : catalog.NamesClasses)
    {scope : ImportScope} {owner key : Text} {c : Schema.Class}
    (hc : Schema.Resource.classOf? (Schema.Resource.found? catalog.find? scope owner) key = some c) :
    c.typeName ≠ [] := by
  rcases Option.or_eq_some_iff.mp hc with hown | ⟨-, hhost⟩
  · obtain ⟨schema, hschema, hget⟩ := Option.bind_eq_some_iff.mp hown
    obtain ⟨r, hr, rfl⟩ := Option.map_eq_some_iff.mp hschema
    have hmem := ResourceDecl.mem_of_newest? hr
    obtain ⟨decl, hdecl, rfl⟩ := List.mem_map.mp (Schema.Class.mem_of_byName hget)
    exact h r (List.mem_filter.mp hmem).1 decl hdecl
  · have hmem := Schema.Class.mem_of_byName hhost
    simp only [Schema.Class.ofHost, List.mem_cons, List.not_mem_nil, or_false] at hmem
    obtain rfl | rfl := hmem <;> decide

end DesiredState
