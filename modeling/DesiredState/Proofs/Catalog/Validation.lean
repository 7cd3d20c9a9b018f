/-
Which values are catalogs.

The shape of a catalog says which values are read as one.  The check of a catalog is put
together in the way the shape is, so that it follows the shape; catalogs are written as values
with every member that may be left out but has a default.
-/
import DesiredState.Proofs.Catalog.Checking
import DesiredState.Proofs.Json

namespace DesiredState

/-! ### Shapes -/

namespace Shape

/-- What a property is like. -/
def property : Shape := .object [
  ⟨"name", .someText, .fault⟩,
  ⟨"propertyType", .someText, .fault⟩,
  ⟨"isMandatory", .bool, .default (.bool false)⟩,
  ⟨"values", .array .text, .default (.array [])⟩]

/-- What a class of blocks is like. -/
def embeddedType : Shape := .object [
  ⟨"typeName", .someText, .fault⟩,
  ⟨"properties", .array property, .default (.array [])⟩]

/-- What a resource is like. -/
def resource : Shape := .object [
  ⟨"name", .someText, .fault⟩,
  ⟨"moduleName", .text, .nothing⟩,
  ⟨"moduleVersion", .text, .nothing⟩,
  ⟨"friendlyName", .text, .nothing⟩,
  ⟨"properties", .array property, .default (.array [])⟩,
  ⟨"embeddedTypes", .array embeddedType, .default (.array [])⟩]

/-- What a catalog is like. -/
def catalog : Shape := .object [⟨"resources", .array resource, .fault⟩]

end Shape

/-! ### Catalogs as values -/

/-- An object with the members that have a value. -/
def Json.ofMembers (members : List (Text × Option Json)) : Json :=
  .object (members.flatMap fun member => Fields.just member.1 member.2)

/-- A property as a value. -/
def PropertyDecl.toJson (p : PropertyDecl) : Json := .ofMembers [
  ("name", Json.string p.name),
  ("propertyType", Json.string p.propertyType),
  ("isMandatory", Json.bool p.isMandatory),
  ("values", Json.array (p.values.map .string))]

/-- A class as a value. -/
def ClassDecl.toJson (c : ClassDecl) : Json := .ofMembers [
  ("typeName", Json.string c.typeName),
  ("properties", Json.array (c.properties.map PropertyDecl.toJson))]

/-- A resource as a value; texts that are not given are left out. -/
def ResourceDecl.toJson (r : ResourceDecl) : Json := .ofMembers [
  ("name", Json.string r.name),
  ("moduleName", r.moduleName.map .string),
  ("moduleVersion", r.moduleVersion.map .string),
  ("friendlyName", r.friendlyName.map .string),
  ("properties", Json.array (r.properties.map PropertyDecl.toJson)),
  ("embeddedTypes", Json.array (r.embeddedTypes.map ClassDecl.toJson))]

/-- A catalog as a value. -/
def Catalog.toJson (catalog : Catalog) : Json :=
  .ofMembers [("resources", Json.array (catalog.map ResourceDecl.toJson))]

/-! ### Checks and their shapes -/

namespace Catalog

theorem follows_property : property.Follows .property PropertyDecl.toJson := by
  have hmembers := ((((followsAll_building PropertyDecl.mk).also
    (follows_required follows_someText "name")).also
    (follows_required follows_someText "propertyType")).also
    (follows_defaulted follows_bool "isMandatory" false fun _ => rfl)).also
    (follows_defaulted (follows_array follows_text) "values" [] fun _ => rfl)
  refine hmembers.object (by decide) ?_
  rintro p fields ⟨_, values, _, ⟨_, isMandatory, _, ⟨_, propertyType, _, ⟨_, name, _, ⟨rfl, rfl⟩,
    rfl, rfl⟩, rfl, rfl⟩, rfl, rfl⟩, rfl, rfl⟩
  rfl

theorem follows_embeddedType : embeddedType.Follows .embeddedType ClassDecl.toJson := by
  have hmembers := ((followsAll_building ClassDecl.mk).also
    (follows_required follows_someText "typeName")).also
    (follows_defaulted (follows_array follows_property) "properties" [] fun _ => rfl)
  refine hmembers.object (by decide) ?_
  rintro c fields ⟨_, properties, _, ⟨_, typeName, _, ⟨rfl, rfl⟩, rfl, rfl⟩, rfl, rfl⟩
  rfl

theorem follows_resource : resource.Follows .resource ResourceDecl.toJson := by
  have hmembers := ((((((followsAll_building ResourceDecl.mk).also
    (follows_required follows_someText "name")).also
    (follows_optional follows_text "moduleName")).also
    (follows_optional follows_text "moduleVersion")).also
    (follows_optional follows_text "friendlyName")).also
    (follows_defaulted (follows_array follows_property) "properties" [] fun _ => rfl)).also
    (follows_defaulted (follows_array follows_embeddedType) "embeddedTypes" [] fun _ => rfl)
  refine hmembers.object (by decide) ?_
  rintro r fields ⟨_, embeddedTypes, _, ⟨_, properties, _, ⟨_, friendlyName, _, ⟨_, moduleVersion, _,
    ⟨_, moduleName, _, ⟨_, name, _, ⟨rfl, rfl⟩, rfl, rfl⟩, rfl, rfl⟩, rfl, rfl⟩, rfl, rfl⟩, rfl, rfl⟩,
    rfl, rfl⟩
  simp only [List.flatMap_cons, List.flatMap_nil, List.append_nil, List.append_assoc,
    List.nil_append]

theorem follows_catalog : Check.Follows
    (object fun path fields => required (array resource) path fields "resources")
    .catalog Catalog.toJson := by
  have hmembers := (follows_required (follows_array follows_resource) "resources").alone
  refine hmembers.object (by decide) ?_
  rintro catalog fields rfl
  rfl

/-! ### Catalogs as texts -/

theorem names_flatMap_just (members : List (Text × Option Json)) :
    (Fields.names (members.flatMap fun member => Fields.just member.1 member.2)).Sublist
      (members.map (·.1)) := by
  induction members with
  | nil => exact List.Sublist.slnil
  | cons member rest ih =>
    obtain ⟨name, value⟩ := member
    cases value with
    | none => exact ih.cons name
    | some value => exact ih.cons_cons name

theorem isPlain_ofMembers {members : List (Text × Option Json)}
    (hnames : (members.map (·.1)).Nodup)
    (hplain : ∀ member ∈ members, ∀ value, member.2 = some value → value.IsPlain) :
    (Json.ofMembers members).IsPlain := by
  refine .object ?_ ?_
  · intro member hmember
    obtain ⟨⟨name, value⟩, hgiven, hjust⟩ := List.mem_flatMap.mp hmember
    cases value with
    | none => cases hjust
    | some value =>
      obtain rfl := List.mem_singleton.mp hjust
      exact hplain _ hgiven value rfl
  · exact hnames.sublist (names_flatMap_just members)

theorem isPlain_array {α : Type} {toJson : α → Json} (h : ∀ a, (toJson a).IsPlain) (as : List α) :
    (Json.array (as.map toJson)).IsPlain := by
  refine .array fun value hvalue => ?_
  obtain ⟨a, -, rfl⟩ := List.mem_map.mp hvalue
  exact h a

theorem isPlain_property (p : PropertyDecl) : p.toJson.IsPlain := by
  refine isPlain_ofMembers (by simp) ?_
  simp only [List.forall_mem_cons, Option.some.injEq, forall_eq', List.not_mem_nil]
  exact ⟨.string _, .string _, .bool _, isPlain_array .string _, nofun⟩

theorem isPlain_class (c : ClassDecl) : c.toJson.IsPlain := by
  refine isPlain_ofMembers (by simp) ?_
  simp only [List.forall_mem_cons, Option.some.injEq, forall_eq', List.not_mem_nil]
  exact ⟨.string _, isPlain_array isPlain_property _, nofun⟩

theorem isPlain_resource (r : ResourceDecl) : r.toJson.IsPlain := by
  have htext {t : Option Text} : ∀ value, t.map Json.string = some value → value.IsPlain := by
    intro value hvalue
    obtain ⟨t, -, rfl⟩ := Option.map_eq_some_iff.mp hvalue
    exact .string t
  refine isPlain_ofMembers (by simp) ?_
  simp only [List.forall_mem_cons, Option.some.injEq, forall_eq', List.not_mem_nil]
  exact ⟨.string _, htext, htext, htext, isPlain_array isPlain_property _,
    isPlain_array isPlain_class _, nofun⟩

theorem isPlain_catalog (catalog : Catalog) : catalog.toJson.IsPlain := by
  refine isPlain_ofMembers (by simp) ?_
  simp only [List.forall_mem_cons, Option.some.injEq, forall_eq', List.not_mem_nil]
  exact ⟨isPlain_array isPlain_resource _, nofun⟩

/-- A value is read as a catalog, and from a text that denotes it. -/
theorem read_eq {t : Text} {value : Json} (h : Json.parse? t = some value) :
    read t = (ofJson value).mapError .invalid := by
  rw [read, h]

/-- **Reading a catalog is exact and makes it normal.**  A value is accepted if and only if it has
the shape of a catalog; the catalog is what the normal form of the value says, and written out as a
text it is read again.  Where a value is refused, the issues are exactly the places that violate the
shape, and there is at least one. -/
theorem ofJson_exact (value : Json) :
    ((∃ catalog, ofJson value = .ok catalog) ↔ Shape.catalog.Fits value) ∧
    (∀ catalog, ofJson value = .ok catalog → catalog.toJson = Shape.catalog.normal value ∧
      ofJson catalog.toJson = .ok catalog ∧ read catalog.toJson.write = .ok catalog) ∧
    (∀ issues, ofJson value = .error issues → issues ≠ [] ∧
      ∀ issue, issue ∈ issues ↔ Shape.catalog.Violated value issue.path issue.problem) ∧
    ∀ t, Json.parse? t = some value →
      (∀ catalog, read t = .ok catalog ↔ ofJson value = .ok catalog) ∧
      ∀ error, read t = .error error → ∃ issues, ofJson value = .error issues ∧
        error.message = "Catalog validation failed: " ++
          Text.join "; " (issues.map Issue.message) := by
  have hissue (issue : Issue) : Shape.catalog.HasIssue [] value issue ↔
      Shape.catalog.Violated value issue.path issue.problem :=
    ⟨fun ⟨rest, hpath, h⟩ => by rwa [hpath], fun h => ⟨issue.path, rfl, h⟩⟩
  have hreports : (ofJson value).Reports _ :=
    (follows_catalog.reports [] value).congr hissue
  refine ⟨⟨?fits, ?accepted⟩, ?normal, ?refused, ?text⟩
  case fits =>
    rintro ⟨catalog, hcatalog⟩
    rw [hcatalog] at hreports
    exact Shape.fits_iff.mpr fun path problem => hreports ⟨path, problem⟩
  case accepted =>
    intro hfits
    cases hvalue : ofJson value with
    | ok catalog => exact ⟨catalog, rfl⟩
    | error issues =>
      rw [hvalue] at hreports
      obtain ⟨issue, rest, rfl⟩ := List.exists_cons_of_ne_nil hreports.1
      exact absurd ((hreports.2 issue).mp List.mem_cons_self) hfits.not_violated
  case normal =>
    intro catalog hcatalog
    have hwritten := follows_catalog.written hcatalog
    have hagain := follows_catalog.again hcatalog []
    rw [← hwritten] at hagain
    refine ⟨hwritten, hagain, ?_⟩
    rw [read_eq (Json.parse?_write (isPlain_catalog catalog))]
    exact congrArg (Except.mapError CatalogError.invalid) hagain
  case refused =>
    intro issues hissues
    rw [hissues] at hreports
    exact hreports
  case text =>
    intro t ht
    rw [read_eq ht]
    cases ofJson value with
    | ok catalog =>
      exact ⟨fun other => by simp [Except.mapError], fun error herror => by cases herror⟩
    | error issues =>
      refine ⟨fun other => by simp [Except.mapError], fun error herror => ⟨issues, rfl, ?_⟩⟩
      obtain rfl : CatalogError.invalid issues = error := Except.error.inj herror
      rfl

theorem ofJson_exact_minimal :
    let named : Json := .object [("resources", .array [.object [("extra", .null),
      ("name", .string "X")]])]
    let nameless : Json := .object [("resources", .array [.object [("properties", .array [])]])]
    let catalog : Catalog := [⟨"X", none, none, none, [], []⟩]
    let issue : Issue := ⟨["resources", "0", "name"], .missing⟩
    (ofJson named = .ok catalog ∧ read catalog.toJson.write = .ok catalog) ∧
      (ofJson nameless = .error [issue] ∧
        Shape.catalog.Violated nameless issue.path issue.problem) ∧
      Json.parse? "null" = some .null ∧
      ∃ error, read "null" = .error error ∧ ∃ issues : List Issue, error.message =
        "Catalog validation failed: " ++ Text.join "; " (issues.map Issue.message) := by
  intro named nameless catalog issue
  have hnamed : ofJson named = .ok catalog := rfl
  have hnameless : ofJson nameless = .error [issue] := rfl
  have hparse : Json.parse? "null" = some .null := rfl
  have hnull : read "null" =
      .error (.invalid [⟨[], .wrongType "object" "null"⟩]) := rfl
  obtain ⟨issues, -, hmessage⟩ := ((ofJson_exact .null).2.2.2 "null" hparse).2 _ hnull
  exact ⟨⟨hnamed, ((ofJson_exact named).2.1 catalog hnamed).2.2⟩,
    ⟨hnameless, (((ofJson_exact nameless).2.2.1 _ hnameless).2 issue).mp List.mem_cons_self⟩,
    hparse, _, hnull, issues, hmessage⟩

end Catalog

end DesiredState
