/-
Checks and shapes.

A check is there for a shape.  It reports exactly where a value violates the shape, however deep
that is and however many places there are; a value that it lets through it takes for what is
written in the value's normal form, of which it makes the same again.  Each way to put checks
together keeps this, so that it holds of the check of a whole catalog.
-/
import DesiredState.Proofs.Catalog
import DesiredState.Proofs.Catalog.Shape

namespace DesiredState

/-! ### What is reported

Issues come in a list, and of the list it is said what its members are.  That is enough
for what follows, and it does not change where parts are checked in another order.
-/

namespace Checked

variable {α β : Type} {P Q : Issue → Prop}

/-- There is a value if there are no issues, or else a list of exactly these. -/
def Reports (x : Checked α) (P : Issue → Prop) : Prop :=
  match x with
  | .ok _ => ∀ issue, ¬ P issue
  | .error issues => issues ≠ [] ∧ ∀ issue, issue ∈ issues ↔ P issue

theorem Reports.congr {x : Checked α} (h : x.Reports P) (hPQ : ∀ issue, P issue ↔ Q issue) :
    x.Reports Q := by
  rwa [← funext fun issue => propext (hPQ issue)]

theorem reports_ok (a : α) : Reports (.ok a) fun _ => False := fun _ => id

theorem reports_fail (path : List Text) (problem : Problem) :
    (fail path problem : Checked α).Reports (· = ⟨path, problem⟩) :=
  ⟨List.cons_ne_nil _ _, fun _ => List.mem_singleton⟩

theorem Reports.also {f : Checked (α → β)} {x : Checked α} (hf : f.Reports P) (hx : x.Reports Q) :
    (also f x).Reports fun issue => P issue ∨ Q issue := by
  cases f with
  | ok f =>
    cases x with
    | ok a => exact fun issue => not_or.mpr ⟨hf issue, hx issue⟩
    | error issues => exact ⟨hx.1, fun issue => (hx.2 issue).trans (or_iff_right (hf issue)).symm⟩
  | error issues =>
    cases x with
    | ok a => exact ⟨hf.1, fun issue => (hf.2 issue).trans (or_iff_left (hx issue)).symm⟩
    | error more =>
      refine ⟨List.append_ne_nil_of_left_ne_nil hf.1 _, fun issue => ?_⟩
      rw [List.mem_append, hf.2, hx.2]

theorem Reports.map {x : Checked α} (h : x.Reports P) (f : α → β) :
    Reports (Except.map f x) P := by
  cases x <;> exact h

theorem map_eq_ok {f : α → β} {x : Checked α} {b : β} :
    Except.map f x = .ok b ↔ ∃ a, x = .ok a ∧ f a = b := by
  cases x <;> simp [Except.map]

end Checked

/-! ### Issues of a value and of a member -/

namespace Shape

/-- An issue of a value to which a path leads. -/
def HasIssue (shape : Shape) (path : List Text) (value : Json) (issue : Issue) : Prop :=
  ∃ rest, issue.path = path ++ rest ∧ shape.Violated value rest issue.problem

/-- A value of another type violates a shape itself, and only itself. -/
theorem hasIssue_of_ne {shape : Shape} {value : Json} (h : value.typeName ≠ shape.typeName)
    (path : List Text) (issue : Issue) :
    issue = ⟨path, .wrongType shape.typeName value.typeName⟩ ↔
      shape.HasIssue path value issue := by
  constructor
  · rintro rfl
    exact ⟨[], (List.append_nil path).symm, .mismatch h⟩
  · obtain ⟨place, problem⟩ := issue
    rintro ⟨rest, hplace, hviolated⟩
    dsimp only at hplace hviolated
    cases hviolated with
    | mismatch => rw [hplace, List.append_nil]
    | empty | item | missing | member => exact absurd rfl h

theorem hasIssue_text {path : List Text} {t : Text} {issue : Issue} :
    ¬ text.HasIssue path (.string t) issue := fun ⟨_, _, h⟩ => (Fits.text t).not_violated h

theorem hasIssue_array_iff {item : Shape} {path : List Text} {values : List Json} {issue : Issue} :
    (array item).HasIssue path (.array values) issue ↔
      ∃ n value, values[n]? = some value ∧ item.HasIssue (path ++ [Text.ofNat n]) value issue := by
  constructor
  · obtain ⟨place, problem⟩ := issue
    rintro ⟨rest, hplace, hviolated⟩
    dsimp only at hplace hviolated
    cases hviolated with
    | mismatch h => exact absurd rfl h
    | item hget hviolated =>
      exact ⟨_, _, hget, _, by rw [hplace, List.append_assoc]; rfl, hviolated⟩
  · rintro ⟨n, value, hget, rest, hplace, hviolated⟩
    exact ⟨Text.ofNat n :: rest, by rw [hplace, List.append_assoc]; rfl, .item hget hviolated⟩

end Shape

/-- An issue of a member of an object to which a path leads. -/
def Member.HasIssue (member : Member Shape) (path : List Text) (fields : Fields Json)
    (issue : Issue) : Prop :=
  match fields.get? member.name with
  | some value => member.shape.HasIssue (path ++ [member.name]) value issue
  | none => member.absence = .fault ∧ issue = ⟨path ++ [member.name], .missing⟩

theorem Member.hasIssue_of_some {member : Member Shape} {path : List Text} {fields : Fields Json}
    {value : Json} (h : fields.get? member.name = some value) {issue : Issue} :
    member.HasIssue path fields issue ↔
      member.shape.HasIssue (path ++ [member.name]) value issue := by
  rw [HasIssue, h]

theorem Member.hasIssue_of_none {member : Member Shape} {path : List Text} {fields : Fields Json}
    (h : fields.get? member.name = none) {issue : Issue} :
    member.HasIssue path fields issue ↔
      member.absence = .fault ∧ issue = ⟨path ++ [member.name], .missing⟩ := by
  rw [HasIssue, h]

theorem Shape.hasIssue_object_iff {members : List (Member Shape)} {path : List Text}
    {fields : Fields Json} {issue : Issue} :
    (object members).HasIssue path (.object fields) issue ↔
      ∃ member ∈ members, member.HasIssue path fields issue := by
  constructor
  · obtain ⟨place, problem⟩ := issue
    rintro ⟨rest, hplace, hviolated⟩
    dsimp only at hplace hviolated
    cases hviolated with
    | mismatch h => exact absurd rfl h
    | missing hmember hget hfault =>
      exact ⟨_, hmember, (Member.hasIssue_of_none hget).mpr ⟨hfault, by rw [hplace]⟩⟩
    | member hmember hget hviolated =>
      refine ⟨_, hmember, (Member.hasIssue_of_some hget).mpr ⟨_, ?_, hviolated⟩⟩
      rw [hplace, List.append_assoc]
      rfl
  · rintro ⟨member, hmember, hissue⟩
    cases hget : fields.get? member.name with
    | some value =>
      obtain ⟨rest, hplace, hviolated⟩ := (Member.hasIssue_of_some hget).mp hissue
      exact ⟨member.name :: rest, by rw [hplace, List.append_assoc]; rfl,
        .member hmember hget hviolated⟩
    | none =>
      obtain ⟨hfault, rfl⟩ := (Member.hasIssue_of_none hget).mp hissue
      exact ⟨[member.name], rfl, .missing hmember hget hfault⟩

/-! ### Checks of values -/

namespace Catalog

variable {α β : Type} {shape : Shape} {toJson : α → Json}

/-- A check is there for a shape.  It reports what violates the shape; what it lets through is
written as the normal form of the value, and of the normal form it makes the same again. -/
structure Check.Follows (check : Check α) (shape : Shape) (toJson : α → Json) : Prop where
  reports : ∀ path value, (check path value).Reports (shape.HasIssue path value)
  written : ∀ {path value a}, check path value = .ok a → toJson a = shape.normal value
  again : ∀ {path value a}, check path value = .ok a →
    ∀ path', check path' (shape.normal value) = .ok a

theorem reports_mismatch (shape : Shape) {value : Json} (h : value.typeName ≠ shape.typeName)
    (path : List Text) :
    (mismatch shape.typeName path value : Checked α).Reports (shape.HasIssue path value) :=
  (Checked.reports_fail path _).congr (Shape.hasIssue_of_ne h path)

theorem follows_text : text.Follows .text .string where
  reports path value := by
    cases value with
    | string t => exact fun _ => Shape.hasIssue_text
    | _ => exact reports_mismatch .text (fun h => by simpa using Shape.exists_string h) path
  written {_ value _} h := by
    cases value with
    | string t => cases h; rfl
    | _ => cases h
  again {_ value _} h _ := by
    cases value with
    | string t => exact h
    | _ => cases h

theorem follows_someText : someText.Follows .someText .string where
  reports path value := by
    cases value with
    | string t =>
      cases t with
      | nil =>
        refine (Checked.reports_fail path .emptyText).congr fun issue => ?_
        constructor
        · rintro rfl
          exact ⟨[], (List.append_nil path).symm, .empty⟩
        · obtain ⟨place, problem⟩ := issue
          rintro ⟨rest, hplace, hviolated⟩
          dsimp only at hplace hviolated
          cases hviolated with
          | mismatch h => exact absurd rfl h
          | empty => rw [hplace, List.append_nil]
      | cons c rest =>
        rintro issue ⟨_, _, h⟩
        exact (Shape.Fits.someText (List.cons_ne_nil c rest)).not_violated h
    | _ => exact reports_mismatch .someText (fun h => by simpa using Shape.exists_string h) path
  written {_ value _} h := by
    cases value with
    | string t => cases t <;> cases h; rfl
    | _ => cases h
  again {_ value _} h _ := by
    cases value with
    | string t => cases t <;> cases h; rfl
    | _ => cases h

theorem follows_bool : bool.Follows .bool .bool where
  reports path value := by
    cases value with
    | bool b => exact fun _ ⟨_, _, h⟩ => (Shape.Fits.bool b).not_violated h
    | _ => exact reports_mismatch .bool (fun h => by simpa using Shape.exists_bool h) path
  written {_ value _} h := by
    cases value with
    | bool b => cases h; rfl
    | _ => cases h
  again {_ value _} h _ := by
    cases value with
    | bool b => exact h
    | _ => cases h

theorem items_cons_eq_ok {check : Check α} {path : List Text} {n : Nat} {value : Json}
    {rest : List Json} {as : List α} :
    items check path n (value :: rest) = .ok as ↔
      ∃ a more, check (path ++ [Text.ofNat n]) value = .ok a ∧
        items check path (n + 1) rest = .ok more ∧ a :: more = as := by
  rw [items, Checked.also_eq_ok]
  constructor
  · rintro ⟨_, more, hfirst, hmore, rfl⟩
    obtain ⟨build, a, hbuild, ha, rfl⟩ := Checked.also_eq_ok.mp hfirst
    obtain rfl : List.cons = build := Except.ok.inj hbuild
    exact ⟨a, more, ha, hmore, rfl⟩
  · rintro ⟨a, more, ha, hmore, rfl⟩
    exact ⟨_, more, Checked.also_eq_ok.mpr ⟨_, a, rfl, ha, rfl⟩, hmore, rfl⟩

/-- Of the items from a position on the issues are reported. -/
theorem reports_items {check : Check α} (h : check.Follows shape toJson) (path : List Text)
    (values : List Json) : ∀ n, (items check path n values).Reports fun issue =>
      ∃ k value, values[k]? = some value ∧
        shape.HasIssue (path ++ [Text.ofNat (n + k)]) value issue := by
  induction values with
  | nil => exact fun n issue ⟨_, _, hget, _⟩ => by cases hget
  | cons first rest ih =>
    intro n
    refine (((Checked.reports_ok List.cons).also (h.reports _ first)).also (ih (n + 1))).congr
      fun issue => ?_
    constructor
    · rintro ((hnone | hfirst) | ⟨k, value, hget, hissue⟩)
      · cases hnone
      · exact ⟨0, first, rfl, hfirst⟩
      · rw [Nat.add_right_comm] at hissue
        exact ⟨k + 1, value, hget, hissue⟩
    · rintro ⟨k, value, hget, hissue⟩
      cases k with
      | zero =>
        obtain rfl : first = value := Option.some.inj hget
        exact Or.inl (Or.inr hissue)
      | succ k =>
        refine Or.inr ⟨k, value, hget, ?_⟩
        rwa [Nat.add_right_comm]

theorem written_items {check : Check α} (h : check.Follows shape toJson) {path : List Text}
    {values : List Json} : ∀ {n as}, items check path n values = .ok as →
      as.map toJson = values.map fun value => shape.normal value := by
  induction values with
  | nil =>
    intro n as has
    obtain rfl : [] = as := Except.ok.inj has
    rfl
  | cons first rest ih =>
    intro n as has
    obtain ⟨a, more, ha, hmore, rfl⟩ := items_cons_eq_ok.mp has
    rw [List.map_cons, List.map_cons, h.written ha, ih hmore]

theorem items_again {check : Check α} (h : check.Follows shape toJson) {path : List Text}
    {values : List Json} : ∀ {n as}, items check path n values = .ok as →
      ∀ path', items check path' n (values.map fun value => shape.normal value) = .ok as := by
  induction values with
  | nil => exact fun has _ => has
  | cons first rest ih =>
    intro n as has path'
    obtain ⟨a, more, ha, hmore, rfl⟩ := items_cons_eq_ok.mp has
    exact items_cons_eq_ok.mpr ⟨a, more, h.again ha _, ih hmore path', rfl⟩

theorem follows_array {check : Check α} (h : check.Follows shape toJson) :
    (array check).Follows (.array shape) fun as => .array (as.map toJson) where
  reports path value := by
    cases value with
    | array values =>
      refine (reports_items h path values 0).congr fun issue => ?_
      rw [Shape.hasIssue_array_iff]
      simp only [Nat.zero_add]
    | _ => exact reports_mismatch (.array shape) (fun h => by simpa using Shape.exists_array h) path
  written {_ value _} has := by
    cases value with
    | array values =>
      rw [Shape.normal]
      exact congrArg Json.array (written_items h has)
    | _ => cases has
  again {_ value _} has path' := by
    cases value with
    | array values =>
      rw [Shape.normal]
      exact items_again h has path'
    | _ => cases has

/-! ### Checks of members

A member may be missing, and a shape says what is made of it then: an issue, nothing, or
a value by default.  There is one way to check a member for each of the three.
-/

theorem reports_given (member : Member Shape) {path : List Text} {fields : Fields Json}
    {value : Json} {x : Checked α} (hget : fields.get? member.name = some value)
    (h : x.Reports (member.shape.HasIssue (path ++ [member.name]) value)) :
    x.Reports (member.HasIssue path fields) :=
  h.congr fun _ => (Member.hasIssue_of_some hget).symm

theorem reports_absent (member : Member Shape) {path : List Text} {fields : Fields Json} (a : α)
    (hget : fields.get? member.name = none) (habsence : member.absence ≠ .fault) :
    Checked.Reports (.ok a) (member.HasIssue path fields) :=
  (Checked.reports_ok a).congr fun _ =>
    ⟨False.elim, fun h => habsence ((Member.hasIssue_of_none hget).mp h).1⟩

theorem reports_missing (member : Member Shape) {path : List Text} {fields : Fields Json}
    (hget : fields.get? member.name = none) (habsence : member.absence = .fault) :
    (Checked.fail (path ++ [member.name]) .missing : Checked α).Reports
      (member.HasIssue path fields) :=
  (Checked.reports_fail _ _).congr fun _ =>
    (and_iff_right habsence).symm.trans (Member.hasIssue_of_none hget).symm

/-- A check of a member of an object at a path. -/
abbrev MemberCheck (α : Type) := List Text → Fields Json → Checked α

/-- A check is there for a member: as for a value, where of another object the same is made if it
has in this member what the normal form has. -/
structure MemberCheck.Follows (check : MemberCheck α) (member : Member Shape)
    (toJson? : α → Option Json) : Prop where
  reports : ∀ path fields, (check path fields).Reports (member.HasIssue path fields)
  written : ∀ {path fields a}, check path fields = .ok a →
    toJson? a = Shape.normalMember member fields
  again : ∀ {path fields a}, check path fields = .ok a → ∀ path' (fields' : Fields Json),
    fields'.get? member.name = Shape.normalMember member fields → check path' fields' = .ok a

theorem follows_required {check : Check α} (h : check.Follows shape toJson) (name : Text) :
    MemberCheck.Follows (fun path fields => required check path fields name)
      ⟨name, shape, .fault⟩ fun a => some (toJson a) where
  reports path fields := by
    unfold required
    split
    · next value hget => exact reports_given ⟨name, shape, .fault⟩ hget (h.reports _ value)
    · next hget => exact reports_missing ⟨name, shape, .fault⟩ hget rfl
  written {path fields a} ha := by
    unfold required at ha
    split at ha
    · next value hget => rw [Shape.normalMember_of_some hget, h.written ha]
    · cases ha
  again {path fields a} ha path' fields' hfields := by
    unfold required at ha ⊢
    split at ha
    · next value hget =>
      rw [hfields, Shape.normalMember_of_some hget]
      exact h.again ha _
    · cases ha

theorem follows_optional {check : Check α} (h : check.Follows shape toJson) (name : Text) :
    MemberCheck.Follows (fun path fields => optional check path fields name)
      ⟨name, shape, .nothing⟩ fun a => a.map toJson where
  reports path fields := by
    unfold optional
    split
    · next value hget =>
      exact reports_given ⟨name, shape, .nothing⟩ hget ((h.reports _ value).map some)
    · next hget => exact reports_absent ⟨name, shape, .nothing⟩ none hget nofun
  written {path fields a} ha := by
    unfold optional at ha
    split at ha
    · next value hget =>
      obtain ⟨b, hb, rfl⟩ := Checked.map_eq_ok.mp ha
      rw [Shape.normalMember_of_some hget, Option.map_some, h.written hb]
    · next hget =>
      cases ha
      rw [Shape.normalMember_of_none hget]
      rfl
  again {path fields a} ha path' fields' hfields := by
    unfold optional at ha ⊢
    split at ha
    · next value hget =>
      obtain ⟨b, hb, rfl⟩ := Checked.map_eq_ok.mp ha
      rw [hfields, Shape.normalMember_of_some hget]
      exact Checked.map_eq_ok.mpr ⟨b, h.again hb _, rfl⟩
    · next hget =>
      rw [hfields, Shape.normalMember_of_none hget]
      exact ha

theorem follows_defaulted {check : Check α} (h : check.Follows shape toJson) (name : Text)
    (default : α) (hdefault : ∀ path, check path (toJson default) = .ok default) :
    MemberCheck.Follows (fun path fields => defaulted check default path fields name)
      ⟨name, shape, .default (toJson default)⟩ fun a => some (toJson a) where
  reports path fields := by
    unfold defaulted optional
    split
    · next value hget =>
      exact reports_given ⟨name, shape, .default _⟩ hget
        (((h.reports _ value).map some).map (·.getD default))
    · next hget => exact reports_absent ⟨name, shape, .default _⟩ default hget nofun
  written {path fields a} ha := by
    unfold defaulted optional at ha
    obtain ⟨found, hfound, rfl⟩ := Checked.map_eq_ok.mp ha
    split at hfound
    · next value hget =>
      obtain ⟨b, hb, rfl⟩ := Checked.map_eq_ok.mp hfound
      rw [Shape.normalMember_of_some hget, ← h.written hb]
      rfl
    · next hget =>
      cases hfound
      rw [Shape.normalMember_of_none hget]
      rfl
  again {path fields a} ha path' fields' hfields := by
    unfold defaulted optional at ha ⊢
    obtain ⟨found, hfound, rfl⟩ := Checked.map_eq_ok.mp ha
    split at hfound
    · next value hget =>
      obtain ⟨b, hb, rfl⟩ := Checked.map_eq_ok.mp hfound
      rw [hfields, Shape.normalMember_of_some hget]
      exact Checked.map_eq_ok.mpr ⟨_, Checked.map_eq_ok.mpr ⟨b, h.again hb _, rfl⟩, rfl⟩
    · next hget =>
      cases hfound
      rw [hfields, Shape.normalMember_of_none hget]
      exact Checked.map_eq_ok.mpr ⟨_, Checked.map_eq_ok.mpr ⟨_, hdefault _, rfl⟩, rfl⟩

/-! ### Checks of objects

Members are checked one after another, and the first ones do not make a value yet.  So
what is said of them is said of a function that waits for the rest, and of the fields
that it has seen.
-/

/-- Checks are there for members of an object, one after the other; of what they make it is said
how it comes from the values of these members in the normal form. -/
structure MemberCheck.FollowsAll (check : MemberCheck α) (members : List (Member Shape))
    (IsMadeOf : α → Fields Json → Prop) : Prop where
  reports : ∀ path fields, (check path fields).Reports fun issue =>
    ∃ member ∈ members, member.HasIssue path fields issue
  written : ∀ {path fields a}, check path fields = .ok a →
    IsMadeOf a (Shape.normalMembers members fields)
  again : ∀ {path fields a}, check path fields = .ok a → ∀ path' (fields' : Fields Json),
    (∀ member ∈ members, fields'.get? member.name = Shape.normalMember member fields) →
      check path' fields' = .ok a

theorem followsAll_building (build : α) :
    MemberCheck.FollowsAll (fun _ _ => Checked.building build) []
      fun made fields => made = build ∧ fields = [] where
  reports _ _ := (Checked.reports_ok build).congr fun _ => by simp
  written ha := by
    cases ha
    exact ⟨rfl, rfl⟩
  again ha _ _ _ := ha

/-- The next member. -/
theorem MemberCheck.FollowsAll.also {check : MemberCheck (α → β)} {members : List (Member Shape)}
    {IsMadeOf : (α → β) → Fields Json → Prop} {next : MemberCheck α} {member : Member Shape}
    {toJson? : α → Option Json} (h : FollowsAll check members IsMadeOf)
    (hnext : next.Follows member toJson?) :
    FollowsAll (fun path fields => (check path fields).also (next path fields))
      (members ++ [member]) fun made fields => ∃ build a before, IsMadeOf build before ∧
        build a = made ∧ before ++ Fields.just member.name (toJson? a) = fields where
  reports path fields := by
    refine ((h.reports path fields).also (hnext.reports path fields)).congr fun issue => ?_
    simp only [List.mem_append, List.mem_singleton, or_and_right, exists_or, exists_eq_left]
  written {path fields b} hb := by
    obtain ⟨build, a, hbuild, ha, rfl⟩ := Checked.also_eq_ok.mp hb
    refine ⟨build, a, _, h.written hbuild, rfl, ?_⟩
    rw [Shape.normalMembers_append, hnext.written ha, Shape.normalMembers, Shape.normalMembers,
      List.append_nil]
  again {path fields b} hb path' fields' hfields := by
    obtain ⟨build, a, hbuild, ha, rfl⟩ := Checked.also_eq_ok.mp hb
    refine Checked.also_eq_ok.mpr ⟨build, a, h.again hbuild path' fields' fun other hother => ?_,
      hnext.again ha path' fields' ?_, rfl⟩
    · exact hfields other (List.mem_append_left _ hother)
    · exact hfields member (List.mem_append_right _ List.mem_cons_self)

/-- A member on its own. -/
theorem MemberCheck.Follows.alone {check : MemberCheck α} {member : Member Shape}
    {toJson? : α → Option Json} (h : Follows check member toJson?) :
    FollowsAll check [member] fun made fields => Fields.just member.name (toJson? made) = fields where
  reports path fields := (h.reports path fields).congr fun _ => by simp
  written {path fields a} ha := by
    rw [h.written ha, Shape.normalMembers, Shape.normalMembers, List.append_nil]
  again ha path' fields' hfields := h.again ha path' fields' (hfields member List.mem_cons_self)

/-- The members together are an object, if each has a name of its own. -/
theorem MemberCheck.FollowsAll.object {check : MemberCheck α} {members : List (Member Shape)}
    {IsMadeOf : α → Fields Json → Prop} {toFields : α → Fields Json}
    (h : FollowsAll check members IsMadeOf) (hnames : (members.map (·.name)).Nodup)
    (hmade : ∀ a fields, IsMadeOf a fields → toFields a = fields) :
    Check.Follows (Catalog.object check) (.object members) fun a => .object (toFields a) where
  reports path value := by
    cases value with
    | object fields =>
      exact (h.reports path fields).congr fun _ => Shape.hasIssue_object_iff.symm
    | _ =>
      exact reports_mismatch (.object members) (fun h => by simpa using Shape.exists_object h) path
  written {_ value _} ha := by
    cases value with
    | object fields =>
      rw [Shape.normal]
      exact congrArg Json.object (hmade _ _ (h.written ha))
    | _ => cases ha
  again {_ value _} ha path' := by
    cases value with
    | object fields =>
      rw [Shape.normal]
      exact h.again ha path' _ fun member hmember => Shape.get?_normalMembers hnames hmember fields
    | _ => cases ha

end Catalog

end DesiredState
