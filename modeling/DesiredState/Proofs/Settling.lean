/-
What binding does to a session.

Binding asks a session for one thing, the schema of the resource that it is about, and
when it starts this has been asked for already.  So the memo stays as it is, and the value
it comes to and the events it adds are the same whatever happened before.  Nor do they
depend on whether blocks record the names of their classes, but for these names.
-/
import DesiredState.Proofs.Conversion.Values

namespace DesiredState

/-! ### What a memo knows -/

namespace Schema.Memo

variable {m : Memo} {name : Text}

/-- What is known is answered from memory. -/
theorem resolve_of_known {schema : Option Resource} (h : m.known? name = some schema) :
    m.resolve name = (schema, m) := by
  unfold resolve
  rw [h]

/-- What is not known is asked for and remembered. -/
theorem resolve_of_unknown (h : m.known? name = none) :
    m.resolve name = (m.ask name, { m with answers := m.answers ++ [⟨name, m.ask name⟩] }) := by
  unfold resolve
  rw [h]

/-- What has been asked for is known. -/
theorem known?_resolve (m : Memo) (name : Text) :
    (m.resolve name).2.known? name = some (m.resolve name).1 := by
  cases h : m.known? name with
  | some schema => rw [resolve_of_known h, h]
  | none =>
    rw [resolve_of_unknown h]
    have hfind : m.answers.find? (fun a => Text.sameName a.name name) = none := by
      simpa [known?] using h
    simp only [known?, List.find?_append, hfind]
    simp [Text.sameName]

end Schema.Memo

/-! ### Names of classes

Names are taken away at every depth of a value, and keys are left alone.  So whatever is
done by keys can be done before or after.
-/

mutual

/-- A value whose blocks do not name their classes. -/
def Value.untagged : Value → Value
  | .subObject block => .subObject block.untagged
  | .subObjectArray blocks => .subObjectArray (SubObject.untaggedAll blocks)
  | value => value

/-- A block that does not name its class, nor do those in it. -/
def SubObject.untagged : SubObject → SubObject
  | ⟨_, properties⟩ => ⟨none, Value.untaggedFields properties⟩

/-- Blocks that do not name their classes. -/
def SubObject.untaggedAll : List SubObject → List SubObject
  | [] => []
  | block :: rest => block.untagged :: SubObject.untaggedAll rest

/-- Properties whose blocks do not name their classes. -/
def Value.untaggedFields : List (Text × Value) → List (Text × Value)
  | [] => []
  | (name, value) :: rest => (name, value.untagged) :: Value.untaggedFields rest

end

/-- An instance whose blocks do not name their classes. -/
def Instance.untagged (i : Instance) : Instance :=
  { i with properties := Value.untaggedFields i.properties }

theorem Value.untaggedFields_eq (fields : Fields Value) :
    Value.untaggedFields fields = fields.map (Prod.map id Value.untagged) := by
  induction fields with
  | nil => rfl
  | cons p rest ih => rw [Value.untaggedFields, ih, List.map_cons, Prod.map_apply, id]

theorem Value.untagged_of_isFlat {x : Value} (h : x.isFlat) : x.untagged = x := by
  cases x with
  | subObject _ => cases h
  | subObjectArray _ => cases h
  | _ => rfl

namespace Fields

variable {α β : Type} (f : α → β) (fields : Fields α)

theorem names_map : names (fields.map (Prod.map id f)) = fields.names := by
  simp [names]

theorem set_map (name : Text) (x : α) :
    set name (f x) (fields.map (Prod.map id f)) = (fields.set name x).map (Prod.map id f) := by
  induction fields with
  | nil => rfl
  | cons p rest ih =>
    rw [List.map_cons, Prod.map_apply, set, set, id]
    by_cases h : p.1 = name
    · rw [if_pos h, if_pos h, List.map_cons, Prod.map_apply, id]
    · rw [if_neg h, if_neg h, ih, List.map_cons, Prod.map_apply, id]

/-- Under which name a value is kept does not depend on the values. -/
theorem bind_map (key : Text) (x : α) :
    bind key (f x) (fields.map (Prod.map id f)) = (fields.bind key x).map (Prod.map id f) := by
  unfold bind spelling
  dsimp only
  rw [names_map, set_map]
  split <;> rfl

end Fields

/-! ### Work that settles

Work is put in front of any session that knows the schema, and the session shows in
nothing but the events that are there already.  Two pieces of work can then be compared
without a session.
-/

/-- An event of binding: a finding about a property or a block. -/
def Event.IsFinding (e : Event) : Prop :=
  ∃ d, e = .diagnosed d ∧ ∀ text, d.cause ≠ .notResource text

namespace Interpreting

variable {owner : Text} {schema : Option Schema.Resource} {α β γ δ : Type}

/-- Once the schema of a resource is remembered, work comes to a value and adds events, whatever
happened before, and leaves the memo as it is. -/
def Settles (owner : Text) (schema : Option Schema.Resource) (work : Interpreting α) (a : α)
    (events : List Event) : Prop :=
  ∀ s : Session, s.memo.known? owner = some schema →
    work s = (a, { s with events := s.events ++ events })

/-- Two pieces of work that settle with the same findings, and with values in a relation. -/
def Agree (owner : Text) (schema : Option Schema.Resource) (R : α → β → Prop)
    (work : Interpreting α) (work' : Interpreting β) : Prop :=
  ∃ a b events, Settles owner schema work a events ∧ Settles owner schema work' b events ∧
    R a b ∧ ∀ e ∈ events, e.IsFinding

theorem Settles.pure (a : α) : Settles owner schema (Pure.pure a) a [] := by
  intro s _
  change (a, s) = _
  rw [List.append_nil]

theorem Settles.bind {work : Interpreting α} {next : α → Interpreting β} {a : α} {b : β}
    {first second : List Event} (h : Settles owner schema work a first)
    (hnext : Settles owner schema (next a) b second) :
    Settles owner schema (work >>= next) b (first ++ second) := by
  intro s hs
  change next (work s).1 (work s).2 = _
  rw [h s hs, ← List.append_assoc]
  exact hnext _ hs

theorem settles_note (e : Event) : Settles owner schema (note e) () [e] := fun _ _ => rfl

/-- The schema of the resource is known, so a class of it is found without asking. -/
theorem settles_resolveClass (typeName : Text) :
    Settles owner schema (resolveClass owner typeName)
      (Schema.Resource.classOf? schema (Text.lower typeName)) [] := by
  intro s hs
  unfold resolveClass Schema.Memo.resolveClass
  rw [Schema.Memo.resolve_of_known hs, List.append_nil]

theorem Agree.pure {R : α → β → Prop} {a : α} {b : β} (h : R a b) :
    Agree owner schema R (Pure.pure a) (Pure.pure b) :=
  ⟨a, b, [], .pure a, .pure b, h, fun _ he => absurd he List.not_mem_nil⟩

theorem Agree.bind {R : α → β → Prop} {Q : γ → δ → Prop} {work : Interpreting α}
    {work' : Interpreting β} {next : α → Interpreting γ} {next' : β → Interpreting δ}
    (h : Agree owner schema R work work')
    (hnext : ∀ a b, R a b → Agree owner schema Q (next a) (next' b)) :
    Agree owner schema Q (work >>= next) (work' >>= next') := by
  obtain ⟨a, b, first, hwork, hwork', hab, hfirst⟩ := h
  obtain ⟨c, d, second, hmore, hmore', hcd, hsecond⟩ := hnext a b hab
  refine ⟨c, d, first ++ second, hwork.bind hmore, hwork'.bind hmore', hcd, fun e he => ?_⟩
  rcases List.mem_append.mp he with he | he
  · exact hfirst e he
  · exact hsecond e he

theorem agree_report {cause : Diagnostic.Cause} (subject : Subject) (extent : Option Extent)
    (h : ∀ text, cause ≠ .notResource text) :
    Agree owner schema (fun _ _ => True) (report cause subject extent)
      (report cause subject extent) := by
  refine ⟨(), (), _, settles_note _, settles_note _, trivial, fun e he => ?_⟩
  exact ⟨_, List.mem_singleton.mp he, h⟩

theorem agree_resolveClass (typeName : Text) :
    Agree owner schema (fun found found' => found' = found ∧
        found = Schema.Resource.classOf? schema (Text.lower typeName))
      (resolveClass owner typeName) (resolveClass owner typeName) :=
  ⟨_, _, [], settles_resolveClass typeName, settles_resolveClass typeName, ⟨rfl, rfl⟩,
    fun _ he => absurd he List.not_mem_nil⟩

end Interpreting

/-! ### Binding -/

namespace Binding

open Interpreting

variable {owner : Text} {found : Option Schema.Resource} {records : Bool}

/-- Both sides come to the same value, but for the names of classes. -/
abbrev AgreeOnValue (owner : Text) (found : Option Schema.Resource)
    (work work' : Interpreting Value) : Prop :=
  Agree owner found (fun x y => y = x.untagged) work work'

theorem untagged_loneBlock (expected : DeclaredType) (b : SubObject) :
    (loneBlock expected b).untagged = loneBlock expected b.untagged := by
  unfold loneBlock
  split <;> rfl

theorem agree_literal (subject : Subject) (expected : DeclaredType) (t : Term) :
    AgreeOnValue owner found (literal subject expected t) (literal subject expected t) := by
  have hvalue : (Coercion.of expected t).value = (Coercion.of expected t).value.untagged :=
    (Value.untagged_of_isFlat (Coercion.isPlain_of expected t).1).symm
  unfold literal
  dsimp only
  split
  · refine Agree.bind (agree_report subject _ ?_) fun _ _ _ => Agree.pure hvalue
    intro text h
    cases h
  · exact Agree.pure hvalue

theorem agree_reportSkipped (subject : Subject) (skipped : Nat) :
    Agree owner found (fun _ _ => True) (reportSkipped subject skipped)
      (reportSkipped subject skipped) := by
  unfold reportSkipped
  split
  · exact Agree.pure trivial
  · refine agree_report subject _ ?_
    intro text h
    cases h

mutual

/-- A block is bound in the same way, but for its name. -/
theorem agree_classBlock (subject : Subject) (keyword : Text) (place : Location) (body : Table) :
    Agree owner found (fun b b' => b' = b.untagged)
      (classBlock ⟨owner, records⟩ subject keyword place body)
      (classBlock ⟨owner, false⟩ subject keyword place body) := by
  match body with
  | ⟨_, body⟩ =>
    rw [classBlock, classBlock]
    refine Agree.bind (agree_resolveClass keyword) ?_
    rintro _ schema ⟨rfl, -⟩
    have hrest : ∀ subject declared, Agree owner found (fun b b' => b' = b.untagged)
        (do
          let properties ← entries ⟨owner, records⟩ subject keyword declared [] body
          pure (⟨if records then some ((schema.map (·.typeName)).getD keyword) else none,
            properties⟩ : SubObject))
        (do
          let properties ← entries ⟨owner, false⟩ subject keyword declared [] body
          pure (⟨none, properties⟩ : SubObject)) := by
      intro subject declared
      refine Agree.bind (agree_entries subject keyword declared [] body) ?_
      rintro properties _ rfl
      exact Agree.pure rfl
    by_cases hnone : schema.isNone
    · simp only [hnone, if_true]
      refine Agree.bind (agree_report subject _ ?_) fun _ _ _ => hrest _ _
      intro text h
      cases h
    · simp only [hnone]
      exact hrest _ _

/-- Entries are bound in the same way. -/
theorem agree_entries (subject : Subject) (declaredBy : Text)
    (schema : Option (List Schema.Property)) (done : Fields Value) (list : List Entry) :
    Agree owner found (fun fields fields' => fields' = Value.untaggedFields fields)
      (entries ⟨owner, records⟩ subject declaredBy schema done list)
      (entries ⟨owner, false⟩ subject declaredBy schema (Value.untaggedFields done) list) := by
  match list with
  | [] =>
    rw [entries, entries]
    exact Agree.pure rfl
  | ⟨key, place, value⟩ :: rest =>
    have hmore (x : Value) : Agree owner found
        (fun fields fields' => fields' = Value.untaggedFields fields)
        (entries ⟨owner, records⟩ subject declaredBy schema (done.bind key x) rest)
        (entries ⟨owner, false⟩ subject declaredBy schema
          (Fields.bind key x.untagged (Value.untaggedFields done)) rest) := by
      have hdone := agree_entries subject declaredBy schema (done.bind key x) rest
      rwa [Value.untaggedFields_eq, ← Fields.bind_map, ← Value.untaggedFields_eq] at hdone
    cases schema with
    | none =>
      rw [entries, entries]
      exact hmore (.raw value.extent.text)
    | some declared =>
      rw [entries, entries]
      cases Schema.Property.find? key declared with
      | none =>
        refine Agree.bind (agree_report _ _ ?_) fun _ _ _ =>
          agree_entries subject declaredBy (some declared) done rest
        intro text h
        cases h
      | some property =>
        refine Agree.bind (agree_statement _ property.type value) ?_
        rintro x _ rfl
        exact hmore x

/-- A statement comes to the same value. -/
theorem agree_statement (subject : Subject) (expected : DeclaredType) (s : Statement) :
    AgreeOnValue owner found (statement ⟨owner, records⟩ subject expected s)
      (statement ⟨owner, false⟩ subject expected s) := by
  match s with
  | .block ⟨extent, keyword, place, some name, body⟩ =>
    rw [statement, statement]
    exact Agree.pure rfl
  | .block ⟨extent, keyword, place, none, body⟩ =>
    rw [statement, statement]
    refine Agree.bind (agree_classBlock subject keyword place body) ?_
    rintro b _ rfl
    exact Agree.pure (untagged_loneBlock expected b).symm
  | .pipeline _ [t] =>
    rw [statement, statement]
    exact agree_term subject expected t
  | .pipeline _ [] | .pipeline _ (_ :: _ :: _) | .configuration .. | .node .. | .param _
  | .assignment .. => exact Agree.pure rfl

/-- A term comes to the same value. -/
theorem agree_term (subject : Subject) (expected : DeclaredType) (t : Term) :
    AgreeOnValue owner found (term ⟨owner, records⟩ subject expected t)
      (term ⟨owner, false⟩ subject expected t) := by
  match t with
  | .block ⟨extent, keyword, place, some name, body⟩ =>
    rw [term, term]
    exact Agree.pure rfl
  | .block ⟨extent, keyword, place, none, body⟩ =>
    rw [term, term]
    refine Agree.bind (agree_classBlock subject keyword place body) ?_
    rintro b _ rfl
    exact Agree.pure (untagged_loneBlock expected b).symm
  | .expression (.array extent bracketed elements) =>
    have hitems := agree_classBlocks subject elements
    rw [term.eq_def, term.eq_def]
    dsimp only
    split
    · exact Agree.pure rfl
    · split
      · refine Agree.bind (agree_reportSkipped subject _) fun _ _ _ => ?_
        refine Agree.bind hitems ?_
        rintro blocks _ rfl
        exact Agree.pure rfl
      · exact Agree.bind (agree_reportSkipped subject _) fun _ _ _ => agree_literal subject expected _
  | .command _ | .expression (.string ..) | .expression (.number ..) | .expression (.variable _)
  | .expression (.member ..) | .expression (.table _) | .expression (.scriptBlock _)
  | .expression (.unrecognized _) =>
    rw [term.eq_def, term.eq_def]
    exact agree_literal subject expected _

/-- The blocks of an array are bound in the same way. -/
theorem agree_classBlocks (subject : Subject) (list : List Term) :
    Agree owner found (fun blocks blocks' => blocks' = SubObject.untaggedAll blocks)
      (classBlocks ⟨owner, records⟩ subject list) (classBlocks ⟨owner, false⟩ subject list) := by
  match list with
  | [] =>
    rw [classBlocks, classBlocks]
    exact Agree.pure rfl
  | .block ⟨extent, keyword, place, none, body⟩ :: rest =>
    rw [classBlocks, classBlocks]
    refine Agree.bind (agree_classBlock subject keyword place body) ?_
    rintro first _ rfl
    refine Agree.bind (agree_classBlocks subject rest) ?_
    rintro more _ rfl
    exact Agree.pure rfl
  | .block ⟨extent, keyword, place, some name, body⟩ :: rest | .command _ :: rest
  | .expression _ :: rest =>
    rw [classBlocks, classBlocks]
    · exact agree_classBlocks subject rest
    all_goals
      intro _ _ _ _ h
      cases h

end

/-- **Binding settles**: the properties of a body and the findings about them depend on the schema
of the resource alone, and recording the names of classes adds nothing but these names. -/
theorem agree_properties (subject : Subject) (declaredBy : Text)
    (schema : Option (List Schema.Property)) (body : Table) :
    Agree owner found (fun fields fields' => fields' = Value.untaggedFields fields)
      (properties ⟨owner, records⟩ subject declaredBy schema body)
      (properties ⟨owner, false⟩ subject declaredBy schema body) :=
  agree_entries subject declaredBy schema [] body.entries

end Binding

end DesiredState
