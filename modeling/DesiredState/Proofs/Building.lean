/-
Building what a document declares.

The one node block of a document is read statement by statement, and every statement
declares an instance.  What each of them is bound to has to be known; then the list of
instances is known, and so is of which sort the diagnostics are.
-/
import DesiredState.Configuration.Exchange
import DesiredState.Proofs.Binding
import DesiredState.Proofs.Layout.Document

namespace DesiredState

/-- Work succeeds with a value of some sort, keeps the memo right, and adds diagnostics of some
sort. -/
def Building.Gives (lookup : DeclLookup) (scope : ImportScope) (allowed : Diagnostic → Prop)
    (work : Building α) (P : α → Prop) : Prop :=
  ∀ s : Session, s.Consults lookup scope → ∃ a after, work s = .ok (a, after) ∧ P a ∧
    after.Consults lookup scope ∧
      ∃ more, after.diagnostics = s.diagnostics ++ more ∧ ∀ d ∈ more, allowed d

namespace Building

variable {lookup : DeclLookup} {scope : ImportScope} {allowed : Diagnostic → Prop}
variable {α β : Type}

theorem Gives.mono {work : Building α} {P Q : α → Prop}
    (h : Gives lookup scope allowed work P) (hPQ : ∀ a, P a → Q a) :
    Gives lookup scope allowed work Q := by
  intro s hs
  obtain ⟨a, after, hwork, hp, hrest⟩ := h s hs
  exact ⟨a, after, hwork, hPQ a hp, hrest⟩

theorem Gives.pure {a : α} {P : α → Prop} (h : P a) :
    Gives lookup scope allowed (Pure.pure a) P :=
  fun s hs => ⟨a, s, rfl, h, hs, [], (List.append_nil _).symm, fun _ hd => absurd hd List.not_mem_nil⟩

theorem Gives.interpreted {work : Interpreting α} {P : α → Prop}
    (h : Interpreting.Gives lookup scope allowed work P) :
    Gives lookup scope allowed (interpreted work) P :=
  fun s hs => ⟨(work s).1, (work s).2, rfl, h s hs⟩

theorem Gives.bind {work : Building α} {next : α → Building β} {P : α → Prop} {Q : β → Prop}
    (h : Gives lookup scope allowed work P)
    (hnext : ∀ a, P a → Gives lookup scope allowed (next a) Q) :
    Gives lookup scope allowed (work >>= next) Q := by
  intro s hs
  obtain ⟨a, middle, hwork, hp, hconsults, first, hfirst, hallowed⟩ := h s hs
  obtain ⟨b, after, hmore, hq, hconsults', second, hsecond, hallowed'⟩ := hnext a hp middle hconsults
  refine ⟨b, after, ?_, hq, hconsults', first ++ second, ?_, ?_⟩
  · change (work s).bind (fun p => next p.1 p.2) = _
    rw [hwork]
    exact hmore
  · rw [hsecond, hfirst, List.append_assoc]
  · intro d hd
    rcases List.mem_append.mp hd with hd | hd
    · exact hallowed d hd
    · exact hallowed' d hd

/-- A schema is found. -/
theorem gives_schemaOf (hcase : lookup.IgnoresCase) (o : ReadOptions) {b : Block}
    {schema : Schema.Resource}
    (h : Schema.Resource.found? lookup scope b.keyword = some schema) (subject : Subject) :
    Gives lookup scope allowed (schemaOf o b subject) (· = some schema) := by
  refine Gives.bind (Gives.interpreted (Interpreting.gives_resolve hcase b.keyword)) ?_
  rintro _ rfl
  rw [h]
  exact Gives.pure rfl

/-- In a lenient reading it is reported that no schema is found. -/
theorem gives_schemaOf_none (hcase : lookup.IgnoresCase) {o : ReadOptions} (ho : o.strict = false)
    {b : Block} (h : Schema.Resource.found? lookup scope b.keyword = none)
    (hallowed : ∀ d : Diagnostic, d.cause = .unknownResource b.keyword → allowed d)
    (subject : Subject) :
    Gives lookup scope allowed (schemaOf o b subject) (· = none) := by
  refine Gives.bind (Gives.interpreted (Interpreting.gives_resolve hcase b.keyword)) ?_
  rintro _ rfl
  rw [h]
  simp only [ho, Bool.false_eq_true, if_false]
  refine Gives.bind (Gives.interpreted (Interpreting.gives_report (hallowed _ rfl))) ?_
  intro _ _
  exact Gives.pure rfl

/-- An instance comes from the properties that its block is bound to. -/
theorem gives_instanceOf {o : ReadOptions} {b : Block} {name : Expression}
    {schema : Option Schema.Resource} {P : Fields Value → Prop}
    (hschema : ∀ subject, Gives lookup scope allowed (schemaOf o b subject) (· = schema))
    (hproperties : ∀ subject, Interpreting.Gives lookup scope allowed
      (Binding.properties ⟨b.keyword, o.recordsTypes⟩ subject b.keyword
        (schema.map (·.properties)) b.body) P) :
    Gives lookup scope allowed (instanceOf o b name) fun i =>
      i.resourceName = b.keyword ∧ i.instanceName = instanceName name ∧ P i.properties := by
  refine Gives.bind (hschema _) ?_
  rintro _ rfl
  refine Gives.bind (Gives.interpreted (hproperties _)) ?_
  intro properties hp
  refine Gives.bind (Gives.interpreted (Interpreting.gives_note rfl)) ?_
  intro _ _
  exact Gives.pure ⟨rfl, rfl, hp⟩

/-- Statements give instances one by one. -/
theorem gives_statements {o : ReadOptions} {view : Instance → β} {wanted : List β}
    {statements : List Statement} (total before : Nat)
    (h : List.Forall₂ (fun s v => ∃ b name, declaration? s = some (b, name) ∧
      Gives lookup scope allowed (instanceOf o b name) fun i => view i = v) statements wanted) :
    Gives lookup scope allowed (Building.statements o total before statements)
      fun instances => instances.map view = wanted := by
  induction h generalizing before with
  | nil => exact Gives.pure rfl
  | @cons s v rest later hfirst _ ih =>
    obtain ⟨b, name, hdeclares, hinstance⟩ := hfirst
    have hone : Gives lookup scope allowed (statement o s) fun read =>
        ∃ i, read = some i ∧ view i = v := by
      unfold statement
      rw [hdeclares]
      refine Gives.bind hinstance ?_
      intro i hi
      exact Gives.pure ⟨i, rfl, hi⟩
    rw [Building.statements]
    refine Gives.bind hone ?_
    rintro _ ⟨i, rfl, hi⟩
    refine Gives.bind (Gives.interpreted (Interpreting.gives_note rfl)) ?_
    intro _ _
    refine Gives.bind (ih (before + 1)) ?_
    intro more hmore
    refine Gives.pure ?_
    rw [List.map_append, hmore]
    simp [hi]

end Building

/-- A configuration with one node block gives the instances of this block. -/
theorem Build.ofStatements_node {lookup : DeclLookup} {o : ReadOptions}
    {allowed : Diagnostic → Prop} {view : Instance → β} {wanted : List β} {extent inner : Extent}
    {name : Text} {target : Expression} {body : List Statement}
    (h : Building.Gives lookup ⟨[], o.versionRule⟩ allowed
      (Building.statements o body.length 0 body) fun instances => instances.map view = wanted) :
    ∃ built, Build.ofStatements o lookup [.configuration extent name [.node inner target body]] =
      .ok built ∧ built.instances.map view = wanted ∧ ∀ d ∈ built.session.diagnostics, allowed d := by
  obtain ⟨instances, after, hwork, hview, -, more, hmore, hallowed⟩ :=
    h _ (Session.consults_new lookup ⟨[], o.versionRule⟩)
  refine ⟨⟨instances, [], after⟩, ?_, hview, ?_⟩
  · have himports : Import.ofStatements [.node inner target body] = [] := rfl
    have hbody : declaringStatements o ⟨extent, name, [.node inner target body]⟩ =
        (pure body : Building (List Statement)) := rfl
    unfold Build.ofStatements
    simp only [Build.configuration?, himports, hbody]
    change (Building.statements o body.length 0 body _).bind _ = _
    rw [hwork]
    rfl
  · intro d hd
    change d ∈ after.diagnostics at hd
    rw [hmore] at hd
    exact hallowed d hd

end DesiredState
