/-
What each statement contributes.

Read leniently, a statement of a node block never fails, and what it contributes depends
on nothing that was read before it: all that the statements share is the memo, and a
look-up that disregards letter case is remembered as it would answer again.  So a block
contributes what its statements do, one after another, and a block that is cut in two
contributes what its parts do.
-/
import DesiredState.Proofs.Building.Outcome
import DesiredState.Proofs.Building.Relabelled

namespace DesiredState

/-! ### Statements -/

namespace Building

variable {o : ReadOptions} {lookup : DeclLookup} {scope : ImportScope}

/-- What a statement comes to by itself: the instance that it declares, if it declares one, and the
events on the way. -/
def outcome (o : ReadOptions) (lookup : DeclLookup) (scope : ImportScope) (st : Statement) :
    Option Instance × List Event :=
  match declaration? st with
  | some (b, name) =>
    let (i, events) := declared o b name (Schema.Resource.found? lookup scope b.keyword)
    (some i, events)
  | none => (none, [refused st])

/-- What a statement contributes to a build: an instance or none, and diagnostics. -/
def contribution (o : ReadOptions) (lookup : DeclLookup) (scope : ImportScope) (st : Statement) :
    Option Instance × List Diagnostic :=
  ((outcome o lookup scope st).1, (outcome o lookup scope st).2.filterMap Event.diagnostic?)

/-- The name of the kind of diagnostic that a statement gets which declares no resource. -/
def unsupported : Text := "UnsupportedStatement"

/-- A statement is accounted for: either it is a block with a name and contributes one instance of
its resource and name, or it is not and contributes one diagnostic that says so. -/
def Accounts (st : Statement) : Option Instance × List Diagnostic → Prop
  | (some i, found) => (∃ b name, declaration? st = some (b, name) ∧ i.resourceName = b.keyword ∧
      i.instanceName = instanceName name) ∧ ∀ d ∈ found, d.kindName ≠ unsupported
  | (none, found) => declaration? st = none ∧
      ∃ d, found = [d] ∧ d.kindName = unsupported ∧ d.range = some st.extent.range

theorem kindName_ne_unsupported {d : Diagnostic} (h : ∀ text, d.cause ≠ .notResource text) :
    d.kindName ≠ unsupported := by
  obtain ⟨cause, subject, range⟩ := d
  cases cause with
  | notResource text => exact absurd rfl (h text)
  | unknownResource | unknownClass => exact (by decide : ("SchemaNotFound" : Text) ≠ unsupported)
  | unknownProperty => exact (by decide : ("PropertyNotInSchema" : Text) ≠ unsupported)
  | failedCoercion => exact (by decide : ("TypeCoercionFailure" : Text) ≠ unsupported)
  | mixedArray => exact (by decide : ("AmbiguousArrayShape" : Text) ≠ unsupported)

/-- The events of an instance are findings about it, and a note that it has been read. -/
theorem of_mem_declared {b : Block} {name : Expression} {schema : Option Schema.Resource}
    {e : Event} (h : e ∈ (declared o b name schema).2) :
    e.IsFinding ∨ ∃ resource called count, e = .readInstance resource called count := by
  unfold declared at h
  rcases List.mem_append.mp h with h | h
  · refine .inl ?_
    rcases List.mem_append.mp h with h | h
    · split at h
      · refine ⟨_, List.mem_singleton.mp h, ?_⟩
        intro text hcause
        cases hcause
      · cases h
    · exact Binding.isFinding_bound e h
  · exact .inr ⟨_, _, _, List.mem_singleton.mp h⟩

/-- **Every statement is accounted for.** -/
theorem accounts_contribution (st : Statement) : Accounts st (contribution o lookup scope st) := by
  unfold contribution outcome
  cases hst : declaration? st with
  | none => exact ⟨hst, _, rfl, rfl, rfl⟩
  | some found =>
    obtain ⟨b, name⟩ := found
    refine ⟨⟨b, name, hst, rfl, rfl⟩, ?_⟩
    intro d hd
    obtain ⟨e, he, hdiagnosed⟩ := List.mem_filterMap.mp hd
    rcases of_mem_declared he with ⟨_, rfl, hcause⟩ | ⟨_, _, _, rfl⟩
    · obtain rfl := Option.some.inj hdiagnosed
      exact kindName_ne_unsupported hcause
    · cases hdiagnosed

/-- No event of a statement is a step of progress. -/
theorem progress?_outcome {st : Statement} {e : Event}
    (h : e ∈ (outcome o lookup scope st).2) : e.progress? = none := by
  unfold outcome at h
  cases hst : declaration? st with
  | none =>
    rw [hst] at h
    rw [List.mem_singleton.mp h]
    rfl
  | some found =>
    rw [hst] at h
    rcases of_mem_declared h with ⟨_, rfl, -⟩ | ⟨_, _, _, rfl⟩ <;> rfl

/-- **A statement contributes the same wherever it stands.** -/
theorem statement_lenient (hcase : lookup.IgnoresCase) (ho : o.strict = false) (st : Statement)
    {s : Session} (hs : s.Consults lookup scope) :
    ∃ after, statement o st s = .ok ((outcome o lookup scope st).1, after) ∧
      after.Consults lookup scope ∧ after.events = s.events ++ (outcome o lookup scope st).2 := by
  unfold outcome
  cases hst : declaration? st with
  | none => exact ⟨_, statement_of_other hst s, ⟨hs.lookup, hs.scope, hs.answers⟩, rfl⟩
  | some found =>
    obtain ⟨b, name⟩ := found
    obtain ⟨hanswer, hconsults⟩ := Interpreting.resolve_eq hcase hs b.keyword
    have hread := statement_of_declaration (o := o) hst (s := s) (by rw [ho]; rfl)
    rw [hanswer] at hread
    exact ⟨_, hread, ⟨hconsults.lookup, hconsults.scope, hconsults.answers⟩, rfl⟩

/-- The events of statements, of which so many came before. -/
def eventsOf (o : ReadOptions) (lookup : DeclLookup) (scope : ImportScope) (total : Nat) :
    (before : Nat) → List Statement → List Event
  | _, [] => []
  | before, st :: rest => (outcome o lookup scope st).2 ++
      .processed (before + 1) total :: eventsOf o lookup scope total (before + 1) rest

/-- The run over the statements, by induction on them: each takes a step, and notes its number. -/
theorem statements_lenient (hcase : lookup.IgnoresCase) (ho : o.strict = false) (total : Nat)
    (list : List Statement) (before : Nat) {s : Session} (hs : s.Consults lookup scope) :
    ∃ after, statements o total before list s =
        .ok (list.filterMap fun st => (outcome o lookup scope st).1, after) ∧
      after.events = s.events ++ eventsOf o lookup scope total before list := by
  induction list generalizing before s with
  | nil => exact ⟨s, rfl, (List.append_nil _).symm⟩
  | cons st rest ih =>
    obtain ⟨first, hfirst, hconsults, hevents⟩ := statement_lenient hcase ho st hs
    obtain ⟨after, hmore, hmoreEvents⟩ := ih (before + 1)
      (s := ⟨first.memo, first.events ++ [.processed (before + 1) total]⟩)
      ⟨hconsults.lookup, hconsults.scope, hconsults.answers⟩
    refine ⟨after, ?_, ?_⟩
    · rw [statements_cons, hfirst, Except.bind, hmore, Except.map, List.filterMap_cons]
      cases (outcome o lookup scope st).1 <;> rfl
    · rw [hmoreEvents, hevents, eventsOf]
      simp

theorem diagnostics_eventsOf (total : Nat) (list : List Statement) (before : Nat) :
    (eventsOf o lookup scope total before list).filterMap Event.diagnostic? =
      list.flatMap fun st => (contribution o lookup scope st).2 := by
  induction list generalizing before with
  | nil => rfl
  | cons st rest ih =>
    rw [eventsOf, List.filterMap_append, List.flatMap_cons, List.filterMap_cons, ← ih (before + 1)]
    rfl

theorem progress_eventsOf (total : Nat) (list : List Statement) (before : Nat) :
    (eventsOf o lookup scope total before list).filterMap Event.progress? =
      (List.range' (before + 1) list.length).map fun count => (count, total) := by
  induction list generalizing before with
  | nil => rfl
  | cons st rest ih =>
    have hnone : (outcome o lookup scope st).2.filterMap Event.progress? = [] :=
      List.filterMap_eq_nil_iff.mpr fun e he => progress?_outcome he
    rw [eventsOf, List.filterMap_append, hnone, List.filterMap_cons, ih (before + 1),
      List.length_cons, List.range'_succ]
    rfl

end Building

/-! ### Logs -/

/-- The warnings of a log are its diagnostics, in order. -/
theorem Session.warnings_log (s : Session) :
    (s.log.filter fun line => line.1 == .warn) =
      s.diagnostics.map fun d =>
        (.warn, ("[dsc-tree] " : Text) ++ (d.kindName ++ (": " : Text) ++ d.message)) := by
  unfold Session.log Session.diagnostics
  induction s.events with
  | nil => rfl
  | cons e rest ih =>
    cases e with
    | diagnosed d =>
      rw [List.map_cons, List.filterMap_cons, List.filter_cons_of_pos (by rfl), ih]
      rfl
    | _ =>
      rw [List.map_cons, List.filterMap_cons, List.filter_cons_of_neg Bool.false_ne_true, ih]
      rfl

/-! ### Scripts with another body

A body that is cut in two belongs to no script until one is made of each part.  The
scripts here differ from the given one in the body of the node block that is read, and
in nothing else that a build looks at.
-/

namespace Build

/-- Statements with another body in the first node block among them. -/
def withNodeBody (body : List Statement) : List Statement → List Statement
  | [] => []
  | .node extent target _ :: rest => .node extent target body :: rest
  | st :: rest => st :: withNodeBody body rest

/-- A script with another body in the node block that is read. -/
def withBody (body : List Statement) : List Statement → List Statement
  | [] => []
  | .configuration extent name inner :: rest =>
    .configuration extent name (withNodeBody body inner) :: rest
  | st :: rest => st :: withBody body rest

variable {body : List Statement}

theorem configuration?_withBody (script : List Statement) :
    configuration? (withBody body script) =
      (configuration? script).map fun c => { c with body := withNodeBody body c.body } := by
  fun_induction withBody body script with
  | case1 => rfl
  | case2 => rfl
  | case3 st rest hne ih =>
    rw [configuration?, configuration?, ih]
    · exact hne
    · exact hne

theorem nodeBodies_withNodeBody {inner old : List Statement} {more : List (List Statement)}
    (h : nodeBodies inner = old :: more) : nodeBodies (withNodeBody body inner) = body :: more := by
  induction inner with
  | nil => cases h
  | cons st rest ih =>
    cases st with
    | node extent target found =>
      obtain ⟨-, rfl⟩ := List.cons.inj h
      rfl
    | _ => exact ih h

/-- Imports are no matter of node blocks. -/
theorem imports_withNodeBody (inner : List Statement) :
    Import.ofStatements (withNodeBody body inner) = Import.ofStatements inner := by
  have harguments : (withNodeBody body inner).filterMap Import.arguments? =
      inner.filterMap Import.arguments? := by
    induction inner with
    | nil => rfl
    | cons st rest ih =>
      cases st with
      | node extent target found => rfl
      | _ => rw [withNodeBody, List.filterMap_cons, List.filterMap_cons, ih]; simp
  unfold Import.ofStatements
  rw [harguments]

/-- What is built, read leniently, of a script with a body in the node block that is read. -/
theorem ofStatements_withBody {lookup : DeclLookup} (hcase : lookup.IgnoresCase) {o : ReadOptions}
    (ho : o.strict = false) {script : List Statement} {c : Configuration}
    (hc : configuration? script = some c) {old : List Statement} {more : List (List Statement)}
    (hnodes : nodeBodies c.body = old :: more) (body : List Statement) :
    ∃ built, ofStatements o lookup (withBody body script) = .ok built ∧
      built.imports = Import.ofStatements c.body ∧
      built.instances = body.filterMap (fun st =>
        (Building.contribution o lookup ⟨Import.ofStatements c.body, o.versionRule⟩ st).1) ∧
      built.session.diagnostics = body.flatMap (fun st =>
        (Building.contribution o lookup ⟨Import.ofStatements c.body, o.versionRule⟩ st).2) ∧
      built.session.progress = (List.range' 1 body.length).map fun count => (count, body.length) := by
  have hconfiguration := @configuration?_withBody body script
  rw [hc, Option.map_some] at hconfiguration
  have hopening : opening o lookup { c with body := withNodeBody body c.body } more =
      opening o lookup c more := by
    unfold opening
    rw [imports_withNodeBody]
  have hconsults : (opening o lookup c more).Consults lookup
      ⟨Import.ofStatements c.body, o.versionRule⟩ :=
    ⟨rfl, rfl, fun _ h => absurd h List.not_mem_nil⟩
  obtain ⟨after, hread, hevents⟩ :=
    Building.statements_lenient hcase ho body.length body 0 hconsults
  have haside : (leftAside more).filterMap Event.diagnostic? = [] ∧
      (leftAside more).filterMap Event.progress? = [] := by
    cases more <;> exact ⟨rfl, rfl⟩
  refine ⟨⟨_, Import.ofStatements (withNodeBody body c.body), after⟩, ?_,
    imports_withNodeBody c.body, rfl, ?_, ?_⟩
  · rw [ofStatements_of_nodes hconfiguration (nodeBodies_withNodeBody hnodes), hopening, hread]
    rfl
  · change after.events.filterMap Event.diagnostic? = _
    rw [hevents, List.filterMap_append, Building.diagnostics_eventsOf]
    change (leftAside more).filterMap Event.diagnostic? ++ _ = _
    rw [haside.1, List.nil_append]
  · change after.events.filterMap Event.progress? = _
    rw [hevents, List.filterMap_append, Building.progress_eventsOf]
    change (leftAside more).filterMap Event.progress? ++ _ = _
    rw [haside.2, List.nil_append]

theorem withNodeBody_self {inner : List Statement} {extent : Extent}
    (h : firstNode? inner = some (extent, body)) : withNodeBody body inner = inner := by
  induction inner with
  | nil => rfl
  | cons st rest ih =>
    cases st with
    | node e target found =>
      cases h
      rfl
    | _ => exact congrArg _ (ih h)

/-- A script has the body that it has. -/
theorem withBody_self {script : List Statement} {extent : Extent}
    (h : nodeBlock? script = some (extent, body)) : withBody body script = script := by
  induction script with
  | nil => rfl
  | cons st rest ih =>
    cases st with
    | configuration e name inner =>
      refine congrArg (· :: rest) ?_
      rw [withNodeBody_self (show firstNode? inner = some (extent, body) from h)]
    | _ => exact congrArg _ (ih h)

/-- **A build is made of what its statements contribute**, each by itself.  If the body of the node
block that is read is cut in two, the instances and the diagnostics are those of the two parts;
every statement accounts for one instance or for one diagnostic that says it is none; the progress
runs from the first statement to the last; and the log warns of each diagnostic. -/
theorem ofStatements_append {lookup : DeclLookup} (hcase : lookup.IgnoresCase) {o : ReadOptions}
    (ho : o.strict = false) {script xs ys : List Statement} {extent : Extent}
    (h : nodeBlock? script = some (extent, xs ++ ys)) :
    ∃ whole first second : Build,
      ofStatements o lookup script = .ok whole ∧
      ofStatements o lookup (withBody xs script) = .ok first ∧
      ofStatements o lookup (withBody ys script) = .ok second ∧
      whole.instances = first.instances ++ second.instances ∧
      whole.session.diagnostics = first.session.diagnostics ++ second.session.diagnostics ∧
      first.imports = whole.imports ∧ second.imports = whole.imports ∧
      (let contribution := Building.contribution o lookup ⟨whole.imports, o.versionRule⟩;
        (∀ st, Building.Accounts st (contribution st)) ∧
        whole.instances = (xs ++ ys).filterMap (fun st => (contribution st).1) ∧
        whole.session.diagnostics = (xs ++ ys).flatMap fun st => (contribution st).2) ∧
      whole.session.progress = (List.range' 1 (xs ++ ys).length).map
        (fun count => (count, (xs ++ ys).length)) ∧
      (whole.session.log.filter fun line => line.1 == .warn) = whole.session.diagnostics.map
        fun d => (.warn, ("[dsc-tree] " : Text) ++ (d.kindName ++ (": " : Text) ++ d.message)) := by
  obtain ⟨c, hc, hnode⟩ := Option.bind_eq_some_iff.mp h
  obtain ⟨more, hmore⟩ := nodeBodies_eq_cons hnode
  obtain ⟨whole, hwhole, himports, hinstances, hdiagnostics, hprogress⟩ :=
    ofStatements_withBody hcase ho hc hmore (xs ++ ys)
  obtain ⟨first, hfirst, hfirstImports, hfirstInstances, hfirstDiagnostics, -⟩ :=
    ofStatements_withBody hcase ho hc hmore xs
  obtain ⟨second, hsecond, hsecondImports, hsecondInstances, hsecondDiagnostics, -⟩ :=
    ofStatements_withBody hcase ho hc hmore ys
  rw [withBody_self h] at hwhole
  refine ⟨whole, first, second, hwhole, hfirst, hsecond, ?_, ?_, hfirstImports.trans himports.symm,
    hsecondImports.trans himports.symm, ⟨Building.accounts_contribution, ?_, ?_⟩, hprogress,
    whole.session.warnings_log⟩
  · rw [hinstances, hfirstInstances, hsecondInstances, List.filterMap_append]
  · rw [hdiagnostics, hfirstDiagnostics, hsecondDiagnostics, List.flatMap_append]
  · rw [hinstances, himports]
  · rw [hdiagnostics, himports]

/-- Two blocks with names, and between them a command. -/
def yardScript : List Statement :=
  let name : Expression := .string ⟨['a'], 3, 7⟩ ['a'] .bare
  let block (line : Nat) : Statement :=
    .block ⟨⟨"Depot", line, 1⟩, "Depot", ⟨line, 1⟩, some name, ⟨⟨"\x7b\x7d", line, 9⟩, []⟩⟩
  [.configuration ⟨"c", 1, 1⟩ "C" [.node ⟨"n", 2, 1⟩ name
    [block 3, .pipeline ⟨"Get-Crane", 4, 1⟩ [.command ⟨⟨"Get-Crane", 4, 1⟩, "Get-Crane", []⟩],
      block 5]]]

theorem ofStatements_append_yard :
    DeclLookup.IgnoresCase (fun _ _ => none) ∧ ReadOptions.lenient.strict = false ∧
      ∃ extent first second third,
        nodeBlock? yardScript = some (extent, [first] ++ [second, third]) ∧
        ∃ whole one two : Build,
          ofStatements .lenient (fun _ _ => none) yardScript = .ok whole ∧
          ofStatements .lenient (fun _ _ => none) (withBody [first] yardScript) = .ok one ∧
          ofStatements .lenient (fun _ _ => none) (withBody [second, third] yardScript) = .ok two ∧
          whole.instances = one.instances ++ two.instances ∧
          whole.session.progress = [(1, 3), (2, 3), (3, 3)] := by
  have hcase : DeclLookup.IgnoresCase (fun _ _ => none) := fun _ _ _ _ => rfl
  refine ⟨hcase, rfl, _, _, _, _, rfl, ?_⟩
  obtain ⟨whole, one, two, hwhole, hone, htwo, hinstances, -, -, -, -, hprogress, -⟩ :=
    @ofStatements_append _ hcase .lenient rfl yardScript [_] [_, _] _ rfl
  exact ⟨whole, one, two, hwhole, hone, htwo, hinstances, hprogress⟩

end Build

end DesiredState
