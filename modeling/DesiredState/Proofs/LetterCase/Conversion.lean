/-
Conversion does not depend on the letter case of names.

What is asked of a statement in a body is few: whether it is an import and of what, whether
it declares a resource, and where it stands.  All of this is the same up to letter case, and
so is what the declarations are bound to.  So a text that differs from another one in names
only is converted to the same instances, with the same diagnostics, up to letter case.

There is one name of which the letter case counts, the name of a parent: a key that is spelled
so gives its block no property, and in any other spelling it does.
-/
import DesiredState.Proofs.Building.Outcome
import DesiredState.Proofs.LetterCase.Binding
import DesiredState.Proofs.LetterCase.Imports
import DesiredState.Proofs.LetterCase.Names
import DesiredState.Proofs.RoundTrip

namespace DesiredState

variable {S : TextPair} {free : Location → Prop}

theorem Block.Recased.keyword {a b : Block} (h : a.Recased S free b) :
    a.keyword.Alike b.keyword := by
  cases h with
  | mk _ hhead => exact hhead

/-! ### Statements

A statement of a body is asked few questions.  They are listed once, and answered once
for all statements, so that what follows does not look at trees any more.
-/

theorem isNone_of_rel {α β : Type} {R : α → β → Prop} {a : Option α} {b : Option β}
    (h : Option.Rel R a b) : b.isNone = a.isNone := by
  cases h <;> rfl

/-- Statements of which the same is to be read. -/
structure Statement.Renamed (S : TextPair) (s s' : Statement) : Prop where
  stretch : S.Stretch s.extent s'.extent
  arguments : Option.Rel (List.Forall₂ (Argument.Recased S Nowhere)) (Import.arguments? s)
    (Import.arguments? s')
  declaration : Option.Rel (fun p q => p.1.Recased S Nowhere q.1 ∧ p.2.Recased S Nowhere q.2)
    (Building.declaration? s) (Building.declaration? s')
  isResourceLike : Build.isResourceLike s' = Build.isResourceLike s

namespace Statement.Recased

/-- A block whose values are settled declares the same. -/
theorem declaration?_block {a b : Block} (h : a.Recased S Nowhere b) :
    Option.Rel (fun p q => p.1.Recased S Nowhere q.1 ∧ p.2.Recased S Nowhere q.2)
      (Building.declaration? (.block a)) (Building.declaration? (.block b)) := by
  have hblock := h
  cases h with
  | mk _ _ hname =>
    cases hname with
    | none => exact .none
    | some hname => exact .some ⟨hblock, hname⟩

/-- A command whose values are settled imports the same. -/
theorem arguments?_command {e f : Extent} {c d : Command} (h : c.Recased S free d)
    (hwords : KeepsWords free (importWords (.pipeline e [.command c])))
    (hparents : KeepsParents c.blocks d.blocks) :
    Option.Rel (List.Forall₂ (Argument.Recased S Nowhere))
      (Import.arguments? (.pipeline e [.command c]))
      (Import.arguments? (.pipeline f [.command d])) := by
  cases h with
  | @mk extent _ name _ given _ _ _ halike harguments =>
    simp only [Import.arguments?, Import.isImportName_alike halike]
    cases hname : Import.isImportName name with
    | false => exact .none
    | true =>
      have hhead : importWords (.pipeline e [.command ⟨extent, name, given⟩]) =
          (.name, extent.location) :: Argument.wordsOf given := by
        simp [importWords, Import.arguments?, hname, headNamed, words, Term.words, Command.words]
      rw [hhead] at hwords
      exact .some (Argument.Recased.settledAll harguments hwords.tail hparents)

/-- Only a lone command imports. -/
theorem arguments?_pipeline {e f : Extent} {elements elements' : List Term}
    (h : List.Forall₂ (Term.Recased S free) elements elements')
    (hwords : KeepsWords free (importWords (.pipeline e elements)))
    (hparents : KeepsParents (Term.blocksOf elements) (Term.blocksOf elements')) :
    Option.Rel (List.Forall₂ (Argument.Recased S Nowhere))
      (Import.arguments? (.pipeline e elements)) (Import.arguments? (.pipeline f elements')) := by
  cases h with
  | nil => exact .none
  | cons hfirst hrest =>
    cases hfirst with
    | command hc =>
      cases hrest with
      | nil => exact arguments?_command hc hwords hparents.left
      | cons _ _ => exact .none
    | _ => exact .none

/-- Of statements that are alike the same is to be read. -/
theorem renamed {s s' : Statement} (h : s.Recased S free s')
    (hwords : KeepsWords free s.importWords) (hparents : KeepsParents s.blocks s'.blocks) :
    s.Renamed S s' := by
  have hstretch := h.stretch
  cases h with
  | block hb => exact ⟨hstretch, .none, declaration?_block (hb.settled hwords hparents), rfl⟩
  | @pipeline e f _ _ _ helements =>
    have himport := arguments?_pipeline (f := f) helements hwords hparents
    exact ⟨hstretch, himport, .none, isNone_of_rel himport⟩
  | _ => exact ⟨hstretch, .none, .none, rfl⟩

/-- Of a node block no more is asked than its body. -/
theorem renamed_of_bodyWords {s s' : Statement} (h : s.Recased S free s')
    (hwords : KeepsWords free s.bodyWords) (hparents : KeepsParents s.blocks s'.blocks) :
    s.Renamed S s' := by
  cases s with
  | node =>
    have hstretch := h.stretch
    cases h
    exact ⟨hstretch, .none, .none, rfl⟩
  | _ => exact h.renamed hwords hparents

end Statement.Recased

/-! ### Configurations -/

namespace Build

/-- Statements of a body of which the same is to be read, one by one. -/
abbrev RenamedBody (S : TextPair) (body body' : List Statement) : Prop :=
  List.Forall₂ (Statement.Renamed S) body body'

theorem renamedBody {body body' : List Statement} {words : Statement → List Word}
    (h : List.Forall₂ (Statement.Recased S free) body body')
    (hwords : KeepsWords free (body.flatMap words))
    (hparents : KeepsParents (Statement.blocksOf body) (Statement.blocksOf body'))
    (hrenamed : ∀ s s', s.Recased S free s' → KeepsWords free (words s) →
      KeepsParents s.blocks s'.blocks → s.Renamed S s') :
    RenamedBody S body body' := by
  induction h with
  | nil => exact .nil
  | cons hfirst _ ih =>
    exact .cons (hrenamed _ _ hfirst hwords.left hparents.left) (ih hwords.right hparents.right)

/-- Configurations of which the same is to be read. -/
structure Configuration.Renamed (S : TextPair) (c c' : Configuration) : Prop where
  body : RenamedBody S c.body c'.body
  nodes : List.Forall₂ (RenamedBody S) (nodeBodies c.body) (nodeBodies c'.body)

theorem nodes_renamed {body body' : List Statement}
    (h : List.Forall₂ (Statement.Recased S free) body body')
    (hwords : KeepsWords free (body.flatMap Statement.bodyWords))
    (hparents : KeepsParents (Statement.blocksOf body) (Statement.blocksOf body')) :
    List.Forall₂ (RenamedBody S) (nodeBodies body) (nodeBodies body') := by
  induction h with
  | nil => exact .nil
  | cons hfirst hrest ih =>
    have hmore := ih hwords.right hparents.right
    cases hfirst with
    | node _ hbody =>
      exact .cons (renamedBody hbody hwords.left.tail.right hparents.left.right
        fun _ _ hs => hs.renamed) hmore
    | _ => exact hmore

/-- The first configuration of a script is found in the same place. -/
theorem configuration_renamed {statements statements' : List Statement}
    (h : List.Forall₂ (Statement.Recased S free) statements statements')
    (hwords : KeepsWords free (statements.flatMap Statement.scriptWords))
    (hparents : KeepsParents (Statement.blocksOf statements) (Statement.blocksOf statements')) :
    Option.Rel (Configuration.Renamed S) (configuration? statements)
      (configuration? statements') := by
  induction h with
  | nil => exact .none
  | cons hfirst _ ih =>
    have hmore := ih hwords.right hparents.right
    cases hfirst with
    | configuration _ hbody =>
      have hbodyWords := hwords.left.tail
      exact .some ⟨renamedBody hbody hbodyWords hparents.left
        fun _ _ hs => hs.renamed_of_bodyWords, nodes_renamed hbody hbodyWords hparents.left⟩
    | _ => exact hmore

theorem imports_renamed {body body' : List Statement} (h : RenamedBody S body body') :
    Import.ofStatements body' = Import.ofStatements body := by
  have harguments : List.Forall₂ (List.Forall₂ (Argument.Recased S Nowhere))
      (body.filterMap Import.arguments?) (body'.filterMap Import.arguments?) :=
    List.rel_filterMap (fun _ _ hs => hs.arguments) h
  unfold Import.ofStatements
  generalize body.filterMap Import.arguments? = given,
    body'.filterMap Import.arguments? = given' at harguments
  induction harguments with
  | nil => rfl
  | cons hfirst _ ih =>
    rw [List.flatMap_cons, List.flatMap_cons, Import.ofArguments_recased hfirst, ih]

end Build

/-! ### Building

Building can fail, and only one direction is needed: where the first side succeeds the
second one does.  A failure of the first side relates to anything.
-/

/-- When work succeeds in one of two sessions in which the same has happened, other work succeeds
in the other one, and comes to a related value. -/
def Building.Recased (S : TextPair) (lookup : DeclLookup) (scope : ImportScope) (P : α → β → Prop)
    (work : Building α) (work' : Building β) : Prop :=
  ∀ s s', Session.Recased S lookup scope s s' → ∀ a after, work s = .ok (a, after) →
    ∃ b after', work' s' = .ok (b, after') ∧ P a b ∧ Session.Recased S lookup scope after after'

namespace Building

namespace Recased

variable {lookup : DeclLookup} {scope : ImportScope} {α β γ δ : Type}

theorem pure {P : α → β → Prop} {a : α} {b : β} (h : P a b) :
    Recased S lookup scope P (Pure.pure a) (Pure.pure b) := by
  intro s s' hs _ _ hwork
  cases hwork
  exact ⟨b, s', rfl, h, hs⟩

theorem throw {P : α → β → Prop} {e : BuildError} {work' : Building β} :
    Recased S lookup scope P (throw e) work' := by
  intro s s' hs _ _ hwork
  cases hwork

theorem bind {P : α → β → Prop} {Q : γ → δ → Prop} {work : Building α} {work' : Building β}
    {next : α → Building γ} {next' : β → Building δ} (h : Recased S lookup scope P work work')
    (hnext : ∀ a b, P a b → Recased S lookup scope Q (next a) (next' b)) :
    Recased S lookup scope Q (work >>= next) (work' >>= next') := by
  intro s s' hs c last hwork
  cases hfirst : work s with
  | error e =>
    rw [bind_of_error hfirst] at hwork
    cases hwork
  | ok result =>
    obtain ⟨a, after⟩ := result
    rw [bind_of_ok hfirst] at hwork
    obtain ⟨b, after', hfirst', hp, hafter⟩ := h s s' hs a after hfirst
    rw [bind_of_ok hfirst']
    exact hnext a b hp after after' hafter c last hwork

theorem interpreted {P : α → β → Prop} {work : Interpreting α} {work' : Interpreting β}
    (h : Interpreting.Recased S lookup scope P work work') :
    Recased S lookup scope P (interpreted work) (interpreted work') := by
  intro s s' hs a after hwork
  have hresult : work s = (a, after) := Except.ok.inj hwork
  obtain ⟨hp, hafter⟩ := h s s' hs
  rw [hresult] at hp hafter
  exact ⟨(work' s').1, (work' s').2, rfl, hp, hafter⟩

end Recased

variable {lookup : DeclLookup} {scope : ImportScope} {o : ReadOptions}

theorem instanceName_recased {e e' : Expression} (h : e.Recased S Nowhere e') :
    S.Kept (instanceName e) (instanceName e') := by
  have htext := h.stretch.text
  cases h with
  | string _ hsame => exact .inl (hsame not_false)
  | _ => exact .inr htext

/-- A resource is looked up without regard to letter case, and reported alike. -/
theorem schemaOf_recased (hcase : lookup.IgnoresCase) {b b' : Block} (h : b.Recased S Nowhere b')
    {subject subject' : Subject} (hsubject : subject.Recased S subject') :
    Recased S lookup scope (fun found found' => found' = found) (schemaOf o b subject)
      (schemaOf o b' subject') := by
  cases h with
  | mk _ hhead =>
    unfold schemaOf
    refine .bind (.interpreted (.resolve hcase hhead)) ?_
    rintro _ found rfl
    cases found with
    | some schema => exact .pure rfl
    | none =>
      dsimp only
      cases o.strict with
      | true => exact .throw
      | false =>
        refine .bind (.interpreted (.report (.unknownResource hhead) hsubject ?_)) fun _ _ _ =>
          .pure rfl
        exact congrArg some (Extent.range_alike rfl hhead.symm)

/-- A block with a name declares the same instance. -/
theorem instanceOf_recased (hcase : lookup.IgnoresCase) {b b' : Block} (h : b.Recased S Nowhere b')
    {name name' : Expression} (hname : name.Recased S Nowhere name') :
    Recased S lookup scope (Instance.Recased S) (instanceOf o b name) (instanceOf o b' name') := by
  have hblock := h
  have hkept := instanceName_recased hname
  have hsubject : (subjectOf b name).Recased S (subjectOf b' name') :=
    ⟨.some h.keyword, .some hkept, .none⟩
  cases h with
  | mk _ hhead _ hentries =>
    unfold instanceOf
    refine .bind (schemaOf_recased hcase hblock hsubject) ?_
    rintro _ found rfl
    refine .bind (.interpreted (Binding.entries_recased hcase hhead hsubject hhead
      (found.map (·.properties)) .nil hentries)) fun properties properties' hproperties => ?_
    rw [← hproperties.length_eq]
    refine .bind (.interpreted (.note (.readInstance _ hhead hkept))) fun _ _ _ => ?_
    exact .pure ⟨hhead, hkept, hproperties⟩

/-- A statement declares the same instance, or is reported alike. -/
theorem statement_recased (hcase : lookup.IgnoresCase) {s s' : Statement} (h : s.Renamed S s') :
    Recased S lookup scope (Option.Rel (Instance.Recased S)) (statement o s) (statement o s') := by
  have hdeclaration := h.declaration
  unfold statement
  generalize declaration? s = declared, declaration? s' = declared' at hdeclaration
  cases hdeclaration with
  | none =>
    refine .bind (.interpreted (.report (.notResource h.stretch.text.alike)
      ⟨.none, .none, .none⟩ ?_)) fun _ _ _ => .pure .none
    exact congrArg some h.stretch.range
  | some hpair =>
    exact .bind (instanceOf_recased hcase hpair.1 hpair.2) fun _ _ hi => .pure (.some hi)

/-- Statements declare the same instances, one after another. -/
theorem statements_recased (hcase : lookup.IgnoresCase) (total before : Nat)
    {body body' : List Statement} (h : Build.RenamedBody S body body') :
    Recased S lookup scope (List.Forall₂ (Instance.Recased S)) (statements o total before body)
      (statements o total before body') := by
  induction h generalizing before with
  | nil => exact .pure .nil
  | cons hfirst _ ih =>
    refine .bind (statement_recased hcase hfirst) fun first first' hi => ?_
    refine .bind (.interpreted (.note (.processed (before + 1) total))) fun _ _ _ => ?_
    refine .bind (ih (before + 1)) fun more more' hmore => .pure ?_
    cases hi with
    | none => exact hmore
    | some hi => exact .cons hi hmore

end Building

namespace Build

variable {lookup : DeclLookup} {scope : ImportScope} {o : ReadOptions}

theorem any_renamed {body body' : List Statement} (h : RenamedBody S body body') :
    (body'.any fun s => (Building.declaration? s).isSome) =
      body.any fun s => (Building.declaration? s).isSome := by
  induction h with
  | nil => rfl
  | cons hfirst _ ih =>
    rw [List.any_cons, List.any_cons, ih, ← Option.not_isNone, ← Option.not_isNone,
      isNone_of_rel hfirst.declaration]

/-- The statements that declare resources are found in the same places. -/
theorem declaringStatements_recased {c c' : Configuration} (h : c.Renamed S c') :
    Building.Recased S lookup scope (RenamedBody S) (declaringStatements o c)
      (declaringStatements o c') := by
  have hnodes := h.nodes
  have hfound : RenamedBody S (c.body.filter isResourceLike) (c'.body.filter isResourceLike) :=
    List.rel_filter (fun _ _ hs => by simp only [hs.isResourceLike]) h.body
  have hany : ((c'.body.filter isResourceLike).any fun s => (Building.declaration? s).isSome) =
      (c.body.filter isResourceLike).any fun s => (Building.declaration? s).isSome :=
    any_renamed hfound
  unfold declaringStatements
  generalize nodeBodies c.body = bodies, nodeBodies c'.body = bodies' at hnodes
  cases hnodes with
  | nil =>
    dsimp only
    cases o.strict with
    | true => exact .throw
    | false =>
      simp only [hany, Bool.false_eq_true, if_false]
      split
      · exact .pure hfound
      · exact .throw
  | cons hbody hmore =>
    cases hmore with
    | nil => exact .pure hbody
    | cons hsecond hmore =>
      dsimp only
      rw [← (List.Forall₂.cons hsecond hmore).length_eq]
      exact .bind (.interpreted (.note (.severalNodes _))) fun _ _ _ => .pure hbody

/-- Configurations of which the same is to be read declare the same instances. -/
theorem instances_recased (hcase : lookup.IgnoresCase) {c c' : Configuration}
    (h : c.Renamed S c') :
    Building.Recased S lookup scope (List.Forall₂ (Instance.Recased S))
      (do
        let statements ← declaringStatements o c
        Building.statements o statements.length 0 statements)
      (do
        let statements ← declaringStatements o c'
        Building.statements o statements.length 0 statements) := by
  refine .bind (declaringStatements_recased h) fun body body' hbody => ?_
  rw [← hbody.length_eq]
  exact Building.statements_recased hcase body.length 0 hbody

/-- Scripts whose values are settled are built alike. -/
theorem ofStatements_recased (hcase : lookup.IgnoresCase) {statements statements' : List Statement}
    (h : List.Forall₂ (Statement.Recased S free) statements statements')
    (hwords : KeepsWords free (statements.flatMap Statement.scriptWords))
    (hparents : KeepsParents (Statement.blocksOf statements) (Statement.blocksOf statements'))
    {built : Build}
    (hbuilt : ofStatements o lookup statements = .ok built) :
    ∃ built', ofStatements o lookup statements' = .ok built' ∧
      List.Forall₂ (Instance.Recased S) built.instances built'.instances ∧
      List.Forall₂ (Event.Recased S) built.session.events built'.session.events := by
  have hconfiguration := configuration_renamed h hwords hparents
  unfold ofStatements at hbuilt ⊢
  generalize configuration? statements = found, configuration? statements' = found'
    at hconfiguration hbuilt
  cases hconfiguration with
  | none => cases hbuilt
  | @some c c' hc =>
    have himports := imports_renamed hc.body
    have hsession : Session.Recased S lookup ⟨Import.ofStatements c.body, o.versionRule⟩
        (.new (.new lookup ⟨Import.ofStatements c.body, o.versionRule⟩))
        (.new (.new lookup ⟨Import.ofStatements c.body, o.versionRule⟩)) :=
      ⟨Session.consults_new _ _, Session.consults_new _ _, .nil⟩
    have hwork := @instances_recased S lookup
      ⟨Import.ofStatements c.body, o.versionRule⟩ o hcase c c' hc
    simp only [himports] at hbuilt ⊢
    generalize (do
      let statements ← declaringStatements o c
      Building.statements o statements.length 0 statements : Building (List Instance)) = work,
      (do
      let statements ← declaringStatements o c'
      Building.statements o statements.length 0 statements : Building (List Instance)) = work'
      at hwork hbuilt
    cases hrun : work (.new (.new lookup ⟨Import.ofStatements c.body, o.versionRule⟩)) with
    | error e =>
      rw [hrun] at hbuilt
      cases hbuilt
    | ok result =>
      obtain ⟨instances, after⟩ := result
      rw [hrun] at hbuilt
      cases hbuilt
      obtain ⟨instances', after', hrun', hinstances, hafter⟩ := hwork _ _ hsession _ _ hrun
      rw [hrun']
      exact ⟨_, rfl, hinstances, hafter.events⟩

end Build

/-! ### Conversion -/

theorem Session.diagnostics_recased {s s' : Session}
    (h : List.Forall₂ (Event.Recased S) s.events s'.events) :
    List.Forall₂ (Diagnostic.Recased S) s.diagnostics s'.diagnostics := by
  refine List.rel_filterMap ?_ h
  intro e e' he
  cases he with
  | diagnosed hd => exact .some hd
  | _ => exact .none

/-- In two scripts the same keys of blocks are called by the name of a parent. -/
def Script.KeepsParents (script script' : Script) : Prop :=
  DesiredState.KeepsParents (Statement.blocksOf script.statements)
    (Statement.blocksOf script'.statements)

instance (script script' : Script) : Decidable (script.KeepsParents script') :=
  inferInstanceAs (Decidable (DesiredState.KeepsParents _ _))

namespace Configuration

/-- **Conversion does not depend on the letter case of names.**  A text that differs from the source
of a script in the case of ASCII letters only, and in names only, is converted too, if no key comes
to be the name of a parent by this or ceases to be it: to as many instances in the same order, whose
properties stand in the same order and have values of the same kinds, and with as many diagnostics
of the same kinds at the same ranges.  What differs differs in letter case: the names of resources,
of properties and of classes, source text, and messages. -/
theorem read_renamed {o : ReadOptions} (hcomments : o.includesComments = false)
    {lookup : DeclLookup} (hcase : lookup.IgnoresCase) {source : Text} {script : Script}
    (hparse : Script.parse source = .ok script) {conversion : Conversion}
    (hread : read o lookup source = .ok conversion) {source' : Text}
    (hnames : script.Renamed source source')
    (hparents : ∀ script', Script.parse source' = .ok script' → script.KeepsParents script') :
    ∃ conversion', read o lookup source' = .ok conversion' ∧
      List.Forall₂ (Instance.Recased ⟨source, source', hnames.alike⟩) conversion.instances
        conversion'.instances ∧
      List.Forall₂ (Diagnostic.Recased ⟨source, source', hnames.alike⟩)
        conversion.session.diagnostics conversion'.session.diagnostics := by
  obtain ⟨_, built, hparsed, hbuilt, rfl⟩ := built_of_read hread
  obtain rfl := Except.ok.inj (hparsed.symm.trans hparse)
  obtain ⟨script', hparse', hstatements⟩ := Script.parse_renamed hparse hnames
  obtain ⟨built', hbuilt', hinstances, hevents⟩ :=
    Build.ofStatements_recased hcase hstatements (Script.keepsWords hparse)
      (hparents script' hparse') hbuilt
  refine ⟨_, read_of_built hparse' hbuilt', ?_, Session.diagnostics_recased hevents⟩
  rw [hcomments]
  exact hinstances

/-- An import, a block within a block, and a key that is repeated in other letters. -/
def quietSource : Text :=
  "configuration c \x7b param($p) import-dscresource -modulename m\n" ++
  "node n \x7b site s \x7b owner = person \x7b title = 'x' ; rank = 1 \x7d ; " ++
  "level = a ; LEVEL = b \x7d \x7d \x7d"

/-- The same with other letters in the names. -/
def loudSource : Text :=
  "Configuration c \x7b PARAM($p) Import-DscResource -ModuleName m\n" ++
  "NODE n \x7b Site s \x7b OWNER = Person \x7b Title = 'x' ; RANK = 1 \x7d ; " ++
  "Level = a ; level = b \x7d \x7d \x7d"

theorem read_renamed_site :
    ∃ catalog : Catalog, ∃ script conversion conversion',
      Script.parse quietSource = .ok script ∧
      ∃ hnames : script.Renamed quietSource loudSource,
        read .lenient catalog.find? quietSource = .ok conversion ∧
        read .lenient catalog.find? loudSource = .ok conversion' ∧
        conversion.instances.length = 1 ∧
        List.Forall₂ (Instance.Recased ⟨quietSource, loudSource, hnames.alike⟩)
          conversion.instances conversion'.instances ∧
        List.Forall₂ (Diagnostic.Recased ⟨quietSource, loudSource, hnames.alike⟩)
          conversion.session.diagnostics conversion'.session.diagnostics := by
  let catalog : Catalog := [⟨"Site", some "M", none, none,
    [⟨"Owner", "[Person]", false, []⟩, ⟨"Level", "[String]", false, []⟩],
    [⟨"Person", [⟨"Title", "[String]", false, []⟩]⟩]⟩]
  have hrenamed : (match Script.parse quietSource with
      | .ok script => decide (script.Renamed quietSource loudSource ∧
          ∀ script' ∈ (Script.parse loudSource).toOption, script.KeepsParents script')
      | .error _ => false) = true := by
    decide +kernel
  have hread : (match read .lenient catalog.find? quietSource with
      | .ok conversion => conversion.instances.length == 1
      | .error _ => false) = true := by
    decide +kernel
  split at hrenamed
  · next script hparse =>
    split at hread
    · next conversion hconversion =>
      obtain ⟨hnames, hparents⟩ := of_decide_eq_true hrenamed
      obtain ⟨conversion', hconversion', hinstances, hdiagnostics⟩ :=
        read_renamed (o := .lenient) rfl catalog.find?_ignoresCase hparse hconversion hnames
          fun script' hparse' => hparents script' (by rw [hparse']; rfl)
      exact ⟨catalog, script, conversion, conversion', hparse, hnames, hconversion,
        hconversion', eq_of_beq hread, hinstances, hdiagnostics⟩
    · cases hread
  · cases hrenamed

/-- A block whose only key is in other letters the name of a parent. -/
def heldSource : Text :=
  "Configuration C \x7b Node n \x7b Site s \x7b __PROTO__ = 1 \x7d \x7d \x7d"

/-- The same with the name of a parent as the key. -/
def parentedSource : Text :=
  "Configuration C \x7b Node n \x7b Site s \x7b __proto__ = 1 \x7d \x7d \x7d"

/-- With a change of letter case a property can get lost. -/
theorem read_renamed_parented :
    ¬ ∀ (catalog : Catalog) (source source' : Text) (script : Script) (conversion : Conversion),
      Script.parse source = .ok script →
      read .lenient catalog.find? source = .ok conversion →
      ∀ hnames : script.Renamed source source', ∃ conversion',
        read .lenient catalog.find? source' = .ok conversion' ∧
        List.Forall₂ (Instance.Recased ⟨source, source', hnames.alike⟩) conversion.instances
          conversion'.instances := by
  intro h
  have hrenamed : (match Script.parse heldSource with
      | .ok script => decide (script.Renamed heldSource parentedSource)
      | .error _ => false) = true := by
    decide +kernel
  have hheld : (match read .lenient (Catalog.find? [.parented]) heldSource with
      | .ok conversion => conversion.instances.map (·.properties.length) == [1]
      | .error _ => false) = true := by
    decide +kernel
  have hlost : (match read .lenient (Catalog.find? [.parented]) parentedSource with
      | .ok conversion => conversion.instances.map (·.properties.length) == [0]
      | .error _ => false) = true := by
    decide +kernel
  split at hrenamed
  · next script hparse =>
    split at hheld
    · next conversion hread =>
      obtain ⟨conversion', hread', hinstances⟩ :=
        h [.parented] _ _ script conversion hparse hread (of_decide_eq_true hrenamed)
      simp only [hread'] at hlost
      have hlengths : List.Forall₂ (· = ·) (conversion.instances.map (·.properties.length))
          (conversion'.instances.map (·.properties.length)) :=
        List.forall₂_map_left_iff.mpr (List.forall₂_map_right_iff.mpr
          (hinstances.imp fun _ _ hi => hi.properties.length_eq))
      rw [eq_of_beq hheld, eq_of_beq hlost, List.forall₂_eq_eq_eq] at hlengths
      exact absurd hlengths (by decide)
    · cases hheld
  · cases hrenamed

end Configuration

end DesiredState
