/-
What diagnostics point at.

Every diagnostic is about a node of the tree: the head of a block, a key in a body, the value of
a key, or a statement.  It takes its range from the text and the place of that node alone, and
never from the source.  So work in a session is followed from node to node, down to the blocks
within values and arrays, to see which node each report hands over; where a node stands in the
source is known of all of them.  Only an array of blocks and other elements is reported without a
range.
-/
import DesiredState.Proofs.Conversion
import DesiredState.Proofs.Script.Excerpts

namespace DesiredState

/-! ### What diagnostics are about -/

/-- What a cause is about, among the nodes of statements. -/
inductive Diagnostic.Cause.Concerns (statements : List Statement) :
    Diagnostic.Cause → Extent → Prop
  /-- The head of a block with a name. -/
  | resource {b : Block} (hb : Node.Occurs statements (.block b)) (hname : b.instanceName.isSome) :
    Concerns statements (.unknownResource b.keyword) ⟨b.keyword, b.keywordLocation⟩
  /-- The head of a block without a name. -/
  | class {b : Block} (owner : Text) (hb : Node.Occurs statements (.block b))
    (hname : b.instanceName = none) :
    Concerns statements (.unknownClass b.keyword owner) ⟨b.keyword, b.keywordLocation⟩
  /-- A key in the body of a block. -/
  | property {b : Block} {entry : Entry} (hb : Node.Occurs statements (.block b))
    (hentry : entry ∈ b.body.entries) :
    Concerns statements (.unknownProperty entry.key b.keyword) ⟨entry.key, entry.keyLocation⟩
  /-- The value of a key. -/
  | value {b : Block} {entry : Entry} {t : Term} (target : Coercion.Target)
    (hb : Node.Occurs statements (.block b)) (hentry : entry ∈ b.body.entries)
    (ht : entry.value.term? = some t) :
    Concerns statements (.failedCoercion t.extent.text target) t.extent
  /-- A statement. -/
  | statement {s : Statement} (hs : Node.Occurs statements (.statement s)) :
    Concerns statements (.notResource s.extent.text) s.extent

/-- A diagnostic that has the range of what it is about.  Without a range are those about arrays of
blocks and other elements, and only those. -/
def Diagnostic.IsAbout (statements : List Statement) (d : Diagnostic) : Prop :=
  (∃ skipped, d.cause = .mixedArray skipped) ∧ d.range = none ∨
    ∃ e, d.cause.Concerns statements e ∧ d.range = some e.range

/-- A session in which only diagnostics of some sort have been reported. -/
def Session.Reports (allowed : Diagnostic → Prop) (s : Session) : Prop :=
  ∀ d ∈ s.diagnostics, allowed d

/-- Work that reports only diagnostics of some sort. -/
def Interpreting.Reports (allowed : Diagnostic → Prop) (work : Interpreting α) : Prop :=
  ∀ s : Session, s.Reports allowed → (work s).2.Reports allowed

theorem Session.Reports.note {allowed : Diagnostic → Prop} {s : Session} (h : s.Reports allowed)
    {e : Event} (he : ∀ d, e.diagnostic? = some d → allowed d) :
    Session.Reports allowed { s with events := s.events ++ [e] } := by
  intro d hd
  obtain ⟨event, hevent, hdiagnosed⟩ := List.mem_filterMap.mp hd
  rcases List.mem_append.mp hevent with hevent | hevent
  · exact h d (List.mem_filterMap.mpr ⟨event, hevent, hdiagnosed⟩)
  · rw [List.mem_singleton.mp hevent] at hdiagnosed
    exact he d hdiagnosed

theorem Building.disregardsNotes_reports (allowed : Diagnostic → Prop) :
    Building.DisregardsNotes (Session.Reports allowed) := by
  intro e s he hs
  refine hs.note fun d hd => ?_
  rw [he] at hd
  cases hd

namespace Interpreting

variable {allowed : Diagnostic → Prop} {α β : Type}

theorem reports_pure (a : α) : Reports allowed (Pure.pure a) := fun _ h => h

theorem Reports.bind {work : Interpreting α} {next : α → Interpreting β}
    (h : Reports allowed work) (hnext : ∀ a, Reports allowed (next a)) :
    Reports allowed (work >>= next) := fun s hs => hnext _ _ (h s hs)

theorem reports_report {cause : Diagnostic.Cause} {subject : Subject} {extent : Option Extent}
    (h : allowed ⟨cause, subject, extent.map (·.range)⟩) :
    Reports allowed (report cause subject extent) := by
  intro s hs
  refine hs.note fun d hd => ?_
  rwa [← Option.some.inj hd]

theorem reports_resolve (name : Text) : Reports allowed (resolve name) := fun _ h => h

theorem reports_resolveClass (owner typeName : Text) :
    Reports allowed (resolveClass owner typeName) := fun _ h => h

end Interpreting

/-! ### Values

The walk goes down through blocks, entries and terms, and in each of them it is known
that the node stands in the tree.  That is what a report has to show of the extent that
it hands over.
-/

/-- The term that a statement stands for stands within it. -/
theorem Node.Occurs.term {list : List Statement} {s : Statement} {t : Term}
    (h : Node.Occurs list (.statement s)) (ht : s.term? = some t) : Node.Occurs list t.asNode := by
  unfold Statement.term? at ht
  split at ht
  · cases ht
    exact h.child List.mem_cons_self
  · cases ht
    exact h.child List.mem_cons_self
  · cases ht

namespace Binding

open Interpreting

variable {list : List Statement} {c : Context} {b : Block}

theorem reports_literal {allowed : Diagnostic → Prop} {t : Term} (subject : Subject)
    (expected : DeclaredType)
    (h : ∀ target, allowed ⟨.failedCoercion t.extent.text target, subject, some t.extent.range⟩) :
    Reports allowed (literal subject expected t) := by
  unfold literal
  dsimp only
  split
  · exact Reports.bind (reports_report (h _)) fun _ => reports_pure _
  · exact reports_pure _

theorem reports_reportSkipped (subject : Subject) (skipped : Nat) :
    Reports (Diagnostic.IsAbout list) (reportSkipped subject skipped) := by
  unfold reportSkipped
  split
  · exact reports_pure _
  · exact reports_report (.inl ⟨⟨skipped, rfl⟩, rfl⟩)

mutual

/-- What is reported of a block of a class. -/
theorem reports_classBlock (subject : Subject) {extent : Extent} {keyword : Text} {place : Location}
    (body : Table) (hb : Node.Occurs list (.block ⟨extent, keyword, place, none, body⟩)) :
    Reports (Diagnostic.IsAbout list) (classBlock c subject keyword place body) := by
  match body, hb with
  | ⟨bodyExtent, entryList⟩, hb =>
    rw [classBlock]
    refine Reports.bind (reports_resolveClass c.owner keyword) fun schema => ?_
    dsimp only
    have hentries := fun subject declared => reports_entries subject hb declared [] entryList
      fun _ he => he
    split
    · refine Reports.bind (reports_report (.inr ⟨_, .class c.owner hb rfl, rfl⟩)) fun _ => ?_
      exact Reports.bind (hentries _ _) fun _ => reports_pure _
    · exact Reports.bind (hentries _ _) fun _ => reports_pure _
termination_by structural body

/-- What is reported of the entries in the body of a block. -/
theorem reports_entries (subject : Subject) {b : Block} (hb : Node.Occurs list (.block b))
    (schema : Option (List Schema.Property)) (done : Fields Value) (entryList : List Entry)
    (hentries : ∀ entry ∈ entryList, entry ∈ b.body.entries) :
    Reports (Diagnostic.IsAbout list) (entries c subject b.keyword schema done entryList) := by
  match entryList, hentries with
  | [], _ => exact reports_pure done
  | ⟨key, place, value⟩ :: rest, hentries =>
    have hentry := hentries _ List.mem_cons_self
    have hmore := fun done => reports_entries subject hb schema done rest
      fun entry he => hentries entry (List.mem_cons_of_mem _ he)
    cases schema with
    | none =>
      rw [entries]
      exact hmore _
    | some declared =>
      rw [entries]
      cases Schema.Property.find? key declared with
      | none =>
        exact Reports.bind (reports_report (.inr ⟨_, .property hb hentry, rfl⟩)) fun _ => hmore _
      | some property =>
        exact Reports.bind (reports_statement _ property.type value hb hentry) fun _ => hmore _
termination_by structural entryList

/-- What is reported of the value of a key. -/
theorem reports_statement (subject : Subject) (expected : DeclaredType) (s : Statement)
    {b : Block} (hb : Node.Occurs list (.block b)) {key : Text} {place : Location}
    (hentry : ⟨key, place, s⟩ ∈ b.body.entries) :
    Reports (Diagnostic.IsAbout list) (statement c subject expected s) := by
  match s, hentry with
  | .block ⟨extent, keyword, place, some name, body⟩, _ =>
    rw [statement]
    exact reports_pure _
  | .block ⟨extent, keyword, place, none, body⟩, hentry =>
    rw [statement]
    exact Reports.bind (reports_classBlock subject body ((hb.value hentry).term rfl))
      fun _ => reports_pure _
  | .pipeline _ [t], hentry =>
    rw [statement]
    exact reports_term subject expected t hb hentry rfl
  | .pipeline _ [], _ | .pipeline _ (_ :: _ :: _), _ | .configuration .., _ | .node .., _
  | .param _, _ | .assignment .., _ => exact reports_pure _
termination_by structural s

/-- What is reported of the term that the value of a key is. -/
theorem reports_term (subject : Subject) (expected : DeclaredType) (t : Term) {b : Block}
    (hb : Node.Occurs list (.block b)) {entry : Entry} (hentry : entry ∈ b.body.entries)
    (ht : entry.value.term? = some t) :
    Reports (Diagnostic.IsAbout list) (term c subject expected t) := by
  -- Of an array with blocks a copy without them is read, which has the extent of the array.
  have hliteral : ∀ target, Diagnostic.IsAbout list
      ⟨.failedCoercion t.extent.text target, subject, some t.extent.range⟩ :=
    fun target => .inr ⟨t.extent, .value target hb hentry ht, rfl⟩
  have hthere := (hb.value hentry).term ht
  match t, hthere, hliteral with
  | .block ⟨extent, keyword, place, some name, body⟩, _, _ =>
    rw [term]
    exact reports_pure _
  | .block ⟨extent, keyword, place, none, body⟩, hthere, _ =>
    rw [term]
    exact Reports.bind (reports_classBlock subject body hthere) fun _ => reports_pure _
  | .expression (.array extent bracketed elements), hthere, hliteral =>
    have hitems := reports_classBlocks subject elements
      fun element he => hthere.child (List.mem_map_of_mem he)
    rw [term.eq_def]
    dsimp only
    split
    · exact reports_pure _
    · split
      · refine Reports.bind (reports_reportSkipped subject _) fun _ => ?_
        exact Reports.bind hitems fun _ => reports_pure _
      · exact Reports.bind (reports_reportSkipped subject _)
          fun _ => reports_literal subject expected hliteral
  | .command _, _, hliteral | .expression (.string ..), _, hliteral
  | .expression (.number ..), _, hliteral | .expression (.variable _), _, hliteral
  | .expression (.member ..), _, hliteral | .expression (.table _), _, hliteral
  | .expression (.scriptBlock _), _, hliteral | .expression (.unrecognized _), _, hliteral =>
    exact reports_literal subject expected hliteral
termination_by structural t

/-- What is reported of the blocks of an array. -/
theorem reports_classBlocks (subject : Subject) (elements : List Term)
    (hthere : ∀ element ∈ elements, Node.Occurs list element.asNode) :
    Reports (Diagnostic.IsAbout list) (classBlocks c subject elements) := by
  match elements, hthere with
  | [], _ => exact reports_pure _
  | .block ⟨extent, keyword, place, none, body⟩ :: rest, hthere =>
    rw [classBlocks]
    refine Reports.bind (reports_classBlock subject body (hthere _ List.mem_cons_self)) fun _ => ?_
    refine Reports.bind (reports_classBlocks subject rest
      fun element he => hthere element (List.mem_cons_of_mem _ he)) fun _ => ?_
    exact reports_pure _
  | .block ⟨extent, keyword, place, some name, body⟩ :: rest, hthere
  | .command _ :: rest, hthere | .expression _ :: rest, hthere =>
    rw [classBlocks]
    · exact reports_classBlocks subject rest
        fun element he => hthere element (List.mem_cons_of_mem _ he)
    · intro _ _ _ _ h
      cases h
termination_by structural elements

end

end Binding

/-! ### Statements -/

namespace Building

open Interpreting

variable {list : List Statement}

/-- Work that cannot fail reports what it reports. -/
theorem keeps_reports {α : Type} {work : Interpreting α}
    (h : Reports (Diagnostic.IsAbout list) work) :
    Keeps (Session.Reports (Diagnostic.IsAbout list)) (interpreted work) fun _ => True :=
  Keeps.interpreted fun s hs => ⟨trivial, h s hs⟩

theorem keeps_schemaOf (o : ReadOptions) {b : Block} (hb : Node.Occurs list (.block b))
    (hname : b.instanceName.isSome) (subject : Subject) :
    Keeps (Session.Reports (Diagnostic.IsAbout list)) (schemaOf o b subject) fun _ => True := by
  have hreport : Keeps (Session.Reports (Diagnostic.IsAbout list))
      (interpreted (report (.unknownResource b.keyword) subject
        (some ⟨b.keyword, b.keywordLocation⟩))) fun _ => True :=
    keeps_reports (reports_report (.inr ⟨_, .resource hb hname, rfl⟩))
  refine Keeps.bind (keeps_reports (reports_resolve b.keyword)) fun schema _ => ?_
  cases schema with
  | some found => exact Keeps.pure trivial
  | none =>
    dsimp only
    split
    · exact Keeps.bind (Keeps.throw _ fun _ => True) fun _ _ =>
        Keeps.bind hreport fun _ _ => Keeps.pure trivial
    · exact Keeps.bind hreport fun _ _ => Keeps.pure trivial

theorem keeps_instanceOf (o : ReadOptions) {b : Block} (hb : Node.Occurs list (.block b))
    (hname : b.instanceName.isSome) (name : Expression) :
    Keeps (Session.Reports (Diagnostic.IsAbout list)) (instanceOf o b name) fun _ => True := by
  refine Keeps.bind (keeps_schemaOf o hb hname _) fun schema _ => ?_
  refine Keeps.bind (keeps_reports (Binding.reports_entries _ hb _ _ _ fun _ he => he))
    fun properties _ => ?_
  refine Keeps.bind (Keeps.note (disregardsNotes_reports _) rfl) fun _ _ => ?_
  exact Keeps.pure trivial

/-- A statement that is read is reported, or what is reported is about the block that it is. -/
theorem keeps_statement (o : ReadOptions) {s : Statement} (hs : Node.Occurs list (.statement s)) :
    Keeps (Session.Reports (Diagnostic.IsAbout list)) (statement o s) fun _ => True := by
  unfold statement
  cases hdeclared : declaration? s with
  | none =>
    refine Keeps.bind (keeps_reports (reports_report (.inr ⟨_, .statement hs, rfl⟩))) fun _ _ => ?_
    exact Keeps.pure trivial
  | some found =>
    obtain ⟨b, name⟩ := found
    obtain ⟨rfl, hname⟩ : s = .block b ∧ b.instanceName = some name := by
      cases s with
      | block block =>
        obtain ⟨name', hname, heq⟩ := Option.map_eq_some_iff.mp hdeclared
        cases heq
        exact ⟨rfl, hname⟩
      | _ => cases hdeclared
    have hb : Node.Occurs list (.block b) := hs.child List.mem_cons_self
    refine Keeps.bind (keeps_instanceOf o hb (by rw [hname]; rfl) name) fun _ _ => ?_
    exact Keeps.pure trivial

end Building

/-- A statement that may declare a resource stands in the tree. -/
theorem Build.Configuration.Holds.occurs {script : List Statement} {c : Build.Configuration}
    (hc : Build.configuration? script = some c) {s : Statement} (h : c.Holds s) :
    Node.Occurs script (.statement s) := by
  have hthere : Node.Occurs script (.statement (.configuration c.extent c.name c.body)) :=
    ⟨_, Build.mem_of_configuration? hc, .self⟩
  rcases h with hs | ⟨body, hbody, hs⟩
  · exact hthere.child (List.mem_map_of_mem hs)
  · obtain ⟨node, hnode, hfound⟩ := List.mem_filterMap.mp hbody
    cases node with
    | node extent target inner =>
      cases hfound
      have hinner : Node.Occurs script (.statement (.node extent target body)) :=
        hthere.child (List.mem_map_of_mem hnode)
      exact hinner.child (List.mem_cons_of_mem _ (List.mem_map_of_mem hs))
    | _ => cases hfound

/-- **Every diagnostic of a build is about a node of its script.** -/
theorem Build.isAbout_of_ofStatements {o : ReadOptions} {lookup : DeclLookup}
    {script : List Statement} {built : Build} (h : ofStatements o lookup script = .ok built) :
    ∀ d ∈ built.session.diagnostics, d.IsAbout script := by
  have hstatement : ∀ c, configuration? script = some c → ∀ s, c.Holds s →
      Building.Keeps (Session.Reports (Diagnostic.IsAbout script)) (Building.statement o s)
        fun read => ∀ i ∈ read, True :=
    fun c hc s hs => (Building.keeps_statement o (hs.occurs hc)).mono fun _ _ _ _ => trivial
  obtain ⟨-, c, -, hreports⟩ := @keeps_ofStatements
    (fun _ => Session.Reports (Diagnostic.IsAbout script)) lookup o script (fun _ => True)
    (fun _ => Building.disregardsNotes_reports _) (fun _ _ hd => absurd hd List.not_mem_nil)
    hstatement built h
  exact hreports

/-! ### Ranges

A range is made of a text and a place.  The text of a node is cut out of the source, so
that its first line is what the source shows there.
-/

namespace Diagnostic

/-- What a diagnostic is about is cut out of the source. -/
theorem Cause.Concerns.isExcerpt {source : Text} {script : Script}
    (hparse : Script.parse source = .ok script) (hpaired : source.ReturnsPaired) {cause : Cause}
    {e : Extent} (h : cause.Concerns script.statements e) : e.IsExcerpt source := by
  cases h with
  | resource hb | «class» _ hb => exact (Script.isExcerpt_of_block hparse hpaired hb).1
  | property hb hentry => exact (Script.isExcerpt_of_block hparse hpaired hb).2 _ hentry
  | value _ hb hentry ht =>
    exact Script.isExcerpt_of_occurs hparse hpaired ((hb.value hentry).term ht)
      (Node.extent?_asNode _)
  | statement hs => exact Script.isExcerpt_of_occurs hparse hpaired hs rfl

/-- The name of the kind of diagnostic that an array of blocks and other elements gets. -/
def ambiguous : Text := "AmbiguousArrayShape"

theorem kindName_ne_ambiguous {statements : List Statement} {d : Diagnostic} {e : Extent}
    (h : d.cause.Concerns statements e) : d.kindName ≠ ambiguous := by
  obtain ⟨cause, subject, range⟩ := d
  cases h with
  | resource | «class» => exact (by decide : ("SchemaNotFound" : Text) ≠ ambiguous)
  | property => exact (by decide : ("PropertyNotInSchema" : Text) ≠ ambiguous)
  | value => exact (by decide : ("TypeCoercionFailure" : Text) ≠ ambiguous)
  | statement => exact (by decide : ("UnsupportedStatement" : Text) ≠ ambiguous)

/-- Only diagnostics about arrays of blocks and other elements have no range. -/
theorem IsAbout.range_eq_none_iff {statements : List Statement} {d : Diagnostic}
    (h : d.IsAbout statements) : d.range = none ↔ d.kindName = ambiguous := by
  rcases h with ⟨⟨skipped, hcause⟩, hrange⟩ | ⟨e, he, hrange⟩
  · refine iff_of_true hrange ?_
    unfold kindName
    rw [hcause]
    rfl
  · refine iff_of_false ?_ (kindName_ne_ambiguous he)
    rw [hrange]
    exact Option.some_ne_none _

end Diagnostic

namespace Configuration

/-- **The range of a diagnostic shows the first line of what it is about**, in a source where every
carriage return is followed by a line feed: the word at the head of a block, a key, the value of a
key or a statement.  It starts and ends on one line, and all diagnostics have one but those about
arrays of blocks and other elements. -/
theorem shown_of_read {o : ReadOptions} {lookup : DeclLookup} {source : Text}
    (hpaired : source.ReturnsPaired) {conversion : Conversion}
    (h : read o lookup source = .ok conversion) :
    ∃ script, Script.parse source = .ok script ∧ ∀ d ∈ conversion.session.diagnostics,
      (d.range = none ↔ d.kindName = Diagnostic.ambiguous) ∧
      ∀ r, d.range = some r → r.startLine = r.endLine ∧
        ∃ e, d.cause.Concerns script.statements e ∧ source.shown? r = some e.text.firstLine := by
  unfold read at h
  cases hparse : Script.parse source with
  | error e =>
    simp only [hparse, Except.mapError, bind, Except.bind] at h
    cases h
  | ok script =>
    simp only [hparse, Except.mapError, bind, Except.bind] at h
    cases hbuilt : Build.ofStatements o lookup script.statements with
    | error e =>
      simp only [hbuilt] at h
      cases h
    | ok built =>
      simp only [hbuilt] at h
      obtain rfl := Except.ok.inj h
      refine ⟨script, rfl, fun d hd => ?_⟩
      have habout := Build.isAbout_of_ofStatements hbuilt d hd
      refine ⟨habout.range_eq_none_iff, fun r hr => ?_⟩
      rcases habout with ⟨-, hnone⟩ | ⟨e, he, hsome⟩
      · rw [hnone] at hr
        cases hr
      · obtain rfl := Option.some.inj (hsome.symm.trans hr)
        obtain ⟨hline, hshown⟩ := (he.isExcerpt hparse hpaired).shown? hpaired
        exact ⟨hline, e, he, hshown⟩

/-- A catalog of one resource, which takes blocks of two classes and describes one of them. -/
def ledgerCatalog : Catalog :=
  [⟨"Ledger", none, none, none,
    [⟨"Owner", "[Person]", false, []⟩, ⟨"Limit", "[Int32]", false, []⟩,
      ⟨"Seals", "[Seal[]]", false, []⟩],
    [⟨"Seal", [⟨"Ink", "[String]", false, []⟩]⟩]⟩]

/-- A configuration that leaves a diagnostic of every kind, two of them about what goes on over
several lines. -/
def ledgerSource : Text :=
  "Configuration C \x7b\r\n  Node n \x7b\r\n    Ledger a \x7b\r\n" ++
  "      Owner = Clerk \x7b\r\n      \x7d\r\n      Limit = 1,\r\n        2\r\n" ++
  "      Seals = @(Seal \x7b Ink = 'x'; Size = 2 \x7d, 'wax')\r\n    \x7d\r\n" ++
  "    Journal b \x7b\r\n    \x7d\r\n    $now = Get-Date |\r\n      Out-Null\r\n  \x7d\r\n\x7d\r\n"

/-- What the ranges of its diagnostics show, in the order in which they are reported. -/
def ledgerShown : List (Text × Option Text) :=
  [("SchemaNotFound", some ("Clerk" : Text)), ("TypeCoercionFailure", some ("1," : Text)),
    ("AmbiguousArrayShape", none), ("PropertyNotInSchema", some ("Size" : Text)),
    ("SchemaNotFound", some ("Journal" : Text)),
    ("UnsupportedStatement", some ("$now = Get-Date |" : Text))]

theorem shown_of_read_ledger : ledgerSource.ReturnsPaired ∧ ∃ conversion,
    read .lenient ledgerCatalog.find? ledgerSource = .ok conversion ∧
      (conversion.session.diagnostics.map fun d => (d.kindName, d.range.bind ledgerSource.shown?)) =
        ledgerShown ∧
      ∃ script, Script.parse ledgerSource = .ok script ∧ ∀ d ∈ conversion.session.diagnostics,
        (d.range = none ↔ d.kindName = Diagnostic.ambiguous) ∧
        ∀ r, d.range = some r → r.startLine = r.endLine ∧
          ∃ e, d.cause.Concerns script.statements e ∧
            ledgerSource.shown? r = some e.text.firstLine := by
  have hpaired : ledgerSource.ReturnsPaired := by decide +kernel
  have hshown : (match read .lenient ledgerCatalog.find? ledgerSource with
      | .ok conversion => (conversion.session.diagnostics.map fun d =>
          (d.kindName, d.range.bind ledgerSource.shown?)) == ledgerShown
      | .error _ => false) = true := by
    decide +kernel
  split at hshown
  · next conversion hread =>
    exact ⟨hpaired, conversion, hread, eq_of_beq hshown, shown_of_read hpaired hread⟩
  · cases hshown

end Configuration

end DesiredState
