/-
What a statement of a node block comes to.

A statement asks the memo for one schema at most, that of its resource.  With the answer
known, everything else is settled: the instance it declares and the events it adds.  So
one statement is one step of the session, and the step is said here in full, also where
it fails.
-/
import DesiredState.Configuration.Build
import DesiredState.Proofs.Settling

namespace DesiredState

/-! ### Properties

Within a block the memo is asked for the schema of the block's own resource alone.  That
answer is known by then, so what is bound can be read off a session that knows it and
nothing else.
-/

/-- A session that knows the schema of one resource, and nothing else. -/
def Session.knowing (owner : Text) (schema : Option Schema.Resource) : Session :=
  .new ⟨fun _ _ => none, .everything, [⟨owner, schema⟩]⟩

/-- The properties that a body is bound to under a schema, and what is found on the way. -/
def Binding.bound (c : Context) (subject : Subject) (declaredBy : Text)
    (schema : Option Schema.Resource) (body : Table) : Fields Value × List Event :=
  let (fields, after) := properties c subject declaredBy (schema.map (·.properties)) body
    (.knowing c.owner schema)
  (fields, after.events)

namespace Binding

open Interpreting

variable {owner : Text} {schema : Option Schema.Resource} {records : Bool} {subject : Subject}
  {declaredBy : Text} {body : Table}

theorem known?_knowing (owner : Text) (schema : Option Schema.Resource) :
    (Session.knowing owner schema).memo.known? owner = some schema := by
  simp [Session.knowing, Session.new, Schema.Memo.known?, Text.sameName]

/-- In any session that knows the schema a body is bound to the same properties. -/
theorem settles_properties : Settles owner schema
    (properties ⟨owner, records⟩ subject declaredBy (schema.map (·.properties)) body)
    (bound ⟨owner, records⟩ subject declaredBy schema body).1
    (bound ⟨owner, records⟩ subject declaredBy schema body).2 := by
  obtain ⟨fields, _, events, hsettles, -⟩ :=
    @agree_properties owner schema records subject declaredBy (schema.map (·.properties)) body
  have hbound : bound ⟨owner, records⟩ subject declaredBy schema body = (fields, events) := by
    unfold bound
    rw [hsettles _ (known?_knowing owner schema)]
    rfl
  rwa [hbound]

/-- Without the names of classes the properties are the same but for these names. -/
theorem bound_untagged : bound ⟨owner, false⟩ subject declaredBy schema body =
    (Value.untaggedFields (bound ⟨owner, records⟩ subject declaredBy schema body).1,
      (bound ⟨owner, records⟩ subject declaredBy schema body).2) := by
  obtain ⟨fields, _, events, hsettles, hsettles', rfl, -⟩ :=
    @agree_properties owner schema records subject declaredBy (schema.map (·.properties)) body
  unfold bound
  rw [hsettles _ (known?_knowing owner schema), hsettles' _ (known?_knowing owner schema)]

theorem isFinding_bound : ∀ e ∈ (bound ⟨owner, records⟩ subject declaredBy schema body).2,
    e.IsFinding := by
  obtain ⟨fields, _, events, hsettles, -, -, hfindings⟩ :=
    @agree_properties owner schema records subject declaredBy (schema.map (·.properties)) body
  unfold bound
  rw [hsettles _ (known?_knowing owner schema)]
  exact hfindings

end Binding

/-! ### Statements

Both readings are treated here at once: the strict one differs only where a schema is
not found, and for this case there is a lemma of its own.
-/

namespace Building

/-- What an instance is called in diagnostics. -/
def subjectOf (b : Block) (name : Expression) : Subject :=
  ⟨some b.keyword, some (instanceName name), none⟩

/-- The instance that a block with a name declares under a schema, and the events on the way. -/
def declared (o : ReadOptions) (b : Block) (name : Expression) (schema : Option Schema.Resource) :
    Instance × List Event :=
  let (properties, findings) :=
    Binding.bound ⟨b.keyword, o.recordsTypes⟩ (subjectOf b name) b.keyword schema b.body
  (⟨b.keyword, instanceName name, properties⟩,
    (if schema.isNone then
      [.diagnosed ⟨.unknownResource b.keyword, subjectOf b name,
        some (Extent.range ⟨b.keyword, b.keywordLocation⟩)⟩]
    else []) ++ findings ++ [.readInstance b.keyword (instanceName name) properties.length])

/-- The event of a statement that declares no instance. -/
def refused (st : Statement) : Event :=
  .diagnosed ⟨.notResource st.extent.text, .unknown, some st.extent.range⟩

variable {o : ReadOptions}

theorem bind_of_error {α β : Type} {work : Building α} {next : α → Building β} {s : Session}
    {e : BuildError} (h : work s = .error e) : (work >>= next) s = .error e := by
  change (work s).bind (fun p => next p.1 p.2) = _
  rw [h]
  rfl

theorem bind_of_ok {α β : Type} {work : Building α} {next : α → Building β} {s after : Session}
    {a : α} (h : work s = .ok (a, after)) : (work >>= next) s = next a after := by
  change (work s).bind (fun p => next p.1 p.2) = _
  rw [h]
  rfl

theorem interpreted_note (e : Event) (s : Session) :
    Interpreting.note e s = ((), { s with events := s.events ++ [e] }) := rfl

/-- Asking for a schema is one step of the memo; that there is none is reported, or an error. -/
theorem schemaOf_eq (b : Block) (subject : Subject) (s : Session) :
    schemaOf o b subject s =
      if o.strict && (s.memo.resolve b.keyword).1.isNone then
        .error (.unknownResource b.keyword b.keywordLocation)
      else .ok ((s.memo.resolve b.keyword).1, ⟨(s.memo.resolve b.keyword).2,
        s.events ++ if (s.memo.resolve b.keyword).1.isNone then
          [.diagnosed ⟨.unknownResource b.keyword, subject,
            some (Extent.range ⟨b.keyword, b.keywordLocation⟩)⟩] else []⟩) := by
  have hask : interpreted (Interpreting.resolve b.keyword) s =
      .ok ((s.memo.resolve b.keyword).1, { s with memo := (s.memo.resolve b.keyword).2 }) := rfl
  unfold schemaOf
  rw [bind_of_ok hask]
  cases (s.memo.resolve b.keyword).1 with
  | some schema =>
    simp only [Option.isNone_some, Bool.and_false, Bool.false_eq_true, if_false, List.append_nil]
    rfl
  | none =>
    simp only [Option.isNone_none, Bool.and_true, if_true]
    cases o.strict <;> rfl

/-- **A block with a name is one step**: its schema is asked for, and the rest is settled. -/
theorem instanceOf_eq (b : Block) (name : Expression) (s : Session) :
    instanceOf o b name s =
      if o.strict && (s.memo.resolve b.keyword).1.isNone then
        .error (.unknownResource b.keyword b.keywordLocation)
      else .ok ((declared o b name (s.memo.resolve b.keyword).1).1,
        ⟨(s.memo.resolve b.keyword).2,
          s.events ++ (declared o b name (s.memo.resolve b.keyword).1).2⟩) := by
  have hschema := schemaOf_eq (o := o) b (subjectOf b name) s
  have hknown := Schema.Memo.known?_resolve s.memo b.keyword
  unfold instanceOf
  by_cases hstrict : o.strict && (s.memo.resolve b.keyword).1.isNone
  · rw [if_pos hstrict] at hschema ⊢
    exact bind_of_error hschema
  · rw [if_neg hstrict] at hschema ⊢
    refine (bind_of_ok hschema).trans ?_
    have hbound (events : List Event) := @Binding.settles_properties b.keyword
      (s.memo.resolve b.keyword).1 o.recordsTypes (subjectOf b name) b.keyword b.body
      ⟨(s.memo.resolve b.keyword).2, events⟩ hknown
    refine (bind_of_ok (congrArg Except.ok (hbound _))).trans ?_
    simp only [declared, ← List.append_assoc]
    rfl

/-- A statement that declares an instance of a resource with a schema, or without one where that is
no error. -/
theorem statement_of_declaration {st : Statement} {b : Block} {name : Expression}
    (h : declaration? st = some (b, name)) {s : Session}
    (hfound : (o.strict && (s.memo.resolve b.keyword).1.isNone) = false) :
    statement o st s = .ok (some (declared o b name (s.memo.resolve b.keyword).1).1,
      ⟨(s.memo.resolve b.keyword).2,
        s.events ++ (declared o b name (s.memo.resolve b.keyword).1).2⟩) := by
  have hinstance := instanceOf_eq (o := o) b name s
  rw [hfound] at hinstance
  unfold statement
  rw [h]
  exact bind_of_ok hinstance

/-- A statement that declares an instance of a resource without a schema, where that is an error. -/
theorem statement_of_unresolved {st : Statement} {b : Block} {name : Expression}
    (h : declaration? st = some (b, name)) {s : Session}
    (hnone : (o.strict && (s.memo.resolve b.keyword).1.isNone) = true) :
    statement o st s = .error (.unknownResource b.keyword b.keywordLocation) := by
  have hinstance := instanceOf_eq (o := o) b name s
  rw [if_pos hnone] at hinstance
  unfold statement
  rw [h]
  exact bind_of_error hinstance

theorem statement_of_other {st : Statement} (h : declaration? st = none) (s : Session) :
    statement o st s = .ok (none, { s with events := s.events ++ [refused st] }) := by
  unfold statement
  rw [h]
  rfl

/-- Statements are read one after another, and after each of them the progress is noted. -/
theorem statements_cons (total before : Nat) (st : Statement) (rest : List Statement) (s : Session) :
    statements o total before (st :: rest) s = (statement o st s).bind fun first =>
      (statements o total (before + 1) rest
        ⟨first.2.memo, first.2.events ++ [.processed (before + 1) total]⟩).map
          fun more => (first.1.toList ++ more.1, more.2) := by
  rw [statements]
  cases hfirst : statement o st s with
  | error e => exact bind_of_error hfirst
  | ok first =>
    refine (bind_of_ok hfirst).trans ?_
    refine (bind_of_ok (congrArg Except.ok (interpreted_note _ _))).trans ?_
    cases hmore : statements o total (before + 1) rest
        ⟨first.2.memo, first.2.events ++ [.processed (before + 1) total]⟩ with
    | error e => exact (bind_of_error hmore).trans (by rw [Except.bind, hmore]; rfl)
    | ok more => exact (bind_of_ok hmore).trans (by rw [Except.bind, hmore]; rfl)

end Building

/-! ### Scripts with a node block -/

namespace Build

/-- What is noted of node blocks that are left aside. -/
def leftAside (more : List (List Statement)) : List Event :=
  if more.isEmpty then [] else [.severalNodes (more.length + 1)]

/-- The session in which the statements of a node block are read. -/
def opening (o : ReadOptions) (lookup : DeclLookup) (c : Configuration)
    (more : List (List Statement)) : Session :=
  ⟨.new lookup ⟨Import.ofStatements c.body, o.versionRule⟩, leftAside more⟩

/-- A script is built of the statements of its first node block. -/
theorem ofStatements_of_nodes {script : List Statement} {c : Configuration}
    (hc : configuration? script = some c) {body : List Statement} {more : List (List Statement)}
    (hnodes : nodeBodies c.body = body :: more) (o : ReadOptions) (lookup : DeclLookup) :
    ofStatements o lookup script =
      (Building.statements o body.length 0 body (opening o lookup c more)).map fun result =>
        ⟨result.1, Import.ofStatements c.body, result.2⟩ := by
  have hdeclaring : declaringStatements o c
      (.new (.new lookup ⟨Import.ofStatements c.body, o.versionRule⟩)) =
        .ok (body, opening o lookup c more) := by
    unfold declaringStatements
    rw [hnodes]
    cases more <;> rfl
  unfold ofStatements
  rw [hc]
  simp only []
  rw [Building.bind_of_ok hdeclaring]
  cases Building.statements o body.length 0 body (opening o lookup c more) <;> rfl

end Build

end DesiredState
