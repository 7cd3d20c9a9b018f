/-
Questions to a memo.

A memo is asked for three things: the schema of a resource, a class of blocks that a
resource may use, and a property of a resource.  Each needs the schema of one resource,
and a memo that does not remember it has to consult a look-up.

A look-up may do more than answer; `DeclLookup.noted` writes down what it is asked.  So
questions are also answered with a look-up that has effects, and these effects are then all
that is seen of how often the memo consults it.
-/
import DesiredState.Schema.Memo

namespace DesiredState

/-- What a look-up is asked: a name, among the resources in scope. -/
structure DeclLookup.Call where
  name : Text
  scope : ImportScope
  deriving DecidableEq, Repr

/-- A look-up that writes down what it is asked. -/
def DeclLookup.noted (lookup : DeclLookup) (name : Text) (scope : ImportScope) :
    StateM (List Call) (Option ResourceDecl) := do
  modify fun calls => calls ++ [⟨name, scope⟩]
  pure (lookup name scope)

/-- A question to a memo. -/
inductive Schema.Question where
  | resource (name : Text)
  /-- A class of blocks that belongs to a resource. -/
  | classOf (owner typeName : Text)
  /-- A property of a resource. -/
  | property (owner name : Text)
  deriving DecidableEq, Repr

/-- The reply to a question. -/
inductive Schema.Reply where
  | resource (schema : Option Schema.Resource)
  | classOf (schema : Option Schema.Class)
  | property (schema : Option Schema.Property)
  deriving DecidableEq, Repr

namespace Schema

namespace Question

/-- The resource that a question is about. -/
def subject : Question → Text
  | resource name => name
  | classOf owner _ | property owner _ => owner

/-- The reply that follows from the schema of the resource. -/
def replyFrom (schema : Option Resource) : Question → Reply
  | resource _ => .resource schema
  | classOf _ typeName => .classOf (Resource.classOf? schema (Text.lower typeName))
  | property _ name => .property (schema.bind fun s => Property.find? name s.properties)

end Question

namespace Memo

/-- How many names have been asked for, letter case disregarded. -/
def size (m : Memo) : Nat := m.answers.length

/-- The reply to a question, and the memo after it. -/
def reply (m : Memo) : Question → Reply × Memo
  | .resource name =>
    let (schema, after) := m.resolve name
    (.resource schema, after)
  | .classOf owner typeName =>
    let (schema, after) := m.resolveClass owner typeName
    (.classOf schema, after)
  | .property owner name =>
    let (schema, after) := m.resolve owner
    (.property (schema.bind fun s => Property.find? name s.properties), after)

section Effects

variable {M : Type → Type} [Monad M]
variable (consult : Text → ImportScope → M (Option ResourceDecl))

/-- The schema of a resource, from a look-up with effects. -/
def resolveBy (m : Memo) (name : Text) : M (Option Resource × Memo) :=
  match m.known? name with
  | some schema => pure (schema, m)
  | none => do
    let found ← consult name m.scope
    let schema := found.map .ofDecl
    pure (schema, { m with answers := m.answers ++ [⟨name, schema⟩] })

/-- The reply to a question, from a look-up with effects. -/
def replyBy (m : Memo) (q : Question) : M (Reply × Memo) := do
  let (schema, after) ← resolveBy consult m q.subject
  pure (q.replyFrom schema, after)

/-- The replies to questions one after another, from a look-up with effects. -/
def repliesBy (m : Memo) : List Question → M (List Reply × Memo)
  | [] => pure ([], m)
  | q :: rest => do
    let (first, after) ← replyBy consult m q
    let (more, last) ← repliesBy after rest
    pure (first :: more, last)

end Effects

end Memo

end Schema

end DesiredState
