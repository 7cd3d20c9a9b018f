/-
Remembered schemas.

Schemas are made of what a look-up finds.  A memo asks the look-up once for every
resource, letter case disregarded, and remembers the answer, also when there is none.
-/
import DesiredState.Catalog.ImportScope
import DesiredState.Schema

namespace DesiredState

/-- Where declarations come from: a look-up by name among the resources in scope. -/
abbrev DeclLookup := Text → ImportScope → Option ResourceDecl

/-- A name that was looked up, and the schema that came of it. -/
structure Schema.Memo.Answer where
  name : Text
  schema : Option Schema.Resource
  deriving DecidableEq, Repr

/-- A look-up, the modules in scope, and what has been asked so far. -/
structure Schema.Memo where
  lookup : DeclLookup
  scope : ImportScope
  answers : List Schema.Memo.Answer

namespace Schema.Memo

/-- A memo of nothing. -/
def new (lookup : DeclLookup) (scope : ImportScope) : Memo := ⟨lookup, scope, []⟩

/-- What is remembered of a name, if it has been asked for. -/
def known? (m : Memo) (name : Text) : Option (Option Resource) :=
  (m.answers.find? fun a => Text.sameName a.name name).map (·.schema)

/-- The schema of what the look-up finds. -/
def ask (m : Memo) (name : Text) : Option Resource := (m.lookup name m.scope).map .ofDecl

/-- The schema of a resource, and the memo that remembers it. -/
def resolve (m : Memo) (name : Text) : Option Resource × Memo :=
  match m.known? name with
  | some schema => (schema, m)
  | none =>
    let schema := m.ask name
    (schema, { m with answers := m.answers ++ [⟨name, schema⟩] })

/-- The schema of a class of blocks that belongs to a resource. -/
def resolveClass (m : Memo) (owner typeName : Text) : Option Class × Memo :=
  let (schema, after) := m.resolve owner
  (Resource.classOf? schema (Text.lower typeName), after)

end Schema.Memo

end DesiredState
