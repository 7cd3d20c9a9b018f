/-
Binding the entries of a block to declared properties.

Each entry of a block is read as a value of the type that the schema declares for its
key.  A value may be a block of a class, whose entries are bound in the same way to the
properties of the class, or an array of such blocks; which of the two shapes an array
has is decided by its first element, and elements of the other shape are left out with
one report.  Without a schema every value is kept as its text.

The values are put into a map, which holds nothing under the name of its parent: a value
that is bound to this name is lost without a report.
-/
import DesiredState.Session

namespace DesiredState

/-- The name under which a value for a key is kept: an earlier spelling of it comes first. -/
def Fields.spelling (key : Text) (fields : Fields α) : Text :=
  (fields.names.find? fun name => Text.sameName name key).getD key

/-- Gives a key a value; a repeated key keeps its place and its first spelling.  The name of the
parent does not become a new name. -/
def Fields.bind (key : Text) (value : α) (fields : Fields α) : Fields α :=
  let name := fields.spelling key
  if name = parentName ∧ name ∉ fields.names then fields else fields.set name value

/-- The value that a statement stands for, if it is one. -/
def Statement.term? : Statement → Option Term
  | .block b => some (.block b)
  | .pipeline _ [term] => some term
  | _ => none

/-- Whether a term is a block of a class: one without an instance name. -/
def Term.isClassBlock : Term → Bool
  | .block b => b.instanceName.isNone
  | _ => false

namespace Binding

/-- What is the same for all the values of an instance. -/
structure Context where
  /-- The resource whose classes the blocks belong to. -/
  owner : Text
  /-- Whether blocks record the name of their class. -/
  recordsTypes : Bool
  deriving DecidableEq, Repr

/-- A literal as a value of a declared type. -/
def literal (subject : Subject) (expected : DeclaredType) (t : Term) : Interpreting Value := do
  let coercion := Coercion.of expected t
  match coercion.failure with
  | some target =>
    Interpreting.report (.failedCoercion t.extent.text target) subject (some t.extent)
    pure coercion.value
  | none => pure coercion.value

/-- Reports how many elements of an array were left out, if any were. -/
def reportSkipped (subject : Subject) (skipped : Nat) : Interpreting Unit :=
  if skipped = 0 then pure () else Interpreting.report (.mixedArray skipped) subject none

/-- A lone block as the value of a property: for an array, it is the only element. -/
def loneBlock (expected : DeclaredType) (block : SubObject) : Value :=
  match expected with
  | .subObjectArray _ => .subObjectArray [block]
  | _ => .subObject block

variable (c : Context)

mutual

/-- A block of a class. -/
def classBlock (subject : Subject) (keyword : Text) (place : Location) :
    Table → Interpreting SubObject
  | ⟨_, body⟩ => do
    let schema ← Interpreting.resolveClass c.owner keyword
    if schema.isNone then
      Interpreting.report (.unknownClass keyword c.owner) subject (some ⟨keyword, place⟩)
    let inner := { subject with resourceName := subject.resourceName.or (some c.owner) }
    let properties ← entries inner keyword (schema.map (·.properties)) [] body
    let typeName := (schema.map (·.typeName)).getD keyword
    pure ⟨if c.recordsTypes then some typeName else none, properties⟩

/-- The entries of a body, after those that have been read. -/
def entries (subject : Subject) (declaredBy : Text) (schema : Option (List Schema.Property))
    (done : Fields Value) : List Entry → Interpreting (Fields Value)
  | [] => pure done
  | ⟨key, place, value⟩ :: rest => do
    let here := { subject with propertyName := some key }
    match schema with
    | none => entries subject declaredBy schema (done.bind key (.raw value.extent.text)) rest
    | some declared =>
      match Schema.Property.find? key declared with
      | none =>
        Interpreting.report (.unknownProperty key declaredBy) here (some ⟨key, place⟩)
        entries subject declaredBy schema done rest
      | some property =>
        let read ← statement here property.type value
        entries subject declaredBy schema (done.bind key read) rest

/-- The value that a statement stands for; the text of one that stands for none. -/
def statement (subject : Subject) (expected : DeclaredType) : Statement → Interpreting Value
  | .block ⟨extent, keyword, place, name, body⟩ =>
    match name with
    | some _ => pure (.raw extent.text)
    | none => do
      let block ← classBlock subject keyword place body
      pure (loneBlock expected block)
  | .pipeline _ [t] => term subject expected t
  | other => pure (.raw other.extent.text)

/-- A term as a value of a declared type. -/
def term (subject : Subject) (expected : DeclaredType) : Term → Interpreting Value
  | .block ⟨extent, keyword, place, name, body⟩ =>
    match name with
    | some _ => pure (.raw extent.text)
    | none => do
      let block ← classBlock subject keyword place body
      pure (loneBlock expected block)
  | .expression (.array extent bracketed elements) =>
    match elements, expected with
    | [], .subObjectArray _ => pure (.subObjectArray [])
    | _, _ =>
      if elements.head?.any Term.isClassBlock then do
        reportSkipped subject (elements.countP fun e => !e.isClassBlock)
        let blocks ← classBlocks subject elements
        pure (.subObjectArray blocks)
      else do
        reportSkipped subject (elements.countP Term.isClassBlock)
        literal subject expected
          (.expression (.array extent bracketed (elements.filter fun e => !e.isClassBlock)))
  | other => literal subject expected other

/-- The blocks of a class among the elements of an array. -/
def classBlocks (subject : Subject) : List Term → Interpreting (List SubObject)
  | [] => pure []
  | .block ⟨_, keyword, place, none, body⟩ :: rest => do
    let first ← classBlock subject keyword place body
    let more ← classBlocks subject rest
    pure (first :: more)
  | _ :: rest => classBlocks subject rest

end

/-- The properties that the entries of a body give. -/
def properties (subject : Subject) (declaredBy : Text) (schema : Option (List Schema.Property))
    (body : Table) : Interpreting (Fields Value) :=
  entries c subject declaredBy schema [] body.entries

/-- The value of a block of a class. -/
def subObject (subject : Subject) (block : Block) : Interpreting SubObject :=
  classBlock c subject block.keyword block.keywordLocation block.body

end Binding

end DesiredState
