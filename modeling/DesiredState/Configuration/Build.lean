/-
From a script to its instances.

The first configuration of a script counts, and in it the first node block.  Every
statement of that block that is a word, a name and a body declares an instance; any
other statement is reported.  A configuration without node blocks is read as one, its
parameter blocks and imports left aside, if it declares a resource at all.  In strict
mode a missing node block and a resource without a schema are errors.
-/
import DesiredState.Configuration.Imports
import DesiredState.Value.Binding

namespace DesiredState

/-- How a configuration is read. -/
structure ReadOptions where
  /-- Whether a missing node block and an unknown resource are errors. -/
  strict : Bool
  /-- How the versions of imports select versions of modules. -/
  versionRule : VersionRule
  /-- Whether blocks record the name of their class. -/
  recordsTypes : Bool
  /-- Whether comments are attached to the properties before them. -/
  includesComments : Bool
  deriving DecidableEq, Repr

/-- The options of a lenient reading without comments. -/
def ReadOptions.lenient : ReadOptions := ⟨false, .exact, true, false⟩

/-- Why a script gives no instances. -/
inductive BuildError where
  | noConfiguration
  /-- There is no node block where one has to be. -/
  | noNode (configuration : Text) (location : Location)
  /-- There is neither a node block nor a resource. -/
  | noResources (configuration : Text) (location : Location)
  /-- A resource has no schema where it has to have one. -/
  | unknownResource (name : Text) (location : Location)
  deriving DecidableEq, Repr

namespace BuildError

/-- Where the error shows. -/
def location? : BuildError → Option Location
  | noConfiguration => none
  | noNode _ location | noResources _ location | unknownResource _ location => some location

/-- The wording without the place. -/
def reason : BuildError → Text
  | noConfiguration => "No Configuration definition found"
  | noNode configuration _ => "No Node block found in configuration \"" ++ configuration ++ "\""
  | noResources configuration _ =>
    "No Node block or resource declarations found in configuration \"" ++ configuration ++ "\""
  | unknownResource name _ => "No schema found for resource \"" ++ name ++ "\""

end BuildError

/-- The instances of a configuration and how they came about. -/
structure Build where
  instances : List Instance
  imports : List Import
  session : Session

/-- Work in a session that can fail. -/
abbrev Building := StateT Session (Except BuildError)

namespace Building

/-- Work that cannot fail. -/
def interpreted (work : Interpreting α) : Building α := fun s => .ok (work s)

/-- The name that a block is declared by: the value of a string, or else the text of it. -/
def instanceName : Expression → Text
  | .string _ value _ => value
  | e => e.extent.text

/-- The block and the name of a statement that declares an instance. -/
def declaration? : Statement → Option (Block × Expression)
  | .block b => b.instanceName.map (b, ·)
  | _ => none

/-- The schema of a declared resource; in strict mode there has to be one. -/
def schemaOf (o : ReadOptions) (b : Block) (subject : Subject) :
    Building (Option Schema.Resource) := do
  match ← interpreted (Interpreting.resolve b.keyword) with
  | some schema => pure (some schema)
  | none =>
    if o.strict then throw (.unknownResource b.keyword b.keywordLocation)
    interpreted <| Interpreting.report (.unknownResource b.keyword) subject
      (some ⟨b.keyword, b.keywordLocation⟩)
    pure none

/-- The instance that a block with a name declares. -/
def instanceOf (o : ReadOptions) (b : Block) (name : Expression) : Building Instance := do
  let subject : Subject := ⟨some b.keyword, some (instanceName name), none⟩
  let schema ← schemaOf o b subject
  let properties ← interpreted <|
    Binding.properties ⟨b.keyword, o.recordsTypes⟩ subject b.keyword
      (schema.map (·.properties)) b.body
  interpreted <| Interpreting.note
    (.readInstance b.keyword (instanceName name) properties.length)
  pure ⟨b.keyword, instanceName name, properties⟩

/-- The instance that a statement declares; any other statement is reported. -/
def statement (o : ReadOptions) (s : Statement) : Building (Option Instance) := do
  match declaration? s with
  | some (b, name) =>
    let declared ← instanceOf o b name
    pure (some declared)
  | none =>
    interpreted (Interpreting.report (.notResource s.extent.text) .unknown (some s.extent))
    pure none

/-- The instances of statements, of which so many came before. -/
def statements (o : ReadOptions) (total : Nat) : (before : Nat) → List Statement →
    Building (List Instance)
  | _, [] => pure []
  | before, s :: rest => do
    let first ← statement o s
    interpreted (Interpreting.note (.processed (before + 1) total))
    let more ← statements o total (before + 1) rest
    pure (first.toList ++ more)

end Building

namespace Build

/-- A configuration of a script. -/
structure Configuration where
  extent : Extent
  name : Text
  body : List Statement

/-- The first configuration of a script. -/
def configuration? : List Statement → Option Configuration
  | [] => none
  | .configuration extent name body :: _ => some ⟨extent, name, body⟩
  | _ :: rest => configuration? rest

/-- The bodies of the node blocks among statements. -/
def nodeBodies (statements : List Statement) : List (List Statement) :=
  statements.filterMap fun
    | .node _ _ body => some body
    | _ => none

/-- Whether a statement may declare a resource outside of a node block. -/
def isResourceLike (s : Statement) : Bool :=
  match s with
  | .param _ => false
  | _ => (Import.arguments? s).isNone

/-- The statements that are to declare the resources of a configuration. -/
def declaringStatements (o : ReadOptions) (c : Configuration) : Building (List Statement) := do
  match nodeBodies c.body with
  | [body] => pure body
  | body :: more => do
    Building.interpreted (Interpreting.note (.severalNodes (more.length + 1)))
    pure body
  | [] =>
    if o.strict then throw (.noNode c.name c.extent.location)
    let found := c.body.filter isResourceLike
    if found.any fun s => (Building.declaration? s).isSome then pure found
    else throw (.noResources c.name c.extent.location)

/-- The instances of a script. -/
def ofStatements (o : ReadOptions) (lookup : DeclLookup) (script : List Statement) :
    Except BuildError Build := do
  match configuration? script with
  | none => throw .noConfiguration
  | some c =>
    let imports := Import.ofStatements c.body
    let session := Session.new (Schema.Memo.new lookup ⟨imports, o.versionRule⟩)
    let work : Building (List Instance) := do
      let statements ← declaringStatements o c
      Building.statements o statements.length 0 statements
    let (instances, session) ← work session
    pure ⟨instances, imports, session⟩

end Build

end DesiredState
