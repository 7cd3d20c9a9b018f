/-
Reading and writing configurations.

`Configuration.read` takes the text of a script to the instances that it declares, and
`Configuration.write` takes instances back to the text of their blocks.
-/
import DesiredState.Configuration.Build
import DesiredState.Configuration.Comments
import DesiredState.Render.Entries
import DesiredState.Script.Parse
import DesiredState.Value.Encoded

namespace DesiredState

/-- Why a text gives no instances. -/
inductive ReadError where
  /-- The text is no script. -/
  | script (error : SyntaxError)
  /-- The script declares no configuration that can be read. -/
  | build (error : BuildError)
  deriving DecidableEq, Repr

/-- The instances of a text and how they came about. -/
structure Conversion where
  instances : List Instance
  session : Session

namespace Configuration

/-- The instances that a text declares. -/
def read (o : ReadOptions) (lookup : DeclLookup) (source : Text) : Except ReadError Conversion := do
  let script ← (Script.parse source).mapError .script
  let built ← (Build.ofStatements o lookup script.statements).mapError .build
  let instances :=
    if o.includesComments then attachComments script.tokens built.instances else built.instances
  pure ⟨instances, built.session⟩

/-- The text of instances whose blocks stand at a level. -/
def write (level : Render.Level) (instances : List Instance) : Render.Output :=
  Render.entries level (instances.map Instance.toJson)

/-- The text of instances whose blocks stand at the level that a number is. -/
def writeAt (x : Binary64) (instances : List Instance) : Render.Output :=
  Render.entriesAt x (instances.map Instance.toJson)

end Configuration

end DesiredState
