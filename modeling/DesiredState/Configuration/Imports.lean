/-
The modules that a configuration imports.

An import is a command such as `Import-DscResource -ModuleName A, B -ModuleVersion 1.0`.
Each of its module names stands for one import, all with the version of the command; a
table in place of a name brings its own version.
-/
import DesiredState.Catalog.ImportScope
import DesiredState.Script.Tree
import DesiredState.Token.Pattern

namespace DesiredState

namespace Import

/-- Whether a command is an import: `Import-`, any word characters and `Resource`. -/
def isImportName (name : Text) : Bool :=
  match Text.dropWord? "import-" name with
  | none => false
  | some rest => rest.all Pattern.isWord && Text.endsWith (rest.map Char.toLower) "resource"

/-- The arguments of a statement that is an import. -/
def arguments? : Statement → Option (List Argument)
  | .pipeline _ [.command c] => if isImportName c.name then some c.arguments else none
  | _ => none

/-- The parameters that are followed by a value. -/
def named : List Argument → List (Text × Expression)
  | .parameter _ name :: .value e :: rest => (name, e) :: named rest
  | _ :: rest => named rest
  | [] => []

/-- The text of an argument: the value of a string, or a number as it is written. -/
def plainText? : Expression → Option Text
  | .string _ value _ => some value
  | .number extent _ => some extent.text
  | _ => none

/-- The text of a table value: an argument, or the name of a command. -/
def entryText? : Statement → Option Text
  | .pipeline _ (.expression e :: _) => plainText? e
  | .pipeline _ (.command c :: _) => some c.name
  | _ => none

/-- The last value among the entries whose key is one of some. -/
def lastText? (keys : List String) (entries : List Entry) : Option Text :=
  (entries.reverse.find? fun e => keys.contains (String.ofList (Text.lower e.key))).bind
    fun e => entryText? e.value

/-- The module that a table specifies. -/
def ofTable? (t : Table) : Option Import :=
  match lastText? ["modulename"] t.entries with
  | none | some [] => none
  | some name => some ⟨name, lastText? ["moduleversion", "requiredversion"] t.entries⟩

/-- The values of an argument: the elements of an array, or the one value. -/
def valuesOf : Expression → List Term
  | .array _ _ elements => elements
  | e => [.expression e]

/-- The values of the parameters with a lower-case name. -/
def valuesFor (parameter : Text) (arguments : List (Text × Expression)) : List Expression :=
  (arguments.filter fun a => Text.lower a.1 == parameter).map (·.2)

/-- The module name that a value is. -/
def name? : Term → Option Text
  | .expression e =>
    match plainText? e with
    | some [] => none
    | other => other
  | _ => none

/-- The module that a value specifies. -/
def specified? : Term → Option Import
  | .expression (.table t) => ofTable? t
  | _ => none

/-- The version that the arguments of an import give: that of the last parameter for it whose
value is not an array. -/
def version? (arguments : List (Text × Expression)) : Option Text :=
  let given := (valuesFor "moduleversion" arguments).filter fun
    | .array .. => false
    | _ => true
  given.getLast?.bind plainText?

/-- The imports of the arguments of one command: names first, then specifications. -/
def ofArguments (arguments : List Argument) : List Import :=
  let given := named arguments
  let values := (valuesFor "modulename" given).flatMap valuesOf
  let version := version? given
  (values.filterMap name?).map (⟨·, version⟩) ++ values.filterMap specified?

/-- The imports of statements in order. -/
def ofStatements (statements : List Statement) : List Import :=
  (statements.filterMap arguments?).flatMap ofArguments

end Import

end DesiredState
