/-
The syntax tree of a configuration script.

The tree is generic.  It knows statements, commands, expressions and blocks, but
nothing of resources: `File f` followed by a block is a `Block` with a keyword, an
instance name and a table of entries, and whether `File` is a resource is decided
against a schema later.  Every node keeps the extent of source it was read from, since
whatever is not understood further is carried along as that text.
-/
import DesiredState.Number.Binary64
import DesiredState.Source

namespace DesiredState

/-- How a string was written. -/
inductive Quote where
  | double
  | single
  | bare
  deriving DecidableEq, Repr

/-- A reference to a variable. -/
structure Variable where
  extent : Extent
  /-- The name without the leading sign and without braces. -/
  name : Text
  deriving DecidableEq, Repr

mutual

/-- A word, an optional name and a body of entries. -/
structure Block where
  extent : Extent
  /-- The word at its head. -/
  keyword : Text
  /-- Where the head stands. -/
  keywordLocation : Location
  /-- The name between the head and the body. -/
  instanceName : Option Expression
  /-- The entries. -/
  body : Table

/-- Entries between braces. -/
structure Table where
  extent : Extent
  entries : List Entry

/-- A key and its value. -/
structure Entry where
  key : Text
  /-- Where the key stands. -/
  keyLocation : Location
  value : Statement

/-- A command and its arguments. -/
structure Command where
  extent : Extent
  name : Text
  arguments : List Argument

/-- An argument of a command. -/
inductive Argument where
  /-- The name of a parameter. -/
  | parameter (extent : Extent) (name : Text)
  /-- A value. -/
  | value (expression : Expression)

/-- What can stand where a value is wanted. -/
inductive Term where
  | expression (expression : Expression)
  | command (command : Command)
  | block (block : Block)

/-- An expression. -/
inductive Expression where
  /-- A string with its decoded value. -/
  | string (extent : Extent) (value : Text) (quote : Quote)
  | number (extent : Extent) (value : Binary64)
  | variable (reference : Variable)
  /-- Members of a variable. -/
  | member (extent : Extent) (target : Variable) (members : List Text)
  /-- A comma list, in brackets or not; lists within the brackets are joined into it. -/
  | array (extent : Extent) (bracketed : Bool) (elements : List Term)
  | table (table : Table)
  /-- Braces whose content is not looked into. -/
  | scriptBlock (extent : Extent)
  /-- Anything else: its text alone counts. -/
  | unrecognized (extent : Extent)

/-- A statement. -/
inductive Statement where
  | configuration (extent : Extent) (name : Text) (body : List Statement)
  | node (extent : Extent) (target : Expression) (body : List Statement)
  | param (extent : Extent)
  | assignment (extent : Extent) (target : Expression) (value : Statement)
  | block (block : Block)
  | pipeline (extent : Extent) (elements : List Term)

end

/-- The extent of an expression. -/
def Expression.extent : Expression → Extent
  | .string extent .. | .number extent .. | .member extent .. | .array extent ..
  | .scriptBlock extent | .unrecognized extent => extent
  | .variable v => v.extent
  | .table t => t.extent

/-- The extent of a value. -/
def Term.extent : Term → Extent
  | .expression e => e.extent
  | .command c => c.extent
  | .block b => b.extent

/-- The extent of an argument. -/
def Argument.extent : Argument → Extent
  | .parameter extent _ => extent
  | .value e => e.extent

/-- The extent of a statement. -/
def Statement.extent : Statement → Extent
  | .configuration extent .. | .node extent .. | .param extent | .assignment extent ..
  | .pipeline extent _ => extent
  | .block b => b.extent

/-- The name of a kind of expression. -/
def Expression.kindName : Expression → Text
  | .string .. => "StringConstant"
  | .number .. => "NumberConstant"
  | .variable _ => "VariableReference"
  | .member .. => "MemberAccess"
  | .array .. => "ArrayLiteral"
  | .table _ => "Hashtable"
  | .scriptBlock _ => "ScriptBlockExpression"
  | .unrecognized _ => "UnrecognizedExpression"

/-- The name of a kind of value. -/
def Term.kindName : Term → Text
  | .expression e => e.kindName
  | .command _ => "Command"
  | .block _ => "DynamicKeywordStatement"

/-- The names of the kinds of statement. -/
def Statement.kindName : Statement → Text
  | .configuration .. => "ConfigurationDefinition"
  | .node .. => "NodeStatement"
  | .param _ => "ParamBlock"
  | .assignment .. => "Assignment"
  | .block _ => "DynamicKeywordStatement"
  | .pipeline .. => "Pipeline"

end DesiredState
