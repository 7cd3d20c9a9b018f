/-
The grammar of configuration scripts.

Each rule reads one construct and builds its node.  The rules nest in each other only
through two of them, a statement and a value after `=`, and both are handed to the
other rules as the level below.  A level is entered after at least one token has been
read, so a script of `n` tokens needs no more than `n` levels.

Next to its node a rule returns the marks that the node gives to tokens.  A part that
is kept as text alone gives none: its structure is read so that its end is found, and
then forgotten.
-/
import DesiredState.Script.Cursor
import DesiredState.Script.Literal
import DesiredState.Script.Role

namespace DesiredState

/-- A node and the marks it gives to tokens. -/
structure Marked (α : Type) where
  node : α
  marks : List Mark

/-- A statement as it stands in a block. -/
structure Item where
  statement : Statement
  /-- The key and the value, for a statement that is a key, `=` and a value. -/
  keyed? : Option (Token × Statement)
  marks : List Mark

/-- The rules that the others nest in themselves. -/
structure Level where
  /-- Reads a statement. -/
  statement : Reading Item
  /-- Reads the right-hand side of `=`. -/
  value : Reading (Marked Statement)

namespace Grammar

open Reading

/-! ### Pieces -/

/-- The string that a bare word is. -/
def bareString (t : Token) : Expression := .string ⟨t.text, t.location⟩ t.text .bare

/-- Characters at which a line ends. -/
def endsLine (c : Char) : Bool := c == '\n' || c == '\r' || c == '\u2028' || c == '\u2029'

/-- A variable's name: without the sign, and without braces unless a line ends within them. -/
def variableName (text : Text) : Text :=
  match text.drop 1 with
  | '{' :: inner => if inner.any endsLine then '{' :: inner else inner.dropLast
  | name => name

/-- The name of a parameter, without the dash before and a colon after it. -/
def parameterName (text : Text) : Text :=
  let name := text.drop 1
  (Text.dropTail? [':'] name).getD name

/-- The elements that a statement contributes to the array it stands in. -/
def contributed : Statement → List Term
  | .block b => [.block b]
  | .pipeline _ [.expression (.array _ false elements)] => elements
  | .pipeline _ [term] => [term]
  | other => [.expression (.unrecognized other.extent)]

/-- A member, index or invocation after an operand. -/
inductive Access where
  /-- A member by name. -/
  | member (name : Text)
  /-- Anything else. -/
  | other
  deriving DecidableEq, Repr

/-- The names of a chain of members, if it is nothing else. -/
def membersOf? : List Access → Option (List Text)
  | [] => some []
  | .member name :: rest => (membersOf? rest).map (Text.splitOn '.' name ++ ·)
  | .other :: _ => none

/-- An operand with what is accessed on it: only members of a variable are understood. -/
def accessed (base : Expression) (accesses : List Access) (extent : Extent) : Expression :=
  match accesses, base, membersOf? accesses with
  | [], _, _ => base
  | _, .variable target, some members => .member extent target members
  | _, _, _ => .unrecognized extent

/-- An argument of a command before commas have been resolved. -/
inductive ArgumentPart where
  | parameter (extent : Extent) (name : Text)
  | comma
  | value (expression : Expression)

/-- Two values around a comma as one list. -/
def joinValues (source : Text) (first second : Expression) : Expression :=
  let items :=
    match first with
    | .array _ false elements => elements ++ [.expression second]
    | other => [.expression other, .expression second]
  let start := first.extent.location.offsetIn source
  let stop := second.extent.location.offsetIn source + second.extent.text.size
  .array ⟨source.slice start stop, first.extent.location⟩ false items

/-- The arguments of a command: values around a comma become one list.  `done` holds the
arguments so far, the last one first. -/
def foldArguments (source : Text) : (joining : Bool) → (done : List Argument) →
    List ArgumentPart → List Argument
  | _, done, [] => done.reverse
  | _, done, .comma :: rest => foldArguments source (!done.isEmpty) done rest
  | _, done, .parameter extent name :: rest =>
    foldArguments source false (.parameter extent name :: done) rest
  | joining, done, .value e :: rest =>
    match joining, done with
    | true, .value previous :: earlier =>
      foldArguments source false (.value (joinValues source previous e) :: earlier) rest
    | _, _ => foldArguments source false (.value e :: done) rest

/-! ### Rules

Each rule takes the level below as a parameter.  So a rule is a definition by itself,
and the depth to which rules nest in each other shows in `level` only.
-/

section Rules

variable (source : Text) (below : Level)

/-- A statement or, for one of the given separators, nothing. -/
def itemOr (separates : TokenKind → Bool) : Reading (Option Item) := do
  if ← nextIs separates then
    let _ ← token
    pure none
  else
    let item ← below.statement
    pure (some item)

/-- Statements and separators, as long as there are any. -/
def items (separates : TokenKind → Bool) : Reading (List Item) := do
  let read ← readWhile (·.nextIs fun kind => kind.startsStatement || separates kind)
    (itemOr below separates)
  pure (read.filterMap id)

/-- Statements in braces, with the extent of the whole. -/
def body : Reading (List Item × Extent) :=
  spanning source do
    let _ ← expect .braceOpen
    let read ← items below (· == .semicolon)
    let _ ← expect .braceClose
    pure fun extent => (read, extent)

/-- Statements in array brackets. -/
def bracketedArray : Reading (Marked Expression) :=
  spanning source do
    let _ ← expect .arrayOpen
    let read ← items below fun kind => kind == .semicolon || kind == .comma
    let _ ← expect .parenClose
    pure fun extent =>
      ⟨.array extent true (read.flatMap fun item => contributed item.statement),
        read.flatMap (·.marks)⟩

/-- The key, `=` and the value of a table entry. -/
def tableEntry : Reading (Marked Entry) := do
  let key ← token
  let _ ← expect .equals
  let value ← below.value
  let name := if key.kind.isString then (Literal.ofString key).1 else key.text
  pure ⟨⟨name, key.location, value.node⟩, value.marks⟩

/-- An entry or, for a semicolon, nothing. -/
def entryOrSeparator : Reading (Option (Marked Entry)) := do
  if ← nextIs (· == .semicolon) then
    let _ ← token
    pure none
  else
    let entry ← tableEntry below
    pure (some entry)

/-- Entries in table brackets. -/
def bracketedTable : Reading (Marked Expression) :=
  spanning source do
    let _ ← expect .tableOpen
    let read ← readWhile (·.nextIs fun kind => kind.startsEntry || kind == .semicolon)
      (entryOrSeparator below)
    let _ ← expect .braceClose
    let entries := read.filterMap id
    pure fun extent =>
      ⟨.table ⟨extent, entries.map (·.node)⟩, entries.flatMap (·.marks)⟩

/-- A single token that is a value. -/
def tokenExpression (build : Token → Extent → Expression) : Reading (Marked Expression) :=
  spanning source do
    let t ← token
    pure fun extent => ⟨build t extent, []⟩

/-- A group that is kept as text. -/
def groupExpression (build : Extent → Expression) : Reading (Marked Expression) :=
  spanning source do
    group
    pure fun extent => ⟨build extent, []⟩

/-- The expression of a string token. -/
def stringExpression (t : Token) (extent : Extent) : Expression :=
  let (value, quote) := Literal.ofString t
  .string extent value quote

/-- The expression of a number token. -/
def numberExpression (t : Token) (extent : Extent) : Expression :=
  match Literal.number? t.text with
  | some value => .number extent value
  | none => .string extent t.text .bare

/-- A value without sign, cast and access. -/
def primary : Reading (Marked Expression) := do
  match (← get).nextKind? with
  | some .hereDouble | some .hereSingle | some .doubleQuoted | some .singleQuoted =>
    tokenExpression source stringExpression
  | some .number => tokenExpression source numberExpression
  | some .variableName =>
    tokenExpression source fun t extent => .variable ⟨extent, variableName t.text⟩
  | some .splat => tokenExpression source fun _ extent => .unrecognized extent
  | some .arrayOpen => bracketedArray source below
  | some .tableOpen => bracketedTable source below
  | some .parenOpen | some .subexpressionOpen => groupExpression source .unrecognized
  | some .braceOpen => groupExpression source .scriptBlock
  | _ => reject .noAlternative

/-- A member, index or invocation. -/
def access : Reading Access := do
  match (← get).nextKind? with
  | some .dot =>
    let _ ← token
    let name ← tokenOf "Name" TokenKind.isName
    pure (.member name.text)
  | some .doubleColon =>
    let _ ← token
    let _ ← tokenOf "Name" TokenKind.isName
    pure .other
  | some .bracketOpen =>
    let _ ← token
    let _ ← readWhile (·.nextIs fun kind => kind.isContent && kind != .bracketClose) token
    let _ ← expect .bracketClose
    pure .other
  | some .typeLiteral =>
    let _ ← token
    pure .other
  | _ =>
    group
    pure .other

/-- Accesses, as long as there are any. -/
def accesses : Reading (List Access) := readWhile Cursor.accessFollows access

/-- A value that follows casts on their line, if there is one. -/
def castValue : Reading Unit := do
  if (← get).castValueFollows then
    let _ ← primary source below

/-- An optional sign, optional casts, a value and accesses. -/
def operand : Reading (Marked Expression) :=
  spanning source do
    let hasSign ← nextIs (· == .operator)
    if hasSign then
      let _ ← token
    if ← nextIs (· == .typeLiteral) then
      let _ ← readWhile (·.nextIs (· == .typeLiteral)) token
      castValue source below
      let _ ← accesses
      pure fun extent => ⟨.unrecognized extent, []⟩
    else
      let base ← primary source below
      let followed ← accesses
      pure fun extent =>
        if hasSign then ⟨.unrecognized extent, []⟩
        else ⟨accessed base.node followed extent, base.marks⟩

/-- An operator and the operand after it. -/
def operatorAndOperand : Reading Unit := do
  let _ ← token
  let _ ← operand source below

/-- Operands with operators between them, each on the line on which the one before it ended;
more than one operand is kept as text. -/
def binary : Reading (Marked Expression) :=
  spanning source do
    let first ← operand source below
    let more ← readWhile
      (fun c => c.onLine && c.nextIs fun kind => kind == .operator || kind == .parameter)
      (operatorAndOperand source below)
    pure fun extent => if more.isEmpty then first else ⟨.unrecognized extent, []⟩

/-- A comma and the value after it. -/
def commaAndValue : Reading (Marked Expression) := do
  let _ ← token
  binary source below

/-- Values with commas between them. -/
def expression : Reading (Marked Expression) :=
  spanning source do
    let first ← binary source below
    let more ← readWhile (·.nextIs (· == .comma)) (commaAndValue source below)
    let all := first :: more
    pure fun extent =>
      if more.isEmpty then first
      else ⟨.array extent false (all.map fun e => .expression e.node), all.flatMap (·.marks)⟩

/-- An argument of a command, or a comma between two. -/
def argument : Reading (Marked ArgumentPart) := do
  match (← get).nextKind? with
  | some .parameter =>
    let t ← token
    pure ⟨.parameter ⟨t.text, t.location⟩ (parameterName t.text), []⟩
  | some .comma =>
    let _ ← token
    pure ⟨.comma, []⟩
  | some .bareword =>
    spanning source do
      let t ← token
      let followed ← accesses
      pure fun extent =>
        ⟨.value (if followed.isEmpty then bareString t else .unrecognized extent), []⟩
  | _ =>
    let e ← operand source below
    pure ⟨.value e.node, e.marks⟩

/-- The arguments of a command, as long as a condition on the cursor holds. -/
def commandArguments (enter : Cursor → Bool) : Reading (Marked (List Argument)) := do
  let parts ← readWhile enter (argument source below)
  pure ⟨foldArguments source false [] (parts.map (·.node)), parts.flatMap (·.marks)⟩

/-- A command or an expression after a pipe. -/
def pipeTarget : Reading (Marked Term) := do
  let _ ← token
  if ← nextIs (· == .bareword) then
    spanning source do
      let head ← token
      let read ← commandArguments source below
        fun c => c.onLine && c.nextIs TokenKind.startsArgument
      pure fun extent => ⟨.command ⟨extent, head.text, read.node⟩, read.marks⟩
  else
    let e ← expression source below
    pure ⟨.expression e.node, e.marks⟩

/-- Pipes and what follows them, as long as there are any. -/
def pipes : Reading (Marked (List Term)) := do
  let read ← readWhile (·.nextIs (· == .pipe)) (pipeTarget source below)
  pure ⟨read.map (·.node), read.flatMap (·.marks)⟩

/-- An expression as a statement: alone, assigned to, or at the head of a pipeline. -/
def expressionOrAssignment : Reading (Marked Statement) :=
  spanning source do
    let first ← expression source below
    if ← nextIs (· == .equals) then
      let _ ← token
      let value ← below.value
      pure fun extent =>
        ⟨.assignment extent first.node value.node, first.marks ++ value.marks⟩
    else
      let more ← pipes source below
      pure fun extent =>
        ⟨.pipeline extent (.expression first.node :: more.node), first.marks ++ more.marks⟩

/-- A key, `=` and a value. -/
def keyed : Reading Item :=
  spanning source do
    let head ← token
    let _ ← expect .equals
    let value ← below.value
    pure fun extent =>
      ⟨.assignment extent (bareString head) value.node, some (head, value.node), value.marks⟩

/-- The entries of a body and the marks it gives: entries only if all its statements are keyed.
The first that is not ends the reading of marks, and then no key is marked. -/
def entriesOf (read : List Item) : Option (List Entry) × List Mark :=
  match read.mapM (·.keyed?) with
  | some keyedItems =>
    (some (keyedItems.map fun (key, value) => ⟨key.text, key.location, value⟩),
      read.flatMap (·.marks) ++ keyedItems.map fun (key, _) => ⟨key.start.offset, .identifier⟩)
  | none => (none, (read.takeWhile (·.keyed?.isSome)).flatMap (·.marks))

/-- The name that a block takes from its arguments: none or one value, and nothing else. -/
def blockName? : List Argument → Option (Option Expression)
  | [] => some none
  | [.value e] => some (some e)
  | _ => none

/-- A command, or a block where a word, an optional name and a body of entries are all there is. -/
def commandOrBlock (head : Token) (arguments : Marked (List Argument))
    (read : Option (List Item × Extent)) (piped : Marked (List Term)) (extent : Extent) : Item :=
  let command (marks : List Mark) : Item :=
    { statement := .pipeline extent (.command ⟨extent, head.text, arguments.node⟩ :: piped.node)
      keyed? := none
      marks := arguments.marks ++ marks ++ piped.marks }
  match read, piped.node, blockName? arguments.node with
  | some (inner, bodyExtent), [], some name =>
    match entriesOf inner with
    | (some entries, marks) =>
      { statement := .block ⟨extent, head.text, head.location, name, ⟨bodyExtent, entries⟩⟩
        keyed? := none
        marks := arguments.marks ++ marks ++
          (if name.isSome then [⟨head.start.offset, .dynamicKeyword⟩] else []) }
    | (none, marks) => command marks
  | _, _, _ => command []

/-- A body, if a brace follows. -/
def optionalBody : Reading (Option (List Item × Extent)) := do
  if ← nextIs (· == .braceOpen) then
    let read ← body source below
    pure (some read)
  else pure none

/-- A bare word with arguments on its line, an optional body and pipes. -/
def command : Reading Item :=
  spanning source do
    let head ← token
    let arguments ← commandArguments source below
      fun c => c.onLine && !c.nextIs (· == .braceOpen) && c.nextIs TokenKind.startsArgument
    let read ← optionalBody source below
    let piped ← pipes source below
    pure (commandOrBlock head arguments read piped)

/-- A statement that starts with a word. -/
def wordStatement : Reading Item := do
  match (← get).rest with
  | first :: second :: _ =>
    if first.kind.isKeyword || second.kind == .equals then keyed source below
    else command source below
  | first :: [] => if first.kind.isKeyword then keyed source below else command source below
  | [] => reject .noAlternative

/-- The right-hand side of `=`. -/
def value : Reading (Marked Statement) := do
  if ← nextIs TokenKind.isName then
    let item ← wordStatement source below
    pure ⟨item.statement, item.marks⟩
  else expressionOrAssignment source below

/-- A configuration: keyword, name and body. -/
def configuration : Reading Item :=
  spanning source do
    let _ ← token
    let name ← token
    let (read, _) ← body source below
    let text := if name.kind.isString then (Literal.ofString name).1 else name.text
    pure fun extent =>
      ⟨.configuration extent text (read.map (·.statement)), none, read.flatMap (·.marks)⟩

/-- A node block: keyword, target and body. -/
def node : Reading Item :=
  spanning source do
    let _ ← token
    let target ←
      if ← nextIs (· == .bareword) then
        let t ← token
        pure (Marked.mk (bareString t) [])
      else operand source below
    let (read, _) ← body source below
    pure fun extent =>
      ⟨.node extent target.node (read.map (·.statement)), none,
        target.marks ++ read.flatMap (·.marks)⟩

/-- A parameter block: keyword and a group that is kept as text. -/
def param : Reading Item :=
  spanning source do
    let _ ← token
    group
    pure fun extent => ⟨.param extent, none, []⟩

/-- A statement.  A keyword is one only where what follows it says so; before `=` it is a key. -/
def statement : Reading Item := do
  let c ← get
  let second : Option TokenKind := (c.rest.drop 1).head?.map Token.kind
  match c.nextKind? with
  | some .configuration =>
    if second.any fun kind => kind.isName || kind.isString then
      configuration source below
    else if second.any (· == .equals) then wordStatement source below
    else reject .noAlternative
  | some .node =>
    if second.any fun kind => kind == .bareword || kind.startsOperand then
      node source below
    else if second.any (· == .equals) then wordStatement source below
    else reject .noAlternative
  | some .param =>
    if second.any fun kind => kind == .parenOpen || kind == .subexpressionOpen then
      param source
    else if second.any (· == .equals) then wordStatement source below
    else reject .noAlternative
  | some .bareword => wordStatement source below
  | _ =>
    let read ← expressionOrAssignment source below
    pure ⟨read.node, none, read.marks⟩

end Rules

/-- The rules with so many levels below them; with no tokens left, nothing can be read. -/
def level (source : Text) : Nat → Level
  | 0 => ⟨reject .noAlternative, reject .noAlternative⟩
  | n + 1 => ⟨statement source (level source n), value source (level source n)⟩

/-- Reads a whole script. -/
def script (source : Text) (tokens : List Token) : Except GrammarError (List Item) := do
  let (read, after) ← items (level source tokens.length) (· == .semicolon) ⟨[], tokens⟩
  match after.rest with
  | [] => pure read
  | next :: _ => throw ⟨.redundant, some next⟩

end Grammar

end DesiredState
