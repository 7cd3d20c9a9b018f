/-
Reading tokens one after another.

A cursor stands between the tokens already read and those still to come.  The rules
of the grammar decide by the kind of the next token and, because line breaks are not
tokens, by where it stands: on the line on which the last token ended, or touching
that token.  `onLine`, `touching` and `accessFollows` are those questions.  Only after a
cast do more tokens decide: `castValueFollows` looks into the group that a bracket opens.
-/
import DesiredState.Token

namespace DesiredState

/-- A place between two tokens. -/
structure Cursor where
  /-- The tokens read, the last one first. -/
  consumed : List Token
  /-- The tokens to come. -/
  rest : List Token
  deriving DecidableEq, Repr

namespace Cursor

/-- The kind of the next token, if there is one. -/
def nextKind? (c : Cursor) : Option TokenKind := c.rest.head?.map Token.kind

/-- Whether the next token is of a kind of some sort. -/
def nextIs (c : Cursor) (p : TokenKind → Bool) : Bool :=
  match c.rest with
  | next :: _ => p next.kind
  | [] => false

/-- Whether the next token starts on the line on which the last one ended. -/
def onLine (c : Cursor) : Bool :=
  match c.rest, c.consumed with
  | next :: _, last :: _ => next.onLineOf last
  | _, _ => false

/-- Whether the next token touches the last one. -/
def touching (c : Cursor) : Bool :=
  match c.rest, c.consumed with
  | next :: _, last :: _ => next.touches last
  | _, _ => false

/-- Whether the last two tokens were a point and a name. -/
def afterMember (c : Cursor) : Bool :=
  match c.consumed with
  | last :: before :: _ => last.kind.isName && before.kind == .dot
  | _ => false

/-- Whether a member, an index or an invocation follows: it touches its operand, and a brace
counts only after a member, so that the body of a block may touch the name before it. -/
def accessFollows (c : Cursor) : Bool :=
  c.touching && c.nextIs TokenKind.startsAccess && (!c.nextIs (· == .braceOpen) || c.afterMember)

/-- Whether the first `n` tokens can go on with open groups, of which the innermost closes first.
As long as a group is open there has to be a token, and it is content, opens another group or
closes the innermost one. -/
def continuesGroups : (n : Nat) → (closers : List TokenKind) → List Token → Bool
  | 0, _, _ => true
  | _, [], _ => true
  | _ + 1, _ :: _, [] => false
  | n + 1, closer :: outer, next :: rest =>
    match next.kind.closer? with
    | some inner => continuesGroups n (inner :: closer :: outer) rest
    | none =>
      if next.kind.isContent then continuesGroups n (closer :: outer) rest
      else next.kind == closer && continuesGroups n outer rest

/-- Whether the value of a cast follows on the line of the cast.  A bracket could as well open an
access, so it starts a value only if the two tokens after it can go on with its group. -/
def castValueFollows (c : Cursor) : Bool :=
  c.onLine && c.nextIs TokenKind.startsPrimary &&
    (!c.nextIs TokenKind.startsAccess ||
      match c.rest with
      | next :: rest => continuesGroups 2 next.kind.closer?.toList rest
      | [] => false)

end Cursor

/-- Why a text does not follow the grammar. -/
inductive GrammarError.Cause where
  /-- Another token had to come. -/
  | expected (what : Text)
  /-- No construct starts with the token. -/
  | noAlternative
  /-- The script ended before the text did. -/
  | redundant
  deriving DecidableEq, Repr

/-- A grammar error and the token at which it shows; none at the end of the text. -/
structure GrammarError where
  cause : GrammarError.Cause
  token : Option Token
  deriving DecidableEq, Repr

/-- The wording of a grammar error. -/
def GrammarError.message (e : GrammarError) : Text :=
  let found : Text := (e.token.map (·.text)).getD []
  match e.cause with
  | .expected what =>
    "Expecting token of type --> " ++ what ++ " <-- but found --> '" ++ found ++ "' <--"
  | .noAlternative =>
    "Expecting: one of these possible Token sequences; but found: '" ++ found ++ "'"
  | .redundant => "Redundant input, expecting EOF but found: " ++ found

/-- Reading with a cursor: a result and the cursor after it, or an error. -/
abbrev Reading := StateT Cursor (Except GrammarError)

namespace Reading

/-- Fails at the next token. -/
def reject (cause : GrammarError.Cause) : Reading α :=
  fun c => .error ⟨cause, c.rest.head?⟩

/-- Reads the next token, whatever it is. -/
def token : Reading Token := fun c =>
  match c.rest with
  | next :: rest => .ok (next, ⟨next :: c.consumed, rest⟩)
  | [] => .error ⟨.noAlternative, none⟩

/-- Reads a token of some sort, which an error calls by the given name. -/
def tokenOf (what : Text) (p : TokenKind → Bool) : Reading Token := fun c =>
  match c.rest with
  | next :: rest =>
    if p next.kind then .ok (next, ⟨next :: c.consumed, rest⟩)
    else .error ⟨.expected what, some next⟩
  | [] => .error ⟨.expected what, none⟩

/-- Reads a token of one kind. -/
def expect (kind : TokenKind) : Reading Token := tokenOf kind.name (· == kind)

/-- Whether the next token is of a kind of some sort. -/
def nextIs (p : TokenKind → Bool) : Reading Bool := fun c => .ok (c.nextIs p, c)

/-- Reads again and again while a condition on the cursor holds, at most so many times. -/
def whileAtMost (enter : Cursor → Bool) (read : Reading α) : Nat → Reading (List α)
  | 0 => pure []
  | n + 1 => do
    if enter (← get) then
      let first ← read
      let rest ← whileAtMost enter read n
      pure (first :: rest)
    else pure []

/-- Reads again and again while a condition on the cursor holds.  Every reading takes a token, so
there are no more of them than tokens. -/
def readWhile (enter : Cursor → Bool) (read : Reading α) : Reading (List α) :=
  fun c => whileAtMost enter read c.rest.length c

/-- Reads up to the brackets that close the open groups, of which the innermost comes first. -/
def closeGroups : (closers : List TokenKind) → (consumed rest : List Token) →
    Except GrammarError Cursor
  | [], consumed, rest => .ok ⟨consumed, rest⟩
  | closer :: _, _, [] => .error ⟨.expected closer.name, none⟩
  | closer :: outer, consumed, next :: rest =>
    match next.kind.closer? with
    | some inner => closeGroups (inner :: closer :: outer) (next :: consumed) rest
    | none =>
      if next.kind.isContent then closeGroups (closer :: outer) (next :: consumed) rest
      else if next.kind = closer then closeGroups outer (next :: consumed) rest
      else .error ⟨.expected closer.name, some next⟩

/-- Reads a bracketed group without looking into it. -/
def group : Reading Unit := fun c =>
  match c.rest with
  | [] => .error ⟨.noAlternative, none⟩
  | next :: rest =>
    match next.kind.closer? with
    | some closer => do
      let after ← closeGroups [closer] (next :: c.consumed) rest
      pure ((), after)
    | none => .error ⟨.noAlternative, some next⟩

/-- The extent of the tokens read between two cursors. -/
def extentBetween (source : Text) (before after : Cursor) : Extent :=
  match before.rest, after.consumed with
  | first :: _, last :: _ =>
    ⟨source.slice first.start.offset last.stop.offset, first.location⟩
  | _, _ => ⟨[], ⟨1, 1⟩⟩

/-- Reads something that is built with the extent of what is read. -/
def spanning (source : Text) (read : Reading (Extent → α)) : Reading α := fun c => do
  let (build, after) ← read c
  pure (build (extentBetween source c after), after)

end Reading

end DesiredState
