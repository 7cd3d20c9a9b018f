/-
The grammar as data.

Whether a rule accepts tokens, and at which token it gives up, does not depend on the nodes
it makes.  A form is what is left of a rule without them, and the forms below are those of
the rules of the grammar, one for each.  `Runs` says what reading by a form comes to: the
cursor behind it, or the tokens at which it fails.

Only what a cast stands before is not decided by the next token: two more tokens are looked
at.  `Runs` takes as its first argument whether they are, so that the grammar can be
compared with the one in which a value follows a cast wherever one can start.
-/
import DesiredState.Proofs.Script.Derivation.Rules

namespace DesiredState

namespace Cursor

/-- Whether the last token was a type literal. -/
def afterType (c : Cursor) : Bool := c.consumed.head?.any (·.kind == .typeLiteral)

/-- Whether the value of a cast is read, if the tokens behind a bracket are looked at or not. -/
def castOpens (looks : Bool) (c : Cursor) : Bool :=
  c.afterType && if looks then c.castValueFollows else c.onLine && c.nextIs TokenKind.startsPrimary

/-- Whether the next token neither stands on the line of the last one nor touches it. -/
def apart (c : Cursor) : Bool := !c.onLine && !c.touching

/-- Whether a keyword follows, and behind it a token of some sort. -/
def heads (p : TokenKind → Bool) (c : Cursor) : Bool :=
  match c.rest with
  | first :: rest => first.kind.isKeyword && nextIs ⟨first :: c.consumed, rest⟩ p
  | [] => false

end Cursor

namespace Grammar

/-- The rules that forms come back to. -/
inductive Rule where
  | statement
  | value

/-- What is asked before something that may be missing. -/
inductive Gate where
  /-- Whether the next token is of some sort. -/
  | next (p : TokenKind → Bool)
  /-- Whether it also starts on the line on which the last one ended. -/
  | onLine (p : TokenKind → Bool)
  | access

/-- Whether what may be missing is there. -/
def Gate.opens : Gate → Cursor → Bool
  | next p, c => c.nextIs p
  | onLine p, c => c.onLine && c.nextIs p
  | access, c => c.accessFollows

/-- What a rule reads. -/
inductive Form where
  | nothing
  | reject
  /-- A token of some sort which is no bracket of a group. -/
  | token (p : TokenKind → Bool)
  /-- A group that is not looked into. -/
  | group
  /-- A bracket of some kind, what stands in it, and the bracket that closes it. -/
  | enclosed (opener : TokenKind) (inner : Form)
  | both (first second : Form)
  /-- One thing or another. -/
  | branch (gate : Gate) (yes no : Form)
  /-- Something as long as it is there. -/
  | loop (gate : Gate) (inner : Form)
  /-- The value of a cast, if it is there. -/
  | cast
  /-- A keyword and, if the token behind it is of some sort, what follows it.  If that is another
  token, the keyword is none. -/
  | headed (p : TokenKind → Bool) (inner : Form)
  | rule (r : Rule)

/-- What reading comes to. -/
inductive Outcome where
  | passed (c : Cursor)
  /-- It fails before these tokens. -/
  | failed (rest : List Token)

/-- The tokens that have not been read. -/
def Outcome.rest : Outcome → List Token
  | passed c => c.rest
  | failed rest => rest

/-! ### The forms of the rules

Each form has the name of its rule, takes its turns in the same order, and has nothing
of the nodes that the rule makes.  Where a rule goes through the level below, the form
refers to another rule.
-/

namespace Form

/-- A token of which it is known that it is there. -/
def any : Form := token fun _ => true

def ofKind (kind : TokenKind) : Form := token (· == kind)

def items (separates : TokenKind → Bool) : Form :=
  loop (.next fun kind => kind.startsStatement || separates kind)
    (branch (.next separates) any (rule .statement))

def body : Form := enclosed .braceOpen (items (· == .semicolon))

def array : Form :=
  enclosed .arrayOpen (items fun kind => kind == .semicolon || kind == .comma)

def entry : Form := both any (both (ofKind .equals) (rule .value))

def table : Form :=
  enclosed .tableOpen (loop (.next fun kind => kind.startsEntry || kind == .semicolon)
    (branch (.next (· == .semicolon)) any entry))

end Form

/-- Whether a kind is a value by itself. -/
def isSingle (kind : TokenKind) : Bool :=
  kind.isString || kind == .number || kind == .variableName || kind == .splat

namespace Form

def primary : Form :=
  branch (.next isSingle) any
    (branch (.next (· == .arrayOpen)) array
      (branch (.next (· == .tableOpen)) table group))

/-- An index in brackets. -/
def index : Form :=
  both any (both (loop (.next fun kind => kind.isContent && kind != .bracketClose) any)
    (ofKind .bracketClose))

def access : Form :=
  branch (.next fun kind => kind == .dot || kind == .doubleColon)
    (both any (token TokenKind.isName))
    (branch (.next (· == .bracketOpen)) index (branch (.next (· == .typeLiteral)) any group))

def accesses : Form := loop .access access

/-- Casts, what they are applied to and accesses. -/
def castOperand : Form :=
  both (both any (loop (.next (· == .typeLiteral)) any)) (both cast accesses)

def operand : Form :=
  both (branch (.next (· == .operator)) any nothing)
    (branch (.next (· == .typeLiteral)) castOperand (both primary accesses))

def binary : Form :=
  both operand
    (loop (.onLine fun kind => kind == .operator || kind == .parameter) (both any operand))

def expression : Form := both binary (loop (.next (· == .comma)) (both any binary))

def argument : Form :=
  branch (.next fun kind => kind == .parameter || kind == .comma) any
    (branch (.next (· == .bareword)) (both any accesses) operand)

def pipeTarget : Form :=
  both any (branch (.next (· == .bareword))
    (both any (loop (.onLine TokenKind.startsArgument) argument)) expression)

def pipes : Form := loop (.next (· == .pipe)) pipeTarget

/-- The sign of equality and a value. -/
def assigned : Form := both (ofKind .equals) (rule .value)

def expressionOrAssignment : Form := both expression (branch (.next (· == .equals)) assigned pipes)

/-- Arguments, a body and pipes. -/
def commandTail : Form :=
  both (loop (.onLine fun kind => kind != .braceOpen && kind.startsArgument) argument)
    (both (branch (.next (· == .braceOpen)) body nothing) pipes)

/-- A keyword is a key here, and any other word one before the sign of equality. -/
def wordStatement : Form :=
  branch (.next TokenKind.isKeyword) (both any assigned)
    (both any (branch (.next (· == .equals)) assigned commandTail))

def value : Form := branch (.next TokenKind.isName) wordStatement expressionOrAssignment

/-- A keyword with what belongs to it, or as a key. -/
def keyworded (p : TokenKind → Bool) (inner : Form) : Form :=
  headed (fun kind => p kind || kind == .equals) (branch (.next (· == .equals)) assigned inner)

/-- Whether a kind can be the name of a configuration. -/
def namesConfiguration (kind : TokenKind) : Bool := kind.isName || kind.isString

/-- Whether a kind can start the target of a node block. -/
def startsTarget (kind : TokenKind) : Bool := kind == .bareword || kind.startsOperand

/-- Whether a kind can start the group of parameters. -/
def startsParameters (kind : TokenKind) : Bool := kind == .parenOpen || kind == .subexpressionOpen

def target : Form := branch (.next (· == .bareword)) any operand

def statement : Form :=
  branch (.next (· == .configuration))
    (keyworded namesConfiguration (both (token namesConfiguration) body))
    (branch (.next (· == .node)) (keyworded startsTarget (both target body))
      (branch (.next (· == .param)) (keyworded startsParameters group)
        (branch (.next (· == .bareword)) wordStatement expressionOrAssignment)))

/-- Statements, and nothing behind them. -/
def script : Form := both (items (· == .semicolon)) (branch (.next fun _ => true) reject nothing)

end Form

/-- The form of a rule. -/
def Rule.form : Rule → Form
  | statement => .statement
  | value => .value

/-! ### Reading by a form

Reading passes to a cursor or fails before some tokens, and it is told step by step
which of the two.  As a relation it needs no bound on the levels.
-/

/-- A token of some sort. -/
def Outcome.ofToken (p : TokenKind → Bool) (c : Cursor) : Outcome :=
  match c.rest with
  | next :: rest =>
    if p next.kind && next.kind.isContent then .passed ⟨next :: c.consumed, rest⟩
    else .failed (next :: rest)
  | [] => .failed []

/-- Up to the brackets that close the open groups, of which the innermost comes first. -/
def Outcome.ofGroups : (closers : List TokenKind) → (consumed rest : List Token) → Outcome
  | [], consumed, rest => .passed ⟨consumed, rest⟩
  | _ :: _, _, [] => .failed []
  | closer :: outer, consumed, next :: rest =>
    match Nesting.push (closer :: outer) next.kind with
    | some stack => ofGroups stack (next :: consumed) rest
    | none => .failed (next :: rest)

/-- A bracketed group. -/
def Outcome.ofGroup (c : Cursor) : Outcome :=
  match c.rest with
  | next :: rest =>
    match next.kind.closer? with
    | some closer => ofGroups [closer] (next :: c.consumed) rest
    | none => .failed (next :: rest)
  | [] => .failed []

/-- The bracket that closes what has been read. -/
def Outcome.closing (closer : TokenKind) (c : Cursor) : Outcome :=
  match c.rest with
  | next :: rest =>
    if next.kind = closer then .passed ⟨next :: c.consumed, rest⟩ else .failed (next :: rest)
  | [] => .failed []

/-- What reading by a form comes to. -/
inductive Runs (looks : Bool) : Form → Cursor → Outcome → Prop
  | nothing (c : Cursor) : Runs looks .nothing c (.passed c)
  | reject (c : Cursor) : Runs looks .reject c (.failed c.rest)
  | token (p : TokenKind → Bool) (c : Cursor) : Runs looks (.token p) c (.ofToken p c)
  | group (c : Cursor) : Runs looks .group c (.ofGroup c)
  | enclosed {opener closer : TokenKind} {f : Form} {c c' : Cursor} {t : Token} {rest : List Token}
    (hc : c.rest = t :: rest) (ht : t.kind = opener) (hcloser : opener.closer? = some closer)
    (hf : Runs looks f ⟨t :: c.consumed, rest⟩ (.passed c')) :
    Runs looks (.enclosed opener f) c (.closing closer c')
  | enclosed_failed {opener closer : TokenKind} {f : Form} {c : Cursor} {t : Token}
    {rest rest' : List Token} (hc : c.rest = t :: rest) (ht : t.kind = opener)
    (hcloser : opener.closer? = some closer)
    (hf : Runs looks f ⟨t :: c.consumed, rest⟩ (.failed rest')) :
    Runs looks (.enclosed opener f) c (.failed rest')
  | enclosed_missing {opener : TokenKind} {f : Form} {c : Cursor} (h : c.nextIs (· == opener) = false) :
    Runs looks (.enclosed opener f) c (.failed c.rest)
  | both {f g : Form} {c c' : Cursor} {o : Outcome} (hf : Runs looks f c (.passed c'))
    (hg : Runs looks g c' o) : Runs looks (.both f g) c o
  | both_failed {f g : Form} {c : Cursor} {rest : List Token} (hf : Runs looks f c (.failed rest)) :
    Runs looks (.both f g) c (.failed rest)
  | yes {gate : Gate} {f g : Form} {c : Cursor} {o : Outcome} (h : gate.opens c = true)
    (hf : Runs looks f c o) : Runs looks (.branch gate f g) c o
  | no {gate : Gate} {f g : Form} {c : Cursor} {o : Outcome} (h : gate.opens c = false)
    (hg : Runs looks g c o) : Runs looks (.branch gate f g) c o
  | loop {gate : Gate} {f : Form} {c : Cursor} {o : Outcome}
    (h : Runs looks (.branch gate (.both f (.loop gate f)) .nothing) c o) :
    Runs looks (.loop gate f) c o
  | cast {c : Cursor} {o : Outcome} (h : c.castOpens looks = true) (hf : Runs looks .primary c o) :
    Runs looks .cast c o
  | cast_missing {c : Cursor} (h : c.castOpens looks = false) : Runs looks .cast c (.passed c)
  | headed {p : TokenKind → Bool} {f : Form} {c : Cursor} {o : Outcome} {t : Token}
    {rest : List Token} (h : c.heads p = true) (hc : c.rest = t :: rest)
    (hf : Runs looks f ⟨t :: c.consumed, rest⟩ o) : Runs looks (.headed p f) c o
  | headed_missing {p : TokenKind → Bool} {f : Form} {c : Cursor} (h : c.heads p = false) :
    Runs looks (.headed p f) c (.failed c.rest)
  | rule {r : Rule} {c : Cursor} {o : Outcome} (h : Runs looks r.form c o) :
    Runs looks (.rule r) c o

/-! ### What a form takes -/

/-- Whether a form takes a token in any case. -/
def Form.takes : Form → Bool
  | nothing | loop .. | cast => false
  | reject | token _ | group | enclosed .. | headed .. | rule _ => true
  | both f g => f.takes || g.takes
  | branch _ f g => f.takes && g.takes

/-- Whether only what takes a token is asked for.  So a form comes to an end, and what it has asked
about a token that it leaves is known. -/
def Form.sound : Form → Bool
  | nothing | reject | token _ | group | cast | rule _ => true
  | enclosed _ f => f.sound
  | both f g => f.sound && g.sound
  | branch _ f g => f.takes && f.sound && g.sound
  | loop _ f | headed _ f => f.takes && f.sound

theorem Rule.takes_form (r : Rule) : r.form.takes = true := by cases r <;> rfl

theorem Rule.sound_form (r : Rule) : r.form.sound = true := by cases r <;> rfl

theorem Form.sound_primary : Form.primary.sound = true := rfl

theorem Form.sound_operand : Form.operand.sound = true := rfl

theorem Form.sound_script : Form.script.sound = true := rfl

end Grammar

end DesiredState
