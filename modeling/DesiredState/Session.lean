/-
The course of one conversion.

A session holds the schemas looked up and the events so far.  Everything that is reported of a
conversion is read off its events: the diagnostics, the steps of its progress, and the
lines of its log.
-/
import DesiredState.Diagnostic
import DesiredState.Schema.Memo

namespace DesiredState

/-- Something that happened in the course of a conversion. -/
inductive Event where
  | diagnosed (diagnostic : Diagnostic)
  /-- Only the first of so many node blocks is read. -/
  | severalNodes (count : Nat)
  /-- An instance has been read. -/
  | readInstance (resourceName instanceName : Text) (properties : Nat)
  /-- So many statements have been dealt with. -/
  | processed (count total : Nat)
  deriving DecidableEq, Repr

/-- How a line of a log is meant. -/
inductive LogLevel where
  | debug
  | warn
  deriving DecidableEq, Repr

/-- The name of a log level. -/
def LogLevel.name : LogLevel → Text
  | debug => "debug"
  | warn => "warn"

namespace Event

/-- The diagnostic of an event. -/
def diagnostic? : Event → Option Diagnostic
  | diagnosed d => some d
  | _ => none

/-- The step of progress that an event is. -/
def progress? : Event → Option (Nat × Nat)
  | processed count total => some (count, total)
  | _ => none

/-- What an event says in a log. -/
def text : Event → Text
  | diagnosed d => d.kindName ++ ": " ++ d.message
  | severalNodes count => Text.ofNat count ++ " Node blocks found; only the first is read"
  | readInstance resourceName instanceName properties =>
    "resource " ++ resourceName ++ " \"" ++ instanceName ++ "\": " ++ Text.ofNat properties ++
      " properties"
  | processed count total =>
    "processed statement " ++ Text.ofNat count ++ " of " ++ Text.ofNat total

/-- The line of an event in a log. -/
def logLine (e : Event) : LogLevel × Text :=
  (if e.diagnostic?.isSome then .warn else .debug, "[dsc-tree] " ++ e.text)

end Event

/-- The state of a conversion. -/
structure Session where
  memo : Schema.Memo
  /-- What has happened, in order. -/
  events : List Event

namespace Session

/-- A session in which nothing has happened. -/
def new (memo : Schema.Memo) : Session := ⟨memo, []⟩

/-- The diagnostics so far. -/
def diagnostics (s : Session) : List Diagnostic := s.events.filterMap Event.diagnostic?

/-- The steps of progress so far. -/
def progress (s : Session) : List (Nat × Nat) := s.events.filterMap Event.progress?

/-- The lines of the log so far. -/
def log (s : Session) : List (LogLevel × Text) := s.events.map Event.logLine

end Session

/-- Work in a session. -/
abbrev Interpreting := StateM Session

namespace Interpreting

/-- Notes an event. -/
def note (e : Event) : Interpreting Unit := modify fun s => { s with events := s.events ++ [e] }

/-- Notes a diagnostic about an extent of the source, if one is given. -/
def report (cause : Diagnostic.Cause) (subject : Subject) (extent : Option Extent) :
    Interpreting Unit :=
  note (.diagnosed ⟨cause, subject, extent.map (·.range)⟩)

/-- The schema of a resource. -/
def resolve (name : Text) : Interpreting (Option Schema.Resource) := fun s =>
  let (schema, memo) := s.memo.resolve name
  (schema, { s with memo })

/-- The schema of a class that belongs to a resource. -/
def resolveClass (owner typeName : Text) : Interpreting (Option Schema.Class) := fun s =>
  let (schema, memo) := s.memo.resolveClass owner typeName
  (schema, { s with memo })

end Interpreting

end DesiredState
