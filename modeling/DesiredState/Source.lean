/-
Places in a source text.

A place is a line and a column, both from one, or an offset from zero; columns and
offsets count 16-bit units.  Reading moves a `Position` forward over what it reads,
and there a lone carriage return ends a line as a line feed does.  Going back from
a line and column to an offset, `offsetIn` looks for line feeds only, so the two
agree on texts in which every carriage return is followed by a line feed.
-/
import DesiredState.Text.Basic

namespace DesiredState

/-- A line and a column, both from one. -/
structure Location where
  /-- The line, from one. -/
  line : Nat
  /-- The column, from one. -/
  column : Nat
  deriving DecidableEq, Repr

/-- A place in a source text. -/
structure Position extends Location where
  /-- The number of units before the place. -/
  offset : Nat
  deriving DecidableEq, Repr

namespace Position

/-- Where a text starts. -/
def start : Position := ⟨⟨1, 1⟩, 0⟩

/-- The place after a line break of `n` units. -/
def newLine (p : Position) (n : Nat) : Position := ⟨⟨p.line + 1, 1⟩, p.offset + n⟩

/-- The place reached by reading a text: a line feed, a carriage return or the two together
end a line. -/
def advance (p : Position) : Text → Position
  | [] => p
  | '\r' :: '\n' :: rest => (p.newLine 2).advance rest
  | '\r' :: rest => (p.newLine 1).advance rest
  | '\n' :: rest => (p.newLine 1).advance rest
  | c :: rest =>
    Position.advance ⟨⟨p.line, p.column + Text.width c⟩, p.offset + Text.width c⟩ rest

end Position

/-- The offset at which a line starts, so many line feeds further on.  `offset` is where `source`
starts and `line` where its line does, which is the answer once no line feed is left. -/
def lineOffset : (lineFeeds offset line : Nat) → (source : Text) → Nat
  | _, _, line, [] => line
  | lineFeeds, offset, line, c :: rest =>
    if lineFeeds = 0 then line
    else if c = '\n' then lineOffset (lineFeeds - 1) (offset + 1) (offset + 1) rest
    else lineOffset lineFeeds (offset + Text.width c) line rest

/-- The offset of a line and column. -/
def Location.offsetIn (source : Text) (location : Location) : Nat :=
  lineOffset (location.line - 1) 0 0 source + location.column - 1

/-- Where a text ends, lines being broken at line feeds with or without a carriage return. -/
def Location.endOf (source : Text) : Location :=
  let lines := source.lines
  ⟨lines.length, (lines.getLast?.getD []).size + 1⟩

/-- A stretch of one line, in lines and characters from zero. -/
structure Range where
  /-- The line it starts on. -/
  startLine : Nat
  /-- The character it starts at. -/
  startCharacter : Nat
  /-- The line it ends on. -/
  endLine : Nat
  /-- The character after its last. -/
  endCharacter : Nat
  deriving DecidableEq, Repr

/-- The stretch of source that a piece of the script was read from. -/
structure Extent where
  /-- The source text itself. -/
  text : Text
  /-- Where it starts. -/
  location : Location
  deriving DecidableEq, Repr

/-- The first line of an extent. -/
def Extent.range (e : Extent) : Range :=
  { startLine := e.location.line - 1
    startCharacter := e.location.column - 1
    endLine := e.location.line - 1
    endCharacter := e.location.column - 1 + e.text.firstLine.size }

end DesiredState
