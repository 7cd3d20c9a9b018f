import DesiredState.Text.Basic
import DesiredState.Text.Case
import DesiredState.Text.Blank
import DesiredState.Text.Order
import DesiredState.Text.Quoted
import DesiredState.Text.RegularExpression
import DesiredState.Text.Wildcard
import DesiredState.Fields
import DesiredState.Source
import DesiredState.Number.Binary64
import DesiredState.Number.Decimal
import DesiredState.Json
import DesiredState.Json.Reader
import DesiredState.Json.Display
import DesiredState.Token
import DesiredState.Token.Pattern
import DesiredState.Token.Scan
import DesiredState.Script.Tree
import DesiredState.Script.Literal
import DesiredState.Script.Cursor
import DesiredState.Script.Role
import DesiredState.Script.Grammar
import DesiredState.Script.Parse
import DesiredState.Catalog
import DesiredState.Catalog.Version
import DesiredState.Catalog.ImportScope
import DesiredState.Catalog.Reader
import DesiredState.Catalog.Lookup
import DesiredState.Catalog.Index
import DesiredState.Schema.DeclaredType
import DesiredState.Schema
import DesiredState.Schema.Memo
import DesiredState.Schema.Question
import DesiredState.Value
import DesiredState.Value.Coercion
import DesiredState.Value.Binding
import DesiredState.Value.Record
import DesiredState.Value.Encoded
import DesiredState.Value.Metadata
import DesiredState.Diagnostic
import DesiredState.Session
import DesiredState.Render.Failure
import DesiredState.Render.Level
import DesiredState.Render.Scalar
import DesiredState.Render.Entries
import DesiredState.Configuration.Imports
import DesiredState.Configuration.Build
import DesiredState.Configuration.Comments
import DesiredState.Configuration.Exchange
import DesiredState.Proofs.Position
import DesiredState.Proofs.Token.Progress
import DesiredState.Proofs.Token.FirstCharacter
import DesiredState.Proofs.Token.Spelling
import DesiredState.Proofs.Token.Recognition
import DesiredState.Proofs.Token.Locality
import DesiredState.Proofs.Token.Relocation
import DesiredState.Proofs.Script.Parts
import DesiredState.Proofs.Script.Nesting
import DesiredState.Proofs.Script.Passage
import DesiredState.Proofs.Script.Constructs
import DesiredState.Proofs.Script.Blocks
import DesiredState.Proofs.Sorting
import DesiredState.Proofs.Layout
import DesiredState.Proofs.Layout.Spelled
import DesiredState.Proofs.Layout.Rendered
import DesiredState.Proofs.Layout.Parsed
import DesiredState.Proofs.Layout.Document
import DesiredState.Proofs.Number
import DesiredState.Proofs.Binding
import DesiredState.Proofs.Building
import DesiredState.Proofs.RoundTrip
import DesiredState.Proofs.Stream
import DesiredState.Proofs.Layout.Commented
import DesiredState.Proofs.RoundTrip.Comments
import DesiredState.Proofs.Script.Relabelling
import DesiredState.Proofs.Script.Parallel
import DesiredState.Proofs.Script.Transfer
import DesiredState.Proofs.Script.Heads
import DesiredState.Proofs.Catalog
import DesiredState.Proofs.Rendering
import DesiredState.Proofs.Conversion.Values
import DesiredState.Proofs.Conversion
import DesiredState.Proofs.Places
import DesiredState.Proofs.Token.Endings
import DesiredState.Proofs.Token.Concatenation
import DesiredState.Proofs.Script.Sequence
import DesiredState.Proofs.Script.Inset
import DesiredState.Proofs.Script.Concatenation
import DesiredState.Proofs.Token.Gap
import DesiredState.Proofs.Script.Continuation
import DesiredState.Proofs.Building.Relabelled
import DesiredState.Proofs.Script.Sections
import DesiredState.Proofs.Script.Stretch
import DesiredState.Proofs.Script.Window
import DesiredState.Proofs.Settling
import DesiredState.Proofs.Building.Outcome
import DesiredState.Proofs.Building.Strict
import DesiredState.Proofs.Building.Contribution
import DesiredState.Proofs.Conversion.Projection
import DesiredState.Proofs.Conversion.Outside
import DesiredState.Proofs.Script.Entries
import DesiredState.Proofs.RoundTrip.Verbatim
import DesiredState.Proofs.RoundTrip.Unquoted
import DesiredState.Proofs.LetterCase
import DesiredState.Proofs.LetterCase.Scanning
import DesiredState.Proofs.LetterCase.Tree
import DesiredState.Proofs.Token.Coverage
import DesiredState.Proofs.Script.Derivation
import DesiredState.Proofs.Script.Derivation.Rules
import DesiredState.Proofs.Script.Nodes
import DesiredState.Proofs.Script.Extents
import DesiredState.Proofs.Script.Marks
import DesiredState.Proofs.Script.Roles
import DesiredState.Proofs.Script.Uncommented
import DesiredState.Proofs.LetterCase.Parsing
import DesiredState.Proofs.LetterCase.Names
import DesiredState.Proofs.LetterCase.Binding
import DesiredState.Proofs.LetterCase.Conversion
import DesiredState.Proofs.Schema.Remembering
import DesiredState.Proofs.Catalog.Order
import DesiredState.Proofs.Catalog.Index
import DesiredState.Proofs.Token.Excerpt
import DesiredState.Proofs.Script.Names
import DesiredState.Proofs.Script.Rows
import DesiredState.Proofs.Conversion.Ownership
import DesiredState.Proofs.Token.Strings
import DesiredState.Proofs.Script.Brackets
import DesiredState.Proofs.RoundTrip.Annotations
import DesiredState.Proofs.Token.References
import DesiredState.Proofs.Script.References
import DesiredState.Proofs.RoundTrip.InstanceNames
import DesiredState.Proofs.Value.Literals
import DesiredState.Proofs.Value.RepeatedKeys
import DesiredState.Proofs.Script.Form
import DesiredState.Proofs.Script.Form.Reading
import DesiredState.Proofs.Script.Form.Casts
import DesiredState.Proofs.Script.Form.Completion
import DesiredState.Proofs.Script.Form.Follows
import DesiredState.Proofs.Script.Form.Rules
import DesiredState.Proofs.Token.Cut
import DesiredState.Proofs.Script.FirstError
import DesiredState.Proofs.Script.Form.Operand
import DesiredState.Proofs.Token.Signs
import DesiredState.Proofs.Script.Operation
import DesiredState.Proofs.Value.Arrays
import DesiredState.Proofs.Sorting.KeyOrder
import DesiredState.Proofs.Rendering.Parts
import DesiredState.Proofs.Rendering.Reordering
import DesiredState.Proofs.Rendering.Lined
import DesiredState.Proofs.Rendering.Indentation
import DesiredState.Proofs.Rendering.Shifting
import DesiredState.Proofs.Number.Rounding
import DesiredState.Proofs.Number.Images
import DesiredState.Proofs.Value.Integers
import DesiredState.Proofs.Catalog.Scope
import DesiredState.Proofs.Rendering.Visits
import DesiredState.Proofs.Rendering.Faults
import DesiredState.Proofs.Script.Arguments
import DesiredState.Proofs.RoundTrip.Imports
import DesiredState.Proofs.Ranges
import DesiredState.Proofs.Script.Excerpts
import DesiredState.Proofs.Conversion.Diagnostics
import DesiredState.Proofs.Conversion.Attachment
import DesiredState.Proofs.Wildcard
import DesiredState.Proofs.Catalog.Listing
import DesiredState.Proofs.Catalog.Validation
import DesiredState.Proofs.Script.Folding
