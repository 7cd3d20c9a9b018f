/-
Attaching comments to properties.

A comment belongs to the property whose key stands last before it, within the block of
the resource whose head stands last before it; a comment between the head and the first
key belongs to nothing.  Only comments after the first node keyword count.  Attached, a
comment is a string among the properties of its instance, and of several comments on
one property the last one stays.
-/
import DesiredState.Script.Literal
import DesiredState.Script.Role
import DesiredState.Text.Case
import DesiredState.Value
import DesiredState.Value.Metadata

namespace DesiredState

/-- A comment and the property that it belongs to. -/
structure PropertyComment where
  resourceName : Text
  instanceName : Text
  propertyName : Text
  comment : Text
  deriving DecidableEq, Repr

/-- The head of a block as it is written. -/
structure BlockHead where
  resourceName : Text
  instanceName : Text
  deriving DecidableEq, Repr

namespace PropertyComment

/-- Whether a token is the node keyword. -/
def isNodeKeyword (t : ClassifiedToken) : Bool :=
  t.role == .keyword && Text.lower t.text == "node".toList

/-- The tokens after the first node keyword, or all of them if there is none. -/
def fromNode (tokens : List ClassifiedToken) : List ClassifiedToken :=
  match tokens.dropWhile fun t => !isNodeKeyword t with
  | [] => tokens
  | _ :: after => after

/-- The text of tokens up to an opening brace, with the gaps between them as spaces; `stop` is
where the last token ended. -/
def textToBrace (stop : Option Nat) : List ClassifiedToken → Text
  | [] => []
  | t :: rest =>
    if t.role = .comment then textToBrace stop rest
    else if t.text = ['\x7b'] then []
    else
      let gap := (stop.map fun offset => t.start.offset - offset).getD 0
      Text.spaces gap ++ t.text ++ textToBrace (some (t.start.offset + t.text.size)) rest

/-- The instance name in the tokens after the word at the head of a block. -/
def nameIn (tokens : List ClassifiedToken) : Text :=
  let written := textToBrace none tokens
  (Literal.string? written).getD written

/-- The comments on properties among tokens, after a head and a key. -/
def scan : (head : Option BlockHead) → (key : Option Text) → List ClassifiedToken →
    List PropertyComment
  | _, _, [] => []
  | head, key, t :: rest =>
    match t.role with
    | .dynamicKeyword => scan (some ⟨t.text, nameIn rest⟩) none rest
    | .identifier => scan head (some t.text) rest
    | .comment =>
      match head, key with
      | some head, some key =>
        ⟨head.resourceName, head.instanceName, key, t.text⟩ :: scan (some head) (some key) rest
      | head, key => scan head key rest
    | _ => scan head key rest

/-- The comments on properties in a token stream. -/
def ofTokens (tokens : List ClassifiedToken) : List PropertyComment :=
  scan none none (fromNode tokens)

/-- Whether a comment belongs to a property of an instance. -/
def isOf (c : PropertyComment) (i : Instance) : Bool :=
  Text.sameName i.resourceName c.resourceName && Text.sameName i.instanceName c.instanceName

/-- The key of the property that a comment belongs to. -/
def key? (c : PropertyComment) (i : Instance) : Option Text :=
  i.properties.names.find? fun key =>
    !isMetadataKey key && Text.sameName key c.propertyName

/-- The instance with a comment on one of its properties. -/
def addTo (c : PropertyComment) (i : Instance) : Instance :=
  match c.key? i with
  | none | some [] => i
  | some key => { i with properties := i.properties.set (metadataKey key) (.string c.comment) }

/-- The instances with a comment on a property of the first one that it is of. -/
def apply (c : PropertyComment) : List Instance → List Instance
  | [] => []
  | i :: rest => if c.isOf i then c.addTo i :: rest else i :: c.apply rest

end PropertyComment

/-- The instances with the comments of a token stream. -/
def attachComments (tokens : List ClassifiedToken) (instances : List Instance) : List Instance :=
  (PropertyComment.ofTokens tokens).foldl (fun instances c => c.apply instances) instances

end DesiredState
