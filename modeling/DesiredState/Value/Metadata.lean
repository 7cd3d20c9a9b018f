/-
Keys of comments.

The comment on a property is kept beside it, as a string under the key of the property
with a mark before it.
-/
import DesiredState.Text.Basic

namespace DesiredState

/-- What the keys of comments start with. -/
def metadataMark : Text := "_metadata_"

/-- The key of the comment on a property. -/
def metadataKey (key : Text) : Text := metadataMark ++ key

/-- Whether a key is one of a comment. -/
def isMetadataKey (key : Text) : Bool := Text.startsWith key metadataMark

theorem isMetadataKey_metadataKey (key : Text) : isMetadataKey (metadataKey key) := by
  simp [isMetadataKey, metadataKey, Text.startsWith]

end DesiredState
