/-
Catalogs by name.

To be found without a search, the resources of a catalog are kept under the names that
they answer to, in lower case.  A resource with a friendly name stands under both of its
names, but only once where the two differ in letter case alone.
-/
import DesiredState.Catalog.Lookup
import DesiredState.Fields

namespace DesiredState

/-- The names that a resource answers to, in lower case. -/
def ResourceDecl.keys (r : ResourceDecl) : List Text :=
  Text.lower r.name ::
    match r.friendlyName with
    | none | some [] => []
    | some friendly =>
      if Text.lower friendly = Text.lower r.name then [] else [Text.lower friendly]

/-- The resources of a catalog under their names, in the order of the catalog. -/
abbrev Catalog.Index := Fields (List ResourceDecl)

namespace Catalog.Index

/-- The resources under a name. -/
def under (index : Index) (key : Text) : List ResourceDecl := (index.get? key).getD []

/-- Puts a resource behind those that are there under a name. -/
def add (r : ResourceDecl) (index : Index) (key : Text) : Index :=
  index.set key (index.under key ++ [r])

/-- The index of a catalog. -/
def ofCatalog (catalog : Catalog) : Index :=
  catalog.foldl (fun index r => r.keys.foldl (add r) index) []

/-- The resource with a name among those in scope. -/
def find? (index : Index) (name : Text) (scope : ImportScope) : Option ResourceDecl :=
  ResourceDecl.newest? ((index.under (Text.lower name)).filter scope.admits)

end Catalog.Index

end DesiredState
