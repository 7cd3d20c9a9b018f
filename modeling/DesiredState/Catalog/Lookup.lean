/-
Finding resources in a catalog.

A resource answers to its name and to its friendly name, in any letter case.  Of
several that are in scope, the one with the highest version is found, and of those the
first.  Listing goes by wildcard patterns and leaves out the classes of the
infrastructure.
-/
import DesiredState.Catalog.ImportScope
import DesiredState.Text.Wildcard

namespace DesiredState

namespace ResourceDecl

/-- Whether a resource answers to a name. -/
def answersTo (r : ResourceDecl) (name : Text) : Bool :=
  Text.sameName r.name name ||
    match r.friendlyName with
    | none | some [] => false
    | some friendly => Text.sameName friendly name

/-- The version of a resource's module, which is `0` when nothing is said of it. -/
def version (r : ResourceDecl) : Text := r.moduleVersion.getD "0"

/-- The classes of the infrastructure, which are no resources. -/
def infrastructure : List String := [
  "OMI_BaseResource", "MSFT_KeyValuePair", "MSFT_BaseConfigurationProviderRegistration",
  "MSFT_CimConfigurationProviderRegistration", "MSFT_PSConfigurationProviderRegistration",
  "OMI_ConfigurationDocument", "MSFT_Credential", "MSFT_DSCMetaConfiguration",
  "OMI_ConfigurationDownloadManager", "OMI_ResourceModuleManager", "OMI_ReportManager",
  "MSFT_FileDownloadManager", "MSFT_WebDownloadManager", "MSFT_FileResourceManager",
  "MSFT_WebResourceManager", "MSFT_WebReportManager", "OMI_MetaConfigurationResource",
  "MSFT_PartialConfiguration", "MSFT_DSCMetaConfigurationV2"]

/-- Whether a name is one of a class of the infrastructure. -/
def isHidden (name : Text) : Bool :=
  infrastructure.any fun hidden => Text.sameName hidden.toList name

/-- Whether a name of a resource matches a pattern. -/
def hasMatch (r : ResourceDecl) (pattern : Text) : Bool :=
  Wildcard.isMatch pattern r.name || r.friendlyName.any (Wildcard.isMatch pattern)

/-- The one of two resources that has the higher version, or else the first. -/
def newer (best other : ResourceDecl) : ResourceDecl :=
  if Version.compare other.version best.version = .gt then other else best

/-- The first of the resources with the highest version. -/
def newest? : List ResourceDecl → Option ResourceDecl
  | [] => none
  | first :: rest => some (rest.foldl newer first)

end ResourceDecl

namespace Catalog

/-- The resource with a name among those in scope. -/
def find? (catalog : Catalog) (name : Text) (scope : ImportScope) : Option ResourceDecl :=
  ResourceDecl.newest? (catalog.filter fun r => r.answersTo name && scope.admits r)

/-- The resources in scope of which a name matches one of the patterns. -/
def list (catalog : Catalog) (patterns : List Text) (scope : ImportScope) :
    List ResourceDecl :=
  catalog.filter fun r =>
    !ResourceDecl.isHidden r.name && scope.admits r && patterns.any r.hasMatch

end Catalog

end DesiredState
