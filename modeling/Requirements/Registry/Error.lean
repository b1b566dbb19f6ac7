import Requirements.Text.Blank

/-!
# Registry errors

Why a registry gives no releases for a package.
-/

namespace Requirements

/-- The failure of a request for the releases of a package. -/
inductive RegistryError where
  | notFound (package registry : String)
  | invalidName (name registry reason : String)
  | network (package registry detail : String)
  | rateLimited (registry : String)
  | invalidResponse (package registry detail : String)
  | timedOut (package registry : String)
  deriving DecidableEq, Repr

namespace RegistryError

def message : RegistryError → String
  | .notFound package registry => s!"package '{package}' not found in {registry} registry"
  | .invalidName name registry reason => s!"invalid package name '{name}' for {registry}: {reason}"
  | .network package registry detail =>
      s!"failed to fetch package '{package}' from {registry}: {detail}"
  | .rateLimited registry => s!"rate limit exceeded for {registry} registry"
  | .invalidResponse package registry detail =>
      s!"invalid response from {registry} for '{package}': {detail}"
  | .timedOut package registry => s!"timeout while fetching '{package}' from {registry}"

def isNotFound : RegistryError → Bool
  | .notFound .. => true
  | _ => false

/-- The refusal of a name that is white space only. -/
def blankName (name registry : String) : RegistryError :=
  .invalidName name registry "package name must not be blank"

end RegistryError

/-- The releases of a package under the name that the registry gives it. -/
structure ReleaseSet where
  name : String
  releases : List String
  deriving DecidableEq, Repr

/-- What a registry says when asked for a package. -/
abbrev Answer := Except RegistryError ReleaseSet

/-- White space around a name and the case of its ASCII letters do not matter to
most registries, nor do they tell underscores and points from hyphens. -/
def normalizeName (name : String) : String :=
  String.ofList ((Text.trim name.toList).map fun c =>
    if c == '_' || c == '.' then '-' else c.toLower)

end Requirements
