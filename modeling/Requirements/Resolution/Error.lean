import Requirements.Ecosystem
import Requirements.Registry.Error
import Requirements.Specifier.Error

/-!
# Resolution errors

Why a list of specifiers has no resolution.
-/

namespace Requirements

inductive ResolutionError where
  | specifier (error : SpecifierError)
  | duplicate (package : String)
  /-- There are no releases of a package; the registry may have said why. -/
  | unresolved (package : String) (reason : Option RegistryError)
  | unknownEcosystem (error : UnknownEcosystem)
  deriving DecidableEq, Repr

namespace ResolutionError

/-- The text of a failure, without the reason behind it. -/
def message : ResolutionError → String
  | .specifier error => error.message
  | .duplicate package => s!"duplicate dependency '{package}': declared more than once"
  | .unresolved package _ => s!"no releases found for package '{package}'"
  | .unknownEcosystem error => error.message

def reason? : ResolutionError → Option RegistryError
  | .unresolved _ reason => reason
  | _ => none

end ResolutionError

end Requirements
