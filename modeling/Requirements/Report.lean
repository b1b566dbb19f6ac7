import Requirements.Ecosystem
import Requirements.Resolution

/-!
# Reports

What a run found out, before it is printed as text or as JSON.
-/

namespace Requirements

inductive Finding where
  /-- The releases picked for each package. -/
  | resolved (resolution : Resolution)
  /-- The tightened constraint of each package. -/
  | restricted (constraints : Table String)
  deriving DecidableEq

/-- The finding of a run and where it comes from. -/
structure Report where
  ecosystem : Ecosystem
  /-- The registry or the index file. -/
  source : String
  finding : Finding
  deriving DecidableEq

inductive Verbosity where
  /-- One line for each package. -/
  | quiet
  | normal
  /-- Also why packages were skipped. -/
  | verbose
  deriving DecidableEq, Repr

end Requirements
