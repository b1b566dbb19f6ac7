import Requirements.Table
import Requirements.Version

/-!
# Resolutions

A resolution says for each package which releases meet its requirement, and
lists the packages that were skipped, each with the reason.
-/

namespace Requirements

inductive Picked where
  /-- The highest release that meets the requirement. -/
  | latest (version : Version)
  /-- Every release that meets the requirement, in ascending order. -/
  | every (versions : List Version)
  /-- No release meets the requirement. -/
  | unmatched
  deriving DecidableEq, Repr

namespace Picked

/-- What is picked of the matching releases, which come in ascending order. -/
def ofSorted (allVersions : Bool) (vs : List Version) : Picked :=
  match vs.getLast? with
  | none => .unmatched
  | some v => if allVersions then .every vs else .latest v

def versions : Picked → List Version
  | .latest v => [v]
  | .every vs => vs
  | .unmatched => []

def version? (p : Picked) : Option Version :=
  p.versions.getLast?

/-- Whether the package has a match; an explicit list counts, even an empty one. -/
def isMatched : Picked → Bool
  | .unmatched => false
  | _ => true

end Picked

/-- A package left out of a resolution. -/
structure Skipped where
  name : String
  reason : String
  deriving DecidableEq, Repr

structure Resolution where
  entries : Table Picked
  skipped : List Skipped
  deriving DecidableEq

namespace Resolution

def empty : Resolution :=
  ⟨.empty, []⟩

def matchedCount (r : Resolution) : Nat :=
  r.entries.values.countP (·.isMatched)

end Resolution

end Requirements
