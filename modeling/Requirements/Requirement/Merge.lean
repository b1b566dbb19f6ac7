import Requirements.Requirement

/-!
# One requirement per package

Requirements on the same package hold together. Their conjunction is again a
choice of branches: one branch for each way to take a branch from either side.
-/

namespace Requirements

namespace Branch

/-- The branches that take one from each side, the left side varying slowest. -/
def conjoin (ls rs : List Branch) : List Branch :=
  ls.flatMap fun l => rs.map fun r => ofTerms (l.terms ++ r.terms)

end Branch

namespace Requirement

/-- Join a requirement to the earlier one on its package, or append it. -/
def mergeInto (r : Requirement) : List Requirement → List Requirement
  | [] => [r]
  | m :: ms =>
      if m.name = r.name then { m with branches := Branch.conjoin m.branches r.branches } :: ms
      else m :: mergeInto r ms

/-- One requirement per package, in the order in which packages first appear. -/
def merge (rs : List Requirement) : List Requirement :=
  rs.foldl (fun ms r => mergeInto r ms) []

end Requirement

end Requirements
