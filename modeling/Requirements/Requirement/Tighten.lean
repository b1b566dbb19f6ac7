import Requirements.Requirement
import Requirements.Version.Sort

/-!
# Tightened requirements

Tightening keeps, per package and operator, the highest lower bound, the lowest
upper bound and every distinct version that is pinned or excluded. Alternatives
are not kept apart: the terms of all branches end up in one branch, so the
result may accept less than its input and never accepts more.
-/

namespace Requirements

namespace Requirement

/-- The versions that an operator keeps out of those it is applied to. -/
def tightest (op : Operator) (vs : List Version) : List Version :=
  if op.isLowerBound then (Version.highest? vs).toList
  else if op.isUpperBound then (Version.lowest? vs).toList
  else Version.distinct (Version.sort vs)

/-- The versions that occur with an operator, in order. -/
def versionsOf (op : Operator) (ts : List Term) : List Version :=
  (ts.filter (·.op = op)).map (·.version)

/-- The terms kept of a conjunction, in operator order. -/
def tightenTerms (ts : List Term) : List Term :=
  Operator.all.flatMap fun op => (tightest op (versionsOf op ts)).map (Term.mk op)

def termsOn (name : String) (rs : List Requirement) : List Term :=
  (rs.filter (·.name = name)).flatMap terms

/-- The names of packages in the order in which they first appear. -/
def names (rs : List Requirement) : List String :=
  (rs.map (·.name)).eraseDups

/-- One requirement per package with the tightened terms of all its branches.
Without any term it stays a requirement that nothing meets. -/
def tighten (rs : List Requirement) : List Requirement :=
  (names rs).map fun name =>
    match tightenTerms (termsOn name rs) with
    | [] => ⟨name, []⟩
    | ts => ⟨name, [.ofTerms ts]⟩

end Requirement

end Requirements
