import Requirements.Operator

/-!
# Requirements

A requirement on a package is a choice between branches, and a branch is a
conjunction of terms. `>=1.0.0 <2.0.0 || >=3.0.0` has two branches: the first
holds two terms, the second holds one. What a requirement means is the set of
versions that `Requirement.accepts`.
-/

namespace Requirements

/-- One comparison that a version has to pass. -/
structure Term where
  op : Operator
  version : Version
  deriving DecidableEq, Repr

namespace Term

/-- The lowest version that any-version terms name. -/
def lowestVersion : Version :=
  "0.0.0"

/-- Only versions that rank equal to `v`. -/
def exact (v : Version) : Term :=
  ⟨.equal, v⟩

/-- The term written for a package without a constraint. -/
def any : Term :=
  ⟨.atLeast, lowestVersion⟩

def accepts (t : Term) (v : Version) : Bool :=
  t.op.accepts (v.compare t.version)

def text (t : Term) : String :=
  t.op.symbol ++ t.version

end Term

/-- One alternative of a requirement. -/
inductive Branch where
  /-- One term. -/
  | single (term : Term)
  /-- Terms that have to hold together. -/
  | all (terms : List Term)
  deriving DecidableEq, Repr

namespace Branch

/-- The branch of a list of terms; one term alone is `single`. -/
def ofTerms : List Term → Branch
  | [t] => .single t
  | ts => .all ts

def terms : Branch → List Term
  | .single t => [t]
  | .all ts => ts

def accepts (b : Branch) (v : Version) : Bool :=
  b.terms.all (·.accepts v)

@[simp] theorem terms_ofTerms (ts : List Term) : (ofTerms ts).terms = ts := by
  unfold ofTerms
  split <;> rfl

end Branch

/-- What is asked of one package. -/
structure Requirement where
  name : String
  branches : List Branch
  deriving DecidableEq, Repr

namespace Requirement

def ofTerm (name : String) (t : Term) : Requirement :=
  ⟨name, [.single t]⟩

/-- The requirement written for a package without a constraint. -/
def anyVersion (name : String) : Requirement :=
  ofTerm name .any

def accepts (r : Requirement) (v : Version) : Bool :=
  r.branches.any (·.accepts v)

def terms (r : Requirement) : List Term :=
  r.branches.flatMap (·.terms)

end Requirement

end Requirements
