import Requirements.Version

/-!
# Comparison operators

The six operators of a version term. Each is decided by how the candidate
ranks against the version in the term.
-/

namespace Requirements

/-- How a candidate has to rank against a bound. -/
inductive Operator where
  | atLeast
  | above
  | atMost
  | below
  | equal
  | notEqual
  deriving DecidableEq, Repr

namespace Operator

/-- The operators in their canonical order. -/
def all : List Operator :=
  [.atLeast, .above, .atMost, .below, .equal, .notEqual]

/-- The place of an operator in the canonical order. -/
def rank : Operator → Nat
  | .atLeast => 0
  | .above => 1
  | .atMost => 2
  | .below => 3
  | .equal => 4
  | .notEqual => 5

def symbol : Operator → String
  | .atLeast => ">="
  | .above => ">"
  | .atMost => "<="
  | .below => "<"
  | .equal => "="
  | .notEqual => "!="

def name : Operator → String
  | .atLeast => "greater_or_equal"
  | .above => "greater"
  | .atMost => "less_or_equal"
  | .below => "less"
  | .equal => "equal"
  | .notEqual => "not_equal"

/-- The operator with a symbol; equality may also be written with two signs. -/
def ofSymbol? (s : String) : Option Operator :=
  if s = "==" then some .equal else all.find? fun op => op.symbol == s

def ofName? (s : String) : Option Operator :=
  all.find? fun op => op.name == s

/-- Whether the operator holds for a candidate of the given rank. -/
def accepts : Operator → Ordering → Bool
  | .atLeast, o => o != .lt
  | .above, o => o == .gt
  | .atMost, o => o != .gt
  | .below, o => o == .lt
  | .equal, o => o == .eq
  | .notEqual, o => o != .eq

def isLowerBound : Operator → Bool
  | .atLeast | .above => true
  | _ => false

def isUpperBound : Operator → Bool
  | .atMost | .below => true
  | _ => false

@[simp] theorem ofSymbol?_symbol (op : Operator) : ofSymbol? op.symbol = some op := by
  cases op <;> decide

@[simp] theorem ofName?_name (op : Operator) : ofName? op.name = some op := by
  cases op <;> decide

end Operator

end Requirements
