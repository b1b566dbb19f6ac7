import Requirements.Operator

/-!
# Range marks

The mark in front of a version says how the version bounds a range: it is one
of the six operators or the sign of a shorthand.
-/

namespace Requirements

/-- The sign in front of a version. -/
inductive Mark where
  | compare (op : Operator)
  /-- Written `^`: leave the leftmost component that is not zero. -/
  | caret
  /-- Written `~`: leave the minor component. -/
  | tilde
  /-- Written `~>`: leave all but the last number. -/
  | pessimistic
  /-- Written `~=`: leave all but the last number. -/
  | compatible
  /-- Written `===`: the very version. -/
  | identical
  deriving DecidableEq, Repr

namespace Mark

def symbol : Mark → String
  | .compare op => op.symbol
  | .caret => "^"
  | .tilde => "~"
  | .pessimistic => "~>"
  | .compatible => "~="
  | .identical => "==="

/-- The marks of comma-separated clauses, in the order in which they are tried. -/
def ofClauses : List (String × Mark) := [
  ("===", .identical), ("~=", .compatible), ("~>", .pessimistic), ("==", .compare .equal),
  ("!=", .compare .notEqual), (">=", .compare .atLeast), ("<=", .compare .atMost),
  (">", .compare .above), ("<", .compare .below), ("=", .compare .equal), ("^", .caret),
  ("~", .tilde)]

/-- The marks of comparators between bars, in the order in which they are tried. -/
def ofComparators : List (String × Mark) := [
  (">=", .compare .atLeast), ("<=", .compare .atMost), ("!=", .compare .notEqual),
  ("~>", .pessimistic), ("<", .compare .below), (">", .compare .above),
  ("=", .compare .equal), ("^", .caret), ("~", .tilde)]

/-- The signs of terms without shorthands, in the order in which they are tried. -/
def ofTerms : List (String × Mark) := [
  (">=", .compare .atLeast), ("<=", .compare .atMost), ("==", .compare .equal),
  ("!=", .compare .notEqual), (">", .compare .above), ("<", .compare .below),
  ("=", .compare .equal)]

/-- Split a text into its mark and its operand. The first mark of the table that
leaves an admissible operand wins; without one the whole text has to be
admissible. -/
def split? (admissible : List Char → Bool) (cs : List Char) :
    List (String × Mark) → Option (Option Mark × List Char)
  | [] => if admissible cs then some (none, cs) else none
  | (symbol, mark) :: table =>
      let operand := cs.drop symbol.length
      if symbol.toList.isPrefixOf cs && admissible operand then some (some mark, operand)
      else split? admissible cs table

end Mark

end Requirements
