/-!
# Constraint grammars

Three families of grammars write version constraints: clauses joined by commas,
alternatives joined by bars, and a single exact version. The first two have a
dialect for each of the ecosystems that use them.
-/

namespace Requirements

/-- The dialects of comma-separated clauses. -/
inductive ClauseDialect where
  | pep440
  | cargo
  | gem
  deriving DecidableEq, Repr

/-- The dialects of alternatives between bars. -/
inductive AlternativesDialect where
  | npm
  | composer
  deriving DecidableEq, Repr

/-- How version constraints are written. -/
inductive Grammar where
  | clauses (dialect : ClauseDialect)
  | alternatives (dialect : AlternativesDialect)
  | pin
  deriving DecidableEq, Repr

def Grammar.familyName : Grammar → String
  | .clauses _ => "range_grammar"
  | .alternatives _ => "range_list"
  | .pin => "no_range"

end Requirements
