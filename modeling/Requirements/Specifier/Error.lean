import Requirements.Range.Alternatives

/-!
# Faults of a specifier

A specifier that does not follow the grammar of its ecosystem is refused with
the specifier itself and what is wrong with it.
-/

namespace Requirements

inductive SpecifierFault where
  | missingName
  | emptyClause
  | invalidClause (clause : String)
  | unparsableVersion (version : String)
  | tooFewNumbers (version : String)
  | excludedWildcard (version : String)
  | invalidWildcard (stem : String)
  | unsupportedMark (mark : Mark)
  | oversized (component : Oversized)
  | unsupportedRange (range : UnsupportedRange)
  | emptyTerm
  | invalidOperator (term : String)
  | emptyBranch
  /-- A pin has to consist of two words. -/
  | wordCount (count : Nat)
  deriving DecidableEq, Repr

def SpecifierFault.message : SpecifierFault → String
  | .missingName => "expected a package name"
  | .emptyClause => "empty version clause"
  | .invalidClause clause => s!"invalid clause '{clause}'"
  | .unparsableVersion version => s!"unparsable version '{version}'"
  | .tooFewNumbers version => s!"'~={version}' needs at least two release segments"
  | .excludedWildcard version => s!"wildcard exclusion '!={version}' is not supported"
  | .invalidWildcard stem => s!"invalid wildcard version '{stem}.*'"
  | .unsupportedMark mark => s!"operator '{mark.symbol}' is not supported here"
  | .oversized component => component.message
  | .unsupportedRange range => range.message
  | .emptyTerm => "empty range term"
  | .invalidOperator term => s!"invalid operator in '{term}'"
  | .emptyBranch => "empty range branch"
  | .wordCount count => s!"expected '<name> <version>', got {count} token(s)"

structure SpecifierError where
  specifier : String
  fault : SpecifierFault
  deriving DecidableEq, Repr

def SpecifierError.message (e : SpecifierError) : String :=
  s!"invalid dependency specification '{e.specifier}': {e.fault.message}"

end Requirements
