import Requirements.Specifier.Term

/-!
# Specifiers with alternatives

npm and Packagist write a package name and, after white space, a range of
alternatives. The range is normalized first, and the requirement is read from
the normalized text, with a branch for each alternative.
-/

namespace Requirements

namespace Alternatives

/-- Read a term of an alternative; a star stands for any version. -/
def readTerm (cs : List Char) : Except SpecifierFault Term :=
  if cs = ['*'] then .ok .any else Term.read cs

/-- Read the terms of an alternative, of which there has to be one. -/
def readBranch (cs : List Char) : Except SpecifierFault (List Term) := do
  let terms ← (Text.words cs).mapM readTerm
  if terms.isEmpty then .error .emptyBranch else return terms

/-- Read alternatives without shorthands. -/
def read (cs : List Char) : Except SpecifierFault Alternatives :=
  (AlternativesDialect.splitBars false cs).mapM readBranch

end Alternatives

namespace AlternativesDialect

/-- The first word of a text and what follows it. -/
def nameAndRange (cs : List Char) : List Char × List Char :=
  (cs.takeWhile fun c => !Text.isBlank c, Text.trim (cs.dropWhile fun c => !Text.isBlank c))

def read (d : AlternativesDialect) (cs : List Char) : Except SpecifierFault Requirement :=
  let (name, range) := nameAndRange (Text.trim cs)
  if name.isEmpty then .error .missingName
  else
    match d.normalize range with
    | .error e => .error (.unsupportedRange e)
    | .ok normalized => do
        let branches ← Alternatives.read (Alternatives.render normalized).toList
        return ⟨String.ofList name, branches.map Branch.ofTerms⟩

/-- The branches of a requirement as alternatives. -/
def render (r : Requirement) : String :=
  Alternatives.render (r.branches.map (·.terms))

end AlternativesDialect

end Requirements
