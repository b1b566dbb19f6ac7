import Requirements.Specifier.Term

/-!
# Comma-separated clauses

PyPI, crates.io and RubyGems write a package name and clauses that all have to
hold, such as `requests >=2.28,<3`. Extras in brackets after the name and an
environment marker after a semicolon do not constrain the version.
-/

namespace Requirements

namespace ClauseDialect

/-- The operand of a clause is one word, which white space may precede. -/
def isOperand (cs : List Char) : Bool :=
  let word := Text.trimStart cs
  !word.isEmpty && word.all fun c => !Text.isBlank c

/-- The lower bound at a version and the upper bound of its pessimistic range. -/
def pessimistic (cs : List Char) : Except SpecifierFault (List Term) := do
  let version ← versionToken cs
  match Release.pessimisticEnd cs with
  | .error e => .error (.oversized e)
  | .ok none => .error (.unparsableVersion version)
  | .ok (some upper) => .ok [⟨.atLeast, version⟩, ⟨.below, upper⟩]

/-- The versions that start with the given numbers, as in `==1.4.*`. -/
def startingWith (stem : List Char) : Except SpecifierFault (List Term) :=
  let ns := Release.numbers stem
  if ns.isEmpty || dotted ns != String.ofList stem then
    .error (.invalidWildcard (String.ofList stem))
  else
    match bumpLast ns with
    | .error e => .error (.oversized e)
    | .ok upper => .ok [⟨.atLeast, String.ofList stem⟩, ⟨.below, upper⟩]

/-- A comparison with a version as written. -/
def plain (op : Operator) (cs : List Char) : Except SpecifierFault (List Term) := do
  return [⟨op, ← versionToken cs⟩]

/-- The text in front of a final `.*`. -/
def wildcardStem? (cs : List Char) : Option (List Char) :=
  if ['.', '*'].isSuffixOf cs then some (cs.take (cs.length - 2)) else none

/-- A clause of Cargo. A version without a mark is a caret range, unless it has
a wildcard. -/
def cargoTerms (mark : Option Mark) (cs : List Char) : Except SpecifierFault (List Term) :=
  match PartialVersion.read? cs with
  | none => .error (.unparsableVersion (String.ofList cs))
  | some p =>
      match mark with
      | none | some .caret =>
          (if p = .any || PartialVersion.hasWildcard cs then p.covered else p.caret).mapError
            .oversized
      | some .tilde => p.tilde.mapError .oversized
      | some (.compare .equal) => p.covered.mapError .oversized
      | some (.compare op) => (p.comparison op).mapError .oversized
      | some mark => .error (.unsupportedMark mark)

/-- A clause of PyPI. Equality with `.*` at the end compares the start of the
version; a caret and a tilde mean what they mean for Cargo. -/
def pep440Terms (mark : Option Mark) (cs : List Char) : Except SpecifierFault (List Term) :=
  match mark with
  | some .compatible =>
      if (Release.numbers cs).length < 2 then .error (.tooFewNumbers (String.ofList cs))
      else pessimistic cs
  | none | some (.compare .equal) | some .identical =>
      match wildcardStem? cs with
      | some stem => startingWith stem
      | none => plain .equal cs
  | some (.compare .notEqual) =>
      if (wildcardStem? cs).isSome then .error (.excludedWildcard (String.ofList cs))
      else plain .notEqual cs
  | some (.compare op) => plain op cs
  | some .caret | some .tilde => cargoTerms mark cs
  | some .pessimistic => .error (.unsupportedMark .pessimistic)

/-- A clause of RubyGems. A version without a mark is exact. -/
def gemTerms (mark : Option Mark) (cs : List Char) : Except SpecifierFault (List Term) :=
  match mark with
  | some .pessimistic => pessimistic cs
  | none => plain .equal cs
  | some (.compare op) => plain op cs
  | some mark => .error (.unsupportedMark mark)

/-- The terms of a clause with its mark split off. -/
def terms : ClauseDialect → Option Mark → List Char → Except SpecifierFault (List Term)
  | .pep440 => pep440Terms
  | .cargo => cargoTerms
  | .gem => gemTerms

/-- The terms of a clause as written between commas. -/
def clause (d : ClauseDialect) (cs : List Char) : Except SpecifierFault (List Term) :=
  let cs := Text.trim cs
  if cs.isEmpty then .error .emptyClause
  else
    match Mark.split? isOperand cs Mark.ofClauses with
    | none => .error (.invalidClause (String.ofList cs))
    | some (mark, operand) => d.terms mark (Text.trimStart operand)

/-- The characters of a package name after its first one. -/
def isNameChar (c : Char) : Bool :=
  c.isAlphanum || c == '.' || c == '_' || c == '-'

/-- The text after extras in brackets, if there are any. -/
def skipExtras : List Char → List Char
  | '[' :: cs =>
      match cs.dropWhile (· != ']') with
      | _ :: rest => rest
      | [] => '[' :: cs
  | cs => cs

/-- The package name and the clauses of a specifier, which have to stay on one
line. -/
def nameAndClauses? (cs : List Char) : Option (List Char × List Char) :=
  let name := cs.takeWhile isNameChar
  let rest := Text.trimStart (skipExtras (Text.trimStart (cs.dropWhile isNameChar)))
  match name with
  | c :: _ => if c.isAlphanum && rest.all (· != '\n') then some (name, rest) else none
  | [] => none

/-- Read a specifier. Without clauses, or with a single star, every version
will do. -/
def read (d : ClauseDialect) (cs : List Char) : Except SpecifierFault Requirement :=
  match nameAndClauses? (Text.trim (cs.takeWhile (· != ';'))) with
  | none => .error .missingName
  | some (name, rest) => do
      let name := String.ofList name
      let clauses := Text.trim rest
      if clauses.isEmpty || clauses == ['*'] then return .anyVersion name
      let terms ← (clauses.splitOnP (· == ',')).mapM d.clause
      return ⟨name, [.ofTerms terms.flatten]⟩

/-- A term as the dialect writes it: PyPI doubles the sign of equality. -/
def renderTerm (d : ClauseDialect) (t : Term) : String :=
  if d = .pep440 ∧ t.op = .equal then "==" ++ t.version else t.text

/-- All terms of a requirement, separated by commas. The grammar has no
alternatives, so those of the requirement are not kept apart. -/
def render (d : ClauseDialect) (r : Requirement) : String :=
  ",".intercalate (r.terms.map d.renderTerm)

end ClauseDialect

end Requirements
