import Requirements.Grammar
import Requirements.Range.Expansion
import Requirements.Range.Mark
import Requirements.Range.Release

/-!
# Alternatives of comparators

The manifests of npm and of Composer write a range as alternatives between
bars, each a run of comparators that have to hold together. Normalization
expands every shorthand, so that only the six operators remain, and keeps the
alternatives and their order.
-/

namespace Requirements

/-- A comparator that a dialect does not have. -/
structure UnsupportedRange where
  /-- The comparator as written. -/
  token : String
  /-- The component without a successor, if the comparator is otherwise in order. -/
  reason : Option Oversized
  deriving DecidableEq, Repr

def UnsupportedRange.message (e : UnsupportedRange) : String :=
  s!"unsupported range token '{e.token}'" ++
    match e.reason with
    | some oversized => ": " ++ oversized.message
    | none => ""

/-- A normalized range: the terms of each alternative. -/
abbrev Alternatives := List (List Term)

namespace Alternatives

/-- The terms of an alternative, separated by a space. -/
def renderBranch (ts : List Term) : String :=
  " ".intercalate (ts.map (·.text))

/-- The alternatives, separated by two bars. -/
def render (branches : Alternatives) : String :=
  " || ".intercalate (branches.map renderBranch)

end Alternatives

namespace AlternativesDialect

/-- The text up to the first bars and the texts after each of them. Two bars
always separate; a single bar separates if `single` is set. -/
def splitBars (single : Bool) : List Char → List (List Char)
  | [] => [[]]
  | '|' :: '|' :: cs => [] :: splitBars single cs
  | c :: cs =>
      if single && c == '|' then [] :: splitBars single cs
      else
        match splitBars single cs with
        | part :: parts => (c :: part) :: parts
        | [] => [[c]]

/-- Whether a comparison sign ends in the character. -/
def endsSign (c : Char) : Bool :=
  c == '<' || c == '>' || c == '=' || c == '^' || c == '~'

/-- The text without the white space that follows comparison signs; `afterSign`
says that such a sign stands in front of it. -/
def closeUp (afterSign : Bool) : List Char → List Char
  | [] => []
  | c :: cs =>
      if afterSign && Text.isBlank c then closeUp true cs else c :: closeUp (endsSign c) cs

def startsWithLetter : List Char → Bool
  | [] => false
  | c :: _ => c.isAlpha

/-- The text without stability flags, which are an at sign and ASCII letters;
`inFlag` says that a flag has begun in front of it. -/
def dropFlags (inFlag : Bool) : List Char → List Char
  | [] => []
  | c :: cs =>
      if inFlag && c.isAlpha then dropFlags true cs
      else if c == '@' && startsWithLetter cs then dropFlags true cs
      else c :: dropFlags false cs

/-- The alternatives of a range as written. -/
def branches : AlternativesDialect → List Char → List (List Char)
  | .npm, cs => splitBars false cs
  | .composer, cs => splitBars true (dropFlags false cs)

/-- The characters between comparators. -/
def isSeparator : AlternativesDialect → Char → Bool
  | .npm, c => c == ' '
  | .composer, c => c == ' ' || c == ','

/-- The comparators of an alternative as written. -/
def tokens (d : AlternativesDialect) (cs : List Char) : List (List Char) :=
  ((closeUp false cs).splitOnP d.isSeparator).filter fun t => !t.isEmpty

/-- The operand of a comparator is not empty and stays on one line. -/
def isOperand (cs : List Char) : Bool :=
  !cs.isEmpty && cs.all (· != '\n')

/-- The terms of an npm comparator. A version without a mark stands for all it
covers, and there is no inequality. -/
def npmTerms? (mark : Option Mark) (p : PartialVersion) :
    Option (Except Oversized (List Term)) :=
  match mark with
  | some .caret => some p.caret
  | some .tilde | some .pessimistic => some p.tilde
  | none | some (.compare .equal) => some p.covered
  | some (.compare .notEqual) => none
  | some (.compare op) => some (p.comparison op)
  | some .compatible | some .identical => none

/-- The terms of a Composer comparator. A tilde bounds by the release of the
version as written. Without a wildcard, a comparison keeps the version. -/
def composerTerms? (mark : Option Mark) (operand : List Char) (p : PartialVersion) :
    Option (Except Oversized (List Term)) :=
  let covers := PartialVersion.hasWildcard operand || p = .any
  match mark with
  | some .caret => some p.caret
  | some .tilde | some .pessimistic =>
      some ((Release.pessimisticEnd operand).map (PartialVersion.between p.floor))
  | none | some (.compare .equal) => some (if covers then p.covered else .ok [.exact p.floor])
  | some (.compare op) => some (if covers then p.comparison op else .ok [⟨op, p.floor⟩])
  | some .compatible | some .identical => none

/-- The terms of a comparator with its mark split off. -/
def terms? (d : AlternativesDialect) (mark : Option Mark) (operand : List Char)
    (p : PartialVersion) : Option (Except Oversized (List Term)) :=
  match d with
  | .npm => npmTerms? mark p
  | .composer => composerTerms? mark operand p

def comparator (d : AlternativesDialect) (token : List Char) :
    Except UnsupportedRange (List Term) :=
  let refuse (reason : Option Oversized) : UnsupportedRange := ⟨String.ofList token, reason⟩
  match Mark.split? isOperand token Mark.ofComparators with
  | none => .error (refuse none)
  | some (mark, operand) =>
      match (PartialVersion.read? operand).bind (terms? d mark operand) with
      | none => .error (refuse none)
      | some terms => terms.mapError fun oversized => refuse (some oversized)

/-- The terms of a hyphen range: from the first version up to all that the
second one covers. -/
def hyphenRange (lower upper : List Char) : Except UnsupportedRange (List Term) :=
  match PartialVersion.read? lower, PartialVersion.read? upper with
  | none, _ => .error ⟨String.ofList lower, none⟩
  | _, none => .error ⟨String.ofList upper, none⟩
  | some l, some u@(.patch ..) => .ok [⟨.atLeast, l.floor⟩, ⟨.atMost, u.floor⟩]
  | some l, some u =>
      (u.ceiling.map (PartialVersion.between l.floor)).mapError fun oversized =>
        ⟨String.ofList upper, some oversized⟩

/-- The ways to write that every version will do. -/
def isAnyVersion (cs : List Char) : Bool :=
  cs.isEmpty || cs == ['*'] || cs == ['x'] || cs == ['X'] || cs == "latest".toList

def branch (d : AlternativesDialect) (cs : List Char) : Except UnsupportedRange (List Term) :=
  let cs := Text.trim cs
  if isAnyVersion cs then .ok [.any]
  else
    match Text.words cs with
    | [lower, ['-'], upper] => hyphenRange lower upper
    | _ => do
        let terms ← (d.tokens cs).mapM d.comparator
        return if terms.flatten.isEmpty then [.any] else terms.flatten

/-- The alternatives of a range, with every shorthand expanded. The first
comparator that the dialect does not have is reported. -/
def normalize (d : AlternativesDialect) (range : List Char) :
    Except UnsupportedRange Alternatives :=
  (d.branches range).mapM d.branch

end AlternativesDialect

end Requirements
