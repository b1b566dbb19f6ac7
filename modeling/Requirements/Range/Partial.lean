import Requirements.Requirement
import Requirements.Range.Bump
import Requirements.Text.Blank

/-!
# Partial versions

A range shorthand names a version of which the last components may be missing
or written as a wildcard, such as `1`, `1.2`, `1.x` or `1.2.3-beta.1+build`. A
component that has no value, because it is a wildcard, is not written in ASCII
digits or does not fit a word, is missing, and so is everything after it.
-/

namespace Requirements

/-- A version with up to three components. -/
inductive PartialVersion where
  | any
  | major (a : Nat)
  | minor (a b : Nat)
  /-- All three components, with the pre-release tag if there is one. -/
  | patch (a b c : Nat) (tag : Option String)
  deriving DecidableEq, Repr

namespace PartialVersion

/-- The three ways to write a wildcard. -/
def isWildcard (c : Char) : Bool :=
  c == 'x' || c == 'X' || c == '*'

/-- The characters of pre-release tags and build metadata. -/
def isTagChar (c : Char) : Bool :=
  c.isAlphanum || c == '.' || c == '-'

/-- A component as written, and the text after it: a run of decimal digits of
any script, or one wildcard. -/
def component? (cs : List Char) : Option (List Char × List Char) :=
  match cs with
  | [] => none
  | c :: rest =>
      if Text.isDecimalDigit c then
        some (cs.takeWhile Text.isDecimalDigit, cs.dropWhile Text.isDecimalDigit)
      else if isWildcard c then
        some ([c], rest)
      else
        none

/-- At most `n` further components, each after a point, and the text after them. -/
def furtherComponents : Nat → List Char → List (List Char) × List Char
  | n + 1, '.' :: cs =>
      match component? cs with
      | some (c, rest) =>
          let (more, rest) := furtherComponents n rest
          (c :: more, rest)
      | none => ([], '.' :: cs)
  | _, cs => ([], cs)

/-- Whether a text is empty or build metadata. -/
def isBuild : List Char → Bool
  | [] => true
  | '+' :: cs => !cs.isEmpty && cs.all isTagChar
  | _ => false

/-- The pre-release tag that stands after the components, if the rest of the
text is in order. -/
def tag? : List Char → Option (Option (List Char))
  | '-' :: cs =>
      let tag := cs.takeWhile isTagChar
      if !tag.isEmpty && isBuild (cs.dropWhile isTagChar) then some (some tag) else none
  | cs => if isBuild cs then some none else none

/-- The version of the components as written; the first one without a value
ends it. -/
def ofComponents (cs : List (List Char)) (tag : Option (List Char)) : PartialVersion :=
  match cs.map Text.numeral? with
  | some a :: some b :: some c :: _ => .patch a b c (tag.map String.ofList)
  | some a :: some b :: _ => .minor a b
  | some a :: _ => .major a
  | _ => .any

/-- Read a partial version. White space around it and one `v` in front of it
are skipped. -/
def read? (cs : List Char) : Option PartialVersion := do
  let cs := Text.trim cs
  let cs := match cs with
    | 'v' :: rest | 'V' :: rest => rest
    | _ => cs
  let (first, rest) ← component? cs
  let (more, rest) := furtherComponents 2 rest
  let tag ← tag? rest
  return ofComponents (first :: more) tag

def render (a b c : Nat) : String :=
  dotted [a, b, c]

/-- The version with zeros for the missing components. -/
def floor : PartialVersion → Version
  | .any => render 0 0 0
  | .major a => render a 0 0
  | .minor a b => render a b 0
  | .patch a b c none => render a b c
  | .patch a b c (some tag) => render a b c ++ "-" ++ tag

/-- Whether a text has a wildcard among its components, which end at the first
hyphen or plus sign. -/
def hasWildcard (cs : List Char) : Bool :=
  ((cs.takeWhile fun c => c != '-' && c != '+').splitOnP (· == '.')).any fun part =>
    part == ['*'] || part == ['x'] || part == ['X']

end PartialVersion

end Requirements
