/-!
# The order of versions

A version is any text. Its segments are the parts between points and hyphens:
a segment of digits counts as the number it denotes, of any size, and every
other segment ranks below all numbers and equal to its like. Versions compare
segment by segment, where a missing segment counts as zero.

This is coarser than semantic versioning: `1.0` and `1.0.0` are equal, and so
are `1.0-rc1` and `1.0-rc2`.
-/

namespace Requirements

/-- A version as a registry publishes it or a specifier names it. -/
abbrev Version := String

/-- What one segment of a version counts for. -/
inductive Segment where
  /-- Not a number: below every number. -/
  | word
  /-- A number, by its digits without leading zeros; zero has no digits. -/
  | number (digits : List Char)
  deriving DecidableEq, Repr

namespace Segment

/-- The segment that stands in for a missing one. -/
def zero : Segment :=
  .number []

/-- A segment is a number if it consists of ASCII digits, after at most one
plus sign. -/
def read (cs : List Char) : Segment :=
  let digits := match cs with
    | '+' :: rest => rest
    | _ => cs
  if !digits.isEmpty && digits.all Char.isDigit then
    .number (digits.dropWhile (· == '0'))
  else
    .word

/-- Words precede numbers. Without leading zeros, the number with more digits
is the larger one, and numbers of one length compare digit by digit. -/
def compare : Segment → Segment → Ordering
  | .word, .word => .eq
  | .word, .number _ => .lt
  | .number _, .word => .gt
  | .number a, .number b => (Ord.compare a.length b.length).then (Ord.compare a b)

end Segment

namespace Version

/-- The characters that end a segment. -/
def isSeparator (c : Char) : Bool :=
  c == '.' || c == '-'

/-- The segments of a version, in order; there is at least one. -/
def segments (v : Version) : List Segment :=
  (v.toList.splitOnP isSeparator).map Segment.read

/-- How a list of segments ranks against zeros. -/
def compareToZeros : List Segment → Ordering
  | [] => .eq
  | a :: as => (a.compare .zero).then (compareToZeros as)

/-- The first segments that differ decide; the shorter list goes on with zeros. -/
def compareSegments : List Segment → List Segment → Ordering
  | [], bs => (compareToZeros bs).swap
  | a :: as, [] => compareToZeros (a :: as)
  | a :: as, b :: bs => (a.compare b).then (compareSegments as bs)

def compare (a b : Version) : Ordering :=
  compareSegments a.segments b.segments

def le (a b : Version) : Bool :=
  (compare a b).isLE

def equal (a b : Version) : Bool :=
  compare a b == .eq

end Version

end Requirements
