import Requirements.Range.Bump

/-!
# Release numbers

The release of a version is the list of numbers it starts with: `2.0rc1` has
the release `2.0`, and `1.4.5.2` all four numbers. Pessimistic operators bound
a version by its release.
-/

namespace Requirements.Release

/-- The numbers at the start of the given parts. A part that goes on after its
digits is the last one to count. -/
def leadingNumbers : List (List Char) → List Nat
  | [] => []
  | part :: parts =>
      let digits := part.takeWhile Char.isDigit
      match Text.numeral? digits with
      | none => []
      | some n => if digits.length = part.length then n :: leadingNumbers parts else [n]

/-- The release numbers of a version; any run of `v` in front is skipped. -/
def numbers (cs : List Char) : List Nat :=
  leadingNumbers ((cs.dropWhile fun c => c == 'v' || c == 'V').splitOnP (· == '.'))

/-- The end of the versions that a pessimistic operator admits: all but the last
release number may not change, so the one before it is bumped. A single number
is bumped itself. Without a release number there is no end. -/
def pessimisticEnd (cs : List Char) : Except Oversized (Option String) :=
  match numbers cs with
  | [] => .ok none
  | n :: ns => do
      let upper ← bumpLast ((n :: ns).take (max ns.length 1))
      return some upper

end Requirements.Release
