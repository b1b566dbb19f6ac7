import Requirements.Text.Digit

/-!
# The next component

The upper end of a range has a component one above the written one. The largest
value of a word has no successor, and a range that needs one is refused.
-/

namespace Requirements

/-- A version component without a successor. -/
structure Oversized where
  component : Nat
  deriving DecidableEq, Repr

def Oversized.message (e : Oversized) : String :=
  s!"version component {e.component} is too large to bump"

/-- The successor of a component, within a word. -/
def bump (n : Nat) : Except Oversized Nat :=
  if n < Text.wordMax then .ok (n + 1) else .error ⟨n⟩

/-- Numbers with points between them. -/
def dotted (ns : List Nat) : String :=
  String.ofList (['.'].intercalate (ns.map Text.decimal))

/-- The numbers with the last one bumped, with points between them. -/
def bumpLast : List Nat → Except Oversized String
  | [] => .ok ""
  | n :: ns => do
      let last ← bump ((n :: ns).getLast (by simp))
      return dotted ((n :: ns).dropLast ++ [last])

end Requirements
