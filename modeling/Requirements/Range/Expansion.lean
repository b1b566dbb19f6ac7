import Requirements.Range.Partial

/-!
# Ranges of partial versions

Every shorthand stands for a lower bound and at most one upper bound, which it
excludes. A complete version without an operator stands for itself.
-/

namespace Requirements.PartialVersion

/-- The terms of a range from a version up to another one, if it has an end. -/
def between (lower : Version) (upper : Option Version) : List Term :=
  ⟨.atLeast, lower⟩ :: (upper.map (Term.mk .below)).toList

/-- The first version past every version that the partial version covers. -/
def ceiling : PartialVersion → Except Oversized (Option Version)
  | .any => .ok none
  | .major a => do return some (render (← bump a) 0 0)
  | .minor a b => do return some (render a (← bump b) 0)
  | .patch a b c _ => do return some (render a b (← bump c))

/-- The versions that agree with the given components. -/
def covered (p : PartialVersion) : Except Oversized (List Term) :=
  match p with
  | .patch .. => .ok [.exact p.floor]
  | _ => do return between p.floor (← p.ceiling)

/-- The end of a caret range: the leftmost component that is not zero is
bumped, or the last given one if all are zero. -/
def caretEnd : PartialVersion → Except Oversized (Option Version)
  | .any => .ok none
  | .major a => do return some (render (← bump a) 0 0)
  | .minor 0 b => do return some (render 0 (← bump b) 0)
  | .patch 0 0 c _ => do return some (render 0 0 (← bump c))
  | .patch 0 b _ _ => do return some (render 0 (← bump b) 0)
  | .minor a _ | .patch a _ _ _ => do return some (render (← bump a) 0 0)

/-- Changes that leave the leftmost component that is not zero. -/
def caret (p : PartialVersion) : Except Oversized (List Term) := do
  return between p.floor (← p.caretEnd)

/-- The end of a tilde range: the minor component is bumped if it is given, and
otherwise the major one. -/
def tildeEnd : PartialVersion → Except Oversized (Option Version)
  | .any => .ok none
  | .major a => do return some (render (← bump a) 0 0)
  | .minor a b | .patch a b _ _ => do return some (render a (← bump b) 0)

/-- Changes below the minor component, or below the major one if that is all. -/
def tilde (p : PartialVersion) : Except Oversized (List Term) := do
  return between p.floor (← p.tildeEnd)

/-- A comparison with a partial version: what is above it starts at its ceiling,
and what is at most it ends there. -/
def comparison (op : Operator) (p : PartialVersion) : Except Oversized (List Term) :=
  match p with
  | .any =>
      .ok <| match op with
        | .below | .notEqual => [⟨.below, Term.lowestVersion⟩]
        | _ => [.any]
  | .patch .. => .ok [⟨op, p.floor⟩]
  | _ =>
      match op with
      | .atLeast | .below | .notEqual => .ok [⟨op, p.floor⟩]
      | .above => do return [⟨.atLeast, (← p.ceiling).getD p.floor⟩]
      | .atMost => do return [⟨.below, (← p.ceiling).getD p.floor⟩]
      | .equal => p.covered

end Requirements.PartialVersion
