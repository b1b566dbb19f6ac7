/-!
# JSON values

Objects keep their members as written, in order and with repeated names, so
that each reader can say what a repetition means. A number with a fraction or an
exponent is kept as text: nothing here computes with it.
-/

namespace Requirements

inductive Json where
  | null
  | bool (value : Bool)
  | integer (value : Int)
  /-- A number that is not written as an integer. -/
  | fraction (text : String)
  | string (value : String)
  | array (items : List Json)
  | object (members : List (String × Json))
  deriving Repr, Inhabited

namespace Json

def string? : Json → Option String
  | .string s => some s
  | _ => none

def bool? : Json → Option Bool
  | .bool b => some b
  | _ => none

/-- An integer from zero up to a limit. -/
def natural? (limit : Nat) : Json → Option Nat
  | .integer (.ofNat n) => if n ≤ limit then some n else none
  | _ => none

def array? : Json → Option (List Json)
  | .array items => some items
  | _ => none

def object? : Json → Option (List (String × Json))
  | .object members => some members
  | _ => none

/-- The items of an array, each read in turn. -/
def list? {α : Type} (item : Json → Option α) (j : Json) : Option (List α) := do
  (← j.array?).mapM item

/-- The members of an object, each value read in turn. -/
def members? {α : Type} (value : Json → Option α) (j : Json) : Option (List (String × α)) := do
  (← j.object?).mapM fun m => do return (m.1, ← value m.2)

/-- The values of the named fields of a record, in the order of the names. A
record is an object, in which no field is repeated and other members are
ignored, or an array of the fields in order, of which the last may be left out. -/
def fields? (names : List String) : Json → Option (List (Option Json))
  | .object members =>
      if names.any fun name => 1 < members.countP fun m => m.1 == name then none
      else some (names.map fun name => members.lookup name)
  | .array items =>
      if items.length ≤ names.length then
        some (items.map some ++ List.replicate (names.length - items.length) none)
      else none
  | _ => none

end Json

end Requirements
