import Requirements.Json
import Requirements.Requirement

/-!
# Requirements as data

The JSON form of requirements. A term is a record of its operator and version,
a branch an object with one member that tells `single` from `all`, and a
requirement a record of its name and branches. Reading gives back what was
written.
-/

namespace Requirements

/-- An operator is written by its name. -/
def Operator.toJson (op : Operator) : Json :=
  .string op.name

/-- An operator is read from its name; an object with the name as its only key
and a null is the same. -/
def Operator.ofJson? : Json → Option Operator
  | .string name => ofName? name
  | .object [(name, .null)] => ofName? name
  | _ => none

def Term.toJson (t : Term) : Json :=
  .object [("op", t.op.toJson), ("version", .string t.version)]

def Term.ofJson? (j : Json) : Option Term :=
  match j.fields? ["op", "version"] with
  | some [some op, some version] => do return ⟨← Operator.ofJson? op, ← version.string?⟩
  | _ => none

def Branch.toJson : Branch → Json
  | .single t => .object [("single", t.toJson)]
  | .all ts => .object [("all", .array (ts.map Term.toJson))]

def Branch.ofJson? : Json → Option Branch
  | .object [(key, value)] =>
      if key = "single" then (Term.ofJson? value).map .single
      else if key = "all" then (value.list? Term.ofJson?).map .all
      else none
  | _ => none

def Requirement.toJson (r : Requirement) : Json :=
  .object [("name", .string r.name), ("groups", .array (r.branches.map Branch.toJson))]

def Requirement.ofJson? (j : Json) : Option Requirement :=
  match j.fields? ["name", "groups"] with
  | some [some name, some branches] => do
      return ⟨← name.string?, ← branches.list? Branch.ofJson?⟩
  | _ => none

end Requirements
