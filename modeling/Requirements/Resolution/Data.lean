import Requirements.Json
import Requirements.Resolution

/-!
# Resolutions as data

The JSON form of resolutions. What is picked for a package is told by its JSON
type alone: a string, a list of strings or null. The list of skipped packages
is left out when it is empty.
-/

namespace Requirements

def Picked.toJson : Picked → Json
  | .latest v => .string v
  | .every vs => .array (vs.map .string)
  | .unmatched => .null

def Picked.ofJson? : Json → Option Picked
  | .string v => some (.latest v)
  | .array items => (items.mapM Json.string?).map .every
  | .null => some .unmatched
  | _ => none

def Skipped.toJson (s : Skipped) : Json :=
  .object [("name", .string s.name), ("reason", .string s.reason)]

def Skipped.ofJson? (j : Json) : Option Skipped :=
  match j.fields? ["name", "reason"] with
  | some [some name, some reason] => do return ⟨← name.string?, ← reason.string?⟩
  | _ => none

/-- The object of a dictionary, in key order. -/
def Table.toJson {β : Type} (value : β → Json) (t : Table β) : Json :=
  .object (t.entries.map fun e => (e.1, value e.2))

/-- Read a dictionary; of members with one name the last counts. -/
def Table.ofJson? {β : Type} (value : Json → Option β) (j : Json) : Option (Table β) :=
  (j.members? value).map .ofList

namespace Resolution

def toJson (r : Resolution) : Json :=
  .object <| ("entries", r.entries.toJson Picked.toJson) ::
    if r.skipped.isEmpty then [] else [("skipped", .array (r.skipped.map Skipped.toJson))]

def ofJson? (j : Json) : Option Resolution :=
  match j.fields? ["entries", "skipped"] with
  | some [some entries, skipped] => do
      let entries ← Table.ofJson? Picked.ofJson? entries
      let skipped ← match skipped with
        | some skipped => skipped.list? Skipped.ofJson?
        | none => some []
      return ⟨entries, skipped⟩
  | _ => none

end Resolution

end Requirements
