import Requirements.Json
import Requirements.Json.Reader
import Requirements.Registry.Error
import Requirements.Table

/-!
# The release index

An index holds the answers known for a registry, each under the name it was
asked for. A name without an answer of its own gets the one of the first name
that agrees with it after normalization.
-/

namespace Requirements

/-- The answers known for a registry. -/
structure ReleaseIndex where
  /-- The name of the registry, for errors. -/
  registry : String
  answers : Table Answer

namespace ReleaseIndex

def empty (registry : String) : ReleaseIndex :=
  ⟨registry, .empty⟩

/-- Record the answer for a name; an earlier one is forgotten. -/
def record (i : ReleaseIndex) (name : String) (a : Answer) : ReleaseIndex :=
  { i with answers := i.answers.insert name a }

/-- Record the releases of a package that goes by the name it is asked for. -/
def withReleases (i : ReleaseIndex) (name : String) (releases : List String) : ReleaseIndex :=
  i.record name (.ok ⟨name, releases⟩)

def size (i : ReleaseIndex) : Nat :=
  i.answers.size

/-- The answer that counts for a name. -/
def lookup? (i : ReleaseIndex) (name : String) : Option Answer :=
  match i.answers.find? name with
  | some a => some a
  | none =>
      let normalized := normalizeName name
      (i.answers.entries.find? fun e => normalizeName e.1 == normalized).map (·.2)

def fetch (i : ReleaseIndex) (name : String) : Answer :=
  if Text.isBlankText name then .error (.blankName name i.registry)
  else (i.lookup? name).getD (.error (.notFound name i.registry))

/-- Read an index from a JSON object of lists of versions; of members with one
name the last counts. -/
def ofJson? (registry text : String) : Option ReleaseIndex := do
  let packages ← (← Json.read? text).members? (Json.list? Json.string?)
  return packages.foldl (fun i p => i.withReleases p.1 p.2) (empty registry)

end ReleaseIndex

end Requirements
