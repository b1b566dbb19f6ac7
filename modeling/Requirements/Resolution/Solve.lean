import Requirements.Resolution
import Requirements.Resolution.Error
import Requirements.Specifier
import Requirements.Version.Sort

/-!
# Solving

Each requirement is met from the releases of its package, one after the other.
The loop is written for any way of asking for releases. In a solve call the names
that are asked for are logged by the source: there is one for each requirement, in
order, and none beyond the first failure. Two requirements whose packages turn out
to be the same fail the call, whatever the options.
-/

namespace Requirements

structure SolveOptions where
  /-- Skip packages without releases instead of failing. -/
  graceful : Bool
  /-- Pick every matching release instead of the highest one. -/
  allVersions : Bool
  deriving DecidableEq, Repr

namespace Solve

/-- What is known after some of the requirements. -/
structure State where
  resolution : Resolution
  /-- The packages that releases were listed for, by the name of the registry. -/
  seen : List String

def State.initial : State :=
  ⟨.empty, []⟩

/-- A solve call: the names asked for, in order, and the result. -/
structure Outcome where
  calls : List String
  result : Except ResolutionError Resolution

/-- The reason given for a package whose list of releases is empty. -/
def noReleases : String :=
  "registry lists no releases"

/-- The releases that meet a requirement, in ascending order. -/
def matching (r : Requirement) (releases : List Version) : List Version :=
  Version.sort (releases.filter r.accepts)

def State.skip (s : State) (name reason : String) : State :=
  { s with resolution.skipped := s.resolution.skipped ++ [⟨name, reason⟩] }

/-- Meet one requirement with what is said of its package. -/
def step (options : SolveOptions) (s : State) (r : Requirement) :
    Answer → Except ResolutionError State
  | .error failure =>
      if options.graceful then .ok (s.skip r.name failure.message)
      else .error (.unresolved r.name (some failure))
  | .ok set =>
      if s.seen.contains set.name then .error (.duplicate set.name)
      else
        -- The name is taken even if no releases are listed under it.
        let s := { s with seen := s.seen ++ [set.name] }
        if set.releases.isEmpty then
          if options.graceful then .ok (s.skip r.name noReleases)
          else .error (.unresolved r.name none)
        else
          let picked := Picked.ofSorted options.allVersions (matching r set.releases)
          .ok { s with resolution.entries := s.resolution.entries.insert set.name picked }

/-- Meet the requirements that are left, asking for each package in its turn. -/
def run {m : Type → Type} [Monad m] (fetch : String → m Answer) (options : SolveOptions)
    (s : State) : List Requirement → m (Except ResolutionError Resolution)
  | [] => return .ok s.resolution
  | r :: rs => do
      match step options s r (← fetch r.name) with
      | .error e => return .error e
      | .ok s => run fetch options s rs

/-- A source of releases: what it says of a package may depend on the names that it
was asked for before. -/
abbrev Source := List String → String → Answer

/-- A computation that asks for packages, whose names are logged in order. -/
abbrev Calling := StateM (List String)

def call (source : Source) (package : String) : Calling Answer := do
  let asked ← get
  set (asked ++ [package])
  return source asked package

def requirementsFrom (source : Source) (options : SolveOptions) (rs : List Requirement) :
    Outcome :=
  let (result, calls) := (run (call source) options .initial rs).run []
  ⟨calls, result⟩

/-- Solve a list of specifiers. Nothing is asked for unless all of them can be
read. -/
def specifiersFrom (e : Ecosystem) (source : Source) (options : SolveOptions) (ss : List String) :
    Outcome :=
  match e.parseAll ss with
  | .error error => ⟨[], .error (.specifier error)⟩
  | .ok rs => requirementsFrom source options rs

/-- Solve a list of requirements from a source that does not change. -/
def requirements (fetch : String → Answer) (options : SolveOptions) (rs : List Requirement) :
    Outcome :=
  requirementsFrom (fun _ => fetch) options rs

def specifiers (e : Ecosystem) (fetch : String → Answer) (options : SolveOptions)
    (ss : List String) : Outcome :=
  specifiersFrom e (fun _ => fetch) options ss

end Solve

end Requirements
