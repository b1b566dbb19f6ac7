import Requirements.Registry.Address
import Requirements.Registry.Exchange
import Requirements.Registry.Index
import Requirements.Registry.Listing

/-!
# Fetching releases

A package that the registry does not know is asked for once more under its
normalized name. Before a solve, all packages are fetched at once: their answers
arrive in any order and are collected into an index.
-/

namespace Requirements

/-- Ask a registry at the given address for a package, under exactly this name. -/
def Client.fetchReleases (c : Client) (e : Ecosystem) (base package : String) : Asking Answer :=
  match Address.url e base package with
  | .error shape => return .error (.invalidName package e.registryName shape)
  | .ok url => do
      let url := Address.onWire url
      match ← c.get package e.registryName url with
      | .error failure => return .error failure
      | .ok body => return e.readListing package url body

/-- Fetch a package, and once more under its normalized name if it is not found. -/
def fetchWithFallback {m : Type → Type} [Monad m] (registry : String)
    (fetch : String → m Answer) (package : String) : m Answer :=
  if Text.isBlankText package then return .error (.blankName package registry)
  else do
    let answer ← fetch package
    match answer with
    | .error failure =>
        let normalized := normalizeName package
        if failure.isNotFound && normalized != package then fetch normalized
        else return answer
    | .ok _ => return answer

structure FetchSummary where
  fetched : Nat
  failed : Nat
  deriving DecidableEq, Repr

namespace FetchSummary

def zero : FetchSummary :=
  ⟨0, 0⟩

def count (s : FetchSummary) (succeeded : Bool) : FetchSummary :=
  if succeeded then { s with fetched := s.fetched + 1 } else { s with failed := s.failed + 1 }

end FetchSummary

namespace Prefetch

/-- The packages to fetch: each name once, in code point order. -/
def pending (names : List String) : List String :=
  (Table.ofList (names.map fun name => (name, ()))).keys

def succeeded : Answer → Bool
  | .ok _ => true
  | .error _ => false

/-- Collect answers in the order in which they arrive. -/
def collect (registry : String) (arrived : List (String × Answer)) :
    ReleaseIndex × FetchSummary :=
  arrived.foldl (fun s a => (s.1.record a.1 a.2, s.2.count (succeeded a.2)))
    (.empty registry, .zero)

/-- Fetch every distinct name and collect the answers. Failures are recorded,
not raised. -/
def run {m : Type → Type} [Monad m] (registry : String) (fetch : String → m Answer)
    (names : List String) : m (ReleaseIndex × FetchSummary) := do
  let arrived ← (pending names).mapM fun name => do return (name, ← fetch name)
  return collect registry arrived

end Prefetch

end Requirements
