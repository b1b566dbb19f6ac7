import Requirements.Ecosystem
import Requirements.Json.Reader
import Requirements.Registry.Error
import Requirements.Table

/-!
# Release listings

What each registry sends when asked for a package, and the releases that the
listing offers. Yanked releases and branch aliases are not offered.
-/

namespace Requirements

/-- The listing of npm: the name and the versions, whose order has no meaning. -/
structure NpmListing where
  name : String
  versions : List String

/-- The listing of PyPI: for each version whether each of its files is yanked. -/
structure PypiListing where
  name : String
  releases : Table (List Bool)

structure CrateVersion where
  number : String
  yanked : Bool

structure CrateListing where
  name : String
  versions : List CrateVersion

/-- The listing of Packagist: the versions of each package it mentions. -/
structure PackagistListing where
  packages : Table (List String)

structure MavenDocument where
  group : String
  artifact : String
  version : String

/-- The one field of a record that is read through a list. -/
def Json.field? {α : Type} (name : String) (value : Json → Option α) (j : Json) : Option α :=
  match j.fields? [name] with
  | some [some v] => value v
  | _ => none

namespace NpmListing

def ofJson? (j : Json) : Option NpmListing :=
  match j.fields? ["name", "versions"] with
  | some [some name, some versions] => do
      return ⟨← name.string?, (Table.ofList (← versions.object?)).keys⟩
  | _ => none

/-- Every version is offered. -/
def releaseSet (l : NpmListing) : ReleaseSet :=
  ⟨l.name, l.versions⟩

end NpmListing

namespace PypiListing

/-- Whether a file is yanked; without a word on it, it is not. -/
def fileYanked? (j : Json) : Option Bool :=
  match j.fields? ["yanked"] with
  | some [some yanked] => yanked.bool?
  | some [none] => some false
  | _ => none

def ofJson? (j : Json) : Option PypiListing :=
  match j.fields? ["info", "releases"] with
  | some [some info, some releases] => do
      let releases ← releases.members? (Json.list? fileYanked?)
      return ⟨← info.field? "name" Json.string?, .ofList releases⟩
  | _ => none

/-- A version without files is offered, and one with a file that is not yanked. -/
def isOffered (files : List Bool) : Bool :=
  files.isEmpty || files.any (!·)

/-- The versions offered. Their order has no meaning. -/
def releaseSet (l : PypiListing) : ReleaseSet :=
  ⟨l.name, (l.releases.entries.filter fun e => isOffered e.2).map (·.1)⟩

end PypiListing

namespace CrateListing

def version? (j : Json) : Option CrateVersion :=
  match j.fields? ["num", "yanked"] with
  | some [some number, some yanked] => do return ⟨← number.string?, ← yanked.bool?⟩
  | _ => none

def ofJson? (j : Json) : Option CrateListing :=
  match j.fields? ["crate", "versions"] with
  | some [some crate, some versions] => do
      return ⟨← crate.field? "name" Json.string?, ← versions.list? version?⟩
  | _ => none

/-- The versions that are not yanked, in the order of the listing. -/
def releaseSet (l : CrateListing) : ReleaseSet :=
  ⟨l.name, (l.versions.filter (!·.yanked)).map (·.number)⟩

end CrateListing

/-- The version numbers of a gem: a number that several platforms share is
listed once. -/
def gemNumbers? (j : Json) : Option (List String) :=
  (j.list? (Json.field? "number" Json.string?)).map List.eraseDups

namespace PackagistListing

def ofJson? (j : Json) : Option PackagistListing :=
  (j.field? "packages" (Json.members? (Json.list? (Json.field? "version" Json.string?)))).map
    fun packages => ⟨.ofList packages⟩

/-- Whether a version stands for a branch and not for a release. -/
def isBranchAlias (version : String) : Bool :=
  version.startsWith "dev-" || version.endsWith "-dev"

/-- The releases of a package; the case of ASCII letters in its name does not
matter. -/
def releaseSet? (l : PackagistListing) (package : String) : Option ReleaseSet :=
  let lower (s : String) : List Char := s.toList.map Char.toLower
  (l.packages.entries.find? fun e => lower e.1 == lower package).map fun e =>
    ⟨e.1, e.2.filter (!isBranchAlias ·)⟩

end PackagistListing

namespace MavenDocument

def ofJson? (j : Json) : Option MavenDocument :=
  match j.fields? ["g", "a", "v"] with
  | some [some g, some a, some v] => do return ⟨← g.string?, ← a.string?, ← v.string?⟩
  | _ => none

/-- Read the documents of a search result, which also tells their number. -/
def listOfJson? (j : Json) : Option (List MavenDocument) :=
  j.field? "response" fun body =>
    match body.fields? ["numFound", "docs"] with
    | some [some found, some docs] => do
        let _ ← found.natural? Text.wordMax
        docs.list? ofJson?
    | _ => none

/-- The releases of a search result, under the coordinates of its first
document. An empty result means that the package does not exist. -/
def releaseSet? : List MavenDocument → Option ReleaseSet
  | [] => none
  | d :: ds => some ⟨d.group ++ ":" ++ d.artifact, (d :: ds).map (·.version)⟩

end MavenDocument

/-- The versions of a text with one on each line. -/
def versionLines (body : List Char) : List String :=
  (((body.splitOnP (· == '\n')).map Text.trim).filter fun l => !l.isEmpty).map String.ofList

namespace Ecosystem

/-- The releases that a JSON listing offers for a package: nothing if the value
has not the shape of a listing, and an absent release set if the listing does
not have the package. -/
def jsonListing? (e : Ecosystem) (package : String) (j : Json) : Option (Option ReleaseSet) :=
  match e with
  | .npm => (NpmListing.ofJson? j).map fun l => some l.releaseSet
  | .pypi => (PypiListing.ofJson? j).map fun l => some l.releaseSet
  | .cargo => (CrateListing.ofJson? j).map fun l => some l.releaseSet
  | .rubygems => (gemNumbers? j).map fun numbers => some ⟨package, numbers⟩
  | .packagist => (PackagistListing.ofJson? j).map (·.releaseSet? package)
  | .maven => (MavenDocument.listOfJson? j).map MavenDocument.releaseSet?
  | .go => none

def readListing (e : Ecosystem) (package url body : String) : Answer :=
  match e with
  | .go => .ok ⟨package, versionLines body.toList⟩
  | _ =>
      match (Json.read? body).bind (e.jsonListing? package) with
      | some (some set) => .ok set
      | some none => .error (.notFound package e.registryName)
      | none =>
          .error <| .invalidResponse package e.registryName
            s!"failed to parse JSON: error decoding response body for url ({url})"

end Ecosystem

end Requirements
