import Requirements.Grammar
import Requirements.Text.Blank

/-!
# Ecosystems

The package ecosystems, their names and the grammar in which each writes
version constraints.
-/

namespace Requirements

inductive Ecosystem where
  | npm
  | pypi
  | cargo
  | rubygems
  | packagist
  | maven
  | go
  deriving DecidableEq, Repr

/-- An identifier that names no ecosystem. -/
structure UnknownEcosystem where
  identifier : String
  deriving DecidableEq, Repr

namespace Ecosystem

/-- The ecosystems in their canonical order. -/
def all : List Ecosystem :=
  [.npm, .pypi, .cargo, .rubygems, .packagist, .maven, .go]

/-- The identifier of an ecosystem in data and settings. -/
def identifier : Ecosystem → String
  | .npm => "npm"
  | .pypi => "pypi"
  | .cargo => "cargo"
  | .rubygems => "rubygems"
  | .packagist => "packagist"
  | .maven => "maven"
  | .go => "go"

/-- The names by which an ecosystem may be asked for. -/
def aliases : Ecosystem → List String
  | .npm => ["npm", "node", "nodejs"]
  | .pypi => ["pypi", "python", "pip"]
  | .cargo => ["cargo", "crates", "crates.io", "rust"]
  | .rubygems => ["rubygems", "gem", "ruby"]
  | .packagist => ["packagist", "composer", "php"]
  | .maven => ["maven", "java"]
  | .go => ["go", "golang"]

def registryName : Ecosystem → String
  | .npm => "npm"
  | .pypi => "PyPI"
  | .cargo => "crates.io"
  | .rubygems => "RubyGems"
  | .packagist => "Packagist"
  | .maven => "Maven Central"
  | .go => "Go Proxy"

/-- The heading of an ecosystem in reports. -/
def displayName : Ecosystem → String
  | .npm => "npm"
  | .pypi => "Python"
  | .cargo => "Rust"
  | .rubygems => "Ruby"
  | .packagist => "PHP"
  | .maven => "Java"
  | .go => "Go"

def grammar : Ecosystem → Grammar
  | .pypi => .clauses .pep440
  | .cargo => .clauses .cargo
  | .rubygems => .clauses .gem
  | .npm => .alternatives .npm
  | .packagist => .alternatives .composer
  | .maven | .go => .pin

/-- Look an identifier up. White space around it and the case of ASCII letters
do not matter. -/
def ofIdentifier (s : String) : Except UnknownEcosystem Ecosystem :=
  let key := String.ofList ((Text.trim s.toList).map Char.toLower)
  match all.find? fun e => e.aliases.contains key with
  | some e => .ok e
  | none => .error ⟨s⟩

end Ecosystem

def UnknownEcosystem.message (e : UnknownEcosystem) : String :=
  s!"unknown ecosystem '{e.identifier}': expected one of " ++
    ", ".intercalate (Ecosystem.all.map (·.identifier))

end Requirements
