import Requirements.Specifier.Clauses

/-!
# Pins

Maven and Go write a package name and one exact version.
-/

namespace Requirements.Pin

/-- Read a specifier of exactly two words. -/
def read (cs : List Char) : Except SpecifierFault Requirement :=
  match Text.words cs with
  | [name, version] => do return .ofTerm (String.ofList name) (.exact (← versionToken version))
  | words => .error (.wordCount words.length)

/-- The version of the first pin of a requirement. -/
def render (r : Requirement) : String :=
  match r.terms.find? fun t => t.op = .equal with
  | some t => t.version
  | none => ""

end Requirements.Pin
