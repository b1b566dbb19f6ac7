import Requirements.Ecosystem
import Requirements.Requirement.Merge
import Requirements.Requirement.Tighten
import Requirements.Specifier.Choice
import Requirements.Specifier.Pin
import Requirements.Table

/-!
# Specifiers

A specifier names a package and constrains its version, in the grammar of an
ecosystem. `parse` reads specifiers into requirements and `compose` writes
requirements back, one specifier per package.
-/

namespace Requirements

namespace Grammar

def read : Grammar → List Char → Except SpecifierFault Requirement
  | .clauses d => d.read
  | .alternatives d => d.read
  | .pin => Pin.read

def render : Grammar → Requirement → String
  | .clauses d => d.render
  | .alternatives _ => AlternativesDialect.render
  | .pin => Pin.render

end Grammar

namespace Ecosystem

/-- Read a specifier in the grammar of an ecosystem. Every fault is told with the whole
specifier. The readers do not carry it along: it is put beside the fault here, once for
all of them. -/
def parse (e : Ecosystem) (specifier : String) : Except SpecifierError Requirement :=
  (e.grammar.read specifier.toList).mapError (SpecifierError.mk specifier)

/-- Read specifiers in order; the first one that is refused ends the reading. -/
def parseAll (e : Ecosystem) (specifiers : List String) :
    Except SpecifierError (List Requirement) :=
  specifiers.mapM e.parse

/-- The constraint of each package; requirements on one package are joined. -/
def compose (e : Ecosystem) (rs : List Requirement) : Table String :=
  .ofList ((Requirement.merge rs).map fun r => (r.name, e.grammar.render r))

/-- The tightened requirements. Only grammars with alternatives are tightened;
the others come back as they are. -/
def restrict (e : Ecosystem) (rs : List Requirement) : List Requirement :=
  match e.grammar with
  | .alternatives _ => Requirement.tighten rs
  | .clauses _ | .pin => rs

end Ecosystem

end Requirements
