import Mathlib
import Requirements.Proofs.Specifier.Choice
import Requirements.Proofs.Specifier.Clauses
import Requirements.Specifier

/-!
# Composing undoes parsing

The requirements that a range grammar reads can all be written, and so can their
joins. Hence what `compose` writes for a package reads back, as a requirement
that admits the versions which all requirements on the package admit.
-/

namespace Requirements

namespace Grammar

/-- A package name in a grammar. -/
def IsName : Grammar → List Char → Prop
  | .clauses _ => ClauseDialect.IsName
  | .alternatives _ | .pin => AlternativesDialect.IsWord

/-- A requirement that a range grammar writes so that it reads back. -/
def Composable : Grammar → Requirement → Prop
  | .clauses d, r => d.Composable r
  | .alternatives d, r => d.Composable r
  | .pin, _ => False

theorem composable_of_read {g : Grammar} (hg : g ≠ .pin) {cs : List Char} {r : Requirement}
    (h : g.read cs = .ok r) : g.Composable r := by
  cases g with
  | clauses d => exact ClauseDialect.composable_of_read h
  | alternatives d => exact AlternativesDialect.composable_of_read h
  | pin => exact absurd rfl hg

theorem Composable.join {g : Grammar} {m r : Requirement} (hm : g.Composable m)
    (hr : g.Composable r) : g.Composable (m.join r) := by
  cases g with
  | clauses d => exact ClauseDialect.Composable.join hm hr
  | alternatives d => exact AlternativesDialect.Composable.join hm hr
  | pin => exact hm.elim

/-- A requirement that can be written reads back. -/
theorem read_render {g : Grammar} {r : Requirement} (h : g.Composable r) :
    ∃ r', g.read (r.name ++ " " ++ g.render r).toList = .ok r' ∧ r'.name = r.name ∧
      ∀ v, r'.accepts v = r.accepts v := by
  cases g with
  | clauses d => exact ClauseDialect.read_render h
  | alternatives d => exact AlternativesDialect.read_render h
  | pin => exact h.elim

end Grammar

namespace Ecosystem

theorem parse_eq_ok {e : Ecosystem} {s : String} {r : Requirement} :
    e.parse s = .ok r ↔ e.grammar.read s.toList = .ok r :=
  mapError_eq_ok

theorem find?_compose (e : Ecosystem) {rs : List Requirement} {m : Requirement}
    (h : m ∈ Requirement.merge rs) :
    (e.compose rs).find? m.name = some (e.grammar.render m) := by
  refine Table.find?_ofList_of_mem ?_ (List.mem_map_of_mem h)
  rw [List.map_map]
  exact Requirement.nodup_names_merge rs

/-- What is composed for a package parses back: the parse succeeds, names the
package, and admits a version exactly if every requirement parsed for the
package admits it. -/
theorem compose_parses_back (e : Ecosystem) (he : e.grammar ≠ .pin) (specifiers : List String)
    (rs : List Requirement) (hrs : e.parseAll specifiers = .ok rs) (n : String)
    (hn : n ∈ rs.map (·.name)) :
    ∃ constraint r, (e.compose rs).find? n = some constraint ∧
      e.parse (n ++ " " ++ constraint) = .ok r ∧ r.name = n ∧
      ∀ v, r.accepts v = true ↔ ∀ m ∈ rs, m.name = n → m.accepts v = true := by
  have hcomposable : ∀ r ∈ rs, e.grammar.Composable r := by
    intro r hr
    obtain ⟨s, _, hs⟩ := exists_of_mem_mapM hrs hr
    exact Grammar.composable_of_read he (parse_eq_ok.1 hs)
  obtain ⟨m, hm, rfl⟩ := List.mem_map.1 (Requirement.mem_names_merge.2 hn)
  have hmcomposable : e.grammar.Composable m :=
    Requirement.forall_mem_merge (fun _ _ => Grammar.Composable.join) hcomposable m hm
  obtain ⟨r, hread, hname, haccepts⟩ := Grammar.read_render hmcomposable
  refine ⟨e.grammar.render m, r, find?_compose e hm, parse_eq_ok.2 hread, hname, fun v => ?_⟩
  rw [haccepts, ← Requirement.accepts_merge rs m.name v]
  constructor
  · intro hv k hk hkm
    -- No other merged requirement has the name.
    obtain rfl := Requirement.eq_of_mem_merge hk hm hkm
    exact hv
  · intro hall
    exact hall m hm rfl

/-- The end of a Composer tilde range has a single number, which reads back as
three. Both requirements on the package count. -/
theorem compose_parses_back_tilde :
    let specifiers := ["monolog/monolog ~1.2 || ^3.0", "monolog/monolog <2"]
    let rs : List Requirement := [
      ⟨"monolog/monolog", [.all [⟨.atLeast, "1.2.0"⟩, ⟨.below, "2"⟩],
        .all [⟨.atLeast, "3.0.0"⟩, ⟨.below, "4.0.0"⟩]]⟩,
      ⟨"monolog/monolog", [.single ⟨.below, "2.0.0"⟩]⟩]
    packagist.grammar ≠ .pin ∧ packagist.parseAll specifiers = .ok rs ∧
    "monolog/monolog" ∈ rs.map (·.name) ∧
    ∃ constraint r, (packagist.compose rs).find? "monolog/monolog" = some constraint ∧
      packagist.parse ("monolog/monolog" ++ " " ++ constraint) = .ok r ∧
      r.name = "monolog/monolog" ∧
      ∀ v, r.accepts v = true ↔
        ∀ m ∈ rs, m.name = "monolog/monolog" → m.accepts v = true := by
  intro specifiers rs
  have hrange : packagist.grammar ≠ .pin := by decide
  have hparse : packagist.parseAll specifiers = .ok rs := by decide +kernel
  have hmem : "monolog/monolog" ∈ rs.map (·.name) := by decide
  exact ⟨hrange, hparse, hmem,
    compose_parses_back packagist hrange specifiers rs hparse "monolog/monolog" hmem⟩

end Ecosystem

end Requirements
