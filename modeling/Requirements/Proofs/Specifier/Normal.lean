import Mathlib
import Requirements.Proofs.Specifier.Choice

/-!
# Normalized ranges as text

Once a range is normalized it is a text without shorthands. The requirement is
read from that text, a branch for each alternative and a term for each
comparator, and normalizing the text again leaves these as they are. Bars between
two ranges stay where they are when the ranges are normalized, so the requirement
of both together admits what the requirement of either one admits.
-/

namespace Requirements

theorem Alternatives.render_append {left right : Alternatives} (hleft : left ≠ [])
    (hright : right ≠ []) : render (left ++ right) = render left ++ " || " ++ render right := by
  rw [render, List.map_append, String.intercalate_append_of_ne_nil]
  · rfl
  · simpa using hleft
  · simpa using hright

namespace AlternativesDialect

/-- The text that a range is normalized to. -/
def normalizeText (d : AlternativesDialect) (range : String) : Except UnsupportedRange String :=
  (d.normalize range.toList).map Alternatives.render

theorem normalizeText_eq_ok {d : AlternativesDialect} {range out : String} :
    d.normalizeText range = .ok out ↔
      ∃ branches, d.normalize range.toList = .ok branches ∧ Alternatives.render branches = out :=
  map_eq_ok

/-! ## Normalized once more -/

theorem equivalent_of_readsAs {d : AlternativesDialect} {branches again : Alternatives}
    (h : List.Forall₂ (List.Forall₂ d.ReadsAs) branches again) (name : String) :
    Requirement.Equivalent ⟨name, branches.map Branch.ofTerms⟩
      ⟨name, again.map Branch.ofTerms⟩ := by
  apply equivalent_of_forall₂
  simpa [Function.comp_def] using h

/-- In npm every term reads back as it is. -/
theorem eq_of_readsAs {branches again : Alternatives}
    (h : List.Forall₂ (List.Forall₂ (ReadsAs .npm)) branches again) : branches = again := by
  have hbranch : ∀ {ts us : List Term}, List.Forall₂ (ReadsAs .npm) ts us → ts = us := by
    intro ts us hts
    rw [← List.forall₂_eq_eq_eq]
    exact hts.imp fun t u htu => (htu.2 rfl).symm
  rw [← List.forall₂_eq_eq_eq]
  exact h.imp fun ts us => hbranch

theorem render_ofTerms (name : String) (branches : Alternatives) :
    render ⟨name, branches.map Branch.ofTerms⟩ = Alternatives.render branches := by
  simp [render, Function.comp_def]

/-- Whatever a range is normalized to is the text of the requirement that is read
for any name: it is cut at the bars into the branches and at white space into their
terms. Normalized again, it is the text of an equivalent requirement, which in npm
is the same text. -/
theorem normalizeText_is_normal {d : AlternativesDialect} {name range out : String}
    (hname : IsWord name.toList) (h : d.normalizeText range = .ok out) :
    ∃ r again : Requirement,
      (d.read (name ++ " " ++ range).toList = .ok r ∧ r.name = name ∧ render r = out ∧
        (splitBars false out.toList).map Text.words =
          r.branches.map fun b => b.terms.map fun t => t.text.toList) ∧
      d.normalizeText out = .ok (render again) ∧
      d.read (name ++ " " ++ out).toList = .ok again ∧ r.Equivalent again ∧
      (d = .npm → render again = out) := by
  obtain ⟨branches, hbranches, rfl⟩ := normalizeText_eq_ok.1 h
  have hnormal := isNormal_normalize hbranches
  obtain ⟨again, hagain, hreads⟩ := normalize_render hnormal
  have hwords := Alternatives.words_render hnormal.1 (isTokenBranch_of_isNormal hnormal)
  refine ⟨⟨name, branches.map Branch.ofTerms⟩, ⟨name, again.map Branch.ofTerms⟩,
    ⟨read_eq_ok_of_normalize hname hbranches, rfl, render_ofTerms name branches, ?_⟩, ?_,
    read_eq_ok_of_normalize hname hagain, equivalent_of_readsAs hreads name, ?_⟩
  · simpa [Function.comp_def] using hwords
  · rw [render_ofTerms]
    exact normalizeText_eq_ok.2 ⟨again, hagain, rfl⟩
  · rintro rfl
    rw [render_ofTerms, eq_of_readsAs hreads]

/-- The end of a Composer tilde range is written with a single number and is filled
up when it is normalized again. -/
theorem normalizeText_is_normal_tilde :
    let range := "~1.2, !=1.5 | | ^0.3.0-rc.1+b@RC || latest"
    let out := ">=1.2.0 <2 !=1.5.0 || >=0.0.0 || >=0.3.0-rc.1 <0.4.0 || >=0.0.0"
    IsWord "monolog/monolog".toList ∧ composer.normalizeText range = .ok out ∧
    ∃ r again : Requirement,
      (composer.read ("monolog/monolog" ++ " " ++ range).toList = .ok r ∧
        r.name = "monolog/monolog" ∧ render r = out ∧
        (splitBars false out.toList).map Text.words =
          r.branches.map fun b => b.terms.map fun t => t.text.toList) ∧
      composer.normalizeText out = .ok (render again) ∧
      composer.read ("monolog/monolog" ++ " " ++ out).toList = .ok again ∧ r.Equivalent again ∧
      (composer = .npm → render again = out) := by
  intro range out
  have hname : IsWord "monolog/monolog".toList := isWord_of_all (by decide) (by decide)
  have hnormalize : composer.normalizeText range = .ok out := by decide +kernel
  exact ⟨hname, hnormalize, normalizeText_is_normal hname hnormalize⟩

/-! ## Ranges with bars between them -/

theorem toList_append_bars (left right : String) : (left ++ " || " ++ right).toList =
    left.toList ++ ' ' :: '|' :: '|' :: ' ' :: right.toList := by
  simp

theorem normalizeText_append (d : AlternativesDialect) (left right : String) :
    d.normalizeText (left ++ " || " ++ right) = (do
      let first ← d.normalizeText left
      let second ← d.normalizeText right
      return first ++ " || " ++ second) := by
  rw [normalizeText, toList_append_bars, normalize_append_bars, normalizeText, normalizeText]
  cases hleft : d.normalize left.toList with
  | error e => rfl
  | ok first =>
      cases hright : d.normalize right.toList with
      | error e => rfl
      | ok second =>
          exact congrArg Except.ok <| Alternatives.render_append (isNormal_normalize hleft).1
            (isNormal_normalize hright).1

/-- The requirement of two ranges with bars between them has the branches of the
first one and then those of the second one. -/
theorem read_append {d : AlternativesDialect} {name left right : String}
    (hname : IsWord name.toList) {first second : Alternatives}
    (hleft : d.normalize left.toList = .ok first) (hright : d.normalize right.toList = .ok second) :
    d.read (name ++ " " ++ (left ++ " || " ++ right)).toList =
      .ok ⟨name, first.map Branch.ofTerms ++ second.map Branch.ofTerms⟩ := by
  have hboth : d.normalize (left ++ " || " ++ right).toList = .ok (first ++ second) := by
    rw [toList_append_bars, normalize_append_bars, hleft, hright]
    rfl
  rw [read_eq_ok_of_normalize hname hboth, List.map_append]

/-- Bars between two ranges stay where they are when the ranges are normalized. The
first range that cannot be normalized is reported, and if both can, the requirement
of them together admits the versions that one of their requirements admits. -/
theorem normalizeText_alternatives (d : AlternativesDialect) (left right : String) :
    (∀ e, d.normalizeText left = .error e →
      d.normalizeText (left ++ " || " ++ right) = .error e) ∧
    (∀ first e, d.normalizeText left = .ok first → d.normalizeText right = .error e →
      d.normalizeText (left ++ " || " ++ right) = .error e) ∧
    ∀ first second, d.normalizeText left = .ok first → d.normalizeText right = .ok second →
      d.normalizeText (left ++ " || " ++ right) = .ok (first ++ " || " ++ second) ∧
      ∀ name, IsWord name.toList → ∃ l r both,
        d.read (name ++ " " ++ left).toList = .ok l ∧
        d.read (name ++ " " ++ right).toList = .ok r ∧
        d.read (name ++ " " ++ (left ++ " || " ++ right)).toList = .ok both ∧
        ∀ v, both.accepts v = true ↔ l.accepts v = true ∨ r.accepts v = true := by
  refine ⟨fun e hleft => ?_, fun first e hleft hright => ?_,
    fun first second hleft hright => ⟨?_, fun name hname => ?_⟩⟩
  · rw [normalizeText_append, hleft]
    rfl
  · rw [normalizeText_append, hleft, hright]
    rfl
  · rw [normalizeText_append, hleft, hright]
    rfl
  · obtain ⟨_, hfirst, -⟩ := normalizeText_eq_ok.1 hleft
    obtain ⟨_, hsecond, -⟩ := normalizeText_eq_ok.1 hright
    refine ⟨_, _, _, read_eq_ok_of_normalize hname hfirst, read_eq_ok_of_normalize hname hsecond,
      read_append hname hfirst hsecond, fun v => ?_⟩
    simp only [Requirement.accepts, List.any_append, Bool.or_eq_true]

/-- A flag at the end of one range and a bar at the start of the other one do not
reach across the bars between them, and of two comparators that Composer does not
have the first one is reported. -/
theorem normalizeText_alternatives_seam :
    composer.normalizeText "^1.0@dev" = .ok ">=1.0.0 <2.0.0" ∧
    composer.normalizeText "|~2.1" = .ok ">=0.0.0 || >=2.1.0 <3" ∧
    composer.normalizeText ("^1.0@dev" ++ " || " ++ "|~2.1") =
      .ok (">=1.0.0 <2.0.0" ++ " || " ++ ">=0.0.0 || >=2.1.0 <3") ∧
    (∃ l r both,
      composer.read ("monolog/monolog" ++ " " ++ "^1.0@dev").toList = .ok l ∧
      composer.read ("monolog/monolog" ++ " " ++ "|~2.1").toList = .ok r ∧
      composer.read ("monolog/monolog" ++ " " ++ ("^1.0@dev" ++ " || " ++ "|~2.1")).toList =
        .ok both ∧
      ∀ v, both.accepts v = true ↔ l.accepts v = true ∨ r.accepts v = true) ∧
    composer.normalizeText ("a b" ++ " || " ++ "c") = .error ⟨"a", none⟩ ∧
    composer.normalizeText ("^1.0@dev" ++ " || " ++ "c") = .error ⟨"c", none⟩ := by
  have hleft : composer.normalizeText "^1.0@dev" = .ok ">=1.0.0 <2.0.0" := by decide +kernel
  have hright : composer.normalizeText "|~2.1" = .ok ">=0.0.0 || >=2.1.0 <3" := by
    decide +kernel
  have ha : composer.normalizeText "a b" = .error ⟨"a", none⟩ := by decide +kernel
  have hc : composer.normalizeText "c" = .error ⟨"c", none⟩ := by decide +kernel
  obtain ⟨-, -, hboth⟩ := normalizeText_alternatives composer "^1.0@dev" "|~2.1"
  obtain ⟨hjoin, haccepts⟩ := hboth _ _ hleft hright
  exact ⟨hleft, hright, hjoin,
    haccepts "monolog/monolog" (isWord_of_all (by decide) (by decide)),
    (normalizeText_alternatives composer "a b" "c").1 _ ha,
    (normalizeText_alternatives composer "^1.0@dev" "c").2.1 _ _ hleft hc⟩

end AlternativesDialect

end Requirements
