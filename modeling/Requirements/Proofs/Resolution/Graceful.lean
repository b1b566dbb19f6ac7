import Mathlib
import Requirements.Proofs.Resolution.Outcome

/-!
# A graceful call differs from a strict one by what it skips

A strict call passes the requirements that a graceful call passes without
skipping any. Where the graceful call skips something the strict one stops at
the first package skipped, since the packages before it are different and have
releases. Two requirements on one package fail both.
-/

namespace Requirements.Solve

variable {fetch : String → Answer} {allVersions : Bool} {rs : List Requirement}

theorem passes_graceful_iff :
    Passes fetch true rs ↔ (rs.filterMap (named? fetch)).Nodup :=
  ⟨fun h => h.distinct, fun h => ⟨h, fun hg => by cases hg⟩⟩

theorem passes_strict_iff :
    Passes fetch false rs ↔ Passes fetch true rs ∧ rs.filterMap (skipped? fetch) = [] := by
  rw [passes_graceful_iff]
  exact ⟨fun h => ⟨h.distinct, h.listed rfl⟩, fun h => ⟨h.1, fun _ => h.2⟩⟩

/-- If the packages are different, a strict call that fails does so at the first
requirement that a graceful one skips, and for the reason told there. -/
theorem strict_fails_at_first_skipped (h : Passes fetch true rs) {first : Skipped}
    {rest : List Skipped} (hskipped : rs.filterMap (skipped? fetch) = first :: rest) :
    ∃ reason, (requirements fetch ⟨false, allVersions⟩ rs).result =
        .error (.unresolved first.name reason) ∧
      first.reason = skipReason reason := by
  rcases passes_or_failure fetch false rs with hall | ⟨front, r, back, e, rfl, hfront, hr⟩
  · rw [(passes_strict_iff.1 hall).2] at hskipped
    cases hskipped
  · have hnew : ∀ name ∈ named? fetch r, name ∉ front.filterMap (named? fetch) := by
      intro name hname hmem
      have hdistinct := passes_graceful_iff.1 h
      rw [List.filterMap_append, List.filterMap_cons_some hname] at hdistinct
      exact (List.nodup_append.1 hdistinct).2.2 name hmem name List.mem_cons_self rfl
    obtain ⟨reason, rfl, hskip⟩ := failure?_of_new hr hnew
    -- Nothing is skipped before the requirement that fails.
    rw [List.filterMap_append, (passes_strict_iff.1 hfront).2, List.nil_append,
      List.filterMap_cons_some hskip] at hskipped
    obtain ⟨rfl, -⟩ := List.cons.inj hskipped
    refine ⟨reason, ?_, rfl⟩
    rw [requirements_of_failure hfront hr]

/-- What a strict call gives a graceful call gives too, with nothing skipped, and
a graceful call that skips nothing gives what the strict one does. If it skips a
package, the strict call fails for want of releases of the first one skipped. A
graceful call fails only over a duplicate, and then the strict call fails too. -/
theorem graceful_differs_by_skipping (fetch : String → Answer) (allVersions : Bool)
    (rs : List Requirement) :
    let strict := (requirements fetch ⟨false, allVersions⟩ rs).result
    let graceful := (requirements fetch ⟨true, allVersions⟩ rs).result
    (∀ res, strict = .ok res → graceful = .ok res ∧ res.skipped = []) ∧
    (∀ res, graceful = .ok res → res.skipped = [] → strict = .ok res) ∧
    (∀ res first rest, graceful = .ok res → res.skipped = first :: rest →
      ∃ reason, strict = .error (.unresolved first.name reason) ∧
        first.reason = skipReason reason) ∧
    ∀ e, graceful = .error e → (∃ package, e = .duplicate package) ∧ ∃ f, strict = .error f := by
  intro strict graceful
  refine ⟨fun res h => ?_, fun res h hnone => ?_, fun res first rest h hskipped => ?_,
    fun e h => ⟨?_, ?_⟩⟩
  · obtain ⟨hpass, rfl⟩ := requirements_eq_ok_iff.1 h
    obtain ⟨hgraceful, hnone⟩ := passes_strict_iff.1 hpass
    exact ⟨requirements_eq_ok_iff.2 ⟨hgraceful, rfl⟩, hnone⟩
  · obtain ⟨hpass, rfl⟩ := requirements_eq_ok_iff.1 h
    exact requirements_eq_ok_iff.2 ⟨passes_strict_iff.2 ⟨hpass, hnone⟩, rfl⟩
  · obtain ⟨hpass, rfl⟩ := requirements_eq_ok_iff.1 h
    exact strict_fails_at_first_skipped hpass hskipped
  · obtain ⟨_, _, _, _, _, hr⟩ := requirements_eq_error_iff.1 h
    exact failure?_of_graceful hr
  · have hfails := exists_error_iff.1 ⟨e, h⟩
    exact exists_error_iff.2 fun hpass => hfails (passes_strict_iff.1 hpass).1

/-- A call that skips nothing, one that skips an empty package and then one that
is not known, and one that asks for a package twice. -/
theorem graceful_differs_by_skipping_npm :
    let fetch := (((ReleaseIndex.empty "npm").withReleases "a" ["1.0"]).withReleases "b" []).fetch
    let met : List Requirement := [.anyVersion "a"]
    let short : List Requirement := [.anyVersion "a", .anyVersion "B", .anyVersion "c"]
    let twice : List Requirement := [.anyVersion "c", .anyVersion "a", .anyVersion "A"]
    (∃ res, (requirements fetch ⟨false, false⟩ met).result = .ok res ∧
      (requirements fetch ⟨true, false⟩ met).result = .ok res ∧ res.skipped = []) ∧
    (∃ res, (requirements fetch ⟨true, false⟩ met).result = .ok res ∧ res.skipped = [] ∧
      (requirements fetch ⟨false, false⟩ met).result = .ok res) ∧
    (∃ res first rest, (requirements fetch ⟨true, false⟩ short).result = .ok res ∧
      res.skipped = first :: rest ∧ first = ⟨"B", noReleases⟩ ∧
      ∃ reason, (requirements fetch ⟨false, false⟩ short).result =
        .error (.unresolved first.name reason)) ∧
    (requirements fetch ⟨true, false⟩ twice).result = .error (.duplicate "a") ∧
      ∃ f, (requirements fetch ⟨false, false⟩ twice).result = .error f := by
  intro fetch met short twice
  obtain ⟨hstrict, hgraceful, -, -⟩ := graceful_differs_by_skipping fetch false met
  obtain ⟨-, -, hshort, -⟩ := graceful_differs_by_skipping fetch false short
  obtain ⟨-, -, -, htwice⟩ := graceful_differs_by_skipping fetch false twice
  obtain ⟨res, hres⟩ : ∃ res, (requirements fetch ⟨false, false⟩ met).result = .ok res :=
    ⟨_, rfl⟩
  obtain ⟨hsame, hnone⟩ := hstrict res hres
  refine ⟨⟨res, hres, hsame, hnone⟩, ⟨res, hsame, hnone, hgraceful res hsame hnone⟩, ?_, ?_⟩
  · have hskips : ∃ res rest, (requirements fetch ⟨true, false⟩ short).result = .ok res ∧
        res.skipped = ⟨"B", noReleases⟩ :: rest := ⟨_, _, rfl, rfl⟩
    obtain ⟨res, rest, hok, hskipped⟩ := hskips
    obtain ⟨reason, herror, -⟩ := hshort res _ rest hok hskipped
    exact ⟨res, _, rest, hok, hskipped, rfl, reason, herror⟩
  · have hduplicate : (requirements fetch ⟨true, false⟩ twice).result =
        .error (.duplicate "a") := rfl
    exact ⟨hduplicate, (htwice _ hduplicate).2⟩

end Requirements.Solve
