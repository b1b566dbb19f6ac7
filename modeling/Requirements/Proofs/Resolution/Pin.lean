import Mathlib
import Requirements.Proofs.Fallible
import Requirements.Proofs.Resolution.Accounting
import Requirements.Proofs.Specifier.Exact

/-!
# What a pin resolves to

A pin admits every release that ranks equal to the version it names, and the
registry may list several: all of `v1.8.0`, `v2.8.0` and `v3.8` rank equal,
since their first segments are words. Of these the last one in the order of the
registry is picked, which is the pinned one if no other release has its rank.
-/

namespace Requirements

namespace Version

/-- `w` ranks equal to `v` and is the last in the list that does. -/
def IsLastEqual (vs : List Version) (v w : Version) : Prop :=
  ∃ before after, vs = before ++ w :: after ∧ compare w v = .eq ∧
    ∀ x ∈ after, compare x v ≠ .eq

theorem IsLastEqual.mem {vs : List Version} {v w : Version} (h : IsLastEqual vs v w) :
    w ∈ vs := by
  obtain ⟨before, after, rfl, _⟩ := h
  simp

theorem IsLastEqual.filter_eq {vs : List Version} {v w : Version} (h : IsLastEqual vs v w) :
    ∃ before, vs.filter (equal v) = before ++ [w] := by
  obtain ⟨before, after, rfl, hw, hafter⟩ := h
  have hequal : equal v w = true := equal_iff.2 (equivalence_equal.symm hw)
  have hnone : after.filter (equal v) = [] := by
    apply List.filter_eq_nil_iff.2
    intro x hx he
    exact hafter x hx (equivalence_equal.symm (equal_iff.1 he))
  refine ⟨before.filter (equal v), ?_⟩
  rw [List.filter_append, List.filter_cons, if_pos hequal, hnone]

theorem IsLastEqual.unique {vs : List Version} {v w x : Version} (hw : IsLastEqual vs v w)
    (hx : IsLastEqual vs v x) : w = x := by
  obtain ⟨front, hfront⟩ := hw.filter_eq
  obtain ⟨back, hback⟩ := hx.filter_eq
  have hlast := congrArg List.getLast? (hfront.symm.trans hback)
  simpa using hlast

/-- The last of the highest among the versions of one rank is the last of that rank. -/
theorem IsLastHighest.isLastEqual {vs : List Version} {p : Version → Bool} {v w : Version}
    (hp : ∀ x, p x = true ↔ compare x v = .eq) (h : IsLastHighest (vs.filter p) w) :
    IsLastEqual vs v w := by
  obtain ⟨before, after, hfilter, _, hafter⟩ := h
  have hrank : ∀ x ∈ before ++ w :: after, compare x v = .eq := by
    intro x hx
    rw [← hfilter] at hx
    exact (hp x).1 (List.mem_filter.1 hx).2
  have hw : compare w v = .eq := hrank w (by simp)
  -- Nothing of the rank can stand below another version of the rank.
  have hnil : after = [] := by
    apply List.eq_nil_iff_forall_not_mem.2
    intro x hx
    have hlt := hafter x hx
    rw [equivalence_equal.trans (hrank x (by simp [hx])) (equivalence_equal.symm hw)] at hlt
    cases hlt
  rw [hnil] at hfilter
  obtain ⟨front, back, rfl, -, hback⟩ := List.filter_eq_append_iff.1 hfilter
  obtain ⟨middle, rest, rfl, -, -, hrest⟩ := List.filter_eq_cons_iff.1 hback
  refine ⟨front ++ middle, rest, by simp, hw, fun x hx he => ?_⟩
  exact List.filter_eq_nil_iff.1 hrest x hx ((hp x).2 he)

end Version

namespace Solve

variable {fetch : String → Answer} {options : SolveOptions}

theorem exists_requirements_singleton (options : SolveOptions) {r : Requirement}
    {set : ReleaseSet} (hfetch : fetch r.name = .ok set) (hne : set.releases ≠ []) :
    ∃ res, (requirements fetch options [r]).result = .ok res := by
  have hempty := List.isEmpty_eq_false_iff.2 hne
  have hstep : ∃ s, step options .initial r (fetch r.name) = .ok s := by
    simp [step, hfetch, State.initial, hempty]
  obtain ⟨s, hs⟩ := hstep
  exact ⟨s.resolution, congrArg Outcome.result (requirementsFrom_of_run (run_of_ok hs []))⟩

/-- The specifiers of a call that succeeds read as requirements, which it meets. -/
theorem specifiers_eq_ok {e : Ecosystem} {ss : List String} {res : Resolution}
    (h : (specifiers e fetch options ss).result = .ok res) :
    ∃ rs, e.parseAll ss = .ok rs ∧ (requirements fetch options rs).result = .ok res := by
  unfold specifiers specifiersFrom at h
  split at h
  · cases h
  · rename_i rs hrs
    exact ⟨rs, hrs, h⟩

theorem specifiers_singleton {e : Ecosystem} {s : String} {r : Requirement}
    (h : e.parse s = .ok r) :
    specifiers e fetch options [s] = requirements fetch options [r] := by
  have hall : e.parseAll [s] = .ok [r] :=
    mapM_eq_ok.2 (.cons h .nil)
  rw [specifiers, specifiersFrom, hall]
  rfl

/-- In a call for the highest releases, an exact term picks the last release of
its rank. -/
theorem find?_of_exact {rs : List Requirement} {res : Resolution} {graceful : Bool}
    (h : (requirements fetch ⟨graceful, false⟩ rs).result = .ok res) {name : String}
    {version : Version} (hr : .ofTerm name (.exact version) ∈ rs) {set : ReleaseSet}
    (hfetch : fetch name = .ok set) (hmem : version ∈ set.releases) :
    ∃ w, Version.IsLastEqual set.releases version w ∧
      res.entries.find? set.name = some (.latest w) := by
  obtain ⟨s, hs, rfl⟩ := exists_accounted h
  have hlist := listed?_eq_some (r := .ofTerm name (.exact version)) hfetch
    (List.ne_nil_of_mem hmem)
  obtain ⟨p, hfind, hp⟩ := hs.picked _ hr set hlist
  have hmatched : p ≠ .unmatched := by
    intro hnone
    have hrefused := hp.unmatched.1 hnone version hmem
    have haccepted := (Requirement.accepts_exact name).2
      (Version.equivalence_equal.refl version)
    rw [hrefused] at haccepted
    cases haccepted
  obtain ⟨w, rfl, hw⟩ := hp.latest hmatched rfl
  exact ⟨w, hw.isLastEqual fun x => Requirement.accepts_exact name, hfind⟩

/-- A pin on a listed version resolves to the last release, in the order of the
registry, that ranks equal to the version: to the version itself if no other
release does. This holds alone and along with other specifiers. -/
theorem pin_resolves_to_last_of_rank (e : Ecosystem) (he : e.grammar = .pin)
    (s name version : String) (hwords : Text.words s.toList = [name.toList, version.toList])
    (r : Requirement) (hs : e.parse s = .ok r) (fetch : String → Answer) (set : ReleaseSet)
    (hfetch : fetch name = .ok set) (hmem : version ∈ set.releases) (graceful : Bool) :
    ∃ w, Version.IsLastEqual set.releases version w ∧
      ((∀ x ∈ set.releases, Version.compare x version = .eq → x = version) → w = version) ∧
      (∃ res, (specifiers e fetch ⟨graceful, false⟩ [s]).result = .ok res ∧
        res.entries.find? set.name = some (.latest w)) ∧
      ∀ ss res, s ∈ ss → (specifiers e fetch ⟨graceful, false⟩ ss).result = .ok res →
        res.entries.find? set.name = some (.latest w) := by
  have hread : e.grammar.read s.toList = .ok r := Ecosystem.parse_eq_ok.1 hs
  rw [he] at hread
  obtain rfl := Pin.eq_of_read hwords hread
  obtain ⟨res, hres⟩ := exists_requirements_singleton ⟨graceful, false⟩
    (r := .ofTerm name (.exact version)) hfetch (List.ne_nil_of_mem hmem)
  obtain ⟨w, hw, hfind⟩ := find?_of_exact hres List.mem_cons_self hfetch hmem
  refine ⟨w, hw, fun hunique => ?_, ⟨res, ?_, hfind⟩, fun ss res' hss hres' => ?_⟩
  · obtain ⟨_, _, _, hrank, _⟩ := id hw
    exact hunique w hw.mem hrank
  · rw [specifiers_singleton hs]
    exact hres
  · obtain ⟨rs, hrs, hmet⟩ := specifiers_eq_ok hres'
    obtain ⟨r, hr, hparse⟩ := exists_mem_of_mapM hrs hss
    obtain rfl := Except.ok.inj (hs.symm.trans hparse)
    obtain ⟨x, hx, hfind'⟩ := find?_of_exact hmet hr hfetch hmem
    rw [hfind', hx.unique hw]

/-- A release with another first segment, listed in front of the pinned one. -/
theorem pin_resolves_to_last_of_rank_go :
    let releases := ["v2.8.0", "v1.9.0", "v1.8.0", "v1.7.3"]
    let fetch := ((ReleaseIndex.empty "Go Proxy").withReleases "example.com/m" releases).fetch
    Ecosystem.go.grammar = .pin ∧
    Text.words "example.com/m v1.8.0".toList = ["example.com/m".toList, "v1.8.0".toList] ∧
    Ecosystem.go.parse "example.com/m v1.8.0" =
      .ok (.ofTerm "example.com/m" (.exact "v1.8.0")) ∧
    fetch "example.com/m" = .ok ⟨"example.com/m", releases⟩ ∧ "v1.8.0" ∈ releases ∧
    ∃ w, Version.IsLastEqual releases "v1.8.0" w ∧
      ∃ res, (specifiers .go fetch ⟨false, false⟩ ["example.com/m v1.8.0"]).result = .ok res ∧
        res.entries.find? "example.com/m" = some (.latest w) := by
  intro releases fetch
  have hwords : Text.words "example.com/m v1.8.0".toList =
      ["example.com/m".toList, "v1.8.0".toList] := by decide +kernel
  have hparse : Ecosystem.go.parse "example.com/m v1.8.0" =
      .ok (.ofTerm "example.com/m" (.exact "v1.8.0")) := by decide +kernel
  have hfetch : fetch "example.com/m" = .ok ⟨"example.com/m", releases⟩ := by cbv
  have hmem : "v1.8.0" ∈ releases := by decide
  obtain ⟨w, hw, _, hres, _⟩ := pin_resolves_to_last_of_rank .go rfl "example.com/m v1.8.0"
    "example.com/m" "v1.8.0" hwords _ hparse fetch _ hfetch hmem false
  exact ⟨rfl, hwords, hparse, hfetch, hmem, w, hw, hres⟩

/-- A release with another first segment, listed after the pinned one, takes its
place. So a pin may resolve to a release that it does not name. -/
theorem not_pin_resolves_to_version :
    ¬ ∀ (e : Ecosystem) (s name version : String) (fetch : String → Answer) (set : ReleaseSet)
        (graceful : Bool), e.grammar = .pin →
      Text.words s.toList = [name.toList, version.toList] → (∃ r, e.parse s = .ok r) →
      fetch name = .ok set → set.releases.Nodup → version ∈ set.releases →
      ∃ res, (specifiers e fetch ⟨graceful, false⟩ [s]).result = .ok res ∧
        res.entries.find? set.name = some (.latest version) := by
  intro hall
  let set : ReleaseSet := ⟨"example.com/m", ["v1.8.0", "v2.8.0"]⟩
  have hparse : Ecosystem.go.parse "example.com/m v1.8.0" =
      .ok (.ofTerm "example.com/m" (.exact "v1.8.0")) := by decide +kernel
  obtain ⟨res, hres, hfind⟩ := hall .go "example.com/m v1.8.0" "example.com/m" "v1.8.0"
    (fun _ => .ok set) set false rfl (by decide +kernel) ⟨_, hparse⟩ rfl (by decide) (by decide)
  rw [specifiers_singleton hparse] at hres
  have hmatching : matching (.ofTerm "example.com/m" (.exact "v1.8.0")) set.releases =
      ["v1.8.0", "v2.8.0"] := by cbv
  have hpicked : (requirements (fun _ => .ok set) ⟨false, false⟩
      [.ofTerm "example.com/m" (.exact "v1.8.0")]).result =
        .ok ⟨Table.empty.insert "example.com/m" (.latest "v2.8.0"), []⟩ := by
    simp only [requirements, requirementsFrom, run, run_bind, run_call, step, hmatching]
    rfl
  rw [hpicked] at hres
  obtain rfl := Except.ok.inj hres
  rw [Table.find?_insert, if_pos rfl] at hfind
  exact absurd hfind (by decide)

end Solve

end Requirements
