import Mathlib
import Requirements.Proofs.Fallible
import Requirements.Proofs.Version.Sort
import Requirements.Registry.Index
import Requirements.Resolution.Solve

/-!
# Every requirement is accounted for once

When a solve call succeeds, each requirement has left one trace. Either its
package has no releases, and then it stands among the skipped ones under the
name it was asked for by, or its package has an entry of its own under the name
that the registry gave, and the entry holds what the requirement picks of the
releases. No entry replaces another, since a second requirement on a package
fails the call.
-/

namespace Requirements.Solve

/-- What is skipped for a requirement whose package has no releases. -/
def skipped? (fetch : String → Answer) (r : Requirement) : Option Skipped :=
  match fetch r.name with
  | .error failure => some ⟨r.name, failure.message⟩
  | .ok set => if set.releases = [] then some ⟨r.name, noReleases⟩ else none

/-- The releases to pick from for a requirement, if there are any. -/
def listed? (fetch : String → Answer) (r : Requirement) : Option ReleaseSet :=
  match fetch r.name with
  | .error _ => none
  | .ok set => if set.releases = [] then none else some set

theorem listed?_eq_some {fetch : String → Answer} {r : Requirement} {set : ReleaseSet}
    (hfetch : fetch r.name = .ok set) (hne : set.releases ≠ []) :
    listed? fetch r = some set := by
  simp [listed?, hfetch, hne]

/-- What a requirement picks of the releases of its package: nothing if none
meets it, else all that do in ascending order, or the last of the highest. -/
structure IsPicked (allVersions : Bool) (r : Requirement) (releases : List Version)
    (p : Picked) : Prop where
  unmatched : p = .unmatched ↔ ∀ v ∈ releases, r.accepts v = false
  every : p ≠ .unmatched → allVersions = true →
    ∃ vs, p = .every vs ∧ Version.IsStableSort (releases.filter r.accepts) vs
  latest : p ≠ .unmatched → allVersions = false →
    ∃ v, p = .latest v ∧ Version.IsLastHighest (releases.filter r.accepts) v

/-- The end of the sorted matches is picked, or all of them, unless there are none. -/
theorem ofSorted_isPicked (allVersions : Bool) (r : Requirement) (releases : List Version) :
    IsPicked allVersions r releases (Picked.ofSorted allVersions (matching r releases)) := by
  have hsort := Version.sort_isStableSort (releases.filter r.accepts)
  have hnone : matching r releases = [] ↔ ∀ v ∈ releases, r.accepts v = false := by
    have hperm : (matching r releases).Perm (releases.filter r.accepts) := hsort.perm
    constructor
    · intro hnil v hv
      rw [hnil] at hperm
      have hfilter := hperm.symm.eq_nil
      simpa using List.filter_eq_nil_iff.1 hfilter v hv
    · intro h
      have hfilter : releases.filter r.accepts = [] :=
        List.filter_eq_nil_iff.2 fun v hv => by simp [h v hv]
      rw [hfilter] at hperm
      exact hperm.eq_nil
  rcases List.eq_nil_or_concat (matching r releases) with hnil | ⟨vs, v, hvs⟩
  · have hpick : Picked.ofSorted allVersions (matching r releases) = .unmatched := by
      simp only [Picked.ofSorted, hnil, List.getLast?_nil]
    rw [hpick]
    exact ⟨⟨fun _ => hnone.1 hnil, fun _ => rfl⟩, fun h => absurd rfl h, fun h => absurd rfl h⟩
  · rw [List.concat_eq_append] at hvs
    have hpick : Picked.ofSorted allVersions (matching r releases) =
        if allVersions then .every (matching r releases) else .latest v := by
      simp only [Picked.ofSorted, hvs, List.getLast?_concat]
    rw [hpick]
    refine ⟨⟨fun h => ?_, fun h => ?_⟩, fun _ hall => ?_, fun _ hall => ?_⟩
    · split at h <;> cases h
    · rw [hnone.2 h] at hvs
      simp at hvs
    · exact ⟨matching r releases, by rw [if_pos hall], hsort⟩
    · refine ⟨v, by rw [hall]; rfl, ?_⟩
      have hlast : Version.IsStableSort (releases.filter r.accepts) (vs ++ [v]) := by
        rw [← hvs]
        exact hsort
      exact hlast.isLastHighest

/-! ## What one requirement does -/

/-- A requirement that does not fail the call is skipped, for want of an answer
or of releases, or gets an entry under a new name. -/
theorem step_eq_ok {options : SolveOptions} {s s' : State} {r : Requirement} {answer : Answer}
    (h : step options s r answer = .ok s') :
    (∃ failure, answer = .error failure ∧ options.graceful = true ∧
      s' = s.skip r.name failure.message) ∨
    (∃ set, answer = .ok set ∧ set.name ∉ s.seen ∧ set.releases = [] ∧
      options.graceful = true ∧
      s' = State.skip { s with seen := s.seen ++ [set.name] } r.name noReleases) ∨
    (∃ set, answer = .ok set ∧ set.name ∉ s.seen ∧ set.releases ≠ [] ∧
      s' = ⟨{ s.resolution with
          entries := s.resolution.entries.insert set.name
            (Picked.ofSorted options.allVersions (matching r set.releases)) },
        s.seen ++ [set.name]⟩) := by
  unfold step at h
  cases answer with
  | error failure =>
      dsimp only at h
      split at h
      · rename_i hg
        exact .inl ⟨failure, rfl, hg, (Except.ok.inj h).symm⟩
      · cases h
  | ok set =>
      dsimp only at h
      split at h
      · cases h
      · rename_i hseen
        have hfresh : set.name ∉ s.seen := fun hm => hseen (List.contains_iff_mem.2 hm)
        split at h
        · rename_i hempty
          have hnil := List.isEmpty_iff.1 hempty
          split at h
          · rename_i hg
            exact .inr (.inl ⟨set, rfl, hfresh, hnil, hg, (Except.ok.inj h).symm⟩)
          · cases h
        · rename_i hempty
          have hne : set.releases ≠ [] := fun hnil => hempty (List.isEmpty_iff.2 hnil)
          exact .inr (.inr ⟨set, rfl, hfresh, hne, (Except.ok.inj h).symm⟩)

/-- What fails a call is a second package of one name and, unless packages are
skipped, a package without an answer or without releases. -/
theorem step_eq_error_iff {options : SolveOptions} {s : State} {r : Requirement}
    {answer : Answer} {e : ResolutionError} :
    step options s r answer = .error e ↔
      (∃ failure, answer = .error failure ∧ options.graceful = false ∧
        e = .unresolved r.name (some failure)) ∨
      (∃ set, answer = .ok set ∧ set.name ∈ s.seen ∧ e = .duplicate set.name) ∨
      (∃ set, answer = .ok set ∧ set.name ∉ s.seen ∧ set.releases = [] ∧
        options.graceful = false ∧ e = .unresolved r.name none) := by
  unfold step
  cases answer with
  | error failure => cases options.graceful <;> simp [@eq_comm _ e]
  | ok set =>
      by_cases hseen : set.name ∈ s.seen
      · simp [hseen, @eq_comm _ e]
      · by_cases hnone : set.releases = [] <;> cases options.graceful <;>
          simp [hseen, hnone, @eq_comm _ e]

/-! ## The next step of a run -/

section

variable {source : Source} {options : SolveOptions} {s s' : State} {r : Requirement}
  {asked : List String}

@[simp] theorem run_call (source : Source) (package : String) (asked : List String) :
    (call source package).run asked = (source asked package, asked ++ [package]) :=
  rfl

theorem run_of_error {e : ResolutionError}
    (h : step options s r (source asked r.name) = .error e) (rs : List Requirement) :
    (run (call source) options s (r :: rs)).run asked = (.error e, asked ++ [r.name]) := by
  rw [run, run_bind, run_call, h]
  rfl

theorem run_of_ok (h : step options s r (source asked r.name) = .ok s')
    (rs : List Requirement) :
    (run (call source) options s (r :: rs)).run asked =
      (run (call source) options s' rs).run (asked ++ [r.name]) := by
  rw [run, run_bind, run_call, h]

theorem requirementsFrom_of_run {rs : List Requirement} {calls : List String}
    {result : Except ResolutionError Resolution}
    (h : (run (call source) options .initial rs).run [] = (result, calls)) :
    requirementsFrom source options rs = ⟨calls, result⟩ := by
  rw [requirementsFrom, h]

end

/-! ## What a run of them leaves -/

/-- The requirements met so far are accounted for in the state. -/
structure Accounted (fetch : String → Answer) (options : SolveOptions)
    (done : List Requirement) (s : State) : Prop where
  skipped : s.resolution.skipped = done.filterMap (skipped? fetch)
  strict : options.graceful = false → s.resolution.skipped = []
  keys : s.resolution.entries.keys.Perm ((done.filterMap (listed? fetch)).map (·.name))
  seen : ∀ name ∈ s.resolution.entries.keys, name ∈ s.seen
  picked : ∀ r ∈ done, ∀ set, listed? fetch r = some set →
    ∃ p, s.resolution.entries.find? set.name = some p ∧
      IsPicked options.allVersions r set.releases p

variable {fetch : String → Answer} {options : SolveOptions}

theorem accounted_initial : Accounted fetch options [] .initial where
  skipped := rfl
  strict := fun _ => rfl
  keys := .refl _
  seen := fun _ h => by simp [State.initial, Resolution.empty] at h
  picked := fun _ h => by simp at h

/-- A requirement that is skipped adds itself to the skipped ones only. -/
theorem Accounted.skip {done : List Requirement} {s : State} {r : Requirement} {reason : String}
    (hs : Accounted fetch options done s) (seen : List String)
    (hskip : skipped? fetch r = some ⟨r.name, reason⟩) (hlist : listed? fetch r = none)
    (hg : options.graceful = true) (hseen : ∀ name ∈ s.seen, name ∈ seen) :
    Accounted fetch options (done ++ [r]) (State.skip { s with seen := seen } r.name reason) where
  skipped := by simp [State.skip, hs.skipped, hskip]
  strict := fun h => by simp [hg] at h
  keys := by simpa [State.skip, hlist] using hs.keys
  seen := fun name hname => hseen name (hs.seen name hname)
  picked := by
    intro q hq set hset
    rcases List.mem_append.1 hq with hq | hq
    · exact hs.picked q hq set hset
    · rw [List.mem_singleton.1 hq, hlist] at hset
      cases hset

/-- A requirement that is met adds one entry under a name not seen before. -/
theorem Accounted.enter {done : List Requirement} {s : State} {r : Requirement}
    {set : ReleaseSet} (hs : Accounted fetch options done s) (hskip : skipped? fetch r = none)
    (hlist : listed? fetch r = some set) (hfresh : set.name ∉ s.seen) :
    Accounted fetch options (done ++ [r])
      ⟨{ s.resolution with
          entries := s.resolution.entries.insert set.name
            (Picked.ofSorted options.allVersions (matching r set.releases)) },
        s.seen ++ [set.name]⟩ := by
  have hnew : set.name ∉ s.resolution.entries.keys := fun h => hfresh (hs.seen _ h)
  have hkeys := Table.keys_insert_perm
    (v := Picked.ofSorted options.allVersions (matching r set.releases)) hnew
  constructor
  · simp [hs.skipped, hskip]
  · exact hs.strict
  · simp only [List.filterMap_append, List.filterMap_cons, List.filterMap_nil, hlist,
      List.map_append, List.map_cons, List.map_nil]
    exact hkeys.trans ((hs.keys.cons set.name).trans (List.perm_append_singleton _ _).symm)
  · intro name hname
    rcases List.mem_cons.1 (hkeys.mem_iff.1 hname) with rfl | hname
    · simp
    · exact List.mem_append_left _ (hs.seen name hname)
  · intro q hq other hother
    rcases List.mem_append.1 hq with hq | hq
    · -- An earlier entry stays: its name has been seen, and the new one has not.
      obtain ⟨p, hfind, hp⟩ := hs.picked q hq other hother
      have hne : set.name ≠ other.name := fun he =>
        hnew (he ▸ Table.mem_keys_of_find? hfind)
      exact ⟨p, by rw [Table.find?_insert, if_neg hne, hfind], hp⟩
    · rw [List.mem_singleton.1 hq] at hother ⊢
      obtain rfl := Option.some.inj (hlist.symm.trans hother)
      exact ⟨_, by rw [Table.find?_insert, if_pos rfl], ofSorted_isPicked _ _ _⟩

theorem Accounted.step {done : List Requirement} {s s' : State} {r : Requirement}
    (hs : Accounted fetch options done s) (h : step options s r (fetch r.name) = .ok s') :
    Accounted fetch options (done ++ [r]) s' := by
  rcases step_eq_ok h with ⟨failure, hf, hg, rfl⟩ | ⟨set, hf, hfresh, hnil, hg, rfl⟩ |
    ⟨set, hf, hfresh, hne, rfl⟩
  · exact hs.skip s.seen (by simp [skipped?, hf]) (by simp [listed?, hf]) hg fun _ h => h
  · exact hs.skip _ (by simp [skipped?, hf, hnil]) (by simp [listed?, hf, hnil]) hg
      fun _ h => List.mem_append_left _ h
  · exact hs.enter (by simp [skipped?, hf, hne]) (by simp [listed?, hf, hne]) hfresh

theorem Accounted.run {done rs : List Requirement} {s : State} {asked : List String}
    {res : Resolution} (hs : Accounted fetch options done s)
    (h : ((run (call fun _ => fetch) options s rs).run asked).1 = .ok res) :
    ∃ s', Accounted fetch options (done ++ rs) s' ∧ s'.resolution = res := by
  induction rs generalizing done s asked with
  | nil => exact ⟨s, by simpa using hs, Except.ok.inj h⟩
  | cons r rs ih =>
      cases hstep : Solve.step options s r (fetch r.name) with
      | error e =>
          rw [run_of_error hstep] at h
          cases h
      | ok s' =>
          rw [run_of_ok hstep] at h
          have hrest := ih (hs.step hstep) h
          rwa [List.append_assoc] at hrest

theorem exists_accounted {rs : List Requirement} {res : Resolution}
    (h : (requirements fetch options rs).result = .ok res) :
    ∃ s, Accounted fetch options rs s ∧ s.resolution = res := by
  have hrun : ((run (call fun _ => fetch) options .initial rs).run []).1 = .ok res := h
  exact accounted_initial.run hrun

/-- A requirement either has releases to pick from or is skipped. -/
theorem length_listed_add_skipped (fetch : String → Answer) (rs : List Requirement) :
    (rs.filterMap (listed? fetch)).length + (rs.filterMap (skipped? fetch)).length =
      rs.length := by
  induction rs with
  | nil => rfl
  | cons r rs ih =>
      have hone : (listed? fetch r = none ∧ ∃ x, skipped? fetch r = some x) ∨
          (skipped? fetch r = none ∧ ∃ set, listed? fetch r = some set) := by
        unfold listed? skipped?
        split
        · exact .inl ⟨rfl, _, rfl⟩
        · split
          · exact .inl ⟨rfl, _, rfl⟩
          · exact .inr ⟨rfl, _, rfl⟩
      rcases hone with ⟨hl, x, hx⟩ | ⟨hx, set, hl⟩
      all_goals
        rw [List.filterMap_cons, List.filterMap_cons, hl, hx]
        simp only [List.length_cons]
        omega

/-- The resolution of a successful call accounts for every requirement once. The
skipped ones are those whose package has no releases, in order and by their own
names, and there are none unless the call is graceful. The entries are those of
the other requirements, each under the name its registry gave, which are all
different, and each holds what its requirement picks. -/
theorem requirements_accounted (fetch : String → Answer) (options : SolveOptions)
    (rs : List Requirement) (res : Resolution)
    (h : (requirements fetch options rs).result = .ok res) :
    res.skipped = rs.filterMap (skipped? fetch) ∧
    (options.graceful = false → res.skipped = []) ∧
    res.entries.keys.Perm ((rs.filterMap (listed? fetch)).map (·.name)) ∧
    ((rs.filterMap (listed? fetch)).map (·.name)).Nodup ∧
    res.entries.size + res.skipped.length = rs.length ∧
    ∀ r ∈ rs, ∀ set, listed? fetch r = some set →
      ∃ p, res.entries.find? set.name = some p ∧
        IsPicked options.allVersions r set.releases p := by
  obtain ⟨s, hs, rfl⟩ := exists_accounted h
  refine ⟨hs.skipped, hs.strict, hs.keys, ?_, ?_, hs.picked⟩
  · exact hs.keys.nodup_iff.1 (Table.keys_nodup _)
  · have hsize := hs.keys.length_eq
    rw [Table.length_keys, List.length_map] at hsize
    rw [hsize, hs.skipped, length_listed_add_skipped]

/-- A package asked for in another spelling, one without releases and one that
is not known, in a graceful call. -/
theorem requirements_accounted_graceful :
    ∃ res, (requirements (((ReleaseIndex.empty "npm").withReleases "a-b"
        ["2.0", "3.0", "1.0", "2"]).withReleases "c" []).fetch ⟨true, false⟩
        [.ofTerm "A_b" ⟨.below, "3.0"⟩, .anyVersion "c", .anyVersion "d"]).result = .ok res ∧
      res.skipped.map (·.name) = ["c", "d"] ∧ res.entries.keys.Perm ["a-b"] ∧
      res.entries.find? "a-b" = some (.latest "2") ∧ res.entries.size + res.skipped.length = 3 := by
  have hmatch : matching (.ofTerm "A_b" ⟨.below, "3.0"⟩) ["2.0", "3.0", "1.0", "2"] =
      ["1.0", "2.0", "2"] := by cbv
  have h := requirements_accounted (((ReleaseIndex.empty "npm").withReleases "a-b"
    ["2.0", "3.0", "1.0", "2"]).withReleases "c" []).fetch ⟨true, false⟩
    [.ofTerm "A_b" ⟨.below, "3.0"⟩, .anyVersion "c", .anyVersion "d"] _ rfl
  refine ⟨_, rfl, ?_, h.2.2.1, ?_, h.2.2.2.2.1⟩
  · rw [h.1]
    rfl
  · rw [hmatch]
    rfl

end Requirements.Solve
