import Mathlib
import Requirements.Proofs.Resolution.Accounting
import Requirements.Proofs.Table

/-!
# When a call fails, and what it gives otherwise

Whether a requirement fails a call depends on the answer for its package, on
whether the call is graceful, and on the packages before it, through nothing but
the names their registry gave them. So the outcome of a whole call can be told
without following it: it fails at the first requirement that does, and if there
is none the resolution is read off the list of requirements.
-/

namespace Requirements.Solve

/-- The name that the registry gives the package of a requirement. -/
def named? (fetch : String → Answer) (r : Requirement) : Option String :=
  match fetch r.name with
  | .error _ => none
  | .ok set => some set.name

def picked? (fetch : String → Answer) (allVersions : Bool) (r : Requirement) :
    Option (String × Picked) :=
  (listed? fetch r).map fun set =>
    (set.name, Picked.ofSorted allVersions (matching r set.releases))

/-- Why a requirement fails a call, after those of `done`. -/
def failure? (fetch : String → Answer) (graceful : Bool) (done : List Requirement)
    (r : Requirement) : Option ResolutionError :=
  match fetch r.name with
  | .error failure => if graceful then none else some (.unresolved r.name (some failure))
  | .ok set =>
      if set.name ∈ done.filterMap (named? fetch) then some (.duplicate set.name)
      else if set.releases = [] ∧ graceful = false then some (.unresolved r.name none)
      else none

/-- None of the requirements fails the call: the packages are different, and in
a strict call all of them have releases. -/
structure Passes (fetch : String → Answer) (graceful : Bool) (rs : List Requirement) : Prop where
  distinct : (rs.filterMap (named? fetch)).Nodup
  listed : graceful = false → rs.filterMap (skipped? fetch) = []

def resolved (fetch : String → Answer) (allVersions : Bool) (rs : List Requirement) : Resolution :=
  ⟨Table.ofList (rs.filterMap (picked? fetch allVersions)), rs.filterMap (skipped? fetch)⟩

def State.after (fetch : String → Answer) (allVersions : Bool) (done : List Requirement) : State :=
  ⟨resolved fetch allVersions done, done.filterMap (named? fetch)⟩

variable {fetch : String → Answer} {options : SolveOptions} {graceful : Bool}

/-! ## One requirement -/

theorem filterMap_concat {α β : Type} (f : α → Option β) (xs : List α) (x : α) :
    (xs ++ [x]).filterMap f = xs.filterMap f ++ (f x).toList := by
  rw [List.filterMap_append, List.filterMap_cons]
  cases f x <;> rfl

theorem named?_eq_some_iff {r : Requirement} {package : String} :
    named? fetch r = some package ↔ ∃ releases, fetch r.name = .ok ⟨package, releases⟩ := by
  unfold named?
  cases fetch r.name with
  | error failure => simp
  | ok set =>
      constructor
      · intro h
        obtain rfl := Option.some.inj h
        exact ⟨set.releases, rfl⟩
      · rintro ⟨releases, h⟩
        rw [Except.ok.inj h]

/-- A requirement that does not fail is added to those done. -/
theorem step_after (done : List Requirement) (r : Requirement) :
    step options (.after fetch options.allVersions done) r (fetch r.name) =
      match failure? fetch options.graceful done r with
      | some e => .error e
      | none => .ok (.after fetch options.allVersions (done ++ [r])) := by
  simp only [State.after, resolved, filterMap_concat]
  unfold step failure?
  cases hf : fetch r.name with
  | error failure =>
      cases options.graceful <;> simp [State.skip, named?, picked?, skipped?, listed?, hf]
  | ok set =>
      by_cases hseen : set.name ∈ done.filterMap (named? fetch)
      · simp [hseen]
      · cases hr : set.releases with
        | nil =>
            cases options.graceful <;>
              simp [State.skip, named?, picked?, skipped?, listed?, hf, hr, hseen]
        | cons v vs =>
            simp [named?, picked?, skipped?, listed?, hf, hr, hseen, Table.ofList_concat]

theorem failure?_eq_none_iff {done : List Requirement} {r : Requirement} :
    failure? fetch graceful done r = none ↔
      (∀ name ∈ named? fetch r, name ∉ done.filterMap (named? fetch)) ∧
        (graceful = false → skipped? fetch r = none) := by
  unfold failure?
  generalize done.filterMap (named? fetch) = earlier
  unfold named? skipped?
  cases fetch r.name with
  | error failure => cases graceful <;> simp
  | ok set =>
      by_cases hseen : set.name ∈ earlier
      · simp [hseen]
      · by_cases hr : set.releases = [] <;> cases graceful <;> simp [hseen, hr]

/-- Requirements pass as long as none of them fails after those before it. -/
theorem passes_concat {done : List Requirement} {r : Requirement} :
    Passes fetch graceful (done ++ [r]) ↔
      Passes fetch graceful done ∧ failure? fetch graceful done r = none := by
  rw [failure?_eq_none_iff]
  constructor
  · rintro ⟨hdistinct, hlisted⟩
    rw [filterMap_concat] at hdistinct
    simp only [filterMap_concat, List.append_eq_nil_iff] at hlisted
    obtain ⟨hdone, -, hnew⟩ := List.nodup_append.1 hdistinct
    refine ⟨⟨hdone, fun hg => (hlisted hg).1⟩, fun name hname hmem => ?_, fun hg => ?_⟩
    · exact hnew name hmem name (Option.mem_toList.2 hname) rfl
    · exact Option.toList_eq_nil_iff.1 (hlisted hg).2
  · rintro ⟨⟨hdone, hlisted⟩, hnew, hr⟩
    refine ⟨?_, fun hg => ?_⟩
    · rw [filterMap_concat]
      refine List.nodup_append.2 ⟨hdone, ?_, fun a ha b hb hab => ?_⟩
      · cases named? fetch r <;> simp
      · exact hnew b (Option.mem_toList.1 hb) (hab ▸ ha)
    · rw [filterMap_concat, hlisted hg, hr hg]
      rfl

theorem passes_nil : Passes fetch graceful [] where
  distinct := .nil
  listed := fun _ => rfl

theorem Passes.front {front back : List Requirement} (h : Passes fetch graceful (front ++ back)) :
    Passes fetch graceful front where
  distinct := by
    have hdistinct := h.distinct
    rw [List.filterMap_append] at hdistinct
    exact hdistinct.of_append_left
  listed := fun hg => by
    have hlisted := h.listed hg
    rw [List.filterMap_append, List.append_eq_nil_iff] at hlisted
    exact hlisted.1

/-! ## All of them -/

/-- Requirements that pass are all asked for. -/
theorem run_after {done rs : List Requirement} (h : Passes fetch options.graceful (done ++ rs))
    (asked : List String) :
    (run (call fun _ => fetch) options (.after fetch options.allVersions done) rs).run asked =
      (.ok (resolved fetch options.allVersions (done ++ rs)), asked ++ rs.map (·.name)) := by
  induction rs generalizing done asked with
  | nil =>
      rw [List.append_nil, List.map_nil, List.append_nil]
      rfl
  | cons r rs ih =>
      rw [List.append_cons] at h ⊢
      have hstep : step options (.after fetch options.allVersions done) r (fetch r.name) =
          .ok (.after fetch options.allVersions (done ++ [r])) := by
        rw [step_after, (passes_concat.1 h.front).2]
      rw [run_of_ok hstep, ih h, List.append_assoc asked]
      rfl

/-- Nothing is asked for after the requirement that fails. -/
theorem run_after_failure {done front : List Requirement} {r : Requirement} {e : ResolutionError}
    (h : Passes fetch options.graceful (done ++ front))
    (hr : failure? fetch options.graceful (done ++ front) r = some e) (back : List Requirement)
    (asked : List String) :
    (run (call fun _ => fetch) options (.after fetch options.allVersions done)
        (front ++ r :: back)).run asked =
      (.error e, asked ++ (front ++ [r]).map (·.name)) := by
  induction front generalizing done asked with
  | nil =>
      have hstep : step options (.after fetch options.allVersions done) r (fetch r.name) =
          .error e := by
        rw [List.append_nil] at hr
        rw [step_after, hr]
      exact run_of_error hstep back
  | cons q front ih =>
      rw [List.append_cons] at h hr
      have hstep : step options (.after fetch options.allVersions done) q (fetch q.name) =
          .ok (.after fetch options.allVersions (done ++ [q])) := by
        rw [step_after, (passes_concat.1 h.front).2]
      rw [List.cons_append, run_of_ok hstep, ih h hr, List.append_assoc asked]
      rfl

/-- Either all requirements pass or there is a first one that fails. -/
theorem passes_or_failure (fetch : String → Answer) (graceful : Bool) (rs : List Requirement) :
    Passes fetch graceful rs ∨ ∃ front r back e, rs = front ++ r :: back ∧
      Passes fetch graceful front ∧ failure? fetch graceful front r = some e := by
  induction rs using List.reverseRecOn with
  | nil => exact .inl passes_nil
  | append_singleton rs r ih =>
      rcases ih with h | ⟨front, q, back, e, rfl, hfront, hq⟩
      · cases hr : failure? fetch graceful rs r with
        | none => exact .inl (passes_concat.2 ⟨h, hr⟩)
        | some e => exact .inr ⟨rs, r, [], e, rfl, h, hr⟩
      · exact .inr ⟨front, q, back ++ [r], e, by simp, hfront, hq⟩

theorem requirements_of_passes {rs : List Requirement} (h : Passes fetch options.graceful rs) :
    requirements fetch options rs =
      ⟨rs.map (·.name), .ok (resolved fetch options.allVersions rs)⟩ :=
  requirementsFrom_of_run (@run_after fetch options [] rs h [])

theorem requirements_of_failure {front : List Requirement} {r : Requirement} {e : ResolutionError}
    (h : Passes fetch options.graceful front)
    (hr : failure? fetch options.graceful front r = some e) (back : List Requirement) :
    requirements fetch options (front ++ r :: back) =
      ⟨(front ++ [r]).map (·.name), .error e⟩ :=
  requirementsFrom_of_run (@run_after_failure fetch options [] front r e h hr back [])

theorem requirements_eq_ok_iff {rs : List Requirement} {res : Resolution} :
    (requirements fetch options rs).result = .ok res ↔
      Passes fetch options.graceful rs ∧ res = resolved fetch options.allVersions rs := by
  constructor
  · intro h
    rcases passes_or_failure fetch options.graceful rs with hall | ⟨_, _, _, _, rfl, hfront, hr⟩
    · rw [requirements_of_passes hall] at h
      exact ⟨hall, (Except.ok.inj h).symm⟩
    · rw [requirements_of_failure hfront hr] at h
      cases h
  · rintro ⟨h, rfl⟩
    rw [requirements_of_passes h]

theorem requirements_eq_error_iff {rs : List Requirement} {e : ResolutionError} :
    (requirements fetch options rs).result = .error e ↔
      ∃ front r back, rs = front ++ r :: back ∧ Passes fetch options.graceful front ∧
        failure? fetch options.graceful front r = some e := by
  constructor
  · intro h
    rcases passes_or_failure fetch options.graceful rs with hall |
      ⟨front, r, back, f, rfl, hfront, hr⟩
    · rw [requirements_of_passes hall] at h
      cases h
    · rw [requirements_of_failure hfront hr] at h
      exact ⟨front, r, back, rfl, hfront, hr.trans (congrArg some (Except.error.inj h))⟩
  · rintro ⟨front, r, back, rfl, hfront, hr⟩
    rw [requirements_of_failure hfront hr]

theorem exists_error_iff {rs : List Requirement} :
    (∃ e, (requirements fetch options rs).result = .error e) ↔
      ¬ Passes fetch options.graceful rs := by
  constructor
  · rintro ⟨e, he⟩ h
    rw [requirements_of_passes h] at he
    cases he
  · intro h
    cases hres : (requirements fetch options rs).result with
    | error e => exact ⟨e, rfl⟩
    | ok res => exact absurd (requirements_eq_ok_iff.1 hres).1 h

/-! ## Entries of a resolution -/

theorem map_fst_picked_sublist (fetch : String → Answer) (allVersions : Bool)
    (rs : List Requirement) :
    ((rs.filterMap (picked? fetch allVersions)).map (·.1)).Sublist
      (rs.filterMap (named? fetch)) := by
  induction rs with
  | nil => exact .slnil
  | cons r rs ih =>
      cases hf : fetch r.name with
      | error failure =>
          rw [List.filterMap_cons_none (by simp [picked?, listed?, hf]),
            List.filterMap_cons_none (by simp [named?, hf])]
          exact ih
      | ok set =>
          have hnamed : named? fetch r = some set.name := by simp [named?, hf]
          rw [List.filterMap_cons_some hnamed]
          by_cases hr : set.releases = []
          · rw [List.filterMap_cons_none (by simp [picked?, listed?, hf, hr])]
            exact ih.cons _
          · have hpicked : picked? fetch allVersions r =
                some (set.name, Picked.ofSorted allVersions (matching r set.releases)) := by
              simp [picked?, listed?, hf, hr]
            rw [List.filterMap_cons_some hpicked]
            exact ih.cons_cons _

theorem Passes.nodup_keys {rs : List Requirement} (h : Passes fetch graceful rs)
    (allVersions : Bool) : ((rs.filterMap (picked? fetch allVersions)).map (·.1)).Nodup :=
  h.distinct.sublist (map_fst_picked_sublist fetch allVersions rs)

theorem Passes.find?_resolved {rs : List Requirement} (h : Passes fetch graceful rs)
    (allVersions : Bool) {r : Requirement} (hr : r ∈ rs) {set : ReleaseSet}
    (hset : listed? fetch r = some set) :
    (resolved fetch allVersions rs).entries.find? set.name =
      some (Picked.ofSorted allVersions (matching r set.releases)) := by
  refine Table.find?_ofList_of_mem (h.nodup_keys allVersions) (List.mem_filterMap.2 ⟨r, hr, ?_⟩)
  rw [picked?, hset]
  rfl

/-- An entry is what one of the requirements picked. -/
theorem exists_of_find?_resolved {allVersions : Bool} {rs : List Requirement} {package : String}
    {p : Picked} (h : (resolved fetch allVersions rs).entries.find? package = some p) :
    ∃ r ∈ rs, ∃ releases, fetch r.name = .ok ⟨package, releases⟩ ∧
      p = Picked.ofSorted allVersions (matching r releases) := by
  obtain ⟨r, hr, hpicked⟩ := List.mem_filterMap.1 (Table.mem_of_find?_ofList h)
  refine ⟨r, hr, ?_⟩
  unfold picked? listed? at hpicked
  cases hf : fetch r.name with
  | error failure => simp [hf] at hpicked
  | ok set =>
      simp only [hf] at hpicked
      split at hpicked
      · cases hpicked
      · cases hpicked
        exact ⟨set.releases, rfl, rfl⟩

/-- No two requirements that pass have packages of one name. -/
theorem Passes.eq_of_named? {rs : List Requirement} (h : Passes fetch graceful rs)
    {r s : Requirement} (hr : r ∈ rs) (hs : s ∈ rs) {package : String}
    (hrname : named? fetch r = some package) (hsname : named? fetch s = some package) :
    r = s := by
  by_contra hne
  have hdiffer := List.pairwise_filterMap.1 h.distinct
  have : Std.Symm fun a b : Requirement => ∀ x, named? fetch a = some x →
      ∀ y, named? fetch b = some y → x ≠ y :=
    ⟨fun _ _ hab x hx y hy => (hab y hy x hx).symm⟩
  exact hdiffer.forall hr hs hne package hrname package hsname rfl

/-! ## Why a call fails -/

theorem failure?_eq_duplicate {done : List Requirement} {r : Requirement} {package : String}
    (h : failure? fetch graceful done r = some (.duplicate package)) :
    named? fetch r = some package ∧ package ∈ done.filterMap (named? fetch) := by
  unfold failure? at h
  unfold named?
  split at h
  · split at h <;> cases h
  · split at h
    · rename_i set hf hseen
      obtain rfl := ResolutionError.duplicate.inj (Option.some.inj h)
      exact ⟨rfl, hseen⟩
    · split at h <;> cases h

/-- A graceful call fails for want of a difference between packages only. -/
theorem failure?_of_graceful {done : List Requirement} {r : Requirement} {e : ResolutionError}
    (h : failure? fetch true done r = some e) : ∃ package, e = .duplicate package := by
  unfold failure? at h
  split at h
  · cases h
  · split at h
    · exact ⟨_, (Option.some.inj h).symm⟩
    · rw [if_neg (by simp)] at h
      cases h

theorem duplicate_of_graceful {rs : List Requirement} {e : ResolutionError}
    (hg : options.graceful = true) (h : (requirements fetch options rs).result = .error e) :
    ∃ package, e = .duplicate package := by
  obtain ⟨_, _, _, _, _, hr⟩ := requirements_eq_error_iff.1 h
  rw [hg] at hr
  exact failure?_of_graceful hr

/-- The reason told for a skipped package. -/
def skipReason (reason : Option RegistryError) : String :=
  (reason.map RegistryError.message).getD noReleases

/-- A requirement whose package is a new one fails a call only where it would be
skipped in a graceful one. -/
theorem failure?_of_new {done : List Requirement} {r : Requirement} {e : ResolutionError}
    (h : failure? fetch graceful done r = some e)
    (hnew : ∀ name ∈ named? fetch r, name ∉ done.filterMap (named? fetch)) :
    ∃ reason, e = .unresolved r.name reason ∧
      skipped? fetch r = some ⟨r.name, skipReason reason⟩ := by
  unfold failure? at h
  generalize done.filterMap (named? fetch) = earlier at h hnew
  unfold named? at hnew
  unfold skipped?
  cases hf : fetch r.name with
  | error failure =>
      simp only [hf] at h
      split at h
      · cases h
      · exact ⟨some failure, (Option.some.inj h).symm, rfl⟩
  | ok set =>
      simp only [hf, Option.mem_some_iff, forall_eq'] at h hnew
      rw [if_neg hnew] at h
      split at h
      · rename_i hr
        exact ⟨none, (Option.some.inj h).symm, if_pos hr.1⟩
      · cases h

end Requirements.Solve
