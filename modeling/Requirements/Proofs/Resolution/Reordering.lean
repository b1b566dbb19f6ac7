import Mathlib
import Requirements.Proofs.Resolution.Outcome

/-!
# Orders that a resolution does not depend on

The requirements of a call may be put in any order. Then the call fails at
another place, or skips in another order, but it succeeds with the same entries.

A registry may list the releases of a package in any order. Versions of equal
rank then change places in the sorted matches, so what is picked stays the same
up to rank, and stays the same text where no two different matches rank equal.
-/

namespace Requirements

namespace Picked

/-- Picks of one kind whose versions rank equal, place by place. -/
inductive SameRanks : Picked → Picked → Prop
  | latest {v w : Version} (h : Version.compare v w = .eq) : SameRanks (.latest v) (.latest w)
  | every {vs ws : List Version} (h : List.Forall₂ (fun v w => Version.compare v w = .eq) vs ws) :
      SameRanks (.every vs) (.every ws)
  | unmatched : SameRanks .unmatched .unmatched

theorem ofSorted_sameRanks (allVersions : Bool) {vs ws : List Version}
    (h : List.Forall₂ (fun v w => Version.compare v w = .eq) vs ws) :
    SameRanks (ofSorted allVersions vs) (ofSorted allVersions ws) := by
  have hends := Version.rel_getLast? h
  unfold ofSorted
  generalize vs.getLast? = v at hends ⊢
  generalize ws.getLast? = w at hends ⊢
  cases hends with
  | none => exact .unmatched
  | some hvw =>
      cases allVersions with
      | false => exact .latest hvw
      | true => exact .every h

end Picked

namespace Solve

variable {options : SolveOptions}

/-! ## The order of the requirements -/

section Requirements

variable {fetch : String → Answer} {graceful : Bool} {rs qs : List Requirement}

theorem Passes.perm (h : Passes fetch graceful rs) (hperm : rs.Perm qs) :
    Passes fetch graceful qs where
  distinct := (hperm.filterMap _).nodup_iff.1 h.distinct
  listed := fun hg => by
    have hskipped := hperm.filterMap (skipped? fetch)
    rw [h.listed hg] at hskipped
    exact hskipped.symm.eq_nil

/-- A call succeeds in any order of its requirements or in none. If it does, the
entries are the same and the skipped packages are the same up to order. A
graceful call that fails does so over a duplicate in every order. -/
theorem requirements_perm (hperm : rs.Perm qs) (fetch : String → Answer)
    (options : SolveOptions) :
    (∃ res other, (requirements fetch options rs).result = .ok res ∧
      (requirements fetch options qs).result = .ok other ∧
      res.entries = other.entries ∧ res.skipped.Perm other.skipped) ∨
    ∃ e f, (requirements fetch options rs).result = .error e ∧
      (requirements fetch options qs).result = .error f ∧
      (options.graceful = true →
        (∃ package, e = .duplicate package) ∧ ∃ package, f = .duplicate package) := by
  by_cases h : Passes fetch options.graceful rs
  · refine .inl ⟨_, _, requirements_eq_ok_iff.2 ⟨h, rfl⟩,
      requirements_eq_ok_iff.2 ⟨h.perm hperm, rfl⟩, ?_, hperm.filterMap _⟩
    exact Table.ofList_perm (h.nodup_keys _) (hperm.filterMap _)
  · obtain ⟨e, he⟩ := exists_error_iff.2 h
    obtain ⟨f, hf⟩ := exists_error_iff.2 fun hq => h (hq.perm hperm.symm)
    exact .inr ⟨e, f, he, hf, fun hg => ⟨duplicate_of_graceful hg he, duplicate_of_graceful hg hf⟩⟩

/-- A call that skips two packages, and one over a package asked for twice, in
the opposite orders. -/
theorem requirements_perm_reversed :
    let fetch := (((ReleaseIndex.empty "npm").withReleases "a" ["1.0"]).withReleases "b" []).fetch
    let short : List Requirement := [.anyVersion "B", .anyVersion "a", .anyVersion "c"]
    let twice : List Requirement := [.anyVersion "c", .anyVersion "a", .anyVersion "A"]
    short.Perm short.reverse ∧ twice.Perm twice.reverse ∧
    (∃ res other, (requirements fetch ⟨true, false⟩ short).result = .ok res ∧
      (requirements fetch ⟨true, false⟩ short.reverse).result = .ok other ∧
      res.entries = other.entries ∧ res.skipped.Perm other.skipped ∧
      res.skipped.map (·.name) = ["B", "c"] ∧ other.skipped.map (·.name) = ["c", "B"]) ∧
    ∃ e f, (requirements fetch ⟨true, false⟩ twice).result = .error e ∧
      (requirements fetch ⟨true, false⟩ twice.reverse).result = .error f ∧
      (∃ package, e = .duplicate package) ∧ ∃ package, f = .duplicate package := by
  intro fetch short twice
  have hshort : short.Perm short.reverse := short.reverse_perm.symm
  have htwice : twice.Perm twice.reverse := twice.reverse_perm.symm
  refine ⟨hshort, htwice, ?_, ?_⟩
  · obtain ⟨res, other, hres, hother, hentries, hskipped⟩ | ⟨e, f, he, -⟩ :=
      requirements_perm hshort fetch ⟨true, false⟩
    · refine ⟨res, other, hres, hother, hentries, hskipped, ?_, ?_⟩
      · obtain rfl := Except.ok.inj hres
        rfl
      · obtain rfl := Except.ok.inj hother
        rfl
    · cases he
  · obtain ⟨res, other, hres, -⟩ | ⟨e, f, he, hf, hduplicate⟩ :=
      requirements_perm htwice fetch ⟨true, false⟩
    · cases hres
    · exact ⟨e, f, he, hf, hduplicate rfl⟩

end Requirements

/-! ## The order of the releases -/

/-- The same failure, or the same package with its releases in another order. -/
def Reordered (answer other : Answer) : Prop :=
  (∃ e, answer = .error e ∧ other = .error e) ∨
    ∃ name vs ws, answer = .ok ⟨name, vs⟩ ∧ other = .ok ⟨name, ws⟩ ∧ vs.Perm ws

section Releases

variable {fetch other : String → Answer}

theorem Reordered.refl (answer : Answer) : Reordered answer answer := by
  cases answer with
  | error failure => exact .inl ⟨failure, rfl, rfl⟩
  | ok set => exact .inr ⟨set.name, set.releases, set.releases, rfl, rfl, .refl _⟩

theorem eq_nil_iff_of_perm {vs ws : List Version} (h : vs.Perm ws) : vs = [] ↔ ws = [] := by
  rw [← List.length_eq_zero_iff, h.length_eq, List.length_eq_zero_iff]

theorem named?_reordered (h : ∀ name, Reordered (fetch name) (other name)) :
    named? fetch = named? other := by
  funext r
  rcases h r.name with ⟨e, ha, hb⟩ | ⟨name, vs, ws, ha, hb, _⟩
  · simp only [named?, ha, hb]
  · simp only [named?, ha, hb]

theorem skipped?_reordered (h : ∀ name, Reordered (fetch name) (other name)) :
    skipped? fetch = skipped? other := by
  funext r
  rcases h r.name with ⟨e, ha, hb⟩ | ⟨name, vs, ws, ha, hb, hperm⟩
  · simp only [skipped?, ha, hb]
  · simp only [skipped?, ha, hb, eq_nil_iff_of_perm hperm]

theorem failure?_reordered (h : ∀ name, Reordered (fetch name) (other name)) :
    failure? fetch = failure? other := by
  funext graceful done r
  rcases h r.name with ⟨e, ha, hb⟩ | ⟨name, vs, ws, ha, hb, hperm⟩
  · simp only [failure?, ha, hb]
  · simp only [failure?, ha, hb, named?_reordered h, eq_nil_iff_of_perm hperm]

theorem passes_reordered (h : ∀ name, Reordered (fetch name) (other name)) {graceful : Bool}
    {rs : List Requirement} : Passes fetch graceful rs ↔ Passes other graceful rs := by
  have hcongr {f g : String → Answer} (hnamed : named? f = named? g)
      (hskipped : skipped? f = skipped? g) (hpass : Passes f graceful rs) : Passes g graceful rs :=
    ⟨hnamed ▸ hpass.distinct, hskipped ▸ hpass.listed⟩
  exact ⟨hcongr (named?_reordered h) (skipped?_reordered h),
    hcongr (named?_reordered h).symm (skipped?_reordered h).symm⟩

theorem matching_perm (r : Requirement) {vs ws : List Version} (h : vs.Perm ws) :
    List.Forall₂ (fun v w => Version.compare v w = .eq) (matching r vs) (matching r ws) :=
  (Version.sort_isStableSort _).forall₂_of_perm (Version.sort_isStableSort _) (h.filter _)

/-- The picks of a requirement stand under the same name and rank equal. -/
theorem picked?_reordered (h : ∀ name, Reordered (fetch name) (other name)) (allVersions : Bool)
    (r : Requirement) :
    Option.Rel (fun d e => d.1 = e.1 ∧ Picked.SameRanks d.2 e.2) (picked? fetch allVersions r)
      (picked? other allVersions r) := by
  rcases h r.name with ⟨e, ha, hb⟩ | ⟨name, vs, ws, ha, hb, hperm⟩
  · simp only [picked?, listed?, ha, hb]
    exact .none
  · simp only [picked?, listed?, ha, hb, eq_nil_iff_of_perm hperm]
    split
    · exact .none
    · exact .some ⟨rfl, Picked.ofSorted_sameRanks allVersions (matching_perm r hperm)⟩

theorem agree_resolved (h : ∀ name, Reordered (fetch name) (other name)) (allVersions : Bool)
    (rs : List Requirement) :
    (resolved fetch allVersions rs).entries.Agree Picked.SameRanks
      (resolved other allVersions rs).entries := by
  refine Table.agree_ofList (List.rel_filterMap (R := Eq) ?_ (List.forall₂_refl rs))
  rintro r _ rfl
  exact picked?_reordered h allVersions r

/-- If no two different matches rank equal, they sort into one list. -/
theorem exists_listed?_reordered (h : ∀ name, Reordered (fetch name) (other name))
    {r : Requirement} {set : ReleaseSet} (hset : listed? fetch r = some set)
    (hdistinct : ∀ v ∈ set.releases.filter r.accepts, ∀ w ∈ set.releases.filter r.accepts,
      Version.compare v w = .eq → v = w) :
    ∃ set', listed? other r = some set' ∧ set'.name = set.name ∧
      matching r set'.releases = matching r set.releases := by
  rcases h r.name with ⟨e, ha, hb⟩ | ⟨name, vs, ws, ha, hb, hperm⟩
  · simp [listed?, ha] at hset
  · simp only [listed?, ha] at hset
    split at hset
    · cases hset
    · rename_i hne
      obtain rfl := Option.some.inj hset
      refine ⟨⟨name, ws⟩, ?_, rfl, ?_⟩
      · simp only [listed?, hb, ← eq_nil_iff_of_perm hperm, if_neg hne]
      · exact ((Version.sort_isStableSort _).eq_of_perm (Version.sort_isStableSort _)
          (hperm.filter _) hdistinct).symm

/-- Two registries that list the same releases in different orders make a call
fail with the same error or succeed with the same packages skipped, the same
names and picks of equal rank. A package gets the same pick from both if no two
different releases that meet its requirement rank equal. -/
theorem requirements_reordered (h : ∀ name, Reordered (fetch name) (other name))
    (options : SolveOptions) (rs : List Requirement) :
    (∃ e, (requirements fetch options rs).result = .error e ∧
      (requirements other options rs).result = .error e) ∨
    ∃ res res', (requirements fetch options rs).result = .ok res ∧
      (requirements other options rs).result = .ok res' ∧ res.skipped = res'.skipped ∧
      res.entries.Agree Picked.SameRanks res'.entries ∧
      ∀ r ∈ rs, ∀ set, listed? fetch r = some set →
        (∀ v ∈ set.releases.filter r.accepts, ∀ w ∈ set.releases.filter r.accepts,
          Version.compare v w = .eq → v = w) →
        ∃ p, res.entries.find? set.name = some p ∧ res'.entries.find? set.name = some p := by
  by_cases hpass : Passes fetch options.graceful rs
  · have hother := (passes_reordered h).1 hpass
    refine .inr ⟨_, _, requirements_eq_ok_iff.2 ⟨hpass, rfl⟩,
      requirements_eq_ok_iff.2 ⟨hother, rfl⟩, ?_, agree_resolved h _ rs, ?_⟩
    · simp only [resolved, skipped?_reordered h]
    · intro r hr set hset hdistinct
      obtain ⟨set', hset', hname, hmatching⟩ := exists_listed?_reordered h hset hdistinct
      refine ⟨_, hpass.find?_resolved _ hr hset, ?_⟩
      rw [← hname, hother.find?_resolved _ hr hset', hmatching]
  · obtain ⟨e, he⟩ := exists_error_iff.2 hpass
    obtain ⟨front, r, back, rfl, hfront, hr⟩ := requirements_eq_error_iff.1 he
    refine .inl ⟨e, he, requirements_eq_error_iff.2 ⟨front, r, back, rfl, ?_, ?_⟩⟩
    · exact (passes_reordered h).1 hfront
    · rw [← failure?_reordered h, hr]

/-- Two spellings of one version change places, so another one is picked; of
versions that differ in rank the highest is picked from either list. -/
theorem requirements_reordered_spellings :
    let registry (as bs : List Version) : String → Answer := fun name =>
      if name = "a" then .ok ⟨"a", as⟩ else if name = "b" then .ok ⟨"b", bs⟩
      else .error (.notFound name "npm")
    let fetch := registry ["2.0", "2.0.0"] ["3.0", "1.0"]
    let other := registry ["2.0.0", "2.0"] ["1.0", "3.0"]
    let rs : List Requirement := [.anyVersion "a", .anyVersion "b"]
    (∀ name, Reordered (fetch name) (other name)) ∧ .anyVersion "b" ∈ rs ∧
    listed? fetch (.anyVersion "b") = some ⟨"b", ["3.0", "1.0"]⟩ ∧
    (∀ v ∈ ["3.0", "1.0"].filter (Requirement.anyVersion "b").accepts,
      ∀ w ∈ ["3.0", "1.0"].filter (Requirement.anyVersion "b").accepts,
        Version.compare v w = .eq → v = w) ∧
    ∃ res res', (requirements fetch ⟨false, false⟩ rs).result = .ok res ∧
      (requirements other ⟨false, false⟩ rs).result = .ok res' ∧
      res.entries.Agree Picked.SameRanks res'.entries ∧
      res.entries.find? "a" = some (.latest "2.0.0") ∧
      res'.entries.find? "a" = some (.latest "2.0") ∧
      res.entries.find? "b" = res'.entries.find? "b" := by
  intro registry fetch other rs
  have hreordered : ∀ name, Reordered (fetch name) (other name) := by
    intro name
    simp only [fetch, other, registry]
    split
    · exact .inr ⟨_, _, _, rfl, rfl, by decide⟩
    · split
      · exact .inr ⟨_, _, _, rfl, rfl, by decide⟩
      · exact .inl ⟨_, rfl, rfl⟩
  have hmem : .anyVersion "b" ∈ rs := by decide
  have hlisted : listed? fetch (.anyVersion "b") = some ⟨"b", ["3.0", "1.0"]⟩ := by decide
  have hdistinct : ∀ v ∈ ["3.0", "1.0"].filter (Requirement.anyVersion "b").accepts,
      ∀ w ∈ ["3.0", "1.0"].filter (Requirement.anyVersion "b").accepts,
        Version.compare v w = .eq → v = w := by decide
  refine ⟨hreordered, hmem, hlisted, hdistinct, ?_⟩
  have hfetch : matching (.anyVersion "a") ["2.0", "2.0.0"] = ["2.0", "2.0.0"] := by cbv
  have hother : matching (.anyVersion "a") ["2.0.0", "2.0"] = ["2.0.0", "2.0"] := by cbv
  obtain ⟨e, he, -⟩ | ⟨res, res', hres, hres', -, hagree, hsame⟩ :=
    requirements_reordered hreordered ⟨false, false⟩ rs
  · cases he
  · refine ⟨res, res', hres, hres', hagree, ?_, ?_, ?_⟩
    · obtain ⟨hpass, rfl⟩ := requirements_eq_ok_iff.1 hres
      have hset : listed? fetch (.anyVersion "a") = some ⟨"a", ["2.0", "2.0.0"]⟩ := by decide
      rw [hpass.find?_resolved _ List.mem_cons_self hset, hfetch]
      rfl
    · obtain ⟨hpass, rfl⟩ := requirements_eq_ok_iff.1 hres'
      have hset : listed? other (.anyVersion "a") = some ⟨"a", ["2.0.0", "2.0"]⟩ := by decide
      rw [hpass.find?_resolved _ List.mem_cons_self hset, hother]
      rfl
    · obtain ⟨p, hp, hp'⟩ := hsame _ hmem _ hlisted hdistinct
      exact hp.trans hp'.symm

end Releases

end Solve

end Requirements
