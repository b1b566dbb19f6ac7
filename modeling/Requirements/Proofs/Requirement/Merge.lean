import Mathlib
import Requirements.Proofs.Requirement.Names
import Requirements.Requirement.Merge
import Requirements.Table

/-!
# Merging is conjunction

A version passes the join of two choices of branches if it passes both choices.
So a version passes the merged requirement on a package if it passes every
requirement on that package. There is one merged requirement per package, and
the packages stand in the order in which they first appear.
-/

namespace Requirements

namespace Branch

theorem accepts_ofTerms_append (l r : Branch) (v : Version) :
    (ofTerms (l.terms ++ r.terms)).accepts v = (l.accepts v && r.accepts v) := by
  rw [accepts, terms_ofTerms, List.all_append]
  rfl

/-- A version passes some branch of a join if it passes some branch of either side. -/
theorem any_accepts_conjoin (ls rs : List Branch) (v : Version) :
    (conjoin ls rs).any (·.accepts v) = (ls.any (·.accepts v) && rs.any (·.accepts v)) := by
  induction ls with
  | nil => rfl
  | cons l ls ih =>
      have hrow : (rs.map fun r => ofTerms (l.terms ++ r.terms)).any (·.accepts v) =
          (l.accepts v && rs.any (·.accepts v)) := by
        rw [List.any_map, List.and_any_distrib_left]
        exact congrArg rs.any (funext fun r => accepts_ofTerms_append l r v)
      have hcons : conjoin (l :: ls) rs =
          rs.map (fun r => ofTerms (l.terms ++ r.terms)) ++ conjoin ls rs := List.flatMap_cons
      rw [hcons, List.any_append, hrow, ih, List.any_cons, Bool.and_or_distrib_right]

theorem mem_conjoin {ls rs : List Branch} {b : Branch} :
    b ∈ conjoin ls rs ↔ ∃ l ∈ ls, ∃ r ∈ rs, ofTerms (l.terms ++ r.terms) = b := by
  simp only [conjoin, List.mem_flatMap, List.mem_map]

theorem length_conjoin (ls rs : List Branch) :
    (conjoin ls rs).length = ls.length * rs.length := by
  simp [conjoin, List.length_flatMap, List.map_const', List.sum_replicate]

end Branch

namespace Requirement

/-- The requirement that joins two on one package. -/
def join (m r : Requirement) : Requirement :=
  { m with branches := Branch.conjoin m.branches r.branches }

@[simp] theorem name_join (m r : Requirement) : (m.join r).name = m.name := rfl

theorem accepts_join (m r : Requirement) (v : Version) :
    (m.join r).accepts v = (m.accepts v && r.accepts v) :=
  Branch.any_accepts_conjoin m.branches r.branches v

theorem mergeInto_cons (r m : Requirement) (ms : List Requirement) :
    mergeInto r (m :: ms) = if m.name = r.name then m.join r :: ms else m :: mergeInto r ms :=
  rfl

/-! ## One step -/

/-- Each element after a step was there before, is new, or is a join of both. -/
theorem mem_mergeInto {r x : Requirement} {ms : List Requirement} (h : x ∈ mergeInto r ms) :
    x ∈ ms ∨ x = r ∨ ∃ m ∈ ms, m.name = r.name ∧ x = m.join r := by
  induction ms with
  | nil => exact .inr (.inl (List.mem_singleton.1 h))
  | cons m ms ih =>
      rw [mergeInto_cons] at h
      split at h
      · rename_i hname
        rcases List.mem_cons.1 h with rfl | h
        · exact .inr (.inr ⟨m, List.mem_cons_self, hname, rfl⟩)
        · exact .inl (List.mem_cons_of_mem m h)
      · rcases List.mem_cons.1 h with rfl | h
        · exact .inl List.mem_cons_self
        · rcases ih h with hold | hnew | ⟨k, hk, hkr⟩
          · exact .inl (List.mem_cons_of_mem m hold)
          · exact .inr (.inl hnew)
          · exact .inr (.inr ⟨k, List.mem_cons_of_mem m hk, hkr⟩)

/-- A step adds the name of its requirement at the end unless it is there. -/
theorem names_mergeInto (r : Requirement) (ms : List Requirement) :
    (mergeInto r ms).map name =
      if r.name ∈ ms.map name then ms.map name else ms.map name ++ [r.name] := by
  induction ms with
  | nil => rfl
  | cons m ms ih =>
      rw [mergeInto_cons]
      by_cases hname : m.name = r.name
      · rw [if_pos hname, if_pos (by simp [hname])]
        rfl
      · have hiff : r.name ∈ (m :: ms).map name ↔ r.name ∈ ms.map name := by
          rw [List.map_cons, List.mem_cons]
          exact or_iff_right (Ne.symm hname)
        rw [if_neg hname, List.map_cons, ih]
        simp only [hiff]
        split <;> rfl

/-- After a step a version has to pass the requirement as well. -/
theorem accepts_mergeInto (r : Requirement) (ms : List Requirement) (n : String) (v : Version) :
    (∀ m ∈ mergeInto r ms, m.name = n → m.accepts v = true) ↔
      (∀ m ∈ ms, m.name = n → m.accepts v = true) ∧ (r.name = n → r.accepts v = true) := by
  induction ms with
  | nil => simp [mergeInto]
  | cons m ms ih =>
      rw [mergeInto_cons]
      split
      · rename_i hname
        simp only [List.forall_mem_cons, name_join, accepts_join, Bool.and_eq_true, hname]
        tauto
      · simp only [List.forall_mem_cons, ih]
        tauto

/-- A step joins its requirement to the one on the package, if there is one. -/
theorem find?_mergeInto (r : Requirement) (ms : List Requirement) (n : String) :
    (mergeInto r ms).find? (·.name = n) =
      if r.name = n then some (((ms.find? (·.name = n)).map (·.join r)).getD r)
      else ms.find? (·.name = n) := by
  induction ms with
  | nil => by_cases hn : r.name = n <;> simp [mergeInto, hn]
  | cons m ms ih =>
      rw [mergeInto_cons]
      by_cases hname : m.name = r.name
      · by_cases hn : r.name = n <;> simp [hname, hn]
      · rw [if_neg hname]
        by_cases hm : m.name = n
        · have hn : r.name ≠ n := fun hr => hname (hm.trans hr.symm)
          simp [hm, hn]
        · simp only [List.find?_cons, hm, decide_false, ih]

/-! ## The run -/

theorem merge_concat (rs : List Requirement) (r : Requirement) :
    merge (rs ++ [r]) = mergeInto r (merge rs) := by
  rw [merge, List.foldl_append]
  rfl

/-- What every step preserves holds after the run. -/
theorem merge_induction {P : List Requirement → List Requirement → Prop} (hnil : P [] [])
    (hstep : ∀ seen r ms, P seen ms → P (seen ++ [r]) (mergeInto r ms)) (rs : List Requirement) :
    P rs (merge rs) := by
  induction rs using List.reverseRecOn with
  | nil => exact hnil
  | append_singleton rs r ih =>
      rw [merge_concat]
      exact hstep rs r (merge rs) ih

theorem names_merge (rs : List Requirement) : (merge rs).map name = names rs := by
  refine merge_induction (P := fun seen ms => ms.map name = names seen) rfl ?_ rs
  intro seen r ms h
  rw [names_mergeInto, names_concat, h]

/-- There is one merged requirement per package. -/
theorem nodup_names_merge (rs : List Requirement) : ((merge rs).map name).Nodup := by
  rw [names_merge]
  exact nodup_names rs

theorem eq_of_mem_merge {rs : List Requirement} {m k : Requirement} (hm : m ∈ merge rs)
    (hk : k ∈ merge rs) (h : m.name = k.name) : m = k :=
  List.inj_on_of_nodup_map (nodup_names_merge rs) hm hk h

/-- Merging loses no package and makes up none. -/
theorem mem_names_merge {rs : List Requirement} {n : String} :
    n ∈ (merge rs).map name ↔ n ∈ rs.map name := by
  rw [names_merge, names, List.mem_eraseDups]

/-- What holds of all requirements and of joins holds of all merged ones. -/
theorem forall_mem_merge {P : Requirement → Prop} (hjoin : ∀ m r, P m → P r → P (m.join r))
    {rs : List Requirement} (h : ∀ r ∈ rs, P r) : ∀ m ∈ merge rs, P m := by
  refine merge_induction (P := fun seen ms => (∀ r ∈ seen, P r) → ∀ m ∈ ms, P m) (by simp) ?_ rs h
  intro seen r ms ih hseen x hx
  have hr : P r := hseen r (by simp)
  have hms := ih fun s hs => hseen s (List.mem_append_left _ hs)
  rcases mem_mergeInto hx with hx | rfl | ⟨m, hm, _, rfl⟩
  · exact hms x hx
  · exact hr
  · exact hjoin m r (hms m hm) hr

/-- A version passes the merged requirements on a package if it passes all the
requirements on it. -/
theorem accepts_merge (rs : List Requirement) (n : String) (v : Version) :
    (∀ m ∈ merge rs, m.name = n → m.accepts v = true) ↔
      ∀ r ∈ rs, r.name = n → r.accepts v = true := by
  refine merge_induction (P := fun seen ms => (∀ m ∈ ms, m.name = n → m.accepts v = true) ↔
    ∀ r ∈ seen, r.name = n → r.accepts v = true) Iff.rfl ?_ rs
  intro seen r ms h
  rw [accepts_mergeInto, h, List.forall_mem_append, List.forall_mem_singleton]

/-- The merged requirement on a package is the first one on it, joined with the
later ones in their order. -/
theorem find?_merge (rs : List Requirement) (n : String) :
    (merge rs).find? (·.name = n) =
      match rs.filter (·.name = n) with
      | [] => none
      | r :: rest => some (rest.foldl join r) := by
  refine merge_induction (P := fun seen ms => ms.find? (·.name = n) =
    match seen.filter (·.name = n) with
    | [] => none
    | r :: rest => some (rest.foldl join r)) rfl ?_ rs
  intro seen r ms ih
  rw [find?_mergeInto, List.filter_append, ih]
  by_cases hn : r.name = n
  · rw [if_pos hn, List.filter_cons, if_pos (decide_eq_true hn), List.filter_nil]
    cases seen.filter (·.name = n) with
    | nil => rfl
    | cons q rest => simp
  · rw [if_neg hn, List.filter_cons, if_neg (by simpa using hn), List.filter_nil, List.append_nil]

/-- The first of the requirements on a package gives the package its place. -/
theorem pairwise_idxOf_merge (rs : List Requirement) :
    ((merge rs).map name).Pairwise fun a b =>
      (rs.map name).idxOf a < (rs.map name).idxOf b := by
  rw [names_merge]
  exact pairwise_idxOf_eraseDups _

/-- Merging is conjunction: the packages are those of the requirements, each once
and in the order in which they first appear, and a version passes the merged
requirement on a package if and only if it passes all the requirements on it. -/
theorem merge_is_conjunction (rs : List Requirement) :
    ((merge rs).map name).Nodup ∧
    (∀ n, n ∈ (merge rs).map name ↔ n ∈ rs.map name) ∧
    ((merge rs).map name).Pairwise
      (fun a b => (rs.map name).idxOf a < (rs.map name).idxOf b) ∧
    ∀ m ∈ merge rs, ∀ v, m.accepts v = true ↔
      ∀ r ∈ rs, r.name = m.name → r.accepts v = true := by
  refine ⟨nodup_names_merge rs, fun _ => mem_names_merge, pairwise_idxOf_merge rs, ?_⟩
  intro m hm v
  rw [← accepts_merge rs m.name v]
  constructor
  · intro hv k hk hname
    rwa [eq_of_mem_merge hk hm hname]
  · intro h
    exact h m hm rfl

/-- Alternatives around a package without a branch; the empty branch among them
passes every version. -/
theorem merge_is_conjunction_interleaved :
    let a : Term := ⟨.atLeast, "1.0"⟩
    let b : Term := ⟨.below, "2.0"⟩
    let c : Term := ⟨.notEqual, "1.5"⟩
    let rs : List Requirement :=
      [⟨"foo", [.single a, .single b]⟩, ⟨"bar", []⟩, ⟨"foo", [.all [], .single c]⟩]
    let foo : Requirement := ⟨"foo", [.single a, .all [a, c], .single b, .all [b, c]]⟩
    merge rs = [foo, ⟨"bar", []⟩] ∧ foo ∈ merge rs ∧
    (foo.accepts "1.5" = true ↔ ∀ r ∈ rs, r.name = foo.name → r.accepts "1.5" = true) := by
  intro a b c rs foo
  have hmerge : merge rs = [foo, ⟨"bar", []⟩] := by decide
  have hfoo : foo ∈ merge rs := hmerge ▸ List.mem_cons_self
  obtain ⟨_, _, _, haccepts⟩ := merge_is_conjunction rs
  exact ⟨hmerge, hfoo, haccepts foo hfoo "1.5"⟩

end Requirement

end Requirements
