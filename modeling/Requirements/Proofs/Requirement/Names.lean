import Mathlib
import Requirements.Requirement.Tighten

/-!
# The packages of requirements

The packages that requirements are on, each once and in the order in which they
first appear. A requirement that is added at the end brings its package in at the
end, unless the package is there already.
-/

namespace Requirements.Requirement

theorem eraseDups_concat (ns : List String) (n : String) :
    (ns ++ [n]).eraseDups = if n ∈ ns then ns.eraseDups else ns.eraseDups ++ [n] := by
  rw [List.eraseDups_append]
  by_cases hold : n ∈ ns
  · simp [List.removeAll, hold]
  · simp [List.removeAll, hold, List.eraseDups_cons]

theorem nodup_eraseDups (ns : List String) : ns.eraseDups.Nodup := by
  induction ns using List.reverseRecOn with
  | nil => exact List.nodup_nil
  | append_singleton ns n ih =>
      rw [eraseDups_concat]
      split
      · exact ih
      · rename_i hnew
        refine List.nodup_append.2 ⟨ih, List.nodup_singleton n, fun x hx y hy => ?_⟩
        rw [List.mem_singleton.1 hy]
        rintro rfl
        exact hnew (List.mem_eraseDups.1 hx)

/-- Distinct names stand in the order of their first places. -/
theorem pairwise_idxOf_eraseDups (ns : List String) :
    ns.eraseDups.Pairwise fun a b => ns.idxOf a < ns.idxOf b := by
  induction ns using List.reverseRecOn with
  | nil => exact .nil
  | append_singleton ns n ih =>
      have hfront : ns.eraseDups.Pairwise fun a b =>
          (ns ++ [n]).idxOf a < (ns ++ [n]).idxOf b := by
        refine ih.imp_of_mem fun ha hb hlt => ?_
        rwa [List.idxOf_append_of_mem (List.mem_eraseDups.1 ha),
          List.idxOf_append_of_mem (List.mem_eraseDups.1 hb)]
      rw [eraseDups_concat]
      split
      · exact hfront
      · rename_i hnew
        refine List.pairwise_append.2 ⟨hfront, List.pairwise_singleton _ _, fun a ha b hb => ?_⟩
        have hold := List.mem_eraseDups.1 ha
        have hlt := List.idxOf_lt_length_of_mem hold
        rw [List.mem_singleton.1 hb, List.idxOf_append_of_mem hold,
          List.idxOf_append_of_notMem hnew]
        omega

theorem eraseDups_eq_self {ns : List String} (h : ns.Nodup) : ns.eraseDups = ns := by
  induction ns using List.reverseRecOn with
  | nil => rfl
  | append_singleton ns n ih =>
      obtain ⟨hns, -, hnew⟩ := List.nodup_append.1 h
      rw [eraseDups_concat, if_neg fun hn => hnew n hn n (List.mem_singleton.2 rfl) rfl, ih hns]

theorem mem_names {rs : List Requirement} {n : String} : n ∈ names rs ↔ ∃ r ∈ rs, r.name = n := by
  rw [names, List.mem_eraseDups, List.mem_map]

theorem nodup_names (rs : List Requirement) : (names rs).Nodup :=
  nodup_eraseDups _

theorem names_concat (rs : List Requirement) (r : Requirement) :
    names (rs ++ [r]) = if r.name ∈ names rs then names rs else names rs ++ [r.name] := by
  simp only [names, List.map_append, List.map_singleton, eraseDups_concat, List.mem_eraseDups]

end Requirements.Requirement
