import Mathlib
import Requirements.Proofs.Version.Sort

/-!
# The ends of a list of versions

The highest and the lowest version of a list are found in one pass, without
sorting it. They are the texts at the ends of the sorted list, also where several
versions rank highest or lowest: the pass prefers the later of two versions for
the highest and the earlier one for the lowest, and sorting keeps versions of one
rank in the order in which they came.
-/

namespace Requirements.Version

/-- `v` ranks lowest in `vs` and is the first that does. -/
def IsFirstLowest (vs : List Version) (v : Version) : Prop :=
  ∃ before after, vs = before ++ v :: after ∧
    (∀ w ∈ before, compare v w = .lt) ∧ ∀ w ∈ after, compare v w ≠ .gt

/-- The start of a sorted list is the first of the lowest versions of the unsorted one. -/
theorem IsStableSort.isFirstLowest {vs sorted : List Version} {v : Version}
    (h : IsStableSort vs (v :: sorted)) : IsFirstLowest vs v := by
  have hbottom : ∀ w ∈ vs, compare v w ≠ .gt := by
    intro w hw
    rcases List.mem_cons.1 (h.perm.mem_iff.2 hw) with rfl | hw
    · exact le_iff.1 (le_refl w)
    · exact (List.pairwise_cons.1 h.ascending).1 w hw
  have hclass : vs.filter (equal v) = v :: sorted.filter (equal v) := by
    rw [← h.stable v, List.filter_cons, if_pos (equal_iff.2 (equivalence_equal.refl v))]
  obtain ⟨before, after, rfl, hbefore, -, -⟩ := List.filter_eq_cons_iff.1 hclass
  refine ⟨before, after, rfl, fun w hw => ?_, fun w hw => hbottom w (by simp [hw])⟩
  exact lt_of_ne_gt (hbottom w (by simp [hw])) fun he => hbefore w hw (equal_iff.2 he)

/-! ## One pass over the list -/

theorem foldl_mem {choose : Version → Version → Version}
    (h : ∀ a b, choose a b = a ∨ choose a b = b) (v : Version) (vs : List Version) :
    vs.foldl choose v ∈ v :: vs := by
  induction vs generalizing v with
  | nil => exact List.mem_singleton.2 rfl
  | cons u vs ih =>
      rw [List.foldl_cons]
      rcases List.mem_cons.1 (ih (choose v u)) with hin | hin
      · rw [hin]
        rcases h v u with hchosen | hchosen
        · rw [hchosen]; exact List.mem_cons_self
        · rw [hchosen]; exact List.mem_cons_of_mem v List.mem_cons_self
      · exact List.mem_cons_of_mem v (List.mem_cons_of_mem u hin)

theorem foldl_eq_self {choose : Version → Version → Version} {v : Version} {vs : List Version}
    (h : ∀ w ∈ vs, choose v w = v) : vs.foldl choose v = v := by
  induction vs with
  | nil => rfl
  | cons w vs ih =>
      rw [List.foldl_cons, h w List.mem_cons_self]
      exact ih fun x hx => h x (List.mem_cons_of_mem w hx)

/-- The pass arrives at a version that is chosen over all others with one of those
before it, takes it, and lets nothing after it take its place. -/
theorem foldl_eq_of_chosen {choose : Version → Version → Version}
    (h : ∀ a b, choose a b = a ∨ choose a b = b) {u v : Version} {before after : List Version}
    (htake : ∀ w ∈ u :: before, choose w v = v) (hkeep : ∀ w ∈ after, choose v w = v) :
    (before ++ v :: after).foldl choose u = v := by
  have harrive := foldl_mem h u before
  rw [List.foldl_append, List.foldl_cons, htake _ harrive, foldl_eq_self hkeep]

theorem higher_eq_or (a b : Version) : higher a b = a ∨ higher a b = b :=
  ite_eq_or_eq _ a b

theorem lower_eq_or (a b : Version) : lower a b = a ∨ lower a b = b :=
  (ite_eq_or_eq _ b a).symm

theorem IsLastHighest.highest?_eq {vs : List Version} {v : Version} (h : IsLastHighest vs v) :
    highest? vs = some v := by
  obtain ⟨before, after, rfl, hbefore, hafter⟩ := h
  have htake : ∀ w ∈ before, higher w v = v := fun w hw => if_neg (hbefore w hw)
  have hkeep : ∀ w ∈ after, higher v w = v :=
    fun w hw => if_pos (Std.OrientedCmp.gt_iff_lt.2 (hafter w hw))
  cases before with
  | nil => exact congrArg some (foldl_eq_self hkeep)
  | cons u us => exact congrArg some (foldl_eq_of_chosen higher_eq_or htake hkeep)

theorem IsFirstLowest.lowest?_eq {vs : List Version} {v : Version} (h : IsFirstLowest vs v) :
    lowest? vs = some v := by
  obtain ⟨before, after, rfl, hbefore, hafter⟩ := h
  have htake : ∀ w ∈ before, lower w v = v :=
    fun w hw => if_pos (Std.OrientedCmp.gt_iff_lt.2 (hbefore w hw))
  have hkeep : ∀ w ∈ after, lower v w = v := fun w hw => if_neg (hafter w hw)
  cases before with
  | nil => exact congrArg some (foldl_eq_self hkeep)
  | cons u us => exact congrArg some (foldl_eq_of_chosen lower_eq_or htake hkeep)

theorem sort_eq_nil_iff {vs : List Version} : sort vs = [] ↔ vs = [] := by
  have hperm := (sort_isStableSort vs).perm
  constructor
  · intro h
    rw [h] at hperm
    exact hperm.symm.eq_nil
  · rintro rfl
    exact hperm.eq_nil

theorem highest?_eq_getLast?_sort (vs : List Version) : highest? vs = (sort vs).getLast? := by
  have hsort := sort_isStableSort vs
  rcases List.eq_nil_or_concat (sort vs) with hnil | ⟨front, v, hconcat⟩
  · rw [hnil, sort_eq_nil_iff.1 hnil]
    rfl
  · rw [List.concat_eq_append] at hconcat
    rw [hconcat] at hsort ⊢
    rw [hsort.isLastHighest.highest?_eq, List.getLast?_concat]

theorem lowest?_eq_head?_sort (vs : List Version) : lowest? vs = (sort vs).head? := by
  have hsort := sort_isStableSort vs
  cases hcons : sort vs with
  | nil =>
      rw [sort_eq_nil_iff.1 hcons]
      rfl
  | cons v rest =>
      rw [hcons] at hsort
      exact hsort.isFirstLowest.lowest?_eq

theorem highest?_eq_some {vs : List Version} {u : Version} (h : highest? vs = some u) :
    u ∈ vs ∧ ∀ w ∈ vs, le w u = true := by
  have hsort := sort_isStableSort vs
  rw [highest?_eq_getLast?_sort] at h
  obtain ⟨front, hfront⟩ := List.getLast?_eq_some_iff.1 h
  rw [hfront] at hsort
  obtain ⟨before, after, rfl, hbefore, hafter⟩ := hsort.isLastHighest
  refine ⟨by simp, List.forall_mem_append.2 ⟨fun w hw => le_iff.2 (hbefore w hw), ?_⟩⟩
  refine List.forall_mem_cons.2 ⟨le_refl u, fun w hw => le_iff.2 ?_⟩
  rw [hafter w hw]
  decide

theorem lowest?_eq_some {vs : List Version} {u : Version} (h : lowest? vs = some u) :
    u ∈ vs ∧ ∀ w ∈ vs, le u w = true := by
  have hsort := sort_isStableSort vs
  rw [lowest?_eq_head?_sort] at h
  obtain ⟨rest, hrest⟩ := List.head?_eq_some_iff.1 h
  rw [hrest] at hsort
  obtain ⟨before, after, rfl, hbefore, hafter⟩ := hsort.isFirstLowest
  refine ⟨by simp, List.forall_mem_append.2 ⟨fun w hw => le_iff.2 ?_, ?_⟩⟩
  · rw [hbefore w hw]
    decide
  · exact List.forall_mem_cons.2 ⟨le_refl u, fun w hw => le_iff.2 (hafter w hw)⟩

/-- Sorting gives the same versions in ascending order, those of equal rank in the
order in which they came. The highest version of the list as it came is the text
at the end of the sorted list and the lowest one the text at its start; only the
empty list has neither. -/
theorem sort_ends (vs : List Version) :
    IsStableSort vs (sort vs) ∧
    highest? vs = (sort vs).getLast? ∧ lowest? vs = (sort vs).head? ∧
    (highest? vs = none ↔ vs = []) ∧ (lowest? vs = none ↔ vs = []) := by
  refine ⟨sort_isStableSort vs, highest?_eq_getLast?_sort vs, lowest?_eq_head?_sort vs, ?_, ?_⟩
  · rw [highest?_eq_getLast?_sort, List.getLast?_eq_none_iff, sort_eq_nil_iff]
  · rw [lowest?_eq_head?_sort, List.head?_eq_none_iff, sort_eq_nil_iff]

/-- Two versions rank highest and two rank lowest. -/
example :
    highest? ["1.0-rc2", "1.0", "1.0-rc1", "1.0.0"] = some "1.0.0" ∧
    lowest? ["1.0-rc2", "1.0", "1.0-rc1", "1.0.0"] = some "1.0-rc2" := by
  decide

end Requirements.Version
