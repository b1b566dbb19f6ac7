import Mathlib
import Requirements.Proofs.Version.Order
import Requirements.Version.Sort

/-!
# What sorting versions gives

A sorted list holds the same versions in ascending order, and versions of equal
rank stand in the order they came in. Its end is the version to pick from the
unsorted list: none ranks above it, and of those that rank with it it came last.
-/

namespace Requirements.Version

/-- `sorted` holds the versions of `vs` in ascending order, those of equal rank
in the order of `vs`. -/
structure IsStableSort (vs sorted : List Version) : Prop where
  perm : sorted.Perm vs
  ascending : sorted.Pairwise fun a b => compare a b ≠ .gt
  stable : ∀ v, sorted.filter (equal v) = vs.filter (equal v)

/-- `v` ranks highest in `vs` and is the last that does. -/
def IsLastHighest (vs : List Version) (v : Version) : Prop :=
  ∃ before after, vs = before ++ v :: after ∧
    (∀ w ∈ before, compare w v ≠ .gt) ∧ ∀ w ∈ after, compare w v = .lt

/-- Versions of one rank are in ascending order as they stand. -/
theorem pairwise_filter_equal (v : Version) (vs : List Version) :
    (vs.filter (equal v)).Pairwise fun a b => le a b = true := by
  refine List.Pairwise.imp_of_mem ?_ (List.pairwise_of_forall fun _ _ => trivial)
  intro a b ha hb _
  have hva := equal_iff.1 (List.mem_filter.1 ha).2
  have hvb := equal_iff.1 (List.mem_filter.1 hb).2
  exact le_of_equal (equivalence_equal.trans (equivalence_equal.symm hva) hvb)

theorem sort_isStableSort (vs : List Version) : IsStableSort vs (sort vs) where
  perm := List.mergeSort_perm vs le
  ascending := by
    have h := List.pairwise_mergeSort (fun a b c => @le_trans a b c) le_total vs
    exact h.imp le_iff.1
  stable := fun v => by
    have hperm : ((sort vs).filter (equal v)).Perm (vs.filter (equal v)) :=
      (List.mergeSort_perm vs le).filter _
    -- The versions of one rank are a sorted part of `vs`, which sorting leaves in place.
    have hsub : (vs.filter (equal v)).Sublist (sort vs) :=
      List.sublist_mergeSort (fun a b c => @le_trans a b c) le_total (pairwise_filter_equal v vs)
        List.filter_sublist
    have hfilter := hsub.filter (equal v)
    rw [List.filter_filter] at hfilter
    simp only [Bool.and_self] at hfilter
    exact (hfilter.eq_of_length hperm.length_eq.symm).symm

/-- The end of a sorted list is the last of the highest versions of the unsorted one. -/
theorem IsStableSort.isLastHighest {vs sorted : List Version} {v : Version}
    (h : IsStableSort vs (sorted ++ [v])) : IsLastHighest vs v := by
  have htop : ∀ w ∈ vs, compare w v ≠ .gt := by
    intro w hw
    rcases List.mem_append.1 (h.perm.mem_iff.2 hw) with hw | hw
    · exact (List.pairwise_append.1 h.ascending).2.2 w hw v (by simp)
    · rw [List.mem_singleton.1 hw, equivalence_equal.refl v]
      decide
  have hclass : vs.filter (equal v) = sorted.filter (equal v) ++ [v] := by
    rw [← h.stable v, List.filter_append]
    congr 1
    exact List.filter_eq_self.2 fun w hw => by
      rw [List.mem_singleton.1 hw, equal_iff]
      exact equivalence_equal.refl v
  obtain ⟨front, back, rfl, -, hback⟩ := List.filter_eq_append_iff.1 hclass
  obtain ⟨middle, after, rfl, -, -, hafter⟩ := List.filter_eq_cons_iff.1 hback
  refine ⟨front ++ middle, after, by simp, fun w hw => htop w ?_, fun w hw => ?_⟩
  · simp only [List.mem_append] at hw ⊢
    exact hw.imp id .inl
  · have hne : compare w v ≠ .eq := fun he =>
      List.filter_eq_nil_iff.1 hafter w hw (equal_iff.2 (equivalence_equal.symm he))
    exact lt_of_ne_gt (htop w (by simp [hw])) hne

/-! ## Ascending lists with the same ranks -/

theorem head_ne_gt_of_countP_pos {v w : Version} {vs : List Version}
    (h : (v :: vs).Pairwise fun a b => compare a b ≠ .gt)
    (hpos : 0 < (v :: vs).countP (equal w)) : compare v w ≠ .gt := by
  obtain ⟨u, hu, hwu⟩ := List.countP_pos_iff.1 hpos
  have huw : le u w = true := le_of_equal (equivalence_equal.symm (equal_iff.1 hwu))
  have hvu : le v u = true := by
    rcases List.mem_cons.1 hu with rfl | hu
    · exact le_refl u
    · exact le_iff.2 ((List.pairwise_cons.1 h).1 u hu)
  exact le_iff.1 (le_trans hvu huw)

/-- Two ascending lists with as many versions of each rank agree place by place. -/
theorem forall₂_of_countP_eq {vs ws : List Version}
    (hvs : vs.Pairwise fun a b => compare a b ≠ .gt)
    (hws : ws.Pairwise fun a b => compare a b ≠ .gt)
    (hcount : ∀ u, vs.countP (equal u) = ws.countP (equal u)) :
    List.Forall₂ (fun v w => compare v w = .eq) vs ws := by
  have hhead (v : Version) (vs : List Version) : 0 < (v :: vs).countP (equal v) :=
    List.countP_pos_iff.2 ⟨v, List.mem_cons_self, equal_iff.2 (equivalence_equal.refl v)⟩
  induction vs generalizing ws with
  | nil =>
      cases ws with
      | nil => exact .nil
      | cons w ws => exact absurd (hcount w ▸ hhead w ws) (by simp)
  | cons v vs ih =>
      cases ws with
      | nil => exact absurd (hcount v ▸ hhead v vs) (by simp)
      | cons w ws =>
          have hvw : compare v w = .eq := eq_of_ne_gt
            (head_ne_gt_of_countP_pos hvs (hcount w ▸ hhead w ws))
            (head_ne_gt_of_countP_pos hws (hcount v ▸ hhead v vs))
          refine .cons hvw (ih (List.pairwise_cons.1 hvs).2 (List.pairwise_cons.1 hws).2 fun u => ?_)
          have hrank : equal u v = equal u w := equal_congr (equivalence_equal.refl u) hvw
          have hsum := hcount u
          rw [List.countP_cons, List.countP_cons, hrank] at hsum
          exact Nat.add_right_cancel hsum

/-- Sorting forgets the order of a list, up to rank. -/
theorem IsStableSort.forall₂_of_perm {vs ws sorted other : List Version}
    (hvs : IsStableSort vs sorted) (hws : IsStableSort ws other) (h : vs.Perm ws) :
    List.Forall₂ (fun v w => compare v w = .eq) sorted other :=
  forall₂_of_countP_eq hvs.ascending hws.ascending fun _ =>
    (hvs.perm.trans (h.trans hws.perm.symm)).countP_eq _

theorem IsStableSort.eq_of_perm {vs ws sorted other : List Version}
    (hvs : IsStableSort vs sorted) (hws : IsStableSort ws other) (h : vs.Perm ws)
    (hdistinct : ∀ v ∈ vs, ∀ w ∈ vs, compare v w = .eq → v = w) : sorted = other := by
  refine List.Perm.eq_of_pairwise (fun v w hv hw hvw hwv => ?_) hvs.ascending hws.ascending
    (hvs.perm.trans (h.trans hws.perm.symm))
  exact hdistinct v (hvs.perm.mem_iff.1 hv) w (h.mem_iff.2 (hws.perm.mem_iff.1 hw))
    (eq_of_ne_gt hvw hwv)

/-- Lists that agree in rank place by place have starts of one rank. -/
theorem rel_head? {vs ws : List Version} (h : List.Forall₂ (fun v w => compare v w = .eq) vs ws) :
    Option.Rel (fun v w => compare v w = .eq) vs.head? ws.head? := by
  cases h with
  | nil => exact .none
  | cons hvw _ => exact .some hvw

theorem rel_getLast? {vs ws : List Version}
    (h : List.Forall₂ (fun v w => compare v w = .eq) vs ws) :
    Option.Rel (fun v w => compare v w = .eq) vs.getLast? ws.getLast? := by
  rw [List.getLast?_eq_head?_reverse, List.getLast?_eq_head?_reverse]
  exact rel_head? (List.rel_reverse h)

/-- Ascending lists that list the versions of each rank in the same order are the same. -/
theorem eq_of_filter_equal_eq {vs ws : List Version}
    (hvs : vs.Pairwise fun a b => compare a b ≠ .gt)
    (hws : ws.Pairwise fun a b => compare a b ≠ .gt)
    (h : ∀ u, vs.filter (equal u) = ws.filter (equal u)) : vs = ws := by
  have hranks : List.Forall₂ (fun v w => compare v w = .eq) vs ws :=
    forall₂_of_countP_eq hvs hws fun u => by
      rw [List.countP_eq_length_filter, List.countP_eq_length_filter, h u]
  clear hvs hws
  induction hranks with
  | nil => rfl
  | @cons v w vs ws hvw _ ih =>
      have hv := h v
      rw [List.filter_cons, List.filter_cons, if_pos (equal_iff.2 (equivalence_equal.refl v)),
        if_pos (equal_iff.2 hvw)] at hv
      obtain ⟨rfl, _⟩ := List.cons.inj hv
      congr 1
      refine ih fun u => ?_
      have hu := h u
      rw [List.filter_cons, List.filter_cons] at hu
      split at hu
      · exact (List.cons.inj hu).2
      · exact hu

theorem IsStableSort.unique {vs sorted other : List Version} (h : IsStableSort vs sorted)
    (h' : IsStableSort vs other) : sorted = other :=
  eq_of_filter_equal_eq h.ascending h'.ascending fun u => (h.stable u).trans (h'.stable u).symm

theorem IsStableSort.filter {vs sorted : List Version} (h : IsStableSort vs sorted)
    (p : Version → Bool) : IsStableSort (vs.filter p) (sorted.filter p) where
  perm := h.perm.filter p
  ascending := h.ascending.filter p
  stable := fun u => by rw [List.filter_comm, h.stable u, List.filter_comm]

/-- Sorting what is selected is selecting from what is sorted. -/
theorem sort_filter (p : Version → Bool) (vs : List Version) :
    sort (vs.filter p) = (sort vs).filter p :=
  (sort_isStableSort _).unique ((sort_isStableSort vs).filter p)

/-! ## One version of each rank -/

theorem go_sublist (last : Version) (vs : List Version) : (distinct.go last vs).Sublist vs := by
  induction vs generalizing last with
  | nil => exact List.Sublist.refl []
  | cons v vs ih =>
      rw [distinct.go]
      split
      · exact (ih last).cons v
      · exact (ih v).cons_cons v

theorem distinct_sublist (vs : List Version) : (distinct vs).Sublist vs := by
  cases vs with
  | nil => exact List.Sublist.refl []
  | cons v vs => exact (go_sublist v vs).cons_cons v

/-- A version that is dropped ranks with the one kept last. -/
theorem exists_equal_of_mem_go {last w : Version} {vs : List Version} (h : w ∈ vs) :
    ∃ u ∈ last :: distinct.go last vs, compare u w = .eq := by
  induction vs generalizing last with
  | nil => cases h
  | cons v vs ih =>
      rw [distinct.go]
      by_cases hlast : equal last v = true
      · rw [if_pos hlast]
        rcases List.mem_cons.1 h with rfl | h
        · exact ⟨last, List.mem_cons_self, equal_iff.1 hlast⟩
        · exact ih h
      · rw [if_neg hlast]
        rcases List.mem_cons.1 h with rfl | h
        · exact ⟨w, by simp, equivalence_equal.refl w⟩
        · obtain ⟨u, hu, huw⟩ : ∃ u ∈ v :: distinct.go v vs, compare u w = .eq := ih h
          exact ⟨u, List.mem_cons_of_mem last hu, huw⟩

theorem exists_equal_of_mem_distinct {w : Version} {vs : List Version} (h : w ∈ vs) :
    ∃ u ∈ distinct vs, compare u w = .eq := by
  cases vs with
  | nil => cases h
  | cons v vs =>
      rcases List.mem_cons.1 h with rfl | h
      · exact ⟨w, List.mem_cons_self, equivalence_equal.refl w⟩
      · exact exists_equal_of_mem_go h

theorem go_go (last : Version) (vs : List Version) :
    distinct.go last (distinct.go last vs) = distinct.go last vs := by
  induction vs generalizing last with
  | nil => rfl
  | cons v vs ih =>
      rw [distinct.go]
      by_cases hlast : equal last v = true
      · rw [if_pos hlast]
        exact ih last
      · rw [if_neg hlast, distinct.go, if_neg hlast, ih v]

theorem distinct_distinct (vs : List Version) : distinct (distinct vs) = distinct vs := by
  cases vs with
  | nil => rfl
  | cons v vs => exact congrArg (v :: ·) (go_go v vs)

/-- Of a sorted list one version of each rank is kept, so no two in a row rank equal. -/
theorem pairwise_go {last : Version} {vs : List Version}
    (h : (last :: vs).Pairwise fun a b => compare a b ≠ .gt) :
    (last :: distinct.go last vs).Pairwise fun a b => compare a b = .lt := by
  induction vs generalizing last with
  | nil => exact List.pairwise_singleton _ _
  | cons v vs ih =>
      obtain ⟨hlast, hvs⟩ := List.pairwise_cons.1 h
      rw [distinct.go]
      by_cases hequal : equal last v = true
      · rw [if_pos hequal]
        exact ih (h.sublist ((List.sublist_cons_self v vs).cons_cons last))
      · rw [if_neg hequal]
        have hlt : compare last v = .lt :=
          lt_of_ne_gt (hlast v List.mem_cons_self) fun he => hequal (equal_iff.2 he)
        have hkept := ih hvs
        refine List.pairwise_cons.2 ⟨fun w hw => ?_, hkept⟩
        rcases List.mem_cons.1 hw with rfl | hw
        · exact hlt
        · exact Std.TransCmp.lt_trans hlt ((List.pairwise_cons.1 hkept).1 w hw)

theorem pairwise_distinct {vs : List Version} (h : vs.Pairwise fun a b => compare a b ≠ .gt) :
    (distinct vs).Pairwise fun a b => compare a b = .lt := by
  cases vs with
  | nil => exact .nil
  | cons v vs => exact pairwise_go h

/-- Which versions are kept goes by rank alone. -/
theorem forall₂_go {last other : Version} (hlast : compare last other = .eq)
    {vs ws : List Version} (h : List.Forall₂ (fun v w => compare v w = .eq) vs ws) :
    List.Forall₂ (fun v w => compare v w = .eq) (distinct.go last vs) (distinct.go other ws) := by
  induction h generalizing last other with
  | nil => exact .nil
  | cons hvw _ ih =>
      rw [distinct.go, distinct.go, equal_congr hlast hvw]
      split
      · exact ih hlast
      · exact .cons hvw (ih hvw)

theorem forall₂_distinct {vs ws : List Version}
    (h : List.Forall₂ (fun v w => compare v w = .eq) vs ws) :
    List.Forall₂ (fun v w => compare v w = .eq) (distinct vs) (distinct ws) := by
  cases h with
  | nil => exact .nil
  | cons hvw hrest => exact .cons hvw (forall₂_go hvw hrest)

/-! ## Lists that are sorted already -/

theorem sort_eq_self {vs : List Version} (h : vs.Pairwise fun a b => compare a b ≠ .gt) :
    sort vs = vs :=
  List.mergeSort_of_pairwise (h.imp le_iff.2)

/-- Dropping versions of a sorted list leaves it sorted. -/
theorem sort_distinct_sort (vs : List Version) :
    sort (distinct (sort vs)) = distinct (sort vs) :=
  sort_eq_self ((sort_isStableSort vs).ascending.sublist (distinct_sublist _))

end Requirements.Version
