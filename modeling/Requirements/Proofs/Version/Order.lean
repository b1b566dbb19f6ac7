import Mathlib
import Requirements.Proofs.Version.Rank

/-!
# Versions form a total preorder

Every two versions compare at a width of their own, so an argument about three
of them first takes all three to the width of the longest. There the order is
the lexicographic one on integers, which is transitive. Versions of equal rank
are interchangeable on both sides of a comparison.
-/

namespace Requirements.Version

theorem compare_swap (a b : Version) : compare a b = (compare b a).swap := by
  rw [compare_eq_rightpad a b (Nat.le_max_left _ _) (Nat.le_max_right _ _),
    compare_eq_rightpad b a (Nat.le_max_right _ _) (Nat.le_max_left _ _)]
  exact Std.OrientedCmp.eq_swap

theorem isLE_trans {a b c : Version} (hab : (compare a b).isLE = true)
    (hbc : (compare b c).isLE = true) : (compare a c).isLE = true := by
  -- The width of the longest of the three versions suffices for every pair.
  let n := max a.integers.length (max b.integers.length c.integers.length)
  have ha : a.integers.length ≤ n := Nat.le_max_left _ _
  have hb : b.integers.length ≤ n :=
    Nat.le_trans (Nat.le_max_left _ _) (Nat.le_max_right a.integers.length _)
  have hc : c.integers.length ≤ n :=
    Nat.le_trans (Nat.le_max_right _ _) (Nat.le_max_right a.integers.length _)
  rw [compare_eq_rightpad a b ha hb] at hab
  rw [compare_eq_rightpad b c hb hc] at hbc
  rw [compare_eq_rightpad a c ha hc]
  exact Std.TransCmp.isLE_trans hab hbc

instance : Std.OrientedCmp compare where
  eq_swap := compare_swap _ _

instance : Std.TransCmp compare where
  isLE_trans := isLE_trans

theorem isLE_iff_ne_gt {o : Ordering} : o.isLE = true ↔ o ≠ .gt := by
  cases o <;> decide

/-- Versions of equal rank form classes. -/
theorem equivalence_equal : Equivalence fun a b : Version => compare a b = .eq where
  refl := fun _ => Std.ReflCmp.compare_self
  symm := Std.OrientedCmp.eq_symm
  trans := Std.TransCmp.eq_trans

/-- The order of versions is total, whatever the numbers of their segments: the
comparison turned around gives the reverse, no version differs from itself, and
the order carries over from two steps to both together, strictly if one of the
steps is strict. Ranking equal is an equivalence. -/
theorem compare_totalPreorder (a b c : Version) :
    compare a b = (compare b a).swap ∧ compare a a = .eq ∧
    (compare a b ≠ .gt → compare b c ≠ .gt →
      compare a c ≠ .gt ∧ (compare a b = .lt ∨ compare b c = .lt → compare a c = .lt)) ∧
    Equivalence fun x y : Version => compare x y = .eq := by
  refine ⟨compare_swap a b, Std.ReflCmp.compare_self, ?_, equivalence_equal⟩
  intro hab hbc
  rw [← isLE_iff_ne_gt] at hab hbc
  refine ⟨isLE_iff_ne_gt.1 (isLE_trans hab hbc), ?_⟩
  rintro (h | h)
  · exact Std.TransCmp.lt_of_lt_of_isLE h hbc
  · exact Std.TransCmp.lt_of_isLE_of_lt hab h

/-- Three versions of two, one and five segments. -/
theorem compare_tagged_short_long :
    compare "1-rc" "1" ≠ .gt ∧ compare "1" "1.0.0.1-rc" ≠ .gt ∧
    compare "1-rc" "1.0.0.1-rc" ≠ .gt ∧
    (compare "1-rc" "1" = .lt ∨ compare "1" "1.0.0.1-rc" = .lt →
      compare "1-rc" "1.0.0.1-rc" = .lt) :=
  ⟨by decide, by decide,
    (compare_totalPreorder "1-rc" "1" "1.0.0.1-rc").2.2.1 (by decide) (by decide)⟩

/-! ## Ranks in comparisons -/

theorem le_iff {a b : Version} : le a b = true ↔ compare a b ≠ .gt :=
  isLE_iff_ne_gt

theorem equal_iff {a b : Version} : equal a b = true ↔ compare a b = .eq := by
  simp only [equal, beq_iff_eq]

theorem equal_congr {a b c d : Version} (hab : compare a b = .eq) (hcd : compare c d = .eq) :
    equal a c = equal b d := by
  rw [equal, equal, Std.TransCmp.congr_left hab, Std.TransCmp.congr_right hcd]

theorem le_trans {a b c : Version} (hab : le a b = true) (hbc : le b c = true) :
    le a c = true :=
  isLE_trans hab hbc

theorem le_total (a b : Version) : (le a b || le b a) = true := by
  unfold le
  rw [compare_swap b a]
  cases compare a b <;> rfl

theorem le_of_equal {a b : Version} (h : compare a b = .eq) : le a b = true := by
  unfold le
  rw [h]
  rfl

theorem le_refl (v : Version) : le v v = true :=
  le_of_equal (equivalence_equal.refl v)

theorem lt_of_ne_gt {a b : Version} (h : compare a b ≠ .gt) (hne : compare a b ≠ .eq) :
    compare a b = .lt := by
  cases hcompare : compare a b with
  | lt => rfl
  | eq => exact absurd hcompare hne
  | gt => exact absurd hcompare h

theorem eq_of_ne_gt {a b : Version} (hab : compare a b ≠ .gt) (hba : compare b a ≠ .gt) :
    compare a b = .eq := by
  rw [compare_swap b a] at hba
  cases h : compare a b with
  | eq => rfl
  | lt => exact absurd (by rw [h]; rfl) hba
  | gt => exact absurd h hab

/-! ## Places -/

/-- The integer at a place of a version; past its end there are zeros. -/
def place (v : Version) (i : Nat) : Int :=
  v.integers.getD i 0

theorem getD_rightpad (xs : List Int) (n i : Nat) : (xs.rightpad n 0).getD i 0 = xs.getD i 0 := by
  rw [List.rightpad]
  by_cases hi : i < xs.length
  · rw [List.getD_append _ _ _ _ hi]
  · have hzero (k j : Nat) : (List.replicate k (0 : Int)).getD j 0 = 0 := by simp
    rw [List.getD_append_right _ _ _ _ (by omega), hzero, List.getD_eq_default _ _ (by omega)]

theorem compareLex_eq_lt_iff {xs ys : List Int} (h : xs.length = ys.length) :
    List.compareLex Ord.compare xs ys = .lt ↔
      ∃ i, (∀ j < i, xs.getD j 0 = ys.getD j 0) ∧ xs.getD i 0 < ys.getD i 0 := by
  induction xs generalizing ys with
  | nil =>
      obtain rfl := List.length_eq_zero_iff.1 h.symm
      simp [Std.ReflCmp.compare_self]
  | cons x xs ih =>
      cases ys with
      | nil => cases h
      | cons y ys =>
          rw [List.compareLex_cons_cons, Ordering.then_eq_lt, Std.compare_eq_lt,
            Std.compare_eq_iff_eq, ih (Nat.succ.inj h)]
          constructor
          · rintro (hlt | ⟨rfl, i, hbefore, hlt⟩)
            · exact ⟨0, by simp, hlt⟩
            · refine ⟨i + 1, fun j hj => ?_, hlt⟩
              cases j with
              | zero => rfl
              | succ j => exact hbefore j (by omega)
          · rintro ⟨i, hbefore, hlt⟩
            cases i with
            | zero => exact .inl hlt
            | succ i =>
                exact .inr ⟨hbefore 0 (Nat.succ_pos i), i,
                  fun j hj => hbefore (j + 1) (by omega), hlt⟩

/-- The first place at which two versions differ decides. -/
theorem compare_eq_lt_iff {a b : Version} :
    compare a b = .lt ↔ ∃ i, (∀ j < i, a.place j = b.place j) ∧ a.place i < b.place i := by
  have hlength : (a.integers.rightpad (max a.integers.length b.integers.length) 0).length =
      (b.integers.rightpad (max a.integers.length b.integers.length) 0).length := by
    simp
  rw [compare_eq_rightpad a b (Nat.le_max_left _ _) (Nat.le_max_right _ _),
    compareLex_eq_lt_iff hlength]
  simp only [getD_rightpad, place]

/-- If one version exceeds another nowhere up to a place and is less there, it is below. -/
theorem compare_eq_lt_of_le {a b : Version} {k : Nat} (hle : ∀ i < k, a.place i ≤ b.place i)
    (hlt : a.place k < b.place k) : compare a b = .lt := by
  induction k using Nat.strong_induction_on with
  | _ k ih =>
      by_cases hsame : ∀ i < k, a.place i = b.place i
      · exact compare_eq_lt_iff.2 ⟨k, hsame, hlt⟩
      · push Not at hsame
        obtain ⟨i, hi, hne⟩ := hsame
        have hbelow := hle i hi
        exact ih i hi (fun j hj => hle j (by omega)) (by omega)

/-- Versions of equal rank do not differ at any place. -/
theorem compare_eq_eq_iff {a b : Version} :
    compare a b = .eq ↔ ∀ i, a.place i = b.place i := by
  have hnotlt {a b : Version} (h : ∀ i, a.place i = b.place i) : compare a b ≠ .lt := by
    intro hlt
    obtain ⟨i, _, hi⟩ := compare_eq_lt_iff.1 hlt
    have hsame := h i
    omega
  constructor
  · intro heq i
    induction i using Nat.strong_induction_on with
    | _ i ih =>
        rcases Int.lt_trichotomy (a.place i) (b.place i) with hi | hi | hi
        · rw [compare_eq_lt_iff.2 ⟨i, ih, hi⟩] at heq
          cases heq
        · exact hi
        · rw [compare_swap, compare_eq_lt_iff.2 ⟨i, fun j hj => (ih j hj).symm, hi⟩] at heq
          cases heq
  · intro hsame
    cases hcompare : compare a b with
    | eq => rfl
    | lt => exact absurd hcompare (hnotlt hsame)
    | gt =>
        rw [compare_swap, Ordering.swap_eq_gt] at hcompare
        exact absurd hcompare (hnotlt fun i => (hsame i).symm)

theorem neg_one_le_integer (cs : List Char) : -1 ≤ integer cs := by
  have hunsigned (ds : List Char) : -1 ≤ unsigned ds := by
    unfold unsigned
    split <;> omega
  exact hunsigned _

/-- Nothing ranks below a word. -/
theorem neg_one_le_place (v : Version) (i : Nat) : -1 ≤ v.place i := by
  rw [place, List.getD_eq_getElem?_getD]
  cases h : v.integers[i]? with
  | none => decide
  | some n =>
      obtain ⟨cs, _, rfl⟩ := List.mem_map.1 (List.mem_of_getElem? h)
      exact neg_one_le_integer cs

end Requirements.Version
