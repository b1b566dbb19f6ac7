import Mathlib
import Requirements.Proofs.Range.End

/-!
# What a caret range admits

The end of a caret range has the leftmost number that is not zero bumped, and
the range excludes it. What ranks below the end is not only what keeps that
number: a word ranks below every number, so the pre-releases of the end do too,
and the range admits all of them.
-/

namespace Requirements

namespace Version

/-- The version has the given numbers, zeros, and then a word. -/
def IsPrereleaseOf (v : Version) (ns : List Nat) : Prop :=
  ∃ i, ns.length ≤ i ∧ (∀ j < i, v.place j = ns.getD j 0) ∧ v.place i = -1

section

variable {v : Version} {front rest : List Nat} {n : Nat}

theorem IsPrereleaseOf.startsWith {ns : List Nat} (h : v.IsPrereleaseOf ns) :
    v.StartsWith ns := by
  obtain ⟨i, hi, hbefore, _⟩ := h
  exact fun j hj => hbefore j (by omega)

theorem IsPrereleaseOf.lt {ns : List Nat} (h : v.IsPrereleaseOf ns) (hne : ns ≠ []) :
    compare v (dotted ns) = .lt := by
  obtain ⟨i, hi, hbefore, hword⟩ := h
  refine compare_eq_lt_iff.2 ⟨i, fun j hj => ?_, ?_⟩
  · rw [place_dotted hne, hbefore j hj]
  · rw [place_dotted hne, hword, List.getD_eq_default _ _ hi]
    decide

theorem startsWith_or_isPrereleaseOf (hlower : compare v (dotted (front ++ n :: rest)) ≠ .lt)
    (hupper : compare v (dotted (front ++ [n + 1])) = .lt) :
    v.StartsWith (front ++ [n]) ∨ v.IsPrereleaseOf (front ++ [n + 1]) := by
  obtain ⟨i, hbefore, hlt⟩ := compare_eq_lt_iff.1 hupper
  -- The place at which the version is first below the bumped one.
  rcases Nat.lt_trichotomy i front.length with hi | rfl | hi
  · refine absurd (compare_eq_lt_iff.2 ⟨i, fun j hj => ?_, ?_⟩) hlower
    · have hj' : j < front.length := by omega
      rw [hbefore j hj, place_dotted_front _ _ hj', place_dotted_front _ _ hj']
    · rw [place_dotted_front _ _ hi] at hlt ⊢
      exact hlt
  · have hfront : v.StartsWith front := fun j hj => by
      rw [hbefore j hj, place_dotted_front _ _ hj]
    rw [place_dotted_length] at hlt
    have hle : (n : Int) ≤ v.place front.length := by
      by_contra hnot
      refine hlower (compare_eq_lt_iff.2 ⟨front.length, fun j hj => ?_, ?_⟩)
      · rw [hfront j hj, place_dotted_front _ _ hj]
      · rw [place_dotted_length]
        omega
    exact .inl (startsWith_concat_iff.2 ⟨hfront, by omega⟩)
  · have hend : (front ++ [n + 1]).length ≤ i := by
      rw [List.length_append, List.length_singleton]
      omega
    have hne : front ++ [n + 1] ≠ [] := by simp
    simp only [place_dotted hne] at hbefore hlt
    rw [List.getD_eq_default _ _ hend] at hlt
    have hword := v.neg_one_le_place i
    exact .inr ⟨i, hend, hbefore, by omega⟩

/-- Between a version and the same one with a number bumped are the versions
that keep the number, and the pre-releases of the bumped one. -/
theorem lt_bumped_iff :
    compare v (dotted (front ++ n :: rest)) ≠ .lt ∧
        compare v (dotted (front ++ [n + 1])) = .lt ↔
      compare v (dotted (front ++ n :: rest)) ≠ .lt ∧ v.StartsWith (front ++ [n]) ∨
        v.IsPrereleaseOf (front ++ [n + 1]) := by
  constructor
  · rintro ⟨hlower, hupper⟩
    exact (startsWith_or_isPrereleaseOf hlower hupper).imp_left fun hstart => ⟨hlower, hstart⟩
  · rintro (⟨hlower, hstart⟩ | hprerelease)
    · exact ⟨hlower, lt_of_startsWith (Nat.lt_succ_self n) [] hstart⟩
    · refine ⟨?_, hprerelease.lt (by simp)⟩
      rw [gt_of_startsWith (Nat.lt_succ_self n) rest hprerelease.startsWith]
      decide

end

end Version

namespace PartialVersion

/-- The numbers up to the leftmost one that is not zero, or all if all are zero. -/
def frozen : List Nat → List Nat
  | [] => []
  | 0 :: ns => 0 :: frozen ns
  | n :: _ => [n]

theorem exists_frozen {ns : List Nat} (h : ns ≠ []) :
    ∃ front n rest, ns = front ++ n :: rest ∧ frozen ns = front ++ [n] := by
  fun_induction frozen ns with
  | case1 => exact absurd rfl h
  | case2 ns ih =>
      cases ns with
      | nil => exact ⟨[], 0, [], rfl, rfl⟩
      | cons m ms =>
          obtain ⟨front, n, rest, hns, hfrozen⟩ := ih (by simp)
          exact ⟨0 :: front, n, rest, by rw [hns]; rfl, by rw [hfrozen]; rfl⟩
  | case3 n ns hn => exact ⟨[], n, ns, rfl, rfl⟩

theorem endsAfter_caretEnd {p : PartialVersion} (hp : p ≠ .any) :
    EndsAfter (frozen p.numbers) p.caretEnd := by
  match p with
  | .any => exact absurd rfl hp
  | .major 0 => exact ⟨[], 0, 2, rfl, rfl⟩
  | .major (a + 1) => exact ⟨[], a + 1, 2, rfl, rfl⟩
  | .minor 0 0 => exact ⟨[0], 0, 1, rfl, rfl⟩
  | .minor 0 (b + 1) => exact ⟨[0], b + 1, 1, rfl, rfl⟩
  | .minor (a + 1) b => exact ⟨[], a + 1, 2, rfl, rfl⟩
  | .patch 0 0 0 tag => exact ⟨[0, 0], 0, 0, rfl, rfl⟩
  | .patch 0 0 (c + 1) tag => exact ⟨[0, 0], c + 1, 0, rfl, rfl⟩
  | .patch 0 (b + 1) c tag => exact ⟨[0], b + 1, 1, rfl, rfl⟩
  | .patch (a + 1) b c tag => exact ⟨[], a + 1, 2, rfl, rfl⟩

theorem isPrefix_frozen (ns : List Nat) : frozen ns <+: ns := by
  cases ns with
  | nil => exact List.prefix_rfl
  | cons n ns =>
      obtain ⟨front, m, rest, hns, hfrozen⟩ := exists_frozen (List.cons_ne_nil n ns)
      exact ⟨rest, by rw [hfrozen, hns, List.append_assoc, List.singleton_append]⟩

theorem isSpan_caret {p : PartialVersion} (hp : p ≠ .any) :
    IsSpan p.floor (frozen p.numbers) p.caret :=
  isSpan_of_endsAfter (isPrefix_frozen _) (endsAfter_caretEnd hp)

/-- The end of a caret range has the last of the frozen numbers bumped and zeros
after it. -/
theorem exists_caretEnd {p : PartialVersion} (hp : p ≠ .any) {upper : Option Version}
    (h : p.caretEnd = .ok upper) :
    ∃ k, upper = some (dotted ((frozen p.numbers).modifyLast (· + 1) ++ List.replicate k 0)) := by
  obtain ⟨front, n, k, hfrozen, rfl⟩ := (endsAfter_caretEnd hp).of_eq_ok h
  refine ⟨k, ?_⟩
  rw [hfrozen, List.modifyLast_concat, List.append_assoc, List.singleton_append]

/-- A caret range admits what is not below its start and keeps the frozen
numbers, and the pre-releases of its end. -/
theorem caret_accepts_iff (a b c : Nat) (ts : List Term)
    (h : (PartialVersion.patch a b c none).caret = .ok ts) (v : Version) :
    (∀ t ∈ ts, t.accepts v = true) ↔
      Version.compare v (render a b c) ≠ .lt ∧ v.StartsWith (frozen [a, b, c]) ∨
        v.IsPrereleaseOf ((frozen [a, b, c]).modifyLast (· + 1)) := by
  obtain ⟨upper, hupper, h⟩ := bind_eq_ok.1 h
  obtain rfl := pure_eq_ok.1 h
  obtain ⟨k, rfl⟩ := exists_caretEnd (by simp) hupper
  obtain ⟨front, n, rest, hns, hfrozen⟩ := exists_frozen (List.cons_ne_nil a [b, c])
  have hbumped : (frozen [a, b, c]).modifyLast (· + 1) = front ++ [n + 1] := by
    rw [hfrozen, List.modifyLast_concat]
  have hrank : Version.compare v (dotted ((front ++ [n + 1]) ++ List.replicate k 0)) =
      Version.compare v (dotted (front ++ [n + 1])) :=
    (Std.TransCmp.congr_right (Version.compare_dotted_zeros (by simp) k)).symm
  rw [accepts_between_iff, numbers, hbumped, hfrozen]
  simp only [Option.mem_some_iff, forall_eq', hrank]
  show Version.compare v (dotted [a, b, c]) ≠ .lt ∧ _ ↔
    Version.compare v (dotted [a, b, c]) ≠ .lt ∧ _ ∨ _
  rw [hns]
  exact Version.lt_bumped_iff

/-- A pre-release of the end, which has another major component than the start. -/
theorem caret_accepts_iff_major :
    let ts : List Term := [⟨.atLeast, "1.2.3"⟩, ⟨.below, "2.0.0"⟩]
    (PartialVersion.patch 1 2 3 none).caret = .ok ts ∧
    Version.IsPrereleaseOf "2.0.0-alpha.1" ((frozen [1, 2, 3]).modifyLast (· + 1)) ∧
    ∀ t ∈ ts, t.accepts "2.0.0-alpha.1" = true := by
  intro ts
  have hcaret : (PartialVersion.patch 1 2 3 none).caret = .ok ts := by decide
  have hintegers : Version.integers "2.0.0-alpha.1" = [2, 0, 0, -1, 1] := by
    rw [← Version.map_value_segments]
    decide
  have hprerelease :
      Version.IsPrereleaseOf "2.0.0-alpha.1" ((frozen [1, 2, 3]).modifyLast (· + 1)) := by
    simp only [Version.IsPrereleaseOf, Version.place, hintegers]
    exact ⟨3, by decide, by decide, by decide⟩
  exact ⟨hcaret, hprerelease, (caret_accepts_iff 1 2 3 ts hcaret _).2 (.inr hprerelease)⟩

/-- A caret range does not keep its leftmost number in every version it admits. -/
theorem not_caret_startsWith :
    ¬ ∀ (a b c : Nat) (ts : List Term) (v : Version),
        (PartialVersion.patch a b c none).caret = .ok ts → (∀ t ∈ ts, t.accepts v = true) →
        v.StartsWith (frozen [a, b, c]) := by
  intro hall
  have hintegers : Version.integers "2.0.0-alpha.1" = [2, 0, 0, -1, 1] := by
    rw [← Version.map_value_segments]
    decide
  have hstart := hall 1 2 3 [⟨.atLeast, "1.2.3"⟩, ⟨.below, "2.0.0"⟩] "2.0.0-alpha.1" (by decide)
    (by decide) 0 (by decide)
  rw [Version.place, hintegers] at hstart
  exact absurd hstart (by decide)

end PartialVersion

end Requirements
