import Mathlib
import Requirements.Proofs.Range.Spelling

/-!
# Where ranges end

A range keeps some of the numbers that it starts with, and it ends where the
last of them is bumped. Its start does not exceed the kept numbers anywhere, so
it lies below the end. The largest number of a word cannot be bumped, and a
range that would end there is refused.
-/

namespace Requirements

open Text (wordMax)

namespace Version

/-- No place of the version exceeds the number there. -/
def Within (v : Version) (ns : List Nat) : Prop :=
  ∀ i < ns.length, v.place i ≤ ns.getD i 0

section

variable {v : Version} {kept ns : List Nat}

theorem StartsWith.within (h : v.StartsWith ns) : v.Within ns :=
  fun i hi => Int.le_of_eq (h i hi)

theorem getD_of_isPrefix (h : kept <+: ns) {i : Nat} (hi : i < kept.length) :
    ns.getD i 0 = kept.getD i 0 := by
  obtain ⟨rest, rfl⟩ := h
  exact List.getD_append _ _ _ _ hi

theorem Within.of_isPrefix (h : v.Within ns) (hkept : kept <+: ns) : v.Within kept := by
  intro i hi
  rw [← getD_of_isPrefix hkept hi]
  exact h i (Nat.lt_of_lt_of_le hi hkept.length_le)

theorem within_dotted (h : ns ≠ []) : Within (dotted ns) ns :=
  fun i _ => Int.le_of_eq (place_dotted h i)

/-- What does not exceed some numbers is below them when the last one is bumped. -/
theorem Within.lt_bumped {front : List Nat} {n : Nat} (h : v.Within (front ++ [n]))
    (rest : List Nat) : compare v (dotted (front ++ (n + 1) :: rest)) = .lt := by
  have hlength : (front ++ [n]).length = front.length + 1 := List.length_append
  refine compare_eq_lt_of_le (k := front.length) (fun i hi => ?_) ?_
  · have hplace := h i (by omega)
    rw [List.getD_append _ _ _ _ hi] at hplace
    rwa [place_dotted_front _ _ hi]
  · have hplace := h front.length (by omega)
    have hlast : (front ++ [n]).getD front.length 0 = n := by simp
    rw [hlast] at hplace
    rw [place_dotted_length]
    omega

end

end Version

/-- The bound has the last of the kept numbers bumped, and zeros after it. -/
def EndsAfter (kept : List Nat) (bound : Except Oversized (Option Version)) : Prop :=
  ∃ front n k, kept = front ++ [n] ∧
    bound = do return some (dotted (front ++ (← bump n) :: List.replicate k 0))

namespace EndsAfter

variable {kept : List Nat} {bound : Except Oversized (Option Version)}

theorem eq_error (h : EndsAfter kept bound) (hlast : kept.getLast? = some wordMax) :
    bound = .error ⟨wordMax⟩ := by
  obtain ⟨front, n, k, rfl, rfl⟩ := h
  obtain rfl : n = wordMax := by simpa using hlast
  rfl

theorem exists_eq_ok (h : EndsAfter kept bound) (hlast : ∀ n ∈ kept.getLast?, n < wordMax) :
    ∃ upper, bound = .ok (some upper) := by
  obtain ⟨front, n, k, rfl, rfl⟩ := h
  have hn : n < wordMax := hlast n (by simp)
  refine ⟨dotted (front ++ (n + 1) :: List.replicate k 0), ?_⟩
  rw [bump, if_pos hn]
  rfl

theorem of_eq_ok (h : EndsAfter kept bound) {upper : Option Version} (hbound : bound = .ok upper) :
    ∃ front n k, kept = front ++ [n] ∧
      upper = some (dotted (front ++ (n + 1) :: List.replicate k 0)) := by
  obtain ⟨front, n, k, rfl, rfl⟩ := h
  exact ⟨front, n, k, rfl,
    (PartialVersion.eq_of_bump (f := fun m => dotted (front ++ m :: List.replicate k 0)) hbound).1⟩

/-- A version that does not exceed the kept numbers is below the end. -/
theorem compare_lt (h : EndsAfter kept bound) {v : Version} (hv : v.Within kept)
    {upper : Option Version} (hbound : bound = .ok upper) :
    ∀ u ∈ upper, Version.compare v u = .lt := by
  obtain ⟨front, n, k, rfl, rfl⟩ := h.of_eq_ok hbound
  intro u hu
  obtain rfl := Option.some.inj hu
  exact hv.lt_bumped _

end EndsAfter

/-- The terms are those of a range from a version on that does not exceed the kept
numbers, and the range ends where the last of these is bumped. -/
def IsSpan (lower : Version) (kept : List Nat) (terms : Except Oversized (List Term)) : Prop :=
  lower.Within kept ∧
    ∃ bound, EndsAfter kept bound ∧ terms = bound.map (PartialVersion.between lower)

namespace IsSpan

variable {lower : Version} {kept : List Nat} {terms : Except Oversized (List Term)}
  (h : IsSpan lower kept terms)

include h

theorem eq_error (hlast : kept.getLast? = some wordMax) : terms = .error ⟨wordMax⟩ := by
  obtain ⟨_, bound, hend, rfl⟩ := h
  rw [hend.eq_error hlast]
  rfl

theorem exists_eq_ok (hlast : ∀ n ∈ kept.getLast?, n < wordMax) : ∃ ts, terms = .ok ts := by
  obtain ⟨_, bound, hend, rfl⟩ := h
  obtain ⟨upper, hupper⟩ := hend.exists_eq_ok hlast
  exact ⟨_, map_eq_ok.2 ⟨_, hupper, rfl⟩⟩

/-- A range that has an end starts below it. -/
theorem of_eq_ok {ts : List Term} (hts : terms = .ok ts) :
    ∃ upper, ts = PartialVersion.between lower (some upper) ∧
      Version.compare lower upper = .lt := by
  obtain ⟨hwithin, bound, hend, rfl⟩ := h
  obtain ⟨upper, hupper, rfl⟩ := map_eq_ok.1 hts
  have hlt := hend.compare_lt hwithin hupper
  obtain ⟨_, _, _, _, rfl⟩ := hend.of_eq_ok hupper
  exact ⟨_, rfl, hlt _ rfl⟩

end IsSpan

namespace PartialVersion

variable {p : PartialVersion}

/-! ## Starts of ranges -/

theorem integers_floor_patch (a b c : Nat) (tag : Option String) :
    Version.integers (PartialVersion.patch a b c tag).floor =
      [a, b, c].map Int.ofNat ++ Spelling.tagIntegers tag := by
  have hdotted := Version.integers_dotted (List.cons_ne_nil a [b, c])
  cases tag with
  | none => rw [floor, render, hdotted, Spelling.tagIntegers, List.append_nil]
  | some t =>
      have htext : (render a b c ++ "-" ++ t).toList =
          (dotted [a, b, c]).toList ++ '-' :: t.toList := by
        rw [String.toList_append, String.toList_append, List.append_assoc]
        rfl
      rw [floor, Version.integers, htext, List.splitOnP_append_cons _ _ (by decide),
        List.map_append]
      exact congrArg (· ++ _) hdotted

theorem place_floor (h : p.numbers.length ≠ 3) (i : Nat) :
    p.floor.place i = (p.numbers.getD i 0 : Nat) := by
  have hne : p.numbers ++ List.replicate (3 - p.numbers.length) 0 ≠ [] := by
    intro hnil
    have hlength := congrArg List.length hnil
    simp only [List.length_append, List.length_replicate, List.length_nil] at hlength
    omega
  rw [floor_eq_dotted h, Version.place_dotted hne]
  by_cases hi : i < p.numbers.length
  · rw [List.getD_append _ _ _ _ hi]
  · have hzero (k j : Nat) : (List.replicate k 0).getD j 0 = 0 := by simp
    rw [List.getD_append_right _ _ _ _ (by omega), hzero, List.getD_eq_default _ _ (by omega)]

/-- The version that a range starts at has the numbers of the partial version. -/
theorem startsWith_floor (p : PartialVersion) : p.floor.StartsWith p.numbers := by
  by_cases h : p.numbers.length = 3
  · obtain ⟨a, b, c, tag, rfl⟩ := exists_patch h
    exact Version.startsWith_of_integers (integers_floor_patch a b c tag)
  · exact fun i _ => place_floor h i

/-! ## Ends of ranges -/

theorem endsAfter_ceiling (h : p ≠ .any) : EndsAfter p.numbers p.ceiling := by
  cases p with
  | any => exact absurd rfl h
  | major a => exact ⟨[], a, 2, rfl, rfl⟩
  | minor a b => exact ⟨[a], b, 1, rfl, rfl⟩
  | patch a b c tag => exact ⟨[a, b], c, 0, rfl, rfl⟩

theorem endsAfter_tildeEnd (h : p ≠ .any) : EndsAfter (p.numbers.take 2) p.tildeEnd := by
  cases p with
  | any => exact absurd rfl h
  | major a => exact ⟨[], a, 2, rfl, rfl⟩
  | minor a b => exact ⟨[a], b, 1, rfl, rfl⟩
  | patch a b c tag => exact ⟨[a], b, 1, rfl, rfl⟩

theorem isSpan_of_endsAfter {kept : List Nat} (hkept : kept <+: p.numbers)
    {bound : Except Oversized (Option Version)} (hend : EndsAfter kept bound) :
    IsSpan p.floor kept (do return between p.floor (← bound)) := by
  refine ⟨(startsWith_floor p).within.of_isPrefix hkept, bound, hend, ?_⟩
  cases bound <;> rfl

/-- A version that is not complete covers a range up to its ceiling. -/
theorem isSpan_covered (h : p ≠ .any) (hlength : p.numbers.length ≠ 3) :
    IsSpan p.floor p.numbers p.covered := by
  have hcovered : p.covered = do return between p.floor (← p.ceiling) := by
    cases p with
    | patch a b c tag => exact absurd rfl hlength
    | _ => rfl
  rw [hcovered]
  exact isSpan_of_endsAfter List.prefix_rfl (endsAfter_ceiling h)

theorem isSpan_tilde (h : p ≠ .any) : IsSpan p.floor (p.numbers.take 2) p.tilde :=
  isSpan_of_endsAfter (List.take_prefix 2 _) (endsAfter_tildeEnd h)

end PartialVersion

end Requirements
