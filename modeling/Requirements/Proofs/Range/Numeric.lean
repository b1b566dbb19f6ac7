import Mathlib
import Requirements.Proofs.Range.Caret

/-!
# What ranges admit of numeric releases

A numeric release is made of numerals with points between them, as many as it
likes and of any size, and it stands for a sequence of numbers that goes on with
zeros. No word is in it, so it is a pre-release of nothing, and a range admits
exactly what reaches its start and keeps the numbers that it freezes.
-/

namespace Requirements

open Text (decimalValue)

/-! ## Sequences of numbers that go on with zeros -/

/-- The first `k` numbers of two sequences are the same. -/
def AgreeOn (k : Nat) (ms ns : List Nat) : Prop :=
  ∀ i < k, ms.getD i 0 = ns.getD i 0

/-- The first sequence does not have the smaller number where the two first differ. -/
def Reaches (ms ns : List Nat) : Prop :=
  ¬∃ i, AgreeOn i ms ns ∧ ms.getD i 0 < ns.getD i 0

theorem reaches_of_agreeOn {ms ns : List Nat} (h : AgreeOn ns.length ms ns) :
    Reaches ms ns := by
  rintro ⟨i, _, hlt⟩
  by_cases hi : i < ns.length
  · have hsame := h i hi
    omega
  · rw [List.getD_eq_default ns 0 (by omega)] at hlt
    omega

namespace Version

/-- The version is written as numerals with points between them, and these have
the given values. -/
def Denotes (v : Version) (ns : List Nat) : Prop :=
  ∃ parts, parts ≠ [] ∧ (∀ ds ∈ parts, IsDigits ds) ∧
    v = String.ofList (['.'].intercalate parts) ∧ ns = parts.map decimalValue

namespace Denotes

variable {v : Version} {ms : List Nat} (h : v.Denotes ms)

include h

theorem integers_eq : v.integers = ms.map Int.ofNat := by
  obtain ⟨parts, hne, hdigits, rfl, rfl⟩ := h
  have hpart : ∀ ds ∈ parts, ∀ c ∈ ds, isSeparator c = false := fun ds hds c hc =>
    isSeparator_of_isDigit ((hdigits ds hds).2 c hc)
  rw [integers, String.toList_ofList, Text.splitOnP_intercalate (by decide) hpart hne,
    List.map_map]
  exact List.map_congr_left fun ds hds => integer_digits (hdigits ds hds)

theorem place_eq (i : Nat) : v.place i = (ms.getD i 0 : Nat) := by
  rw [place, h.integers_eq]
  exact List.getD_map ms 0 Int.ofNat

theorem compare_ne_lt_iff {ns : List Nat} (hne : ns ≠ []) :
    compare v (dotted ns) ≠ .lt ↔ Reaches ms ns := by
  simp only [ne_eq, compare_eq_lt_iff, Reaches, AgreeOn, h.place_eq, place_dotted hne,
    Int.ofNat_inj, Int.ofNat_lt]

theorem startsWith_iff {kept ns : List Nat} (hkept : kept <+: ns) :
    v.StartsWith kept ↔ AgreeOn kept.length ms ns := by
  constructor
  · intro hstart i hi
    have hplace := hstart i hi
    rw [h.place_eq, ← getD_of_isPrefix hkept hi] at hplace
    exact Int.ofNat_inj.1 hplace
  · intro hagree i hi
    rw [h.place_eq, hagree i hi, getD_of_isPrefix hkept hi]

/-- All places of a numeric release are numbers. -/
theorem not_isPrereleaseOf (ns : List Nat) : ¬v.IsPrereleaseOf ns := by
  rintro ⟨i, _, _, hword⟩
  rw [h.place_eq] at hword
  omega

end Denotes

end Version

namespace PartialVersion

section

variable {v : Version} {ms : List Nat} (hv : v.Denotes ms)

include hv

/-- A range that starts at some numbers admits the releases that reach its start
and keep the numbers in front of its end. -/
theorem accepts_iff_of_isSpan {lower : Version} {kept ns : List Nat}
    {terms : Except Oversized (List Term)} {ts : List Term} (hspan : IsSpan lower kept terms)
    (hts : terms = .ok ts) (hlower : Version.compare lower (dotted ns) = .eq)
    (hkept : kept <+: ns) :
    (∀ t ∈ ts, t.accepts v = true) ↔ Reaches ms ns ∧ AgreeOn kept.length ms ns := by
  have hkeeps := hv.startsWith_iff hkept
  obtain ⟨_, bound, hend, rfl⟩ := hspan
  obtain ⟨upper, hupper, rfl⟩ := map_eq_ok.1 hts
  obtain ⟨front, n, k, rfl, rfl⟩ := hend.of_eq_ok hupper
  obtain ⟨rest, rfl⟩ := hkept
  have hne : front ++ [n] ++ rest ≠ [] := by simp
  have hbumped : front ++ [n + 1] ≠ [] := by simp
  have hstart : Version.compare v lower = Version.compare v (dotted (front ++ [n] ++ rest)) :=
    Std.TransCmp.congr_right hlower
  have hzeros := Version.compare_dotted_zeros hbumped k
  rw [List.append_assoc, List.singleton_append] at hzeros
  have hrank : Version.compare v (dotted (front ++ [n + 1])) =
      Version.compare v (dotted (front ++ (n + 1) :: List.replicate k 0)) :=
    Std.TransCmp.congr_right hzeros
  rw [accepts_between_iff, hstart]
  simp only [Option.mem_some_iff, forall_eq', ← hrank]
  rw [← hkeeps, ← hv.compare_ne_lt_iff hne, List.append_assoc, List.singleton_append,
    Version.lt_bumped_iff, or_iff_left (hv.not_isPrereleaseOf _)]

theorem accepts_exact_iff_of_denotes (a b c : Nat) :
    (∀ t ∈ [Term.exact (dotted [a, b, c])], t.accepts v = true) ↔
      AgreeOn 3 ms [a, b, c] ∧ ∀ i, 3 ≤ i → ms.getD i 0 = 0 := by
  have hequal : (∀ t ∈ [Term.exact (dotted [a, b, c])], t.accepts v = true) ↔
      Version.compare v (dotted [a, b, c]) = .eq := by
    simp [Term.accepts, Term.exact, Operator.accepts]
  rw [hequal, Version.compare_eq_eq_iff]
  simp only [hv.place_eq, Version.place_dotted (List.cons_ne_nil a [b, c]), Int.ofNat_inj]
  constructor
  · intro hsame
    refine ⟨fun i _ => hsame i, fun i hi => ?_⟩
    rw [hsame i, List.getD_eq_default _ _ hi]
  · rintro ⟨hagree, hzero⟩ i
    by_cases hi : i < 3
    · exact hagree i hi
    · rw [hzero i (by omega), List.getD_eq_default _ _ (by simpa using hi)]

end

/-- The version has a major component and no pre-release tag. -/
def IsPlain : PartialVersion → Prop
  | .any => False
  | .patch _ _ _ (some _) => False
  | _ => True

theorem IsPlain.ne_any {p : PartialVersion} (h : p.IsPlain) : p ≠ .any := by
  rintro rfl
  exact h

theorem IsPlain.written_eq {p : PartialVersion} (h : p.IsPlain) : p.written = dotted p.numbers := by
  match p, h with
  | .major a, _ => rfl
  | .minor a b, _ => rfl
  | .patch a b c none, _ => rfl

theorem IsPlain.compare_floor {p : PartialVersion} (h : p.IsPlain) :
    Version.compare p.floor (dotted p.numbers) = .eq := by
  rw [← h.written_eq]
  exact Std.OrientedCmp.eq_symm (compare_written_floor h.ne_any)

theorem covered_accepts_iff_of_denotes {p : PartialVersion} (hp : p.IsPlain) {v : Version}
    {ms : List Nat} (hv : v.Denotes ms) {ts : List Term} (hts : p.covered = .ok ts) :
    (∀ t ∈ ts, t.accepts v = true) ↔
      AgreeOn p.numbers.length ms p.numbers ∧
        (p.numbers.length = 3 → ∀ i, 3 ≤ i → ms.getD i 0 = 0) := by
  by_cases hlength : p.numbers.length = 3
  · obtain ⟨a, b, c, tag, rfl⟩ := exists_patch hlength
    obtain rfl : tag = none := by
      cases tag with
      | none => rfl
      | some t => exact absurd hp id
    obtain rfl := Except.ok.inj hts
    exact (accepts_exact_iff_of_denotes hv a b c).trans
      (and_congr_right' (imp_iff_right hlength).symm)
  · rw [accepts_iff_of_isSpan hv (isSpan_covered hp.ne_any hlength) hts hp.compare_floor
      List.prefix_rfl]
    exact ⟨fun h => ⟨h.2, fun hall => absurd hall hlength⟩,
      fun h => ⟨reaches_of_agreeOn h.1, h.1⟩⟩

/-- On numeric releases, the range of a partial version admits those that agree
with it on its components, and are zero afterwards if it has all three. A tilde
range admits those from its start on that agree on the first two components, or
on the only one, and a caret range those from its start on that agree up to the
leftmost component that is not zero, or on all if all are zero. -/
theorem accepts_numeric_iff (p : PartialVersion) (hp : p.IsPlain) (v : Version) (ms : List Nat)
    (hv : v.Denotes ms) :
    (∀ ts, p.covered = .ok ts →
      ((∀ t ∈ ts, t.accepts v = true) ↔
        AgreeOn p.numbers.length ms p.numbers ∧
          (p.numbers.length = 3 → ∀ i, 3 ≤ i → ms.getD i 0 = 0))) ∧
    (∀ ts, p.tilde = .ok ts →
      ((∀ t ∈ ts, t.accepts v = true) ↔
        Reaches ms p.numbers ∧ AgreeOn (min 2 p.numbers.length) ms p.numbers)) ∧
    (∀ ts, p.caret = .ok ts →
      ((∀ t ∈ ts, t.accepts v = true) ↔
        Reaches ms p.numbers ∧ AgreeOn (frozen p.numbers).length ms p.numbers)) := by
  refine ⟨fun ts => covered_accepts_iff_of_denotes hp hv, fun ts hts => ?_, fun ts hts => ?_⟩
  · rw [accepts_iff_of_isSpan hv (isSpan_tilde hp.ne_any) hts hp.compare_floor
      (List.take_prefix 2 _), List.length_take]
  · exact accepts_iff_of_isSpan hv (isSpan_caret hp.ne_any) hts hp.compare_floor
      (isPrefix_frozen _)

/-- A release with leading zeros and a number beyond a word, in ranges whose
major component is zero. -/
theorem accepts_numeric_iff_zero_major :
    let p : PartialVersion := .minor 0 2
    let v : Version := "00.2.018446744073709551616.7"
    let ms : List Nat := [0, 2, 18446744073709551616, 7]
    let ts : List Term := [⟨.atLeast, "0.2.0"⟩, ⟨.below, "0.3.0"⟩]
    p.IsPlain ∧ v.Denotes ms ∧ p.covered = .ok ts ∧ p.tilde = .ok ts ∧ p.caret = .ok ts ∧
    AgreeOn 2 ms [0, 2] ∧ Reaches ms [0, 2] ∧ ∀ t ∈ ts, t.accepts v = true := by
  intro p v ms ts
  have hv : v.Denotes ms := by
    refine ⟨["00".toList, "2".toList, "018446744073709551616".toList, "7".toList], by simp, ?_,
      by decide, by decide⟩
    simp [IsDigits]
  have hcovered : p.covered = .ok ts := by decide
  have htilde : p.tilde = .ok ts := by decide
  have hcaret : p.caret = .ok ts := by decide
  obtain ⟨hcovers, htildes, hcarets⟩ := accepts_numeric_iff p trivial v ms hv
  have hagree : AgreeOn 2 ms [0, 2] := by
    intro i hi
    interval_cases i <;> rfl
  have haccepts := (hcovers ts hcovered).2 ⟨hagree, fun hlength => absurd hlength (by decide)⟩
  have hreaches := ((htildes ts htilde).1 haccepts).1
  exact ⟨trivial, hv, hcovered, htilde, hcaret, hagree, hreaches,
    (hcarets ts hcaret).2 ⟨hreaches, hagree⟩⟩

end PartialVersion

end Requirements
