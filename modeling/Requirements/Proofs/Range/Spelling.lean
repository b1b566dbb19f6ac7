import Mathlib
import Requirements.Proofs.Range.Expansion

/-!
# Ranks of versions that are spelled out

A version ranks by its numerals, of whatever size, and by its tag. Only what
fits a word is read of it, and build metadata and a `v` in front are not read at
all. What is left still covers the version: either all numerals are read, or the
first one that is not exceeds the zero that takes its place.
-/

namespace Requirements

open Text (decimal decimalValue numeral? wordMax)

namespace Version

theorem compare_eq_lt_of_place {a b : Version} {front as bs : List Int} {x y : Int}
    (ha : a.integers = front ++ x :: as) (hb : b.integers = front ++ y :: bs) (h : x < y) :
    compare a b = .lt := by
  refine compare_eq_lt_iff.2 ⟨front.length, fun j hj => ?_, ?_⟩
  · rw [place, place, ha, hb, List.getD_append _ _ _ _ hj, List.getD_append _ _ _ _ hj]
  · simpa [place, ha, hb] using h

variable {v : Version} {rest : List Int}

/-- A version reaches the numbers it starts with, filled up with zeros, unless a
word comes after them. -/
theorem compare_ne_lt_zeros {ns : List Nat} (hv : v.integers = ns.map Int.ofNat ++ rest)
    (hrest : ∀ n ∈ rest.head?, 0 < n) (k : Nat) :
    compare v (dotted (ns ++ List.replicate (k + 1) 0)) ≠ .lt := by
  have hzeros : integers (dotted (ns ++ List.replicate (k + 1) 0)) =
      ns.map Int.ofNat ++ List.replicate (k + 1) 0 := by
    rw [integers_dotted (by simp), List.map_append, List.map_replicate]
    rfl
  cases rest with
  | nil =>
      rw [List.append_nil] at hv
      rw [compare_eq_of_zeros (hv ▸ hzeros)]
      decide
  | cons n rest =>
      have hlt := compare_eq_lt_of_place hzeros hv (hrest n rfl)
      rw [Std.OrientedCmp.gt_of_lt hlt]
      decide

/-- A version is below the numbers it starts with when the last one is bumped. -/
theorem compare_eq_lt_bumped (ns : List Nat) {n : Nat}
    (hv : v.integers = (ns ++ [n]).map Int.ofNat ++ rest) (k : Nat) :
    compare v (dotted (ns ++ (n + 1) :: List.replicate k 0)) = .lt :=
  lt_of_startsWith (Nat.lt_succ_self n) _ (startsWith_of_integers hv)

end Version

theorem numeral?_digits {ds : List Char} (h : IsDigits ds) :
    numeral? ds = if decimalValue ds ≤ wordMax then some (decimalValue ds) else none := by
  have hdigits : ds.all Char.isDigit = true := List.all_eq_true.2 h.2
  have hne : ds.isEmpty = false := List.isEmpty_eq_false_iff.2 h.1
  simp [numeral?, hdigits, hne]

theorem isDigits_of_numeral? {c : List Char} {n : Nat} (h : numeral? c = some n) :
    IsDigits c ∧ decimalValue c = n := by
  unfold numeral? at h
  split at h
  · rename_i hc
    simp only [Bool.and_eq_true, Bool.not_eq_true', List.isEmpty_eq_false_iff,
      List.all_eq_true] at hc
    exact ⟨⟨hc.1.1, hc.1.2⟩, Option.some.inj h⟩
  · cases h

namespace PartialVersion

/-- The components of a version, without the tag. -/
def numbers : PartialVersion → List Nat
  | .any => []
  | .major a => [a]
  | .minor a b => [a, b]
  | .patch a b c _ => [a, b, c]

theorem exists_patch {p : PartialVersion} (h : p.numbers.length = 3) :
    ∃ a b c tag, p = .patch a b c tag := by
  cases p with
  | patch a b c tag => exact ⟨a, b, c, tag, rfl⟩
  | _ => cases h

/-- Zeros take the place of the components that are missing. -/
theorem floor_eq_dotted {p : PartialVersion} (h : p.numbers.length ≠ 3) :
    p.floor = dotted (p.numbers ++ List.replicate (3 - p.numbers.length) 0) := by
  cases p with
  | patch a b c tag => exact absurd rfl h
  | _ => rfl

/-- The values of components, up to the first one that has none. -/
def leadingValues : List (List Char) → List Nat
  | [] => []
  | c :: cs =>
      match numeral? c with
      | some n => n :: leadingValues cs
      | none => []

theorem numbers_ofComponents {cs : List (List Char)} (tag : Option (List Char))
    (h : cs.length ≤ 3) : (ofComponents cs tag).numbers = leadingValues cs := by
  match cs, h with
  | [], _ => rfl
  | [a], _ => cases ha : numeral? a <;> simp [ofComponents, leadingValues, numbers, ha]
  | [a, b], _ =>
      cases ha : numeral? a
      · simp [ofComponents, leadingValues, numbers, ha]
      · cases hb : numeral? b <;> simp [ofComponents, leadingValues, numbers, ha, hb]
  | [a, b, c], _ =>
      cases ha : numeral? a
      · simp [ofComponents, leadingValues, numbers, ha]
      · cases hb : numeral? b
        · simp [ofComponents, leadingValues, numbers, ha, hb]
        · cases hc : numeral? c <;> simp [ofComponents, leadingValues, numbers, ha, hb, hc]

/-- ASCII digits have a value if it fits a word. -/
theorem leadingValues_digits {cs : List (List Char)} (h : ∀ ds ∈ cs, IsDigits ds) :
    leadingValues cs = (cs.map decimalValue).takeWhile (· ≤ wordMax) := by
  induction cs with
  | nil => rfl
  | cons ds cs ih =>
      have hvalue := numeral?_digits (h ds List.mem_cons_self)
      have hrest := ih fun es hes => h es (List.mem_cons_of_mem ds hes)
      by_cases hfits : decimalValue ds ≤ wordMax
      · rw [if_pos hfits] at hvalue
        simp [leadingValues, hvalue, hfits, hrest]
      · rw [if_neg hfits] at hvalue
        simp [leadingValues, hvalue, hfits]

theorem exists_of_getElem?_leadingValues {cs : List (List Char)} {i n : Nat}
    (h : (leadingValues cs)[i]? = some n) : ∃ c, cs[i]? = some c ∧ numeral? c = some n := by
  induction cs generalizing i with
  | nil => simp [leadingValues] at h
  | cons c cs ih =>
      cases hc : numeral? c with
      | none => simp [leadingValues, hc] at h
      | some m =>
          simp only [leadingValues, hc] at h
          cases i with
          | zero => exact ⟨c, rfl, hc.trans h⟩
          | succ i => exact ih h

/-- A value is left out if some component up to its place is missing or has none. -/
theorem getElem?_leadingValues_eq_none_iff {cs : List (List Char)} {i : Nat} :
    (leadingValues cs)[i]? = none ↔ ∃ j ≤ i, ∀ c, cs[j]? = some c → numeral? c = none := by
  induction cs generalizing i with
  | nil => simpa [leadingValues] using ⟨i, Nat.le_refl i⟩
  | cons c cs ih =>
      cases hc : numeral? c with
      | none =>
          simp only [leadingValues, hc, List.getElem?_nil, true_iff]
          refine ⟨0, Nat.zero_le i, fun d hd => ?_⟩
          rwa [← Option.some.inj hd]
      | some m =>
          simp only [leadingValues, hc]
          constructor
          · intro h
            cases i with
            | zero => cases h
            | succ i =>
                obtain ⟨j, hj, hnone⟩ := ih.1 h
                exact ⟨j + 1, Nat.succ_le_succ hj, hnone⟩
          · rintro ⟨j, hj, hnone⟩
            cases j with
            | zero =>
                rw [hnone c rfl] at hc
                cases hc
            | succ j =>
                cases i with
                | zero => omega
                | succ i => exact ih.2 ⟨j, Nat.le_of_succ_le_succ hj, hnone⟩

theorem tag_of_ofComponents {components : List (List Char)} {tag : Option (List Char)} {a b c : Nat}
    {t : Option String} (h : ofComponents components tag = .patch a b c t) :
    t = tag.map String.ofList := by
  unfold ofComponents at h
  split at h
  · exact (PartialVersion.patch.inj h).2.2.2.symm
  · cases h
  · cases h
  · cases h

section

variable {v : Version} {ts : List Term}

theorem accepts_between_iff {lower : Version} {upper : Option Version} :
    (∀ t ∈ between lower upper, t.accepts v = true) ↔
      Version.compare v lower ≠ .lt ∧ ∀ u ∈ upper, Version.compare v u = .lt := by
  cases upper <;> simp [between, Term.accepts, Operator.accepts]

theorem accepts_of_bump {lower : Version} (f : Nat → Version) {m : Nat}
    (hlower : Version.compare v lower ≠ .lt) (hupper : Version.compare v (f (m + 1)) = .lt)
    (h : (do return between lower (← (do return some (f (← bump m)))) :
      Except Oversized (List Term)) = .ok ts) : ∀ t ∈ ts, t.accepts v = true := by
  obtain ⟨upper, hbound, h⟩ := bind_eq_ok.1 h
  obtain rfl := pure_eq_ok.1 h
  obtain ⟨rfl, _⟩ := eq_of_bump hbound
  refine accepts_between_iff.2 ⟨hlower, fun u hu => ?_⟩
  obtain rfl := Option.some.inj hu
  exact hupper

/-- The range of a partial version admits what starts with its numbers, unless
a word comes after them. -/
theorem accepts_of_covered {p : PartialVersion} {rest : List Int}
    (hv : v.integers = p.numbers.map Int.ofNat ++ rest) (hrest : ∀ n ∈ rest.head?, 0 < n)
    (hp : p.numbers.length ≠ 3) (h : p.covered = .ok ts) : ∀ t ∈ ts, t.accepts v = true := by
  have hlower := Version.compare_ne_lt_zeros hv hrest
  cases p with
  | any =>
      obtain rfl := Except.ok.inj h
      exact accepts_between_iff.2 ⟨hlower 2, by simp⟩
  | major a =>
      have hupper : Version.compare v (render (a + 1) 0 0) = .lt :=
        Version.compare_eq_lt_bumped [] hv 2
      exact accepts_of_bump (fun n => render n 0 0) (hlower 1) hupper h
  | minor a b =>
      have hupper : Version.compare v (render a (b + 1) 0) = .lt :=
        Version.compare_eq_lt_bumped [a] hv 1
      exact accepts_of_bump (fun n => render a n 0) (hlower 0) hupper h
  | patch a b c tag => exact absurd rfl hp

end

namespace Spelling

/-- The numbers that the components denote. -/
def values (x : Spelling) : List Nat :=
  x.components.map decimalValue

/-- What is read of the version. -/
def version (x : Spelling) : PartialVersion :=
  ofComponents x.components (x.tag.map String.toList)

/-- The integers that the tag counts for. -/
def tagIntegers : Option String → List Int
  | none => []
  | some t => (t.toList.splitOnP Version.isSeparator).map Version.integer

theorem integers_core (x : Spelling) :
    Version.integers (String.ofList x.core) = x.values.map Int.ofNat ++ tagIntegers x.tag := by
  have hdigit : ∀ ds ∈ x.components, ∀ c ∈ ds, Version.isSeparator c = false := fun ds hds c hc =>
    Version.isSeparator_of_isDigit ((x.digits ds hds).2 c hc)
  have hsplit : (['.'].intercalate x.components).splitOnP Version.isSeparator = x.components :=
    Text.splitOnP_intercalate (by decide) hdigit x.ne_nil
  have hvalues : x.components.map Version.integer = x.values.map Int.ofNat := by
    rw [values, List.map_map]
    exact List.map_congr_left fun ds hds => Version.integer_digits (x.digits ds hds)
  rw [Version.integers, String.toList_ofList, core, ← hvalues]
  cases x.tag with
  | none => rw [tagText, List.append_nil, hsplit, tagIntegers, List.append_nil]
  | some t =>
      rw [tagText, List.splitOnP_append_cons _ _ (by decide), hsplit, List.map_append]
      rfl

theorem tagIntegers_eq_nil (x : Spelling) (h : x.values.length ≠ 3) : tagIntegers x.tag = [] := by
  cases htag : x.tag with
  | none => rfl
  | some t =>
      have hlength := (x.isTag t htag).1
      rw [values, List.length_map] at h
      exact absurd hlength h

theorem numbers_version (x : Spelling) :
    x.version.numbers = x.values.takeWhile (· ≤ wordMax) :=
  (numbers_ofComponents _ x.length_le).trans (leadingValues_digits x.digits)

theorem values_of_patch (x : Spelling) {a b c : Nat} {tag : Option String}
    (h : x.version = .patch a b c tag) :
    tag = x.tag ∧ x.values = [a, b, c] := by
  have htag : tag = x.tag := by
    rw [tag_of_ofComponents h]
    simp
  have hnumbers := x.numbers_version
  rw [h, numbers] at hnumbers
  have hlength : x.values.length ≤ 3 := by
    rw [values, List.length_map]
    exact x.length_le
  have hfront := List.takeWhile_prefix (l := x.values) (· ≤ wordMax)
  rw [← hnumbers] at hfront
  exact ⟨htag, (hfront.eq_of_length_le hlength).symm⟩

/-- What is read of a complete version ranks with it. -/
theorem compare_core_patch (x : Spelling) {a b c : Nat} {tag : Option String}
    (h : x.version = .patch a b c tag) :
    Version.compare (String.ofList x.core) x.version.floor = .eq := by
  obtain ⟨rfl, hvalues⟩ := x.values_of_patch h
  let y := ofNumbers [a, b, c] x.tag (by simp) (by simp) fun t ht => ⟨rfl, (x.isTag t ht).2⟩
  have hfloor : x.version.floor = String.ofList y.core := by
    rw [h, ← String.toList_inj, String.toList_ofList]
    have hwritten := toList_written_patch a b c x.tag
    simpa [y, core, ofNumbers, written, List.intercalate_cons_cons] using hwritten
  have hintegers : Version.integers (String.ofList y.core) =
      Version.integers (String.ofList x.core) := by
    rw [integers_core, integers_core, hvalues]
    simp [y, ofNumbers, values, Text.decimalValue_decimal]
  rw [hfloor]
  refine Version.compare_eq_of_zeros (k := 0) ?_
  rw [hintegers, List.replicate_zero, List.append_nil]

/-- After the numbers that are read comes one that exceeds zero, or nothing. -/
theorem exists_integers_core (x : Spelling) (h : x.version.numbers.length ≠ 3) :
    ∃ rest, Version.integers (String.ofList x.core) = x.version.numbers.map Int.ofNat ++ rest ∧
      ∀ n ∈ rest.head?, 0 < n := by
  let left := x.values.dropWhile (· ≤ wordMax)
  have hvalues : x.values = x.version.numbers ++ left := by
    rw [numbers_version, List.takeWhile_append_dropWhile]
  refine ⟨left.map Int.ofNat ++ tagIntegers x.tag, ?_, fun n hn => ?_⟩
  · rw [integers_core, ← List.append_assoc, ← List.map_append, ← hvalues]
  · cases hleft : left with
    | nil =>
        rw [hleft, List.append_nil] at hvalues
        rw [hleft, x.tagIntegers_eq_nil (hvalues ▸ h)] at hn
        cases hn
    | cons m ms =>
        rw [hleft] at hn
        obtain rfl := Option.some.inj hn
        have hlarge := List.head?_dropWhile_not (fun n => decide (n ≤ wordMax)) x.values
        simp only [left] at hleft
        rw [hleft] at hlarge
        have hpositive : 0 < m := Nat.lt_of_le_of_lt (Nat.zero_le wordMax) (by simpa using hlarge)
        exact Int.ofNat_lt.2 hpositive

/-- The range of what is read admits the version. -/
theorem accepts_core (x : Spelling) {ts : List Term} (h : x.version.covered = .ok ts) :
    ∀ t ∈ ts, t.accepts (String.ofList x.core) = true := by
  -- A tag counts below zero, so with one the version has to be met exactly.
  by_cases hlength : x.version.numbers.length = 3
  · obtain ⟨a, b, c, tag, hversion⟩ := exists_patch hlength
    have hequal := x.compare_core_patch hversion
    rw [hversion] at h hequal
    obtain rfl := Except.ok.inj h
    intro t ht
    rw [List.mem_singleton.1 ht]
    exact beq_iff_eq.2 hequal
  · obtain ⟨rest, hintegers, hrest⟩ := x.exists_integers_core hlength
    exact accepts_of_covered hintegers hrest hlength h

/-- A version whose numerals all fit a word ranks with what is read of it. -/
theorem compare_core_floor (x : Spelling) (h : ∀ n ∈ x.values, n ≤ wordMax) :
    Version.compare (String.ofList x.core) x.version.floor = .eq := by
  have hnumbers : x.version.numbers = x.values := by
    rw [numbers_version, List.takeWhile_eq_self_iff]
    simpa using h
  by_cases hlength : x.version.numbers.length = 3
  · obtain ⟨a, b, c, tag, hversion⟩ := exists_patch hlength
    exact x.compare_core_patch hversion
  · have hne : x.version.numbers ≠ [] := by
      rw [hnumbers, values]
      simpa using x.ne_nil
    have hintegers := x.integers_core
    rw [x.tagIntegers_eq_nil (hnumbers ▸ hlength), List.append_nil, ← hnumbers] at hintegers
    rw [floor_eq_dotted hlength]
    refine Version.compare_eq_of_zeros (k := 3 - x.version.numbers.length) ?_
    rw [Version.integers_dotted (List.append_ne_nil_of_left_ne_nil hne _), List.map_append,
      List.map_replicate, hintegers]
    rfl

end Spelling

end PartialVersion

end Requirements
