import Mathlib
import Requirements.Text.Digit
import Requirements.Version

/-!
# Versions rank as lists of integers

A segment of digits counts for the integer it denotes, however long it is, and
every other segment for `-1`. Versions rank as their integers do, compared in
turn after the shorter list is filled up with zeros. The order itself builds no
integer: it drops leading zeros, then counts digits, then compares them one by
one. `compare_eq_compareIntegers` says that the two orders are the same.
-/

namespace Requirements

open Text (decimalValue)

/-! ## Digits as numbers -/

theorem decimalValue_cons (c : Char) (ds : List Char) :
    decimalValue (c :: ds) = (c.toNat - '0'.toNat) * 10 ^ ds.length + decimalValue ds := by
  simp only [decimalValue]
  rw [Nat.ofDigitChars_cons, Nat.ofDigitChars_eq_ofDigitChars_zero, Nat.mul_zero, Nat.zero_add,
    Nat.mul_comm]

theorem toNat_of_isDigit {c : Char} (h : c.isDigit = true) :
    '0'.toNat ≤ c.toNat ∧ c.toNat ≤ '9'.toNat := by
  simp only [Char.isDigit, Bool.and_eq_true, decide_eq_true_eq] at h
  exact h

/-- The value of `n` digits has at most `n` digits. -/
theorem decimalValue_lt {ds : List Char} (h : ∀ c ∈ ds, c.isDigit = true) :
    decimalValue ds < 10 ^ ds.length := by
  induction ds with
  | nil => decide
  | cons c ds ih =>
      have hc := toNat_of_isDigit (h c (by simp))
      have hds := ih fun d hd => h d (by simp [hd])
      have hdigit : c.toNat - '0'.toNat ≤ 9 := by
        have h0 : '0'.toNat = 48 := rfl
        have h9 : '9'.toNat = 57 := rfl
        omega
      have hle := Nat.mul_le_mul_right (10 ^ ds.length) hdigit
      rw [decimalValue_cons, List.length_cons, Nat.pow_succ]
      omega

/-- A number whose first digit is not zero has a value of as many digits. -/
theorem le_decimalValue {c : Char} {ds : List Char} (hc : c.isDigit = true) (h0 : c ≠ '0') :
    10 ^ ds.length ≤ decimalValue (c :: ds) := by
  have hd := toNat_of_isDigit hc
  have hne : c.toNat ≠ '0'.toNat := fun h => h0 (Char.toNat_inj.1 h)
  have hle := Nat.mul_le_mul_right (10 ^ ds.length) (show 1 ≤ c.toNat - '0'.toNat by omega)
  rw [decimalValue_cons]
  omega

theorem decimalValue_dropWhile (ds : List Char) :
    decimalValue (ds.dropWhile (· == '0')) = decimalValue ds := by
  induction ds with
  | nil => rfl
  | cons c ds ih =>
      rw [List.dropWhile_cons]
      split
      · rename_i hc
        rw [ih, decimalValue_cons, beq_iff_eq.1 hc, Nat.sub_self, Nat.zero_mul, Nat.zero_add]
      · rfl

/-- A digit in front of smaller places decides first. -/
theorem compare_place {x y u v p : Nat} (hu : u < p) (hv : v < p) :
    Ord.compare (x * p + u) (y * p + v) = (Ord.compare x y).then (Ord.compare u v) := by
  rcases Nat.lt_trichotomy x y with h | rfl | h
  · have hle := Nat.mul_le_mul_right p (Nat.succ_le_of_lt h)
    rw [Nat.succ_mul] at hle
    rw [Nat.compare_eq_lt.2 h, Nat.compare_eq_lt.2 (by omega)]
    rfl
  · rw [Nat.compare_eq_eq.2 rfl, Ordering.eq_then]
    rcases Nat.lt_trichotomy u v with h | rfl | h
    · rw [Nat.compare_eq_lt.2 h, Nat.compare_eq_lt.2 (by omega)]
    · rw [Nat.compare_eq_eq.2 rfl, Nat.compare_eq_eq.2 rfl]
    · rw [Nat.compare_eq_gt.2 h, Nat.compare_eq_gt.2 (by omega)]
  · have hle := Nat.mul_le_mul_right p (Nat.succ_le_of_lt h)
    rw [Nat.succ_mul] at hle
    rw [Nat.compare_eq_gt.2 h, Nat.compare_eq_gt.2 (by omega)]
    rfl

theorem compare_char (c d : Char) : Ord.compare c d = Ord.compare c.toNat d.toNat := by
  show compareOfLessAndEq c d = compareOfLessAndEq c.toNat d.toNat
  have hlt : c < d ↔ c.toNat < d.toNat := Iff.rfl
  have heq : c = d ↔ c.toNat = d.toNat := Char.toNat_inj.symm
  simp only [compareOfLessAndEq, hlt, heq]

theorem compare_of_length_eq {ds es : List Char} (hds : ∀ c ∈ ds, c.isDigit = true)
    (hes : ∀ c ∈ es, c.isDigit = true) (h : ds.length = es.length) :
    Ord.compare ds es = Ord.compare (decimalValue ds) (decimalValue es) := by
  induction ds generalizing es with
  | nil =>
      obtain rfl := List.length_eq_zero_iff.1 h.symm
      rfl
  | cons c ds ih =>
      cases es with
      | nil => simp at h
      | cons d es =>
          have hl : ds.length = es.length := by simpa using h
          have hrest := ih (fun x hx => hds x (by simp [hx])) (fun x hx => hes x (by simp [hx])) hl
          have hc := toNat_of_isDigit (hds c (by simp))
          have hd := toNat_of_isDigit (hes d (by simp))
          have hu := decimalValue_lt fun x hx => hds x (List.mem_cons_of_mem c hx)
          have hv := decimalValue_lt fun x hx => hes x (List.mem_cons_of_mem d hx)
          rw [decimalValue_cons, decimalValue_cons, ← hl, compare_place hu (hl ▸ hv),
            List.compare_cons_cons, hrest, compare_char]
          congr 1
          rcases Nat.lt_trichotomy c.toNat d.toNat with h | h | h
          · rw [Nat.compare_eq_lt.2 h, Nat.compare_eq_lt.2 (by omega)]
          · rw [h, Nat.compare_eq_eq.2 rfl, Nat.compare_eq_eq.2 rfl]
          · rw [Nat.compare_eq_gt.2 h, Nat.compare_eq_gt.2 (by omega)]

/-- Digits that do not start with a zero. -/
structure IsNumeral (ds : List Char) : Prop where
  digits : ∀ c ∈ ds, c.isDigit = true
  lead : ds.head? ≠ some '0'

theorem isNumeral_nil : IsNumeral [] :=
  ⟨by simp, by simp⟩

theorem isNumeral_dropWhile {ds : List Char} (h : ∀ c ∈ ds, c.isDigit = true) :
    IsNumeral (ds.dropWhile (· == '0')) where
  digits := fun c hc => h c ((List.dropWhile_sublist _).subset hc)
  lead := fun hz => by
    have := List.head?_dropWhile_not (· == '0') ds
    simp [hz] at this

theorem decimalValue_lt_of_length_lt {ds es : List Char} (hds : IsNumeral ds) (hes : IsNumeral es)
    (h : ds.length < es.length) : decimalValue ds < decimalValue es := by
  cases es with
  | nil => simp at h
  | cons e es =>
      have hlt := decimalValue_lt hds.digits
      have hle := @le_decimalValue e es (hes.digits e (by simp)) (by simpa using hes.lead)
      have hpow : 10 ^ ds.length ≤ 10 ^ es.length :=
        Nat.pow_le_pow_right (by decide) (by simpa [Nat.lt_succ_iff] using h)
      omega

/-- Counting digits and then comparing them is comparing values. -/
theorem compare_numerals {ds es : List Char} (hds : IsNumeral ds) (hes : IsNumeral es) :
    (Ord.compare ds.length es.length).then (Ord.compare ds es) =
      Ord.compare (decimalValue ds) (decimalValue es) := by
  rcases Nat.lt_trichotomy ds.length es.length with h | h | h
  · rw [Nat.compare_eq_lt.2 h, Nat.compare_eq_lt.2 (decimalValue_lt_of_length_lt hds hes h)]
    rfl
  · rw [Nat.compare_eq_eq.2 h, Ordering.eq_then, compare_of_length_eq hds.digits hes.digits h]
  · rw [Nat.compare_eq_gt.2 h, Nat.compare_eq_gt.2 (decimalValue_lt_of_length_lt hes hds h)]
    rfl

/-! ## Segments as integers -/

namespace Segment

/-- The integer that a segment counts for. -/
def value : Segment → Int
  | .word => -1
  | .number ds => decimalValue ds

/-- Segments as they are read: numbers have no leading zeros. -/
def IsRead : Segment → Prop
  | .word => True
  | .number ds => IsNumeral ds

theorem isRead_zero : IsRead zero :=
  isNumeral_nil

@[simp] theorem value_zero : value zero = 0 :=
  rfl

theorem isRead_read (cs : List Char) : IsRead (read cs) := by
  unfold read
  split
  all_goals
    dsimp only
    split
    · rename_i h
      simp only [Bool.and_eq_true, List.all_eq_true] at h
      exact isNumeral_dropWhile h.2
    · trivial

theorem compare_natCast (m n : Nat) : Ord.compare (m : Int) (n : Int) = Ord.compare m n := by
  rcases Nat.lt_trichotomy m n with h | h | h
  · rw [Nat.compare_eq_lt.2 h]
    exact Std.compare_eq_lt.2 (Int.ofNat_lt.2 h)
  · rw [Nat.compare_eq_eq.2 h, h]
    exact Std.ReflOrd.compare_self
  · rw [Nat.compare_eq_gt.2 h]
    exact Std.compare_eq_gt.2 (Int.ofNat_lt.2 h)

theorem compare_eq_compare_value {s t : Segment} (hs : IsRead s) (ht : IsRead t) :
    s.compare t = Ord.compare s.value t.value := by
  cases s with
  | word =>
      cases t with
      | word => rfl
      | number es => exact (Std.compare_eq_lt.2 (by simp only [value]; omega)).symm
  | number ds =>
      cases t with
      | word => exact (Std.compare_eq_gt.2 (by simp only [value]; omega)).symm
      | number es =>
          simp only [Segment.compare, value]
          rw [compare_numerals hs ht, compare_natCast]

end Segment

namespace Version

/-! ## Versions as integers -/

/-- The integer of one or more digits, and `-1` for any other text. -/
def unsigned (cs : List Char) : Int :=
  if cs ≠ [] ∧ ∀ c ∈ cs, c.isDigit = true then decimalValue cs else -1

/-- The integer of a segment, which may have one plus sign in front. -/
def integer (cs : List Char) : Int :=
  unsigned (match cs with
    | '+' :: digits => digits
    | _ => cs)

/-- The integers of a version, one for each segment. -/
def integers (v : Version) : List Int :=
  (v.toList.splitOnP isSeparator).map integer

/-- Compare two versions integer by integer, the shorter one filled up with zeros. -/
def compareIntegers (a b : Version) : Ordering :=
  let width := max a.integers.length b.integers.length
  List.compareLex Ord.compare (a.integers.rightpad width 0) (b.integers.rightpad width 0)

theorem value_read (cs : List Char) : (Segment.read cs).value = integer cs := by
  have key : ∀ ds : List Char, (if !ds.isEmpty && ds.all Char.isDigit then
      Segment.number (ds.dropWhile (· == '0')) else Segment.word).value = unsigned ds := by
    intro ds
    have hiff : (!ds.isEmpty && ds.all Char.isDigit) = true ↔
        ds ≠ [] ∧ ∀ c ∈ ds, c.isDigit = true := by
      simp only [Bool.and_eq_true, List.all_eq_true, Bool.not_eq_true', List.isEmpty_eq_false_iff]
    unfold unsigned
    by_cases h : ds ≠ [] ∧ ∀ c ∈ ds, c.isDigit = true
    · rw [if_pos (hiff.2 h), if_pos h]
      exact congrArg Int.ofNat (decimalValue_dropWhile ds)
    · rw [if_neg fun hb => h (hiff.1 hb), if_neg h]
      rfl
  exact key _

theorem map_value_segments (v : Version) : v.segments.map Segment.value = v.integers := by
  simp only [segments, integers, List.map_map]
  exact List.map_congr_left fun cs _ => value_read cs

theorem isRead_of_mem_segments {v : Version} {s : Segment} (h : s ∈ v.segments) : s.IsRead := by
  obtain ⟨cs, _, rfl⟩ := List.mem_map.1 h
  exact Segment.isRead_read cs

theorem rightpad_nil (n : Nat) : ([] : List Int).rightpad n 0 = List.replicate n 0 := by
  simp [List.rightpad]

theorem rightpad_cons (n : Nat) (x : Int) (xs : List Int) :
    (x :: xs).rightpad (n + 1) 0 = x :: xs.rightpad n 0 := by
  simp [List.rightpad]

theorem compareToZeros_eq {ss : List Segment} (hs : ∀ s ∈ ss, s.IsRead) {n : Nat}
    (hn : ss.length ≤ n) :
    compareToZeros ss =
      List.compareLex Ord.compare ((ss.map Segment.value).rightpad n 0) (List.replicate n 0) := by
  induction ss generalizing n with
  | nil =>
      rw [List.map_nil, rightpad_nil]
      exact (Std.ReflCmp.compare_self).symm
  | cons s ss ih =>
      obtain ⟨m, rfl⟩ : ∃ m, n = m + 1 := ⟨n - 1, by simp at hn; omega⟩
      rw [List.map_cons, rightpad_cons, List.replicate_succ, List.compareLex_cons_cons,
        compareToZeros, Segment.compare_eq_compare_value (hs s (by simp)) Segment.isRead_zero,
        Segment.value_zero, ih (fun t ht => hs t (by simp [ht])) (by simpa using hn)]

/-- Filling up with zeros, to whatever width suffices for both, leaves the order. -/
theorem compareSegments_eq {ss ts : List Segment} (hs : ∀ s ∈ ss, s.IsRead)
    (ht : ∀ t ∈ ts, t.IsRead) {n : Nat} (hsn : ss.length ≤ n) (htn : ts.length ≤ n) :
    compareSegments ss ts =
      List.compareLex Ord.compare ((ss.map Segment.value).rightpad n 0)
        ((ts.map Segment.value).rightpad n 0) := by
  induction ss generalizing ts n with
  | nil =>
      rw [compareSegments, compareToZeros_eq ht htn, List.map_nil, rightpad_nil]
      exact (Std.OrientedCmp.eq_swap).symm
  | cons s ss ih =>
      cases ts with
      | nil =>
          rw [compareSegments, compareToZeros_eq hs hsn, List.map_nil, rightpad_nil]
      | cons t ts =>
          obtain ⟨m, rfl⟩ : ∃ m, n = m + 1 := ⟨n - 1, by simp at hsn; omega⟩
          rw [List.map_cons, List.map_cons, rightpad_cons, rightpad_cons,
            List.compareLex_cons_cons, compareSegments,
            Segment.compare_eq_compare_value (hs s (by simp)) (ht t (by simp)),
            ih (fun x hx => hs x (by simp [hx])) (fun x hx => ht x (by simp [hx]))
              (by simpa using hsn) (by simpa using htn)]

/-- Two versions rank as their integers do at any width that suffices for both. -/
theorem compare_eq_rightpad (a b : Version) {n : Nat} (ha : a.integers.length ≤ n)
    (hb : b.integers.length ≤ n) :
    compare a b =
      List.compareLex Ord.compare (a.integers.rightpad n 0) (b.integers.rightpad n 0) := by
  rw [compare, compareSegments_eq (n := n) (fun _ => isRead_of_mem_segments)
    (fun _ => isRead_of_mem_segments)]
  · rw [map_value_segments, map_value_segments]
  · rwa [← map_value_segments, List.length_map] at ha
  · rwa [← map_value_segments, List.length_map] at hb

/-- Versions rank as the integers of their segments. Comparing the number of
digits and then the digits themselves, without leading zeros, is comparing the
integers that the digits denote, of whatever size. -/
theorem compare_eq_compareIntegers :
    (∀ a b : Version, compare a b = compareIntegers a b) ∧
    ∀ ds es : List Char, (∀ c ∈ ds, c.isDigit = true) → (∀ c ∈ es, c.isDigit = true) →
      Segment.compare (.number (ds.dropWhile (· == '0'))) (.number (es.dropWhile (· == '0'))) =
        Ord.compare (decimalValue ds) (decimalValue es) := by
  constructor
  · intro a b
    exact compare_eq_rightpad a b (Nat.le_max_left _ _) (Nat.le_max_right _ _)
  · intro ds es hds hes
    simp only [Segment.compare]
    rw [compare_numerals (isNumeral_dropWhile hds) (isNumeral_dropWhile hes),
      decimalValue_dropWhile, decimalValue_dropWhile]

/-- The numbers on either side of the end of a 64-bit word, the larger one with
leading zeros. -/
theorem compare_beyond_word :
    (∀ c ∈ "0018446744073709551616".toList, c.isDigit = true) ∧
    (∀ c ∈ "18446744073709551615".toList, c.isDigit = true) ∧
    Segment.compare (.number ("0018446744073709551616".toList.dropWhile (· == '0')))
        (.number ("18446744073709551615".toList.dropWhile (· == '0'))) =
      Ord.compare (decimalValue "0018446744073709551616".toList)
        (decimalValue "18446744073709551615".toList) := by
  have hlarge : ∀ c ∈ "0018446744073709551616".toList, c.isDigit = true :=
    List.all_eq_true.1 (by decide)
  have hsmall : ∀ c ∈ "18446744073709551615".toList, c.isDigit = true :=
    List.all_eq_true.1 (by decide)
  exact ⟨hlarge, hsmall, compare_eq_compareIntegers.2 _ _ hlarge hsmall⟩

end Version

end Requirements
