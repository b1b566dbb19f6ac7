import Mathlib
import Requirements.Proofs.Range.End
import Requirements.Proofs.Range.Release

/-!
# Ends of pessimistic ranges

A pessimistic range keeps all release numbers of a version but the last one. The
numbers are cut off at points only, while versions are compared segment by
segment and split at hyphens too. Still no place of the version exceeds its
release number, since what is cut off counts for nothing or for a word.
-/

namespace Requirements

open Text (decimal decimalValue numeral? wordMax)

namespace Release

/-! ## Kept numbers -/

/-- The release numbers that may not change: all but the last one, or the only one. -/
def kept (ns : List Nat) : List Nat :=
  ns.take (max (ns.length - 1) 1)

theorem kept_isPrefix (ns : List Nat) : kept ns <+: ns :=
  List.take_prefix _ _

theorem ne_nil_of_kept {ns : List Nat} {n : Nat} (h : (kept ns).getLast? = some n) : ns ≠ [] := by
  rintro rfl
  cases h

theorem length_kept {ns : List Nat} (h : ns ≠ []) :
    (kept ns).length = max (ns.length - 1) 1 := by
  have hlength := List.length_pos_of_ne_nil h
  rw [kept, List.length_take]
  omega

theorem endsAfter_bumpLast {ns : List Nat} (h : ns ≠ []) :
    EndsAfter ns (do return some (← bumpLast ns)) := by
  obtain ⟨n, ns, rfl⟩ := List.exists_cons_of_ne_nil h
  refine ⟨(n :: ns).dropLast, (n :: ns).getLast h, 0, (List.dropLast_append_getLast h).symm, ?_⟩
  simp only [bumpLast]
  cases bump ((n :: ns).getLast h) <;> rfl

theorem endsAfter_pessimisticEnd {cs : List Char} (h : numbers cs ≠ []) :
    EndsAfter (kept (numbers cs)) (pessimisticEnd cs) := by
  obtain ⟨n, ns, hns⟩ := List.exists_cons_of_ne_nil h
  have hkept : kept (n :: ns) = (n :: ns).take (max ns.length 1) := rfl
  have hne : kept (n :: ns) ≠ [] := by
    rw [hkept, Ne, List.take_eq_nil_iff]
    simp
  rw [pessimisticEnd, hns]
  exact endsAfter_bumpLast hne

theorem pessimisticEnd_of_nil {cs : List Char} (h : numbers cs = []) :
    pessimisticEnd cs = .ok none := by
  rw [pessimisticEnd, h]

/-! ## Numbers with points between them -/

theorem leadingNumbers_decimal {ns : List Nat} (h : ∀ n ∈ ns, n ≤ wordMax) :
    leadingNumbers (ns.map decimal) = ns := by
  induction ns with
  | nil => rfl
  | cons n ns ih =>
      have hdigits : (decimal n).takeWhile Char.isDigit = decimal n :=
        List.takeWhile_eq_self_iff.2 fun c hc => isDigit_of_mem_decimal hc
      have hnumeral := numeral?_decimal (h n List.mem_cons_self)
      simp only [List.map_cons, leadingNumbers, hdigits, hnumeral, if_true,
        ih fun m hm => h m (List.mem_cons_of_mem n hm)]

theorem numbers_dotted {ns : List Nat} (hne : ns ≠ []) (h : ∀ n ∈ ns, n ≤ wordMax) :
    numbers (dotted ns).toList = ns := by
  have hmark : (dotted ns).toList.dropWhile (fun c => c == 'v' || c == 'V') =
      (dotted ns).toList := by
    obtain ⟨n, ns, rfl⟩ := List.exists_cons_of_ne_nil hne
    obtain ⟨rest, hrest, _⟩ := PartialVersion.exists_toList_dotted n ns
    obtain ⟨d, ds, hd⟩ := List.exists_cons_of_ne_nil (decimal_ne_nil n)
    have hdigit : d.isDigit = true := isDigit_of_mem_decimal (n := n) (by simp [hd])
    have hsmall : d ≠ 'v' := Text.ne_of_class hdigit (by decide)
    have hlarge : d ≠ 'V' := Text.ne_of_class hdigit (by decide)
    rw [hrest, hd, List.cons_append, List.dropWhile_cons, if_neg (by simp [hsmall, hlarge])]
  rw [numbers, hmark, Version.splitOnP_dotted hne (by decide) fun c hc =>
    beq_eq_false_iff_ne.2 (Text.ne_of_class hc (by decide)), leadingNumbers_decimal h]

/-! ## Versions as written -/

end Release

namespace Version

/-- A segment that does not start with a sign is a word if it is not all digits. -/
theorem integer_of_not_isDigit {cs : List Char} {c : Char} (hplus : ∀ d ∈ cs.head?, d ≠ '+')
    (hc : c ∈ cs) (hdigit : c.isDigit = false) : integer cs = -1 := by
  unfold integer
  split
  · exact absurd rfl (hplus '+' rfl)
  · refine if_neg fun h => ?_
    rw [h.2 c hc] at hdigit
    cases hdigit

/-- Text without separators in front of a version only changes the first segment. -/
theorem integers_append_front {front : List Char} (h : ∀ c ∈ front, isSeparator c = false)
    (rest : List Char) :
    ∃ first more, integers (String.ofList (front ++ rest)) = integer (front ++ first) :: more ∧
      (integers (String.ofList rest)).tail = more := by
  obtain ⟨first, more, hsplit⟩ := List.exists_cons_of_ne_nil (List.splitOnP_ne_nil isSeparator rest)
  refine ⟨first, more.map integer, ?_, ?_⟩
  · rw [integers, String.toList_ofList, Text.splitOnP_append_front h, hsplit]
    rfl
  · rw [integers, String.toList_ofList, hsplit]
    rfl

theorem Within.cons {v w : Version} {m : Int} {n : Nat} {ns : List Nat}
    (hv : v.integers = m :: w.integers) (hm : m ≤ n) (h : w.Within ns) : v.Within (n :: ns) := by
  intro i hi
  rw [place, hv]
  cases i with
  | zero => exact hm
  | succ i => exact h i (Nat.lt_of_succ_lt_succ hi)

/-- A word in place of the first segment does not exceed it. -/
theorem Within.of_word {v w : Version} {more : List Int} {ns : List Nat} (h : w.Within ns)
    (hv : v.integers = -1 :: more) (hmore : w.integers.tail = more) : v.Within ns := by
  intro i hi
  rw [place, hv]
  cases i with
  | zero =>
      have hword : (-1 : Int) ≤ ns.getD 0 0 := by omega
      exact hword
  | succ i =>
      have hplace := h (i + 1) hi
      rw [place, List.getD_eq_getElem?_getD, ← List.getElem?_tail, hmore,
        ← List.getD_eq_getElem?_getD] at hplace
      exact hplace

theorem within_singleton {v : Version} {m : Int} {n : Nat} (hv : v.integers.head? = some m)
    (hm : m ≤ n) : v.Within [n] := by
  intro i hi
  obtain rfl : i = 0 := by simpa using hi
  obtain ⟨more, hmore⟩ := List.head?_eq_some_iff.1 hv
  rw [place, hmore]
  exact hm

end Version

namespace Release

/-- What the first part gives: no number, a number and then those of the other
parts, or the last number if it does not consist of digits only. -/
theorem leadingNumbers_cons (part : List Char) (parts : List (List Char)) :
    leadingNumbers (part :: parts) = [] ∨
    (IsDigits part ∧
      leadingNumbers (part :: parts) = decimalValue part :: leadingNumbers parts) ∨
    ∃ ds rest, part = ds ++ rest ∧ IsDigits ds ∧ (∀ c ∈ rest.head?, c.isDigit = false) ∧
      leadingNumbers (part :: parts) = [decimalValue ds] := by
  cases hvalue : numeral? (part.takeWhile Char.isDigit) with
  | none => exact .inl (by simp only [leadingNumbers, hvalue])
  | some n =>
      obtain ⟨hdigits, rfl⟩ := isDigits_of_numeral? hvalue
      by_cases hlength : (part.takeWhile Char.isDigit).length = part.length
      · have hall : part.takeWhile Char.isDigit = part :=
          (List.takeWhile_prefix _).eq_of_length hlength
        rw [hall] at hdigits hvalue
        exact .inr (.inl ⟨hdigits, by simp only [leadingNumbers, hall, hvalue, if_true]⟩)
      · refine .inr (.inr ⟨part.takeWhile Char.isDigit, part.dropWhile Char.isDigit,
          List.takeWhile_append_dropWhile.symm, hdigits, fun c hc => ?_, ?_⟩)
        · have hstop := List.head?_dropWhile_not Char.isDigit part
          rw [Option.mem_def.1 hc] at hstop
          simpa using hstop
        · simp only [leadingNumbers, hvalue, if_neg hlength]

/-- What follows the digits of a number makes a word of it or starts another segment. -/
theorem within_of_digits {ds : List Char} (hds : IsDigits ds) {rest : List Char}
    (hrest : ∀ c ∈ rest.head?, c.isDigit = false) :
    Version.Within (String.ofList (ds ++ rest)) [decimalValue ds] := by
  have hsep : ∀ c ∈ ds, Version.isSeparator c = false := fun c hc =>
    Version.isSeparator_of_isDigit (hds.2 c hc)
  have hvalue : Version.integer ds ≤ decimalValue ds := Int.le_of_eq (Version.integer_digits hds)
  cases rest with
  | nil =>
      refine Version.within_singleton ?_ hvalue
      rw [List.append_nil, Version.integers, String.toList_ofList,
        List.splitOnP_eq_singleton hsep]
      rfl
  | cons c rest =>
      by_cases hc : Version.isSeparator c = true
      · refine Version.within_singleton ?_ hvalue
        rw [Version.integers, String.toList_ofList,
          List.splitOnP_append_cons_of_forall_mem hsep c hc]
        rfl
      · have hfront : ∀ x ∈ ds ++ [c], Version.isSeparator x = false := by
          intro x hx
          rcases List.mem_append.1 hx with hx | hx
          · exact hsep x hx
          · rw [List.mem_singleton.1 hx]
            exact Bool.eq_false_of_not_eq_true hc
        obtain ⟨first, more, hintegers, _⟩ := Version.integers_append_front hfront rest
        rw [List.append_assoc, List.singleton_append] at hintegers
        refine Version.within_singleton (by rw [hintegers]; rfl) ?_
        rw [Version.integer_of_not_isDigit (c := c) (fun d hd => ?_) (by simp) (hrest c rfl)]
        · omega
        · rw [List.append_assoc, List.head?_append_of_ne_nil _ hds.1] at hd
          exact Text.ne_of_class (hds.2 d (List.mem_of_mem_head? hd)) (by decide)

/-- No place of a text exceeds the number it has there among those at its start.
The induction follows the parts between points. -/
theorem within_leadingNumbers {parts : List (List Char)} (hne : parts ≠ []) :
    Version.Within (String.ofList (['.'].intercalate parts)) (leadingNumbers parts) := by
  induction parts with
  | nil => exact absurd rfl hne
  | cons part parts ih =>
      rcases leadingNumbers_cons part parts with
        hnil | ⟨hdigits, hcons⟩ | ⟨ds, rest, rfl, hds, hrest, hlast⟩
      · rw [hnil]
        exact fun i hi => absurd hi (Nat.not_lt_zero i)
      · rw [hcons]
        cases parts with
        | nil =>
            have hnone : ∀ c ∈ ([] : List Char).head?, c.isDigit = false := by simp
            have hwithin := within_of_digits hdigits hnone
            rw [List.append_nil] at hwithin
            rwa [List.intercalate_singleton]
        | cons next parts =>
            have hsep : ∀ c ∈ part, Version.isSeparator c = false := fun c hc =>
              Version.isSeparator_of_isDigit (hdigits.2 c hc)
            have hvalue := Int.le_of_eq (Version.integer_digits hdigits)
            refine Version.Within.cons ?_ hvalue (ih (by simp))
            rw [List.intercalate_cons_cons, List.append_assoc, Version.integers,
              String.toList_ofList, List.singleton_append,
              List.splitOnP_append_cons_of_forall_mem hsep '.' (by decide), Version.integers,
              String.toList_ofList]
            rfl
      · rw [hlast, PartialVersion.intercalate_cons, List.append_assoc]
        refine within_of_digits hds fun c hc => ?_
        cases rest with
        | cons d rest => exact hrest c hc
        | nil =>
            cases parts with
            | nil => cases hc
            | cons next parts =>
                obtain rfl := Option.some.inj hc
                decide

/-- No place of a version exceeds its release number there. A `v` in front is
skipped for the numbers, but it makes a word of the first segment. -/
theorem within_numbers (cs : List Char) : Version.Within (String.ofList cs) (numbers cs) := by
  let isMark := fun c => c == 'v' || c == 'V'
  have hwithin : Version.Within (String.ofList (cs.dropWhile isMark)) (numbers cs) := by
    have hwithin := within_leadingNumbers (List.splitOnP_ne_nil (· == '.') (cs.dropWhile isMark))
    have hcore : ['.'].intercalate ((cs.dropWhile isMark).splitOnP (· == '.')) =
        cs.dropWhile isMark := List.intercalate_splitOn '.'
    rwa [hcore] at hwithin
  have hmark : ∀ c ∈ cs.takeWhile isMark, isMark c = true := fun c => List.mem_takeWhile_imp
  have hcs : cs.takeWhile isMark ++ cs.dropWhile isMark = cs := List.takeWhile_append_dropWhile
  cases hfront : cs.takeWhile isMark with
  | nil =>
      rw [hfront, List.nil_append] at hcs
      rwa [hcs] at hwithin
  | cons c front =>
      rw [hfront] at hmark hcs
      have hsep : ∀ x ∈ c :: front, Version.isSeparator x = false := fun x hx => by
        simp only [Version.isSeparator, Bool.or_eq_false_iff, beq_eq_false_iff_ne]
        exact ⟨Text.ne_of_class (hmark x hx) (by decide), Text.ne_of_class (hmark x hx) (by decide)⟩
      obtain ⟨first, more, hintegers, hmore⟩ :=
        Version.integers_append_front hsep (cs.dropWhile isMark)
      rw [hcs] at hintegers
      have hword : Version.integer (c :: front ++ first) = -1 := by
        have hc := hmark c List.mem_cons_self
        refine Version.integer_of_not_isDigit (c := c) (fun d hd => ?_) (by simp) ?_
        · obtain rfl := Option.some.inj hd
          exact Text.ne_of_class hc (by decide)
        · simp only [isMark, Bool.or_eq_true, beq_iff_eq] at hc
          rcases hc with rfl | rfl <;> decide
      exact hwithin.of_word (hword ▸ hintegers) hmore

/-! ## Partial versions -/

/-- Text after the last component only follows its digits. The induction follows
the components. -/
theorem isPrefix_leadingNumbers {components : List (List Char)} {rest : List Char}
    (hne : components ≠ []) (hpoint : ∀ c ∈ components, ∀ x ∈ c, x ≠ '.')
    (hrest : ∀ c ∈ rest.head?, c ≠ '.' ∧ c.isDigit = false) :
    PartialVersion.leadingValues components <+:
      leadingNumbers ((['.'].intercalate components ++ rest).splitOnP (· == '.')) := by
  induction components with
  | nil => exact absurd rfl hne
  | cons part components ih =>
      have hpart : ∀ x ∈ part, (x == '.') = false := by
        simpa using hpoint part List.mem_cons_self
      cases hvalue : numeral? part with
      | none =>
          rw [PartialVersion.leadingValues, hvalue]
          exact List.nil_prefix
      | some n =>
          have hdigits := (isDigits_of_numeral? hvalue).1
          rw [PartialVersion.leadingValues, hvalue]
          cases components with
          | nil =>
              obtain ⟨first, more, hsplit, hfirst, _⟩ := exists_splitOnP_of_head? hrest
              have hstop := (Text.takeWhile_dropWhile_append part first hdigits.2 hfirst).1
              rw [List.intercalate_singleton, Text.splitOnP_append_front hpart, hsplit,
                List.modifyHead_cons]
              simp only [leadingNumbers, hstop, hvalue]
              split
              · exact List.cons_prefix_cons.2 ⟨rfl, List.nil_prefix⟩
              · exact List.prefix_rfl
          | cons next components =>
              have hmore := ih (by simp) fun c hc => hpoint c (List.mem_cons_of_mem part hc)
              have hall : part.takeWhile Char.isDigit = part :=
                List.takeWhile_eq_self_iff.2 hdigits.2
              rw [Text.splitOnP_intercalate_append (by decide) hpart]
              simp only [leadingNumbers, hall, hvalue, if_true]
              exact List.cons_prefix_cons.2 ⟨rfl, hmore⟩

/-- The numbers of a partial version are release numbers of the text, unless the
text starts with white space, which hides all of them. -/
theorem isPrefix_numbers {cs : List Char} {p : PartialVersion}
    (h : PartialVersion.read? cs = some p) (hne : numbers cs ≠ []) : p.numbers <+: numbers cs := by
  rcases numbers_of_read? h with hnil | ⟨x, rest, rfl, hrest, hnumbers⟩
  · exact absurd hnil hne
  · have hvalues : x.version.numbers = PartialVersion.leadingValues x.components :=
      PartialVersion.numbers_ofComponents _ x.length_le
    rw [hnumbers, hvalues]
    exact isPrefix_leadingNumbers x.ne_nil
      (fun c hc => ne_point_of_isComponent (x.isComponent c hc)) hrest

/-- What a partial version starts at does not exceed the release numbers of the text. -/
theorem within_floor {cs : List Char} {p : PartialVersion}
    (h : PartialVersion.read? cs = some p) : p.floor.Within (numbers cs) := by
  by_cases hne : numbers cs = []
  · rw [hne]
    exact fun i hi => absurd hi (Nat.not_lt_zero i)
  · obtain ⟨rest, hrest⟩ := isPrefix_numbers h hne
    have hlength := length_numbers_le h
    have hstart := PartialVersion.startsWith_floor p
    rw [← hrest] at hlength ⊢
    intro i hi
    by_cases hgiven : i < p.numbers.length
    · rw [hstart i hgiven, List.getD_append _ _ _ _ hgiven]
    · have hpartial : p.numbers.length ≠ 3 := by
        rw [List.length_append] at hi hlength
        omega
      rw [PartialVersion.place_floor hpartial, List.getD_eq_default _ _ (by omega)]
      omega

/-- A pessimistic range may start anywhere that does not exceed the release numbers. -/
theorem isSpan_pessimistic {cs : List Char} {lower : Version} (h : numbers cs ≠ [])
    (hlower : lower.Within (numbers cs)) :
    IsSpan lower (kept (numbers cs))
      ((pessimisticEnd cs).map (PartialVersion.between lower)) :=
  ⟨hlower.of_isPrefix (kept_isPrefix _), _, endsAfter_pessimisticEnd h, rfl⟩

theorem isSpan_bumpLast {ns : List Nat} {lower : Version} (h : ns ≠ [])
    (hlower : lower.Within ns) :
    IsSpan lower ns ((bumpLast ns).map fun upper => PartialVersion.between lower (some upper)) := by
  refine ⟨hlower, _, endsAfter_bumpLast h, ?_⟩
  cases bumpLast ns <;> rfl

end Release

end Requirements
