import Mathlib
import Requirements.Proofs.Fallible
import Requirements.Proofs.Range.Partial
import Requirements.Proofs.Version.Order
import Requirements.Range.Expansion
import Requirements.Specifier.Term

/-!
# What shorthands expand to

Every term of an expanded shorthand names a complete version, one with three
components and perhaps a tag. Filling a version up with zeros leaves its rank,
so a partial version may stand for the complete one in a comparison.
-/

namespace Requirements

open Text (decimal wordMax)

/-! ## Ranks of numbers with points between them -/

namespace Version

theorem integer_digits {ds : List Char} (h : IsDigits ds) :
    integer ds = Text.decimalValue ds := by
  unfold integer
  split
  · have hplus : ('+' : Char).isDigit = true := h.2 '+' List.mem_cons_self
    exact absurd hplus (by decide)
  · exact if_pos h

theorem integer_decimal (n : Nat) : integer (decimal n) = n := by
  rw [integer_digits (isDigits_decimal n), Text.decimalValue_decimal]

/-- Numbers with points between them split at the points. -/
theorem splitOnP_dotted {ns : List Nat} (h : ns ≠ []) {p : Char → Bool} (hpoint : p '.' = true)
    (hdigit : ∀ c, c.isDigit = true → p c = false) :
    (dotted ns).toList.splitOnP p = ns.map decimal := by
  rw [toList_dotted]
  refine Text.splitOnP_intercalate hpoint ?_ (by simpa using h)
  intro ds hds c hc
  obtain ⟨n, _, rfl⟩ := List.mem_map.1 hds
  exact hdigit c (isDigit_of_mem_decimal hc)

theorem isSeparator_of_isDigit {c : Char} (h : c.isDigit = true) : isSeparator c = false := by
  simp only [isSeparator, Bool.or_eq_false_iff, beq_eq_false_iff_ne]
  exact ⟨Text.ne_of_class h (by decide), Text.ne_of_class h (by decide)⟩

theorem integers_dotted {ns : List Nat} (h : ns ≠ []) :
    integers (dotted ns) = ns.map Int.ofNat := by
  rw [integers, splitOnP_dotted h (by decide) fun _ => isSeparator_of_isDigit, List.map_map]
  exact List.map_congr_left fun n _ => integer_decimal n

theorem place_dotted {ns : List Nat} (h : ns ≠ []) (i : Nat) :
    place (dotted ns) i = (ns.getD i 0 : Nat) := by
  rw [place, integers_dotted h]
  exact List.getD_map ns 0 Int.ofNat

/-- The version has the given numbers at its first places. -/
def StartsWith (v : Version) (ns : List Nat) : Prop :=
  ∀ i < ns.length, v.place i = ns.getD i 0

section

variable {v : Version} {front : List Nat} {n : Nat}

theorem place_dotted_front (m : Nat) (ms : List Nat) {i : Nat} (hi : i < front.length) :
    place (dotted (front ++ m :: ms)) i = front.getD i 0 := by
  rw [place_dotted (by simp), List.getD_append _ _ _ _ hi]

theorem place_dotted_length (front : List Nat) (m : Nat) (ms : List Nat) :
    place (dotted (front ++ m :: ms)) front.length = m := by
  rw [place_dotted (by simp)]
  simp

theorem startsWith_concat_iff :
    v.StartsWith (front ++ [n]) ↔ v.StartsWith front ∧ v.place front.length = n := by
  have hlength : (front ++ [n]).length = front.length + 1 := List.length_append
  constructor
  · intro h
    refine ⟨fun i hi => ?_, ?_⟩
    · rw [h i (by omega), List.getD_append _ _ _ _ hi]
    · rw [h front.length (by omega)]
      simp
  · rintro ⟨hfront, hlast⟩ i hi
    rcases Nat.lt_or_eq_of_le (Nat.le_of_lt_succ (hlength ▸ hi)) with hi | rfl
    · rw [hfront i hi, List.getD_append _ _ _ _ hi]
    · rw [hlast]
      simp

theorem startsWith_of_integers {ns : List Nat} {rest : List Int}
    (h : v.integers = ns.map Int.ofNat ++ rest) : v.StartsWith ns := by
  intro i hi
  rw [place, h, List.getD_append _ _ _ _ (by simpa using hi)]
  exact List.getD_map ns 0 Int.ofNat

theorem lt_of_startsWith {m : Nat} (hm : n < m) (ms : List Nat)
    (h : v.StartsWith (front ++ [n])) : compare v (dotted (front ++ m :: ms)) = .lt := by
  obtain ⟨hfront, hlast⟩ := startsWith_concat_iff.1 h
  refine compare_eq_lt_iff.2 ⟨front.length, fun i hi => ?_, ?_⟩
  · rw [place_dotted_front m ms hi, hfront i hi]
  · rw [place_dotted_length, hlast]
    omega

theorem gt_of_startsWith {m : Nat} (hm : m < n) (ms : List Nat)
    (h : v.StartsWith (front ++ [n])) : compare v (dotted (front ++ m :: ms)) = .gt := by
  obtain ⟨hfront, hlast⟩ := startsWith_concat_iff.1 h
  apply Std.OrientedCmp.gt_of_lt
  refine compare_eq_lt_iff.2 ⟨front.length, fun i hi => ?_, ?_⟩
  · rw [place_dotted_front m ms hi, hfront i hi]
  · rw [place_dotted_length, hlast]
    omega

end

theorem rightpad_append_zeros (xs : List Int) {k n : Nat} (h : xs.length + k ≤ n) :
    (xs ++ List.replicate k 0).rightpad n 0 = xs.rightpad n 0 := by
  have hcount : k + (n - (xs.length + k)) = n - xs.length := by omega
  simp only [List.rightpad, List.length_append, List.length_replicate, List.append_assoc,
    List.replicate_append_replicate, hcount]

/-- Zeros at the end of a version do not count. -/
theorem compare_eq_of_zeros {a b : Version} {k : Nat}
    (h : b.integers = a.integers ++ List.replicate k 0) : compare a b = .eq := by
  have hpad := rightpad_append_zeros a.integers (k := k) (n := a.integers.length + k) (by simp)
  rw [compare_eq_rightpad (n := a.integers.length + k) a b (by simp) (by simp [h]), h, hpad]
  exact Std.ReflCmp.compare_self

theorem compare_dotted_zeros {ns : List Nat} (h : ns ≠ []) (k : Nat) :
    compare (dotted ns) (dotted (ns ++ List.replicate k 0)) = .eq := by
  refine compare_eq_of_zeros (k := k) ?_
  rw [integers_dotted h, integers_dotted (List.append_ne_nil_of_left_ne_nil h _), List.map_append,
    List.map_replicate]
  rfl

/-- A version with three components and perhaps a tag. -/
def IsComplete (v : Version) : Prop :=
  ∃ a b c tag, (PartialVersion.patch a b c tag).Fits ∧
    v = (PartialVersion.patch a b c tag).floor

end Version

namespace PartialVersion

/-- A version has the rank of the complete version it starts at. -/
theorem compare_written_floor {p : PartialVersion} (h : p ≠ .any) :
    Version.compare p.written p.floor = .eq := by
  cases p with
  | any => exact absurd rfl h
  | major a => exact Version.compare_dotted_zeros (List.cons_ne_nil a []) 2
  | minor a b => exact Version.compare_dotted_zeros (List.cons_ne_nil a [b]) 1
  | patch a b c tag => exact Std.ReflCmp.compare_self

theorem isDigit_of_mem_dotted {ns : List Nat} {c : Char} (h : c ∈ (dotted ns).toList) :
    c = '.' ∨ c.isDigit = true := by
  rw [toList_dotted] at h
  rcases Text.mem_intercalate h with h | ⟨part, hpart, hc⟩
  · exact .inl (List.mem_singleton.1 h)
  · obtain ⟨n, _, rfl⟩ := List.mem_map.1 hpart
    exact .inr (isDigit_of_mem_decimal hc)

/-- The components of a version as written, without the tag. -/
theorem takeWhile_written {p : PartialVersion} (h : p ≠ .any) :
    ∃ ns, ns ≠ [] ∧ p.written.toList.takeWhile (fun c => c != '-' && c != '+') =
      (dotted ns).toList := by
  have hstop : ∀ (ns : List Nat) (tag : Option String),
      ((dotted ns).toList ++ tagText tag).takeWhile (fun c => c != '-' && c != '+') =
        (dotted ns).toList := by
    intro ns tag
    refine (Text.takeWhile_dropWhile_append _ _ (fun c hc => ?_) fun c hc => ?_).1
    · rw [Bool.and_eq_true, bne_iff_ne, bne_iff_ne]
      constructor
      · rintro rfl
        exact absurd (isDigit_of_mem_dotted hc) (by decide)
      · rintro rfl
        exact absurd (isDigit_of_mem_dotted hc) (by decide)
    · rw [eq_hyphen_of_mem_head?_tagText hc]
      rfl
  cases p with
  | any => exact absurd rfl h
  | major a => exact ⟨[a], by simp, by simpa [written, tagText] using hstop [a] none⟩
  | minor a b => exact ⟨[a, b], by simp, by simpa [written, tagText] using hstop [a, b] none⟩
  | patch a b c tag =>
      have htext : (PartialVersion.patch a b c tag).written.toList =
          (dotted [a, b, c]).toList ++ tagText tag := by
        rw [toList_written_patch]
        simp [List.intercalate_cons_cons]
      refine ⟨[a, b, c], by simp, ?_⟩
      rw [htext]
      exact hstop [a, b, c] tag

/-- A version is written without wildcards. -/
theorem hasWildcard_written {p : PartialVersion} (h : p ≠ .any) :
    hasWildcard p.written.toList = false := by
  obtain ⟨ns, hne, htake⟩ := takeWhile_written h
  rw [hasWildcard, htake, Version.splitOnP_dotted hne (by decide) fun c hc =>
    beq_eq_false_iff_ne.2 (Text.ne_of_class hc (by decide))]
  refine List.any_eq_false.2 fun part hpart => ?_
  obtain ⟨n, _, rfl⟩ := List.mem_map.1 hpart
  simp only [Bool.or_eq_true, beq_iff_eq, not_or]
  have hdigit : ∀ c, decimal n = [c] → c.isDigit = true := fun c hc =>
    isDigit_of_mem_decimal (n := n) (by rw [hc]; exact List.mem_cons_self)
  refine ⟨⟨?_, ?_⟩, ?_⟩
  · exact fun hstar => absurd (hdigit _ hstar) (by decide)
  · exact fun hx => absurd (hdigit _ hx) (by decide)
  · exact fun hx => absurd (hdigit _ hx) (by decide)

/-! ## Complete versions -/

theorem isComplete_render {a b c : Nat} (ha : a ≤ wordMax) (hb : b ≤ wordMax) (hc : c ≤ wordMax) :
    Version.IsComplete (render a b c) :=
  ⟨a, b, c, none, ⟨ha, hb, hc, by simp⟩, rfl⟩

theorem isComplete_floor {p : PartialVersion} (h : p.Fits) : p.floor.IsComplete := by
  have hzero : 0 ≤ wordMax := Nat.zero_le _
  cases p with
  | any => exact isComplete_render hzero hzero hzero
  | major a => exact isComplete_render h hzero hzero
  | minor a b => exact isComplete_render h.1 h.2 hzero
  | patch a b c tag => exact ⟨a, b, c, tag, h, rfl⟩

theorem eq_of_bump {f : Nat → Version} {m : Nat} {upper : Option Version}
    (h : (do return some (f (← bump m)) : Except Oversized (Option Version)) = .ok upper) :
    upper = some (f (m + 1)) ∧ m + 1 ≤ wordMax := by
  obtain ⟨n, hn, hupper⟩ := bind_eq_ok.1 h
  obtain rfl := pure_eq_ok.1 hupper
  obtain ⟨rfl, hfits⟩ := bump_eq_ok hn
  exact ⟨rfl, hfits⟩

/-- An end with a bumped component is complete if it is with any component that fits. -/
theorem isComplete_of_bump {f : Nat → Version} (hf : ∀ n ≤ wordMax, (f n).IsComplete) {m : Nat}
    {v : Version}
    (h : (do return some (f (← bump m)) : Except Oversized (Option Version)) = .ok (some v)) :
    v.IsComplete := by
  obtain ⟨hv, hfits⟩ := eq_of_bump h
  rw [Option.some.inj hv]
  exact hf (m + 1) hfits

theorem isComplete_of_ceiling {p : PartialVersion} (h : p.Fits) {v : Version}
    (hv : p.ceiling = .ok (some v)) : v.IsComplete := by
  have hzero : 0 ≤ wordMax := Nat.zero_le _
  cases p with
  | any => cases hv
  | major a => exact isComplete_of_bump (fun n hn => isComplete_render hn hzero hzero) hv
  | minor a b => exact isComplete_of_bump (fun n hn => isComplete_render h.1 hn hzero) hv
  | patch a b c tag => exact isComplete_of_bump (fun n hn => isComplete_render h.1 h.2.1 hn) hv

theorem isComplete_of_caretEnd {p : PartialVersion} (h : p.Fits) {v : Version}
    (hv : p.caretEnd = .ok (some v)) : v.IsComplete := by
  have hzero : 0 ≤ wordMax := Nat.zero_le _
  unfold caretEnd at hv
  split at hv
  · cases hv
  · exact isComplete_of_bump (fun n hn => isComplete_render hn hzero hzero) hv
  · exact isComplete_of_bump (fun n hn => isComplete_render hzero hn hzero) hv
  · exact isComplete_of_bump (fun n hn => isComplete_render hzero hzero hn) hv
  · exact isComplete_of_bump (fun n hn => isComplete_render hzero hn hzero) hv
  · exact isComplete_of_bump (fun n hn => isComplete_render hn hzero hzero) hv
  · exact isComplete_of_bump (fun n hn => isComplete_render hn hzero hzero) hv

theorem isComplete_of_tildeEnd {p : PartialVersion} (h : p.Fits) {v : Version}
    (hv : p.tildeEnd = .ok (some v)) : v.IsComplete := by
  have hzero : 0 ≤ wordMax := Nat.zero_le _
  cases p with
  | any => cases hv
  | major a => exact isComplete_of_bump (fun n hn => isComplete_render hn hzero hzero) hv
  | minor a b => exact isComplete_of_bump (fun n hn => isComplete_render h.1 hn hzero) hv
  | patch a b c tag => exact isComplete_of_bump (fun n hn => isComplete_render h.1 hn hzero) hv

/-! ## Terms of an expansion -/

/-- Terms that all name complete versions. There is one at least, and none of
them is an inequality unless the operator as written was one. -/
def IsExpansion (written : Operator) (ts : List Term) : Prop :=
  ts ≠ [] ∧ ∀ t ∈ ts, t.version.IsComplete ∧ (t.op = .notEqual → written = .notEqual)

theorem isExpansion_singleton {op written : Operator} {v : Version} (hv : v.IsComplete)
    (hop : op = .notEqual → written = .notEqual) : IsExpansion written [⟨op, v⟩] := by
  refine ⟨by simp, fun t ht => ?_⟩
  obtain rfl := List.mem_singleton.1 ht
  exact ⟨hv, hop⟩

theorem isExpansion_any (written : Operator) : IsExpansion written [.any] :=
  isExpansion_singleton (isComplete_floor (p := .any) trivial) (by simp)

theorem isExpansion_between (written : Operator) {lower : Version} {upper : Option Version}
    (hlower : lower.IsComplete) (hupper : ∀ v, upper = some v → v.IsComplete) :
    IsExpansion written (between lower upper) := by
  refine ⟨by simp [between], fun t ht => ?_⟩
  rcases List.mem_cons.1 ht with rfl | ht
  · exact ⟨hlower, by simp⟩
  · obtain ⟨v, hv, rfl⟩ : ∃ v, upper = some v ∧ Term.mk .below v = t := by
      simpa using ht
    exact ⟨hupper v hv, by simp⟩

variable {p : PartialVersion} {ts : List Term}

/-- A range up to an end is an expansion if the end is complete where there is one. -/
theorem isExpansion_of_end (written : Operator) (h : p.Fits)
    {bound : Except Oversized (Option Version)} (hbound : ∀ v, bound = .ok (some v) → v.IsComplete)
    (hts : (do return between p.floor (← bound) : Except Oversized (List Term)) = .ok ts) :
    IsExpansion written ts := by
  obtain ⟨upper, hupper, hts⟩ := bind_eq_ok.1 hts
  obtain rfl := pure_eq_ok.1 hts
  exact isExpansion_between written (isComplete_floor h) fun v hv => hbound v (hv ▸ hupper)

theorem isExpansion_covered (written : Operator) (h : p.Fits) (hts : p.covered = .ok ts) :
    IsExpansion written ts := by
  unfold covered at hts
  split at hts
  · obtain rfl := Except.ok.inj hts
    exact isExpansion_singleton (isComplete_floor h) (by simp)
  · exact isExpansion_of_end written h (fun _ => isComplete_of_ceiling h) hts

theorem isExpansion_caret (written : Operator) (h : p.Fits) (hts : p.caret = .ok ts) :
    IsExpansion written ts :=
  isExpansion_of_end written h (fun _ => isComplete_of_caretEnd h) hts

theorem isExpansion_tilde (written : Operator) (h : p.Fits) (hts : p.tilde = .ok ts) :
    IsExpansion written ts :=
  isExpansion_of_end written h (fun _ => isComplete_of_tildeEnd h) hts

theorem isComplete_ceiling_getD (h : p.Fits) {upper : Option Version}
    (hupper : p.ceiling = .ok upper) : (upper.getD p.floor).IsComplete := by
  cases upper with
  | none => exact isComplete_floor h
  | some v => exact isComplete_of_ceiling h hupper

theorem isExpansion_comparison {op : Operator} (h : p.Fits) (hts : p.comparison op = .ok ts) :
    IsExpansion op ts := by
  have hfloor := isComplete_floor h
  unfold comparison at hts
  split at hts
  · obtain rfl := Except.ok.inj hts
    split
    · exact isExpansion_singleton hfloor (by simp)
    · exact isExpansion_singleton hfloor (by simp)
    · exact isExpansion_any op
  · obtain rfl := Except.ok.inj hts
    exact isExpansion_singleton hfloor id
  · split at hts
    · obtain rfl := Except.ok.inj hts
      exact isExpansion_singleton hfloor id
    · obtain rfl := Except.ok.inj hts
      exact isExpansion_singleton hfloor id
    · obtain rfl := Except.ok.inj hts
      exact isExpansion_singleton hfloor id
    · obtain ⟨upper, hupper, hts⟩ := bind_eq_ok.1 hts
      obtain rfl := pure_eq_ok.1 hts
      exact isExpansion_singleton (isComplete_ceiling_getD h hupper) (by simp)
    · obtain ⟨upper, hupper, hts⟩ := bind_eq_ok.1 hts
      obtain rfl := pure_eq_ok.1 hts
      exact isExpansion_singleton (isComplete_ceiling_getD h hupper) (by simp)
    · exact isExpansion_covered _ h hts

/-! ## Version tokens -/

theorem isVersionChar_of_isTagChar {c : Char} (h : isTagChar c = true) :
    isVersionChar c = true := by
  simp only [isTagChar, Bool.or_eq_true] at h
  simp only [isVersionChar, Bool.or_eq_true]
  tauto

theorem isVersionToken_decimal_append (a : Nat) {rest : List Char}
    (h : ∀ c ∈ rest, isTagChar c = true) : isVersionToken (decimal a ++ rest) = true := by
  obtain ⟨c, ds, hn⟩ := List.exists_cons_of_ne_nil (decimal_ne_nil a)
  have hc : c.isDigit = true := isDigit_of_mem_decimal (n := a) (by simp [hn])
  rw [hn, List.cons_append, isVersionToken]
  refine Bool.and_eq_true_iff.2 ⟨by simp [Char.isAlphanum, hc], List.all_eq_true.2 fun x hx => ?_⟩
  rcases List.mem_append.1 hx with hx | hx
  · exact isVersionChar_of_isTagChar (isTagChar_of_mem_decimal (n := a) (by simp [hn, hx]))
  · exact isVersionChar_of_isTagChar (h x hx)

/-- Numbers with points between them go on with digits and points. -/
theorem exists_toList_dotted (n : Nat) (ns : List Nat) :
    ∃ rest, (dotted (n :: ns)).toList = decimal n ++ rest ∧ ∀ c ∈ rest, isTagChar c = true := by
  induction ns generalizing n with
  | nil => exact ⟨[], by simp, by simp⟩
  | cons m ns ih =>
      obtain ⟨rest, hrest, htag⟩ := ih m
      refine ⟨'.' :: (decimal m ++ rest), ?_, fun c hc => ?_⟩
      · rw [← hrest]
        simp [List.intercalate_cons_cons]
      · simp only [List.mem_cons, List.mem_append] at hc
        rcases hc with rfl | hc | hc
        · rfl
        · exact isTagChar_of_mem_decimal hc
        · exact htag c hc

theorem isVersionToken_dotted {ns : List Nat} (h : ns ≠ []) :
    isVersionToken (dotted ns).toList = true := by
  obtain ⟨n, ns, rfl⟩ := List.exists_cons_of_ne_nil h
  obtain ⟨rest, hrest, htag⟩ := exists_toList_dotted n ns
  rw [hrest]
  exact isVersionToken_decimal_append n htag

/-- How a partial version is written is a version token. -/
theorem isVersionToken_written (h : p.Fits) (hp : p ≠ .any) :
    isVersionToken p.written.toList = true := by
  cases p with
  | any => exact absurd rfl hp
  | major a => exact isVersionToken_dotted (by simp)
  | minor a b => exact isVersionToken_dotted (by simp)
  | patch a b c tag =>
      rw [toList_written_patch]
      exact isVersionToken_decimal_append a (isTagChar_of_mem_components b c h.2.2.2)

theorem isVersionToken_of_isComplete {v : Version} (h : v.IsComplete) :
    isVersionToken v.toList = true := by
  obtain ⟨a, b, c, tag, hfits, rfl⟩ := h
  exact isVersionToken_written hfits (by simp)

end PartialVersion

end Requirements
