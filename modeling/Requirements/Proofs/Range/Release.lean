import Mathlib
import Requirements.Proofs.Fallible
import Requirements.Proofs.Range.Partial
import Requirements.Range.Release

/-!
# Release numbers of partial versions

A text that reads as a partial version has at most three release numbers, since
whatever may follow the third component ends the release. The end of its
pessimistic range is therefore again a partial version.
-/

namespace Requirements

open Text (isBlank wordMax)

namespace Release

theorem le_wordMax_of_mem_leadingNumbers {parts : List (List Char)} :
    ∀ n ∈ leadingNumbers parts, n ≤ wordMax := by
  induction parts with
  | nil => simp [leadingNumbers]
  | cons part parts ih =>
      intro n hn
      simp only [leadingNumbers] at hn
      split at hn
      · cases hn
      · rename_i m hm
        split at hn
        · rcases List.mem_cons.1 hn with rfl | hn
          · exact le_wordMax_of_numeral? hm
          · exact ih n hn
        · rw [List.mem_singleton.1 hn]
          exact le_wordMax_of_numeral? hm

theorem length_leadingNumbers_cons_le (part : List Char) (parts : List (List Char)) :
    (leadingNumbers (part :: parts)).length ≤ (leadingNumbers parts).length + 1 := by
  simp only [leadingNumbers]
  split
  · exact Nat.zero_le _
  · split
    · exact Nat.le_refl _
    · simp

/-- A part that is not all digits is the last one to count. -/
theorem length_leadingNumbers_le_one {part : List Char} (parts : List (List Char)) {c : Char}
    (hc : c ∈ part) (hdigit : c.isDigit = false) :
    (leadingNumbers (part :: parts)).length ≤ 1 := by
  simp only [leadingNumbers]
  split
  · exact Nat.zero_le _
  · split
    · rename_i hlength
      have hall := List.takeWhile_eq_self_iff.1
        ((List.takeWhile_prefix Char.isDigit).eq_of_length hlength) c hc
      rw [hdigit] at hall
      cases hall
    · exact Nat.le_refl _

/-- If neither a point nor a digit comes first, the first part has no digit in front,
and there is another part only if it is not empty. -/
theorem exists_splitOnP_of_head? {rest : List Char}
    (h : ∀ c ∈ rest.head?, c ≠ '.' ∧ c.isDigit = false) :
    ∃ first more, rest.splitOnP (· == '.') = first :: more ∧
      (∀ c ∈ first.head?, c.isDigit = false) ∧ (first = [] → more = []) := by
  cases rest with
  | nil => exact ⟨[], [], rfl, by simp, fun _ => rfl⟩
  | cons c rest =>
      obtain ⟨hpoint, hdigit⟩ := h c rfl
      obtain ⟨first, more, hsplit⟩ := List.exists_cons_of_ne_nil
        (List.splitOnP_ne_nil (· == '.') rest)
      refine ⟨c :: first, more, ?_, by simpa using hdigit, by simp⟩
      rw [List.splitOnP_cons_eq_if_modifyHead, if_neg (by simpa using hpoint), hsplit,
        List.modifyHead_cons]

/-- There is one number for each component at most, if nothing follows the last one
that starts with a point or a digit. -/
theorem length_leadingNumbers_le {components : List (List Char)} {rest : List Char}
    (hne : components ≠ []) (hpoint : ∀ c ∈ components, ∀ x ∈ c, x ≠ '.')
    (hrest : ∀ c ∈ rest.head?, c ≠ '.' ∧ c.isDigit = false) :
    (leadingNumbers ((['.'].intercalate components ++ rest).splitOnP (· == '.'))).length ≤
      components.length := by
  induction components with
  | nil => exact absurd rfl hne
  | cons part components ih =>
      have hpart : ∀ x ∈ part, (x == '.') = false := by
        simpa using hpoint part List.mem_cons_self
      cases components with
      | nil =>
          obtain ⟨first, more, hsplit, hfirst, hmore⟩ := exists_splitOnP_of_head? hrest
          rw [List.intercalate_singleton, Text.splitOnP_append_front hpart, hsplit,
            List.modifyHead_cons]
          cases first with
          | nil =>
              rw [hmore rfl]
              exact length_leadingNumbers_cons_le _ []
          | cons c first =>
              exact length_leadingNumbers_le_one more
                (List.mem_append_right part List.mem_cons_self) (hfirst c rfl)
      | cons next components =>
          have hmore := ih (by simp) fun c hc => hpoint c (List.mem_cons_of_mem part hc)
          rw [Text.splitOnP_intercalate_append (by decide) hpart]
          exact Nat.le_trans (length_leadingNumbers_cons_le part _) (Nat.succ_le_succ hmore)

theorem ne_point_of_isComponent {c : List Char} (h : PartialVersion.IsComponent c) :
    ∀ x ∈ c, x ≠ '.' := by
  rcases h with ⟨_, hdigit⟩ | ⟨y, rfl, hwildcard⟩
  · exact fun x hx => Text.ne_of_class (hdigit x hx) (by decide)
  · intro x hx
    rw [List.mem_singleton.1 hx]
    exact Text.ne_of_class hwildcard (by decide)

/-- Skipping any run of `v` gets to the components. -/
theorem dropWhile_outline (x : PartialVersion.Outline) (back : List Char) :
    (x.text ++ back).dropWhile (fun c => c == 'v' || c == 'V') =
      ['.'].intercalate x.components ++ (PartialVersion.tagText x.tag ++ x.build ++ back) := by
  obtain ⟨first, more, hcomponents⟩ := List.exists_cons_of_ne_nil x.ne_nil
  have hhead := x.ne_mark_of_mem_head? hcomponents
    (more.flatMap ('.' :: ·) ++ (PartialVersion.tagText x.tag ++ x.build ++ back))
  have hmark : ∀ c ∈ x.mark, (c == 'v' || c == 'V') = true := by
    rcases x.isMark with hmark | hmark | hmark <;> simp [hmark]
  rw [← List.append_assoc, ← PartialVersion.intercalate_cons, ← hcomponents] at hhead
  rw [PartialVersion.Outline.text, List.append_assoc, List.append_assoc]
  exact (Text.takeWhile_dropWhile_append _ _ hmark fun c hc => by simpa using hhead c hc).2

/-- White space in front is no digit, so the first part has no number. -/
theorem numbers_of_isBlank {c : Char} (h : isBlank c = true) (cs : List Char) :
    numbers (c :: cs) = [] := by
  have hpoint : c ≠ '.' := Text.ne_of_class h (by decide)
  have hsmall : c ≠ 'v' := Text.ne_of_class h (by decide)
  have hlarge : c ≠ 'V' := Text.ne_of_class h (by decide)
  obtain ⟨part, parts, hparts⟩ := List.exists_cons_of_ne_nil
    (List.splitOnP_ne_nil (· == '.') cs)
  rw [numbers, List.dropWhile_cons, if_neg (by simp [hsmall, hlarge]),
    List.splitOnP_cons_eq_if_modifyHead, if_neg (by simp [hpoint]), hparts, List.modifyHead_cons,
    leadingNumbers, List.takeWhile_cons_of_neg (by simp [(Text.not_alphanum_of_isBlank h).2])]
  rfl

/-- What follows the digits of the last part does not count. -/
theorem leadingNumbers_append_blanks {back : List Char} (h : ∀ c ∈ back, isBlank c = true)
    (front : List (List Char)) (last : List Char) :
    leadingNumbers (front ++ [last ++ back]) = leadingNumbers (front ++ [last]) := by
  induction front with
  | nil =>
      have hback : back.takeWhile Char.isDigit = [] := by
        cases back with
        | nil => rfl
        | cons c back =>
            rw [List.takeWhile_cons_of_neg]
            simp [(Text.not_alphanum_of_isBlank (h c List.mem_cons_self)).2]
      have hdigits : (last ++ back).takeWhile Char.isDigit = last.takeWhile Char.isDigit := by
        rw [List.takeWhile_append, hback, List.append_nil]
        split
        · rename_i hlength
          exact ((List.takeWhile_prefix Char.isDigit).eq_of_length hlength).symm
        · rfl
      simp only [List.nil_append, leadingNumbers, hdigits]
      cases Text.numeral? (last.takeWhile Char.isDigit) <;> simp
  | cons part front ih =>
      rw [List.cons_append, List.cons_append, leadingNumbers, ih, leadingNumbers]

/-- White space after a version leaves its numbers. -/
theorem numbers_append_blanks {back : List Char} (h : ∀ c ∈ back, isBlank c = true)
    (cs : List Char) : numbers (cs ++ back) = numbers cs := by
  have hmark : back.dropWhile (fun c => c == 'v' || c == 'V') = back := by
    cases back with
    | nil => rfl
    | cons c back =>
        have hc := h c List.mem_cons_self
        have hsmall : c ≠ 'v' := Text.ne_of_class hc (by decide)
        have hlarge : c ≠ 'V' := Text.ne_of_class hc (by decide)
        rw [List.dropWhile_cons, if_neg (by simp [hsmall, hlarge])]
  have hpoint : ∀ c ∈ back, (c == '.') = false := fun c hc =>
    beq_eq_false_iff_ne.2 (Text.ne_of_class (h c hc) (by decide))
  have hdrop : (cs ++ back).dropWhile (fun c => c == 'v' || c == 'V') =
      cs.dropWhile (fun c => c == 'v' || c == 'V') ++ back := by
    rw [List.dropWhile_append]
    split
    · rename_i hempty
      rw [hmark, List.isEmpty_iff.1 hempty, List.nil_append]
    · rfl
  obtain ⟨front, last, hparts, happend⟩ := Text.splitOnP_append_back hpoint
    (cs.dropWhile fun c => c == 'v' || c == 'V')
  rw [numbers, numbers, hdrop, happend, hparts, leadingNumbers_append_blanks h]

theorem pessimisticEnd_append_blanks {back : List Char} (h : ∀ c ∈ back, isBlank c = true)
    (cs : List Char) : pessimisticEnd (cs ++ back) = pessimisticEnd cs := by
  rw [pessimisticEnd, numbers_append_blanks h, pessimisticEnd]

/-- The numbers of a partial version are those of its components, with what follows
these. White space in front leaves no numbers. -/
theorem numbers_of_read? {cs : List Char} {p : PartialVersion}
    (h : PartialVersion.read? cs = some p) :
    numbers cs = [] ∨ ∃ (x : PartialVersion.Outline) (rest : List Char), x.version = p ∧
      (∀ c ∈ rest.head?, c ≠ '.' ∧ c.isDigit = false) ∧
      numbers cs =
        leadingNumbers ((['.'].intercalate x.components ++ rest).splitOnP (· == '.')) := by
  obtain ⟨x, htrim, rfl⟩ := PartialVersion.read?_eq_some_iff.1 h
  obtain ⟨front, back, hcs, hfront, hback⟩ := Text.exists_trim cs
  cases front with
  | cons c front =>
      rw [hcs]
      exact .inl (numbers_of_isBlank (hfront c List.mem_cons_self) _)
  | nil =>
      rw [List.nil_append, htrim] at hcs
      refine .inr ⟨x, PartialVersion.tagText x.tag ++ x.build ++ back, rfl, fun c hc => ?_, ?_⟩
      · have htag := PartialVersion.mem_head?_tagText_append x.tag x.isBuild
        cases hend : PartialVersion.tagText x.tag ++ x.build with
        | nil =>
            rw [hend] at hc
            have hblank := hback c (List.mem_of_mem_head? hc)
            exact ⟨Text.ne_of_class hblank (by decide), (Text.not_alphanum_of_isBlank hblank).2⟩
        | cons d rest =>
            rw [hend] at hc htag
            obtain rfl := Option.some.inj hc
            rcases htag d rfl with rfl | rfl <;> decide
      · rw [hcs, numbers, dropWhile_outline]

/-- A text that reads as a partial version has at most three release numbers. -/
theorem length_numbers_le {cs : List Char} {p : PartialVersion}
    (h : PartialVersion.read? cs = some p) : (numbers cs).length ≤ 3 := by
  rcases numbers_of_read? h with hnil | ⟨x, rest, _, hrest, hnumbers⟩
  · rw [hnil]
    exact Nat.zero_le 3
  · rw [hnumbers]
    exact Nat.le_trans (length_leadingNumbers_le x.ne_nil
      (fun c hc => ne_point_of_isComponent (x.isComponent c hc)) hrest) x.length_le

/-- The end of a pessimistic range is a partial version. -/
theorem exists_written_of_pessimisticEnd {cs : List Char} {p : PartialVersion} {upper : Version}
    (hread : PartialVersion.read? cs = some p) (h : pessimisticEnd cs = .ok (some upper)) :
    ∃ q : PartialVersion, q.Fits ∧ q ≠ .any ∧ upper = q.written := by
  have hlength := length_numbers_le hread
  have hfits : ∀ n ∈ numbers cs, n ≤ wordMax := le_wordMax_of_mem_leadingNumbers
  unfold pessimisticEnd at h
  split at h
  · cases h
  · rename_i n ns hnumbers
    rw [hnumbers] at hlength hfits
    obtain ⟨bumped, hbumped, h⟩ := bind_eq_ok.1 h
    obtain rfl := Option.some.inj (pure_eq_ok.1 h)
    match ns, hlength with
    | [], _ =>
        obtain ⟨last, hlast, h⟩ := bind_eq_ok.1 hbumped
        obtain rfl := pure_eq_ok.1 h
        exact ⟨.major last, (bump_eq_ok hlast).2, by simp, rfl⟩
    | [m], _ =>
        obtain ⟨last, hlast, h⟩ := bind_eq_ok.1 hbumped
        obtain rfl := pure_eq_ok.1 h
        exact ⟨.major last, (bump_eq_ok hlast).2, by simp, rfl⟩
    | [m, k], _ =>
        obtain ⟨last, hlast, h⟩ := bind_eq_ok.1 hbumped
        obtain rfl := pure_eq_ok.1 h
        exact ⟨.minor n last, ⟨hfits n (by simp), (bump_eq_ok hlast).2⟩, by simp, rfl⟩
    | _ :: _ :: _ :: _, hlength =>
        simp only [List.length_cons] at hlength
        omega

end Release

end Requirements
