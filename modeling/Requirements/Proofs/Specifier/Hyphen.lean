import Mathlib
import Requirements.Proofs.Specifier.Normal

/-!
# Hyphen ranges

In npm a hyphen between two versions abbreviates two comparators: at least what
the first version stands for, and at most what the second one does. The hyphen
has white space on both sides; the comparators are told apart by the space
between them, which goes away behind a comparison sign. No version ends in such a
sign, so then neither of the two spellings can be read.
-/

namespace Requirements

namespace PartialVersion

theorem comparison_atLeast (p : PartialVersion) :
    p.comparison .atLeast = .ok [⟨.atLeast, p.floor⟩] := by
  cases p with
  | any => decide
  | _ => rfl

/-- A text with a comparison sign is not read. -/
theorem read?_eq_none {cs : List Char} (hcs : Text.trim cs = cs) {c : Char} (hc : c ∈ cs)
    (hsign : AlternativesDialect.endsSign c = true) : read? cs = none := by
  rw [Option.eq_none_iff_forall_ne_some]
  intro p hread
  obtain ⟨x, hx, -⟩ := read?_eq_some_iff.1 hread
  rw [hcs.symm.trans hx] at hc
  have hnot : AlternativesDialect.endsSign c = false := by
    rcases x.class_of_mem_text hc with hc | hc | hc | rfl
    · exact AlternativesDialect.endsSign_of_class hc (by decide)
    · exact AlternativesDialect.endsSign_of_class hc (by decide)
    · exact AlternativesDialect.endsSign_of_class hc (by decide)
    · decide
  rw [hsign] at hnot
  cases hnot

end PartialVersion

namespace AlternativesDialect

open Text (isBlank)

/-- The bounds of two versions, if both can be read: the first one stands for what
is not below it, and the second one for what is not above it. -/
def Bounds (lower upper : List Char) (ts : List Term) : Prop :=
  ∃ l u bounds, PartialVersion.read? lower = some l ∧ PartialVersion.read? upper = some u ∧
    u.comparison .atMost = .ok bounds ∧ ts = ⟨.atLeast, l.floor⟩ :: bounds

/-- A hyphen range ends with all that its second version covers, as the comparison
with that version does. -/
theorem hyphenRange_of_read? {lower upper : List Char} {l u : PartialVersion}
    (hl : PartialVersion.read? lower = some l) (hu : PartialVersion.read? upper = some u)
    (hany : u ≠ .any) :
    hyphenRange lower upper = ((u.comparison .atMost).map (⟨.atLeast, l.floor⟩ :: ·)).mapError
      fun oversized => ⟨String.ofList upper, some oversized⟩ := by
  cases u with
  | any => exact absurd rfl hany
  | major a =>
      simp only [hyphenRange, hl, hu, PartialVersion.ceiling, PartialVersion.comparison]
      cases bump a <;> rfl
  | minor a b =>
      simp only [hyphenRange, hl, hu, PartialVersion.ceiling, PartialVersion.comparison]
      cases bump b <;> rfl
  | patch a b c tag =>
      simp only [hyphenRange, hl, hu]
      rfl

theorem hyphenRange_eq_ok_iff {lower upper : List Char}
    (hany : PartialVersion.read? upper ≠ some .any) {ts : List Term} :
    hyphenRange lower upper = .ok ts ↔ Bounds lower upper ts := by
  unfold Bounds
  cases hl : PartialVersion.read? lower with
  | none => simp [hyphenRange, hl]
  | some l =>
      cases hu : PartialVersion.read? upper with
      | none => simp [hyphenRange, hl, hu]
      | some u =>
          have hne : u ≠ .any := fun h => hany (h ▸ hu)
          rw [hyphenRange_of_read? hl hu hne, mapError_eq_ok, map_eq_ok]
          simp [eq_comm]

/-- A comparison that is not strict is read as such, whatever its operand starts with. -/
theorem comparator_bound_eq_ok_iff {op : Operator} (hop : op = .atLeast ∨ op = .atMost)
    {cs : List Char} (hcs : isOperand cs = true) (ts : List Term) :
    npm.comparator (op.symbol.toList ++ cs) = .ok ts ↔
      ∃ p, PartialVersion.read? cs = some p ∧ p.comparison op = .ok ts := by
  have hsplit : Mark.split? isOperand (op.symbol.toList ++ cs) Mark.ofComparators =
      some (some (.compare op), cs) := by
    rcases hop with rfl | rfl <;>
      simp [Mark.split?_cons, Mark.ofComparators, Operator.symbol, hcs]
  rw [comparator_eq_ok_iff hsplit]
  rcases hop with rfl | rfl <;> simp only [terms?, npmTerms?, Option.some.injEq]

theorem isOperand_of_isWord {cs : List Char} (h : IsWord cs) : isOperand cs = true := by
  have hempty := List.isEmpty_eq_false_iff.2 h.1
  rw [isOperand, hempty, Bool.not_false, Bool.true_and, List.all_eq_true]
  intro c hc
  have hline : isBlank '\n' = true := by decide
  simpa using (Text.ne_of_class hline (h.2 c hc)).symm

/-! ## Words with spaces between them -/

theorem isAnyVersion_of_mem {cs : List Char} (h : ' ' ∈ cs) : isAnyVersion cs = false := by
  by_contra hany
  simp only [isAnyVersion, Bool.not_eq_false, Bool.or_eq_true, beq_iff_eq,
    List.isEmpty_iff] at hany
  rcases hany with (((rfl | rfl) | rfl) | rfl) | rfl
  all_goals exact absurd h (by decide)

/-- An alternative of two words or more is a hyphen range if it has a hyphen between
two words, and otherwise a run of comparators. -/
theorem branch_intercalate (d : AlternativesDialect) {first second : List Char}
    {more : List (List Char)} (h : ∀ w ∈ first :: second :: more, IsWord w) :
    d.branch ([' '].intercalate (first :: second :: more)) =
      match first :: second :: more with
      | [lower, ['-'], upper] => hyphenRange lower upper
      | _ => do
          let terms ← (d.tokens ([' '].intercalate (first :: second :: more))).mapM d.comparator
          return if terms.flatten.isEmpty then [.any] else terms.flatten := by
  have hne : ∀ w ∈ first :: second :: more, w ≠ [] := fun w hw => (h w hw).1
  have htrim : Text.trim ([' '].intercalate (first :: second :: more)) =
      [' '].intercalate (first :: second :: more) := by
    refine Text.trim_eq_self (fun c hc => ?_) fun c hc => ?_
    · obtain ⟨w, hw, hc⟩ := Text.mem_head?_intercalate hne hc
      exact (h w hw).2 c (List.mem_of_mem_head? hc)
    · obtain ⟨w, hw, hc⟩ := Text.mem_getLast?_intercalate hne hc
      exact (h w hw).2 c (List.mem_of_mem_getLast? hc)
  have hany : isAnyVersion ([' '].intercalate (first :: second :: more)) = false :=
    isAnyVersion_of_mem (by rw [List.intercalate_cons_cons]; simp)
  rw [branch, htrim]
  simp only [hany, Text.words_intercalate h]
  rfl

theorem branch_pair (d : AlternativesDialect) {front back : List Char} (hfront : IsWord front)
    (hback : IsWord back) :
    d.branch ([' '].intercalate [front, back]) = (do
      let terms ← (d.tokens ([' '].intercalate [front, back])).mapM d.comparator
      return if terms.flatten.isEmpty then [.any] else terms.flatten) := by
  have hwords : ∀ w ∈ [front, back], IsWord w := by simp [hfront, hback]
  rw [branch_intercalate d hwords]
  split
  · rename_i hthree
    cases hthree
  · rfl

/-- A space between two words separates comparators, unless the first one ends in a
comparison sign. -/
theorem tokens_pair {front back : List Char} (hfront : IsWord front) (hback : IsWord back) :
    npm.tokens ([' '].intercalate [front, back]) =
      if endsSign (front.getLast hfront.1) then [front ++ back] else [front, back] := by
  have hsep {w : List Char} (hw : IsWord w) : ∀ c ∈ w, npm.isSeparator c = false := by
    intro c hc
    have hspace : c ≠ ' ' := (Text.ne_of_class Text.isBlank_space (hw.2 c hc)).symm
    simp [isSeparator, hspace]
  have hword : IsWord (front ++ back) :=
    ⟨List.append_ne_nil_of_left_ne_nil hfront.1 back, List.forall_mem_append.2 ⟨hfront.2, hback.2⟩⟩
  rw [List.intercalate_cons_cons, List.intercalate_singleton, List.append_assoc,
    List.singleton_append, tokens, closeUp_append hfront.1 hfront.2]
  split
  · rename_i hsign
    rw [hsign, closeUp, if_pos (by decide), closeUp_eq_self hback.2,
      List.splitOnP_eq_singleton (hsep hword)]
    simp [hfront.1]
  · rename_i hsign
    rw [Bool.eq_false_of_not_eq_true hsign, closeUp, if_neg (by decide), closeUp_eq_self hback.2,
      List.splitOnP_append_cons_of_forall_mem (hsep hfront) _ (by decide),
      List.splitOnP_eq_singleton (hsep hback)]
    simp [hfront.1, hback.1]

theorem getLast_comparator {lower : List Char} (h : lower ≠ []) :
    ('>' :: '=' :: lower).getLast (by simp) = lower.getLast h := by
  rw [List.getLast_cons_cons, List.getLast_cons h]

section

variable {lower upper : List Char} (hlower : IsWord lower) (hupper : IsWord upper)

include hlower hupper

/-- Two words with a hyphen between them are a hyphen range. -/
theorem branch_hyphen (d : AlternativesDialect) :
    d.branch ([' '].intercalate [lower, ['-'], upper]) = hyphenRange lower upper := by
  have hhyphen : IsWord ['-'] := ⟨by simp, List.forall_mem_singleton.2 (by decide)⟩
  exact branch_intercalate d (by simp [hlower, hhyphen, hupper])

theorem isWord_comparators : IsWord ('>' :: '=' :: lower) ∧ IsWord ('<' :: '=' :: upper) := by
  have hsign {s : Char} (hs : isBlank s = false) {cs : List Char} (hcs : IsWord cs) :
      IsWord (s :: '=' :: cs) :=
    ⟨by simp, List.forall_mem_cons.2 ⟨hs, List.forall_mem_cons.2 ⟨by decide, hcs.2⟩⟩⟩
  exact ⟨hsign (by decide) hlower, hsign (by decide) hupper⟩

/-- If the first version ends in a comparison sign, the second comparator joins it,
and what they are together cannot be read. -/
theorem branch_comparators_of_sign (hsign : endsSign (lower.getLast hlower.1) = true)
    (ts : List Term) :
    npm.branch ([' '].intercalate ['>' :: '=' :: lower, '<' :: '=' :: upper]) ≠ .ok ts := by
  obtain ⟨hfront, hback⟩ := isWord_comparators hlower hupper
  have hword : IsWord (lower ++ '<' :: '=' :: upper) :=
    ⟨by simp, List.forall_mem_append.2 ⟨hlower.2, hback.2⟩⟩
  have hjoined : PartialVersion.read? (lower ++ '<' :: '=' :: upper) = none :=
    PartialVersion.read?_eq_none (Text.trim_of_forall hword.2) (c := '<') (by simp) (by decide)
  intro h
  rw [branch_pair npm hfront hback, tokens_pair hfront hback, getLast_comparator hlower.1,
    if_pos hsign, mapM_singleton] at h
  obtain ⟨terms, hterms, -⟩ := bind_eq_ok.1 h
  obtain ⟨first, hcomparator, -⟩ := map_eq_ok.1 hterms
  obtain ⟨p, hread, -⟩ :=
    (comparator_bound_eq_ok_iff (.inl rfl) (isOperand_of_isWord hword) _).1 hcomparator
  rw [hjoined] at hread
  cases hread

/-- The two comparators have the bounds of the two versions. -/
theorem branch_comparators_eq_ok_iff {ts : List Term} :
    npm.branch ([' '].intercalate ['>' :: '=' :: lower, '<' :: '=' :: upper]) = .ok ts ↔
      Bounds lower upper ts := by
  cases hsign : endsSign (lower.getLast hlower.1) with
  | true =>
      refine iff_of_false (branch_comparators_of_sign hlower hupper hsign ts) ?_
      rintro ⟨l, _, _, hread, -⟩
      rw [PartialVersion.read?_eq_none (Text.trim_of_forall hlower.2) (List.getLast_mem _) hsign]
        at hread
      cases hread
  | false =>
      obtain ⟨hfront, hback⟩ := isWord_comparators hlower hupper
      have hatLeast := comparator_bound_eq_ok_iff (.inl rfl) (isOperand_of_isWord hlower)
      have hatMost := comparator_bound_eq_ok_iff (.inr rfl) (isOperand_of_isWord hupper)
      rw [branch_pair npm hfront hback, tokens_pair hfront hback, getLast_comparator hlower.1, hsign,
        if_neg (by decide), bind_eq_ok]
      constructor
      · rintro ⟨terms, hterms, hts⟩
        obtain ⟨first, bounds, hfirst, hsecond, rfl⟩ := mapM_pair_eq_ok.1 hterms
        obtain ⟨l, hl, hfloor⟩ := (hatLeast _).1 hfirst
        obtain ⟨u, hu, hbounds⟩ := (hatMost _).1 hsecond
        rw [PartialVersion.comparison_atLeast] at hfloor
        obtain rfl := Except.ok.inj hfloor
        refine ⟨l, u, bounds, hl, hu, hbounds, ?_⟩
        simpa using (pure_eq_ok.1 hts).symm
      · rintro ⟨l, u, bounds, hl, hu, hbounds, rfl⟩
        have hfirst := (hatLeast _).2 ⟨l, hl, l.comparison_atLeast⟩
        have hsecond := (hatMost _).2 ⟨u, hu, hbounds⟩
        exact ⟨_, mapM_pair_eq_ok.2 ⟨_, bounds, hfirst, hsecond, rfl⟩, pure_eq_ok.2 (by simp)⟩

end

/-! ## Ranges -/

/-- Words without bars are a single alternative. -/
theorem normalize_intercalate {ws : List (List Char)} (h : ∀ w ∈ ws, '|' ∉ w) :
    npm.normalize ([' '].intercalate ws) =
      (npm.branch ([' '].intercalate ws)).map fun ts => [ts] := by
  have hbar : ∀ c ∈ [' '].intercalate ws, c ≠ '|' := by
    rintro c hc rfl
    rcases Text.mem_intercalate hc with hc | ⟨w, hw, hc⟩
    · exact absurd hc (by decide)
    · exact h w hw hc
  rw [normalize, branches, splitBars_of_forall hbar, mapM_singleton]

/-- An npm hyphen range is the pair of comparators it abbreviates, unless its second
version has no component: either both are refused, or they are normalized to the
same text. -/
theorem normalizeText_hyphen (lower upper : String) (hlower : IsWord lower.toList)
    (hupper : IsWord upper.toList) (hlowerBar : '|' ∉ lower.toList)
    (hupperBar : '|' ∉ upper.toList) (hany : PartialVersion.read? upper.toList ≠ some .any)
    (out : String) :
    npm.normalizeText (lower ++ " - " ++ upper) = .ok out ↔
      npm.normalizeText (">=" ++ lower ++ " <=" ++ upper) = .ok out := by
  have hhyphen : (lower ++ " - " ++ upper).toList =
      [' '].intercalate [lower.toList, ['-'], upper.toList] := by
    simp [List.intercalate_cons_cons]
  have hcomparators : (">=" ++ lower ++ " <=" ++ upper).toList =
      [' '].intercalate ['>' :: '=' :: lower.toList, '<' :: '=' :: upper.toList] := by
    simp [List.intercalate_cons_cons]
  have hbranch (ts : List Term) :
      npm.branch ([' '].intercalate [lower.toList, ['-'], upper.toList]) = .ok ts ↔
        npm.branch ([' '].intercalate
          ['>' :: '=' :: lower.toList, '<' :: '=' :: upper.toList]) = .ok ts := by
    rw [branch_hyphen hlower hupper, hyphenRange_eq_ok_iff hany,
      branch_comparators_eq_ok_iff hlower hupper]
  rw [normalizeText, normalizeText, hhyphen, hcomparators,
    normalize_intercalate (by simp [hlowerBar, hupperBar]),
    normalize_intercalate (by simp [hlowerBar, hupperBar])]
  simp only [map_eq_ok, hbranch]

/-- The first version has a tag, and the second one is a wildcard after a number. -/
theorem normalizeText_hyphen_partial :
    IsWord "v1.2.3-rc.1".toList ∧ IsWord "2.x".toList ∧ '|' ∉ "v1.2.3-rc.1".toList ∧
    '|' ∉ "2.x".toList ∧ PartialVersion.read? "2.x".toList = some (.major 2) ∧
    npm.normalizeText ("v1.2.3-rc.1" ++ " - " ++ "2.x") = .ok ">=1.2.3-rc.1 <3.0.0" ∧
    npm.normalizeText (">=" ++ "v1.2.3-rc.1" ++ " <=" ++ "2.x") = .ok ">=1.2.3-rc.1 <3.0.0" := by
  have hlower : IsWord "v1.2.3-rc.1".toList := isWord_of_all (by decide) (by decide)
  have hupper : IsWord "2.x".toList := isWord_of_all (by decide) (by decide)
  have hread : PartialVersion.read? "2.x".toList = some (.major 2) := by decide +kernel
  have hany : PartialVersion.read? "2.x".toList ≠ some .any := by
    rw [hread]
    decide
  have hhyphen : npm.normalizeText ("v1.2.3-rc.1" ++ " - " ++ "2.x") =
      .ok ">=1.2.3-rc.1 <3.0.0" := by decide +kernel
  exact ⟨hlower, hupper, by decide, by decide, hread, hhyphen,
    (normalizeText_hyphen _ _ hlower hupper (by decide) (by decide) hany _).1 hhyphen⟩

end AlternativesDialect

end Requirements
