import Mathlib
import Requirements.Proofs.Specifier.Exact

/-!
# Components without a value

A component of a partial version is kept with its exact value or it is missing,
and everything after a missing one is missing too. Not only wildcards go
missing: so do digits of other scripts and numbers that do not fit a word. An
exact specifier whose first number does not fit a word thus admits every version
that a bare name admits.
-/

namespace Requirements

open PartialVersion (IsComponent Outline Spelling)
open Text (decimalValue numeral? wordMax)

namespace PartialVersion

def IsWildcard (c : List Char) : Prop :=
  ∃ x, c = [x] ∧ isWildcard x = true

/-- Decimal digits, not all of them ASCII. -/
def IsForeign (c : List Char) : Prop :=
  (∀ x ∈ c, Text.isDecimalDigit x = true) ∧ ∃ x ∈ c, x.isDigit = false

/-- ASCII digits of a number that does not fit a word. -/
def IsOversized (c : List Char) : Prop :=
  IsDigits c ∧ wordMax < decimalValue c

theorem numeral?_eq_none_iff {c : List Char} (h : IsComponent c) :
    numeral? c = none ↔ IsWildcard c ∨ IsForeign c ∨ IsOversized c := by
  constructor
  · intro hnone
    rcases h with ⟨hne, hdecimal⟩ | hwildcard
    · by_cases hdigits : ∀ x ∈ c, x.isDigit = true
      · rw [numeral?_digits ⟨hne, hdigits⟩] at hnone
        refine .inr (.inr ⟨⟨hne, hdigits⟩, ?_⟩)
        by_contra hfits
        rw [if_pos (Nat.le_of_not_lt hfits)] at hnone
        cases hnone
      · have hother : ∃ x ∈ c, x.isDigit = false := by simpa using hdigits
        exact .inr (.inl ⟨hdecimal, hother⟩)
    · exact .inl hwildcard
  · intro hcases
    cases hvalue : numeral? c with
    | none => rfl
    | some n =>
        obtain ⟨hdigits, hn⟩ := isDigits_of_numeral? hvalue
        rcases hcases with ⟨x, rfl, hx⟩ | ⟨_, x, hx, hother⟩ | ⟨_, hlarge⟩
        · have hdecimal := isDecimalDigit_of_isDigit (hdigits.2 x List.mem_cons_self)
          rw [isDecimalDigit_of_isWildcard hx] at hdecimal
          cases hdecimal
        · rw [hdigits.2 x hx] at hother
          cases hother
        · have hfits := le_wordMax_of_numeral? hvalue
          omega

namespace Outline

/-- There is no component at the place, or it has no value. -/
def MissingAt (x : Outline) (i : Nat) : Prop :=
  x.components[i]? = none ∨
    ∃ c, x.components[i]? = some c ∧ (IsWildcard c ∨ IsForeign c ∨ IsOversized c)

theorem missingAt_iff (x : Outline) (i : Nat) :
    x.MissingAt i ↔ ∀ c, x.components[i]? = some c → numeral? c = none := by
  cases h : x.components[i]? with
  | none => simp [MissingAt, h]
  | some c =>
      have hvalue := numeral?_eq_none_iff (x.isComponent c (List.mem_of_getElem? h))
      simp [MissingAt, h, hvalue]

theorem numbers_version (x : Outline) : x.version.numbers = leadingValues x.components :=
  numbers_ofComponents _ x.length_le

theorem exists_of_getElem?_numbers (x : Outline) {i n : Nat}
    (h : x.version.numbers[i]? = some n) :
    ∃ ds, x.components[i]? = some ds ∧ IsDigits ds ∧ decimalValue ds = n := by
  rw [numbers_version] at h
  obtain ⟨ds, hds, hvalue⟩ := exists_of_getElem?_leadingValues h
  exact ⟨ds, hds, isDigits_of_numeral? hvalue⟩

theorem getElem?_numbers_eq_none_iff (x : Outline) {i : Nat} :
    x.version.numbers[i]? = none ↔ ∃ j ≤ i, x.MissingAt j := by
  simp only [numbers_version, getElem?_leadingValues_eq_none_iff, missingAt_iff]

end Outline

theorem Spelling.version_eq_any {x : Spelling} (h : ∀ n ∈ x.values.head?, wordMax < n) :
    x.version = .any := by
  have hnumbers : x.version.numbers = [] := by
    rw [x.numbers_version]
    cases hvalues : x.values with
    | nil => rfl
    | cons n ns =>
        rw [hvalues] at h
        have hlarge : wordMax < n := h n rfl
        exact List.takeWhile_cons_of_neg (by simpa using hlarge)
  cases hversion : x.version with
  | any => rfl
  | _ =>
      rw [hversion] at hnumbers
      cases hnumbers

end PartialVersion

namespace Ecosystem

/-- An exact specifier of which no number is read is read as any version. -/
theorem parse_exact_of_any {e : Ecosystem} (he : e ∈ [npm, cargo, packagist]) {name : String}
    (hname : e.grammar.IsName name.toList) {x : Spelling} (hx : x.version = .any) :
    e.parse (name ++ " " ++ e.exactSign ++ String.ofList x.text) = .ok (.anyVersion name) := by
  have hcovered : x.version.covered = .ok [.any] := by
    rw [hx]
    rfl
  have hread : e.grammar.read (name.toList ++ ' ' :: (e.exactSign.toList ++ x.text)) =
      .ok ⟨String.ofList name.toList, [.ofTerms [.any]]⟩ := by
    simp only [List.mem_cons, List.not_mem_nil, or_false] at he
    rcases he with rfl | rfl | rfl
    · have hsign : npm.exactSign.toList = AlternativesDialect.exactSign .npm := rfl
      rw [hsign]
      exact (AlternativesDialect.read_exact_eq_ok_iff (d := .npm) hname x).2
        ⟨_, (AlternativesDialect.comparator_npm_eq_ok_iff x).2 hcovered, rfl⟩
    · have hbare := ClauseDialect.isBare_of_isVersionToken x.isVersionToken_text
      exact (ClauseDialect.read_exact_eq_ok_iff (.inl rfl) hbare hname).2
        ⟨_, (ClauseDialect.cargoTerms_exact_eq_ok_iff x).2 hcovered, rfl⟩
    · have hsign : packagist.exactSign.toList = AlternativesDialect.exactSign .composer := rfl
      rw [hsign]
      refine (AlternativesDialect.read_exact_eq_ok_iff (d := .composer) hname x).2
        ⟨_, (AlternativesDialect.comparator_composer_eq_ok_iff x).2 ?_, rfl⟩
      rw [if_pos (by simp [hx])]
      exact hcovered
  rw [parse_eq_ok, toList_exact, String.toList_ofList, hread, String.ofList_toList]
  rfl

/-- Every component that is read is returned with its exact value, and the ones
that are missing are those from the first place on that lacks a value: because
of a wildcard, digits that are not ASCII or a number that does not fit a word.
An exact specifier whose first number does not fit is read as any version. -/
theorem oversized_reads_as_missing (cs : List Char) (p : PartialVersion)
    (h : PartialVersion.read? cs = some p) :
    (∃ x : Outline, Text.trim cs = x.text ∧ ∀ i : Nat,
      (∀ n, p.numbers[i]? = some n →
        ∃ ds, x.components[i]? = some ds ∧ IsDigits ds ∧ decimalValue ds = n) ∧
      (p.numbers[i]? = none ↔ ∃ j ≤ i, x.MissingAt j)) ∧
    ∀ e ∈ [npm, cargo, packagist], ∀ (name : String) (x : Spelling),
      e.grammar.IsName name.toList → cs = x.text → (∀ n ∈ x.values.head?, wordMax < n) →
      e.parse (name ++ " " ++ e.exactSign ++ String.ofList cs) = .ok (.anyVersion name) := by
  constructor
  · obtain ⟨x, hcs, rfl⟩ := PartialVersion.read?_eq_some_iff.1 h
    exact ⟨x, hcs, fun i => ⟨fun n hn => x.exists_of_getElem?_numbers hn,
      x.getElem?_numbers_eq_none_iff⟩⟩
  · rintro e he name x hname rfl hlarge
    exact parse_exact_of_any he hname (PartialVersion.Spelling.version_eq_any hlarge)

/-- The least number that does not fit a word, at the first place. -/
theorem oversized_reads_as_missing_npm :
    let x : Spelling := .ofNumbers [wordMax + 1, 0, 0] none (by simp) (by simp) (by simp)
    x.text = "18446744073709551616.0.0".toList ∧ PartialVersion.read? x.text = some .any ∧
    (∃ y : Outline, Text.trim x.text = y.text ∧ ∃ j ≤ 0, y.MissingAt j) ∧
    npm.grammar.IsName "foo".toList ∧ (∀ n ∈ x.values.head?, wordMax < n) ∧
    npm.parse ("foo" ++ " " ++ npm.exactSign ++ String.ofList x.text) =
      .ok (.anyVersion "foo") := by
  intro x
  have htext : x.text = "18446744073709551616.0.0".toList := by decide +kernel
  have hread : PartialVersion.read? x.text = some .any := by decide +kernel
  have hname : npm.grammar.IsName "foo".toList :=
    AlternativesDialect.isWord_of_all (by decide) (by decide)
  have hlarge : ∀ n ∈ x.values.head?, wordMax < n := by decide +kernel
  obtain ⟨⟨y, hy, hplaces⟩, hexact⟩ := oversized_reads_as_missing x.text .any hread
  exact ⟨htext, hread, ⟨y, hy, (hplaces 0).2.1 rfl⟩, hname, hlarge,
    hexact npm (by decide) "foo" x hname rfl hlarge⟩

/-- So a component may be missing that is written in digits, and an exact
specifier may admit other versions than the one it is written with. -/
theorem not_oversized_kept :
    (¬ ∀ (x : Outline) (p : PartialVersion), PartialVersion.read? x.text = some p →
      ∀ i : Nat, p.numbers[i]? = none →
        ∃ j ≤ i, ∀ c, x.components[j]? = some c → PartialVersion.IsWildcard c) ∧
    ¬ ∀ e ∈ [npm, cargo, packagist], ∀ (name : String) (x : Spelling) (r : Requirement)
        (v : Version), e.grammar.IsName name.toList → x.values.length = 3 →
      e.parse (name ++ " " ++ e.exactSign ++ String.ofList x.text) = .ok r →
      r.accepts v = true → Version.compare v (String.ofList x.core) = .eq := by
  let x : Spelling := .ofNumbers [wordMax + 1, 0, 0] none (by simp) (by simp) (by simp)
  have hlarge : ∀ n ∈ x.values.head?, wordMax < n := by decide +kernel
  have hversion := PartialVersion.Spelling.version_eq_any hlarge
  constructor
  · intro hall
    have hread : PartialVersion.read? x.outline.text = some .any := by decide +kernel
    obtain ⟨j, hj, hwildcard⟩ := hall x.outline .any hread 0 rfl
    obtain rfl := Nat.le_zero.1 hj
    obtain ⟨c, hc, _⟩ := hwildcard (Text.decimal (wordMax + 1)) rfl
    have hlength : (Text.decimal (wordMax + 1)).length = 1 := congrArg List.length hc
    exact absurd hlength (by decide +kernel)
  · intro hall
    have hname : npm.grammar.IsName "foo".toList :=
      AlternativesDialect.isWord_of_all (by decide) (by decide)
    have hparse := parse_exact_of_any (by decide) hname hversion
    have hequal := hall npm (by decide) "foo" x _ "1.0.0" hname rfl hparse (by decide)
    exact absurd hequal (by decide +kernel)

end Ecosystem

end Requirements
