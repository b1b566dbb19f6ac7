import Mathlib
import Requirements.Proofs.Range.Caret
import Requirements.Proofs.Range.Pessimistic
import Requirements.Proofs.Specifier.Exact

/-!
# Shorthands are not empty

A shorthand expands to an exact version, to a start, or to a range that has an
end. The start of a range does not exceed the numbers that the range keeps, and
its end bumps the last of these, so the start is always admitted.
-/

namespace Requirements

open PartialVersion (between frozen hasWildcard)
open Release (kept numbers)
open Text (wordMax)

/-! ## Terms that admit their start -/

/-- The first term is a lower bound or an exact version, and all terms admit the
version in it. -/
def AdmitsStart (ts : List Term) : Prop :=
  ∃ t rest, ts = t :: rest ∧ t.op ∈ [Operator.atLeast, .equal] ∧
    ∀ u ∈ ts, u.accepts t.version = true

theorem admitsStart_singleton {t : Term} (h : t.op ∈ [Operator.atLeast, .equal]) :
    AdmitsStart [t] := by
  refine ⟨t, [], rfl, h, fun u hu => ?_⟩
  have hself : Version.compare t.version t.version = .eq := Std.ReflCmp.compare_self
  simp only [List.mem_cons, List.not_mem_nil, or_false] at h
  rw [List.mem_singleton.1 hu, Term.accepts, hself]
  rcases h with h | h <;> rw [h] <;> rfl

theorem admitsStart_exact (v : Version) : AdmitsStart [.exact v] :=
  admitsStart_singleton (by simp [Term.exact])

theorem IsSpan.admitsStart {lower : Version} {kept : List Nat}
    {terms : Except Oversized (List Term)} (h : IsSpan lower kept terms) {ts : List Term}
    (hts : terms = .ok ts) : AdmitsStart ts := by
  obtain ⟨upper, rfl, hlt⟩ := h.of_eq_ok hts
  refine ⟨⟨.atLeast, lower⟩, [⟨.below, upper⟩], rfl, by simp, ?_⟩
  have hself : Version.compare lower lower = .eq := Std.ReflCmp.compare_self
  have hlower : Version.compare lower lower ≠ .lt := by
    rw [hself]
    decide
  exact PartialVersion.accepts_between_iff.2 ⟨hlower, fun u hu => Option.some.inj hu ▸ hlt⟩

namespace PartialVersion

variable {p : PartialVersion} {ts : List Term}

theorem admitsStart_between_none (lower : Version) : AdmitsStart (between lower none) :=
  admitsStart_singleton (by simp)

theorem admitsStart_covered (h : p.covered = .ok ts) : AdmitsStart ts := by
  by_cases hlength : p.numbers.length = 3
  · obtain ⟨a, b, c, tag, rfl⟩ := exists_patch hlength
    obtain rfl := Except.ok.inj h
    exact admitsStart_exact _
  · by_cases hany : p = .any
    · subst hany
      obtain rfl := Except.ok.inj h
      exact admitsStart_between_none _
    · exact (isSpan_covered hany hlength).admitsStart h

theorem admitsStart_caret (h : p.caret = .ok ts) : AdmitsStart ts := by
  by_cases hany : p = .any
  · subst hany
    obtain rfl := Except.ok.inj h
    exact admitsStart_between_none _
  · exact (isSpan_caret hany).admitsStart h

theorem admitsStart_tilde (h : p.tilde = .ok ts) : AdmitsStart ts := by
  by_cases hany : p = .any
  · subst hany
    obtain rfl := Except.ok.inj h
    exact admitsStart_between_none _
  · exact (isSpan_tilde hany).admitsStart h

end PartialVersion

/-! ## Clauses -/

/-- A mark that is not one of the five inequalities. -/
def Mark.IsShorthand : Option Mark → Prop
  | some (.compare op) => op = .equal
  | _ => True

namespace ClauseDialect

/-- The terms of a pessimistic clause whose version is in order. -/
theorem pessimistic_eq {cs : List Char} (htoken : isVersionToken cs = true)
    (hne : numbers cs ≠ []) :
    pessimistic cs =
      ((Release.pessimisticEnd cs).map (between (String.ofList cs))).mapError .oversized := by
  rw [pessimistic, versionToken_eq_ok htoken]
  cases hend : Release.pessimisticEnd cs with
  | error e => rfl
  | ok upper =>
      obtain ⟨_, _, _, _, rfl⟩ := (Release.endsAfter_pessimisticEnd hne).of_eq_ok hend
      rfl

theorem startingWith_eq {stem : List Char} (hne : numbers stem ≠ [])
    (hdotted : dotted (numbers stem) = String.ofList stem) :
    startingWith stem = ((bumpLast (numbers stem)).map fun upper =>
      between (String.ofList stem) (some upper)).mapError .oversized := by
  have hempty : (numbers stem).isEmpty = false := List.isEmpty_eq_false_iff.2 hne
  simp only [startingWith, hempty, hdotted, bne_self_eq_false, Bool.or_false]
  cases bumpLast (numbers stem) <;> rfl

theorem within_stem {stem : List Char} (hne : numbers stem ≠ [])
    (hdotted : dotted (numbers stem) = String.ofList stem) :
    Version.Within (String.ofList stem) (numbers stem) := by
  rw [← hdotted]
  exact Version.within_dotted hne

theorem admitsStart_pessimistic {cs : List Char} {ts : List Term} (h : pessimistic cs = .ok ts) :
    AdmitsStart ts := by
  have hread := h
  obtain ⟨v, hv, h⟩ := bind_eq_ok.1 h
  obtain ⟨htoken, rfl⟩ := isVersionToken_of_versionToken hv
  rw [String.toList_ofList] at htoken
  have hne : numbers cs ≠ [] := by
    intro hnil
    rw [Release.pessimisticEnd_of_nil hnil] at h
    cases h
  rw [pessimistic_eq htoken hne] at hread
  exact (Release.isSpan_pessimistic hne (Release.within_numbers cs)).admitsStart
    (mapError_eq_ok.1 hread)

theorem admitsStart_startingWith {stem : List Char} {ts : List Term}
    (h : startingWith stem = .ok ts) : AdmitsStart ts := by
  have hread := h
  unfold startingWith at h
  dsimp only at h
  split at h
  · cases h
  · rename_i hstem
    simp only [Bool.or_eq_true, List.isEmpty_iff, bne_iff_ne, ne_eq, not_or, not_not] at hstem
    obtain ⟨hne, hdotted⟩ := hstem
    rw [startingWith_eq hne hdotted] at hread
    exact (Release.isSpan_bumpLast hne (within_stem hne hdotted)).admitsStart
      (mapError_eq_ok.1 hread)

theorem admitsStart_plain {cs : List Char} {ts : List Term} (h : plain .equal cs = .ok ts) :
    AdmitsStart ts := by
  rw [plain_eq_ok h]
  exact admitsStart_exact _

/-- Equality asks for the start of a version if there is a star at the end. -/
theorem admitsStart_equality {cs : List Char} {ts : List Term} (h : pep440Terms none cs = .ok ts) :
    AdmitsStart ts := by
  simp only [pep440Terms] at h
  split at h
  · exact admitsStart_startingWith h
  · exact admitsStart_plain h

section

variable {mark : Option Mark} (hmark : Mark.IsShorthand mark) {cs : List Char} {ts : List Term}

include hmark

theorem admitsStart_cargoTerms (h : cargoTerms mark cs = .ok ts) : AdmitsStart ts := by
  unfold cargoTerms at h
  split at h
  · cases h
  · rename_i p hp
    split at h
    · have h := mapError_eq_ok.1 h
      split at h
      · exact PartialVersion.admitsStart_covered h
      · exact PartialVersion.admitsStart_caret h
    · have h := mapError_eq_ok.1 h
      split at h
      · exact PartialVersion.admitsStart_covered h
      · exact PartialVersion.admitsStart_caret h
    · exact PartialVersion.admitsStart_tilde (mapError_eq_ok.1 h)
    · exact PartialVersion.admitsStart_covered (mapError_eq_ok.1 h)
    · rename_i hop
      exact absurd hmark hop
    · cases h

theorem admitsStart_pep440Terms (h : pep440Terms mark cs = .ok ts) : AdmitsStart ts := by
  unfold pep440Terms at h
  split at h
  · split at h
    · cases h
    · exact admitsStart_pessimistic h
  · exact admitsStart_equality h
  · exact admitsStart_equality h
  · exact admitsStart_equality h
  · cases hmark
  · rename_i hop _
    exact absurd hmark hop
  · exact admitsStart_cargoTerms hmark h
  · exact admitsStart_cargoTerms hmark h
  · cases h

theorem admitsStart_gemTerms (h : gemTerms mark cs = .ok ts) : AdmitsStart ts := by
  unfold gemTerms at h
  split at h
  · exact admitsStart_pessimistic h
  · exact admitsStart_plain h
  · rename_i op
    obtain rfl : op = .equal := hmark
    exact admitsStart_plain h
  · cases h

theorem admitsStart_terms {d : ClauseDialect} (h : d.terms mark cs = .ok ts) :
    AdmitsStart ts := by
  cases d with
  | pep440 => exact admitsStart_pep440Terms hmark h
  | cargo => exact admitsStart_cargoTerms hmark h
  | gem => exact admitsStart_gemTerms hmark h

end

end ClauseDialect

/-! ## Comparators -/

namespace AlternativesDialect

section

variable {mark : Option Mark} (hmark : Mark.IsShorthand mark) {operand : List Char}
  {p : PartialVersion} {ts : List Term}

include hmark

theorem admitsStart_npmTerms (h : npmTerms? mark p = some (.ok ts)) : AdmitsStart ts := by
  unfold npmTerms? at h
  split at h
  · exact PartialVersion.admitsStart_caret (Option.some.inj h)
  · exact PartialVersion.admitsStart_tilde (Option.some.inj h)
  · exact PartialVersion.admitsStart_tilde (Option.some.inj h)
  · exact PartialVersion.admitsStart_covered (Option.some.inj h)
  · exact PartialVersion.admitsStart_covered (Option.some.inj h)
  · cases h
  · rename_i hop _
    exact absurd hmark hop
  · cases h
  · cases h

theorem admitsStart_composerTerms (hread : PartialVersion.read? operand = some p)
    (h : composerTerms? mark operand p = some (.ok ts)) : AdmitsStart ts := by
  have hpessimistic (h : (Release.pessimisticEnd operand).map (between p.floor) = .ok ts) :
      AdmitsStart ts := by
    by_cases hne : numbers operand = []
    · rw [Release.pessimisticEnd_of_nil hne] at h
      obtain rfl := Except.ok.inj h
      exact PartialVersion.admitsStart_between_none _
    · exact (Release.isSpan_pessimistic hne (Release.within_floor hread)).admitsStart h
  have hequal (h : (if hasWildcard operand || decide (p = .any) then p.covered
      else .ok [.exact p.floor]) = .ok ts) : AdmitsStart ts := by
    split at h
    · exact PartialVersion.admitsStart_covered h
    · obtain rfl := Except.ok.inj h
      exact admitsStart_exact _
  unfold composerTerms? at h
  dsimp only at h
  split at h
  · exact PartialVersion.admitsStart_caret (Option.some.inj h)
  · exact hpessimistic (Option.some.inj h)
  · exact hpessimistic (Option.some.inj h)
  · exact hequal (Option.some.inj h)
  · exact hequal (Option.some.inj h)
  · rename_i hop
    exact absurd hmark hop
  · cases h
  · cases h

end

end AlternativesDialect

/-! ## Ends that cannot be bumped -/

namespace PartialVersion

variable {p : PartialVersion}

theorem ne_any_of_getLast? {ns : List Nat} (hns : ns <+: p.numbers) {n : Nat}
    (h : ns.getLast? = some n) : p ≠ .any := by
  rintro rfl
  rw [List.prefix_nil.1 hns] at h
  cases h

theorem caret_eq_error (h : (frozen p.numbers).getLast? = some wordMax) :
    p ≠ .any ∧ p.caret = .error ⟨wordMax⟩ := by
  have hany := ne_any_of_getLast? (isPrefix_frozen _) h
  exact ⟨hany, (isSpan_caret hany).eq_error h⟩

theorem tilde_eq_error (h : (p.numbers.take 2).getLast? = some wordMax) :
    p.tilde = .error ⟨wordMax⟩ :=
  (isSpan_tilde (ne_any_of_getLast? (List.take_prefix 2 _) h)).eq_error h

theorem covered_eq_error (hlength : p.numbers.length ≠ 3)
    (h : p.numbers.getLast? = some wordMax) : p.covered = .error ⟨wordMax⟩ :=
  (isSpan_covered (ne_any_of_getLast? List.prefix_rfl h) hlength).eq_error h

end PartialVersion

namespace ClauseDialect

/-- The mark of a caret range, which Cargo also writes without one. -/
def IsCaret (d : ClauseDialect) (mark : Option Mark) : Prop :=
  mark = some .caret ∧ d ≠ .gem ∨ mark = none ∧ d = .cargo

/-- The numbers that a clause keeps of its operand. Its range ends where the last of
them is bumped. -/
inductive Keeps : ClauseDialect → Option Mark → List Char → List Nat → Prop
  | compatible {cs : List Char} : Keeps .pep440 (some .compatible) cs (kept (numbers cs))
  | pessimistic {cs : List Char} : Keeps .gem (some .pessimistic) cs (kept (numbers cs))
  /-- Equality with a star at the end. -/
  | stem {mark : Option Mark} {stem : List Char}
      (hmark : mark ∈ [none, some (.compare .equal), some .identical]) :
      Keeps .pep440 mark (stem ++ ['.', '*']) (numbers stem)
  | caret {d : ClauseDialect} {mark : Option Mark} {cs : List Char} {p : PartialVersion}
      (hmark : d.IsCaret mark) (hread : PartialVersion.read? cs = some p)
      (hwildcard : hasWildcard cs = false) : Keeps d mark cs (frozen p.numbers)
  | wildcard {d : ClauseDialect} {mark : Option Mark} {cs : List Char} {p : PartialVersion}
      (hmark : d.IsCaret mark) (hread : PartialVersion.read? cs = some p)
      (hwildcard : hasWildcard cs = true) (hlength : p.numbers.length ≠ 3) :
      Keeps d mark cs p.numbers
  | tilde {d : ClauseDialect} {cs : List Char} {p : PartialVersion} (hd : d ≠ .gem)
      (hread : PartialVersion.read? cs = some p) : Keeps d (some .tilde) cs (p.numbers.take 2)
  | equal {cs : List Char} {p : PartialVersion} (hread : PartialVersion.read? cs = some p)
      (hlength : p.numbers.length ≠ 3) : Keeps .cargo (some (.compare .equal)) cs p.numbers

theorem pessimistic_eq_error {cs : List Char}
    (hlast : (kept (numbers cs)).getLast? = some wordMax) :
    ∃ fault, pessimistic cs = .error fault := by
  have hne := Release.ne_nil_of_kept hlast
  by_cases htoken : isVersionToken cs = true
  · have hspan := Release.isSpan_pessimistic hne (Release.within_numbers cs)
    rw [pessimistic_eq htoken hne, hspan.eq_error hlast]
    exact ⟨_, rfl⟩
  · rw [pessimistic, versionToken, if_neg htoken]
    exact ⟨_, rfl⟩

theorem startingWith_eq_error {stem : List Char}
    (hlast : (numbers stem).getLast? = some wordMax) :
    ∃ fault, startingWith stem = .error fault := by
  have hne := List.ne_nil_of_mem (List.mem_of_getLast? hlast)
  by_cases hdotted : dotted (numbers stem) = String.ofList stem
  · have hspan := Release.isSpan_bumpLast hne (within_stem hne hdotted)
    rw [startingWith_eq hne hdotted, hspan.eq_error hlast]
    exact ⟨_, rfl⟩
  · refine ⟨.invalidWildcard (String.ofList stem), if_pos ?_⟩
    simp [hdotted]

theorem wildcardStem?_append (stem : List Char) :
    wildcardStem? (stem ++ ['.', '*']) = some stem := by
  rw [wildcardStem?, if_pos (List.isSuffixOf_iff_suffix.2 (List.suffix_append _ _))]
  simp

theorem terms_of_isCaret {d : ClauseDialect} {mark : Option Mark} (h : d.IsCaret mark)
    {cs : List Char} {p : PartialVersion} (hread : PartialVersion.read? cs = some p) :
    d.terms mark cs =
      (if p = .any || hasWildcard cs then p.covered else p.caret).mapError .oversized := by
  have hcargo : d.terms mark cs = cargoTerms mark cs := by
    rcases h with ⟨rfl, hd⟩ | ⟨rfl, rfl⟩
    · cases d with
      | gem => exact absurd rfl hd
      | _ => rfl
    · rfl
  rcases h with ⟨rfl, _⟩ | ⟨rfl, _⟩ <;> simp only [hcargo, cargoTerms, hread]

/-- A clause whose range would end past the largest number of a word is refused. -/
theorem terms_eq_error {d : ClauseDialect} {mark : Option Mark} {cs : List Char} {ns : List Nat}
    (h : d.Keeps mark cs ns) (hlast : ns.getLast? = some wordMax) :
    ∃ fault, d.terms mark cs = .error fault := by
  cases h with
  | compatible =>
      simp only [terms, pep440Terms]
      split
      · exact ⟨_, rfl⟩
      · exact pessimistic_eq_error hlast
  | pessimistic => exact pessimistic_eq_error hlast
  | stem hmark =>
      have hstem := startingWith_eq_error hlast
      simp only [List.mem_cons, List.not_mem_nil, or_false] at hmark
      rcases hmark with rfl | rfl | rfl
      all_goals simpa only [terms, pep440Terms, wildcardStem?_append] using hstem
  | caret hmark hread hwildcard =>
      obtain ⟨hany, hcaret⟩ := PartialVersion.caret_eq_error hlast
      rw [terms_of_isCaret hmark hread, if_neg (by simp [hany, hwildcard]), hcaret]
      exact ⟨_, rfl⟩
  | wildcard hmark hread hwildcard hlength =>
      have hcovered := PartialVersion.covered_eq_error hlength hlast
      rw [terms_of_isCaret hmark hread, if_pos (by simp [hwildcard]), hcovered]
      exact ⟨_, rfl⟩
  | @tilde d _ p hd hread =>
      have htilde := PartialVersion.tilde_eq_error hlast
      have hcargo : d.terms (some .tilde) cs = cargoTerms (some .tilde) cs := by
        cases d with
        | gem => exact absurd rfl hd
        | _ => rfl
      simp only [hcargo, cargoTerms, hread, htilde]
      exact ⟨_, rfl⟩
  | equal hread hlength =>
      have hcovered := PartialVersion.covered_eq_error hlength hlast
      simp only [terms, cargoTerms, hread, hcovered]
      exact ⟨_, rfl⟩

/-- The terms of a clause are those of its mark and operand. -/
theorem clause_of_split {d : ClauseDialect} {cs operand : List Char} {mark : Option Mark}
    (h : Mark.split? isOperand (Text.trim cs) Mark.ofClauses = some (mark, operand)) :
    d.clause cs = d.terms mark (Text.trimStart operand) := by
  have hempty : (Text.trim cs).isEmpty = false := by
    refine List.isEmpty_eq_false_iff.2 fun hnil => ?_
    have hnone : Mark.split? isOperand [] Mark.ofClauses = none := by decide
    rw [hnil, hnone] at h
    cases h
  rw [clause]
  simp only [hempty, h]
  rfl

end ClauseDialect

namespace AlternativesDialect

/-- The numbers that a comparator keeps of its operand. Its range ends where the
last of them is bumped. -/
inductive Keeps : AlternativesDialect → Option Mark → List Char → List Nat → Prop
  | caret {d : AlternativesDialect} {cs : List Char} {p : PartialVersion}
      (hread : PartialVersion.read? cs = some p) : Keeps d (some .caret) cs (frozen p.numbers)
  | tilde {mark : Option Mark} {cs : List Char} {p : PartialVersion}
      (hmark : mark ∈ [some .tilde, some .pessimistic])
      (hread : PartialVersion.read? cs = some p) : Keeps .npm mark cs (p.numbers.take 2)
  /-- Composer keeps the numbers of the text. -/
  | release {mark : Option Mark} {cs : List Char} (hmark : mark ∈ [some .tilde, some .pessimistic]) :
      Keeps .composer mark cs (kept (numbers cs))
  | covered {d : AlternativesDialect} {mark : Option Mark} {cs : List Char} {p : PartialVersion}
      (hmark : mark ∈ [none, some (.compare .equal)])
      (hread : PartialVersion.read? cs = some p) (hwildcard : d = .npm ∨ hasWildcard cs = true)
      (hlength : p.numbers.length ≠ 3) : Keeps d mark cs p.numbers

/-- A comparator whose range would end past the largest number of a word is refused. -/
theorem terms?_eq_error {d : AlternativesDialect} {mark : Option Mark} {cs : List Char}
    {ns : List Nat} {p : PartialVersion} (hp : PartialVersion.read? cs = some p)
    (h : d.Keeps mark cs ns) (hlast : ns.getLast? = some wordMax) :
    d.terms? mark cs p = some (.error ⟨wordMax⟩) := by
  cases h with
  | caret hread =>
      obtain rfl := Option.some.inj (hp.symm.trans hread)
      obtain ⟨_, hcaret⟩ := PartialVersion.caret_eq_error hlast
      cases d with
      | npm => simp only [terms?, npmTerms?, hcaret]
      | composer => simp only [terms?, composerTerms?, hcaret]
  | tilde hmark hread =>
      obtain rfl := Option.some.inj (hp.symm.trans hread)
      have htilde := PartialVersion.tilde_eq_error hlast
      simp only [List.mem_cons, List.not_mem_nil, or_false] at hmark
      rcases hmark with rfl | rfl <;> simp only [terms?, npmTerms?, htilde]
  | release hmark =>
      have hspan := Release.isSpan_pessimistic (Release.ne_nil_of_kept hlast)
        (Release.within_floor hp)
      simp only [List.mem_cons, List.not_mem_nil, or_false] at hmark
      rcases hmark with rfl | rfl <;> simp only [terms?, composerTerms?, hspan.eq_error hlast]
  | covered hmark hread hwildcard hlength =>
      obtain rfl := Option.some.inj (hp.symm.trans hread)
      have hcovered := PartialVersion.covered_eq_error hlength hlast
      simp only [List.mem_cons, List.not_mem_nil, or_false] at hmark
      cases d with
      | npm => rcases hmark with rfl | rfl <;> simp only [terms?, npmTerms?, hcovered]
      | composer =>
          have hwildcard := hwildcard.resolve_left (by decide)
          rcases hmark with rfl | rfl <;>
            simp only [terms?, composerTerms?, hwildcard, hcovered, Bool.true_or, if_true]

theorem admitsStart_of_comparator {d : AlternativesDialect} {token operand : List Char}
    {mark : Option Mark} (hmark : Mark.IsShorthand mark)
    (h : Mark.split? isOperand token Mark.ofComparators = some (mark, operand)) {ts : List Term}
    (hts : d.comparator token = .ok ts) : AdmitsStart ts := by
  obtain ⟨p, hread, hterms⟩ := (comparator_eq_ok_iff h).1 hts
  cases d with
  | npm => exact admitsStart_npmTerms hmark hterms
  | composer => exact admitsStart_composerTerms hmark hread hterms

theorem comparator_eq_error {d : AlternativesDialect} {token operand : List Char}
    {mark : Option Mark}
    (h : Mark.split? isOperand token Mark.ofComparators = some (mark, operand)) {ns : List Nat}
    (hns : d.Keeps mark operand ns) (hlast : ns.getLast? = some wordMax) :
    ∃ e, d.comparator token = .error e := by
  cases hread : PartialVersion.read? operand with
  | none =>
      simp only [comparator, h, hread, Option.bind_none]
      exact ⟨_, rfl⟩
  | some p =>
      simp only [comparator, h, hread, Option.bind_some, terms?_eq_error hread hns hlast]
      exact ⟨_, rfl⟩

end AlternativesDialect

/-- No shorthand expands to an empty range: the lower bound or the exact version
that a clause or a comparator starts with is admitted by all of its terms. Where
the end of a range would have the largest number of a word bumped, the clause or
the comparator is refused instead. -/
theorem shorthand_admits_start :
    (∀ (d : ClauseDialect) (cs operand : List Char) (mark : Option Mark),
      Mark.IsShorthand mark →
      Mark.split? ClauseDialect.isOperand (Text.trim cs) Mark.ofClauses = some (mark, operand) →
      (∀ ts, d.clause cs = .ok ts → AdmitsStart ts) ∧
      ∀ ns, d.Keeps mark (Text.trimStart operand) ns → ns.getLast? = some wordMax →
        ∃ fault, d.clause cs = .error fault) ∧
    ∀ (d : AlternativesDialect) (token operand : List Char) (mark : Option Mark),
      Mark.IsShorthand mark →
      Mark.split? AlternativesDialect.isOperand token Mark.ofComparators = some (mark, operand) →
      (∀ ts, d.comparator token = .ok ts → AdmitsStart ts) ∧
      ∀ ns, d.Keeps mark operand ns → ns.getLast? = some wordMax →
        ∃ fault, d.comparator token = .error fault := by
  constructor
  · intro d cs operand mark hmark hsplit
    rw [ClauseDialect.clause_of_split hsplit]
    exact ⟨fun ts => ClauseDialect.admitsStart_terms hmark,
      fun ns => ClauseDialect.terms_eq_error⟩
  · intro d token operand mark hmark hsplit
    exact ⟨fun ts => AlternativesDialect.admitsStart_of_comparator hmark hsplit,
      fun ns => AlternativesDialect.comparator_eq_error hsplit⟩

/-- A range whose start has a `v` in front and a hyphen within a part between points,
and a range that cannot end. -/
theorem shorthand_admits_start_marked :
    let ts : List Term := [⟨.atLeast, "v1.2-3.4"⟩, ⟨.below, "2"⟩]
    ClauseDialect.pep440.clause "~= v1.2-3.4".toList = .ok ts ∧ AdmitsStart ts ∧
    (frozen [0, wordMax]).getLast? = some wordMax ∧
    ∃ fault, AlternativesDialect.npm.comparator "^0.18446744073709551615".toList =
      .error fault := by
  intro ts
  obtain ⟨hclauses, hcomparators⟩ := shorthand_admits_start
  have hclause : ClauseDialect.pep440.clause "~= v1.2-3.4".toList = .ok ts := by decide +kernel
  have hrange : Mark.split? ClauseDialect.isOperand (Text.trim "~= v1.2-3.4".toList)
      Mark.ofClauses = some (some .compatible, " v1.2-3.4".toList) := by decide +kernel
  have hcaret : Mark.split? AlternativesDialect.isOperand "^0.18446744073709551615".toList
      Mark.ofComparators = some (some .caret, "0.18446744073709551615".toList) := by decide +kernel
  have hread : PartialVersion.read? "0.18446744073709551615".toList = some (.minor 0 wordMax) := by
    decide +kernel
  have hlast : (frozen [0, wordMax]).getLast? = some wordMax := by decide
  have hcompatible : Mark.IsShorthand (some .compatible) := trivial
  have hshort : Mark.IsShorthand (some .caret) := trivial
  exact ⟨hclause, (hclauses .pep440 _ _ _ hcompatible hrange).1 ts hclause, hlast,
    (hcomparators .npm _ _ _ hshort hcaret).2 _ (.caret hread) hlast⟩

end Requirements
