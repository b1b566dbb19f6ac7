import Mathlib
import Requirements.Proofs.Range.Release
import Requirements.Proofs.Specifier.Term
import Requirements.Range.Alternatives

/-!
# Comparators of normalized ranges

Normalization leaves comparisons with complete versions in npm. In Composer the
end of a pessimistic range may be a partial version, which a comparison fills up
with zeros. So a comparator read back from a normalized term is a single term
with the same operator and a version of the same rank, and in npm the same term.
-/

namespace Requirements.AlternativesDialect

open PartialVersion (IsExpansion)

/-- The terms that a dialect writes so that they read back. -/
def Writes : AlternativesDialect → Term → Prop
  | .npm, t => t.version.IsComplete ∧ t.op ≠ .notEqual
  | .composer, t => ∃ p : PartialVersion, p.Fits ∧ p ≠ .any ∧ t.version = p.written

/-- One or more terms that the dialect writes. -/
def WritesAll (d : AlternativesDialect) (ts : List Term) : Prop :=
  ts ≠ [] ∧ ∀ t ∈ ts, d.Writes t

theorem exists_written_of_isComplete {v : Version} (h : v.IsComplete) :
    ∃ p : PartialVersion, p.Fits ∧ p ≠ .any ∧ v = p.written := by
  obtain ⟨a, b, c, tag, hfits, rfl⟩ := h
  exact ⟨.patch a b c tag, hfits, by simp, rfl⟩

theorem isVersionToken_of_writes {d : AlternativesDialect} {t : Term} (h : d.Writes t) :
    isVersionToken t.version.toList = true := by
  cases d with
  | npm => exact PartialVersion.isVersionToken_of_isComplete h.1
  | composer =>
      obtain ⟨p, hfits, hany, hp⟩ := h
      rw [hp]
      exact PartialVersion.isVersionToken_written hfits hany

/-! ## Terms of an alternative -/

theorem writesAll_of_isExpansion {d : AlternativesDialect} {op : Operator} {ts : List Term}
    (h : IsExpansion op ts) (hop : d = .npm → op ≠ .notEqual) : d.WritesAll ts := by
  refine ⟨h.1, fun t ht => ?_⟩
  obtain ⟨hcomplete, hequal⟩ := h.2 t ht
  cases d with
  | npm => exact ⟨hcomplete, fun heq => hop rfl (hequal heq)⟩
  | composer => exact exists_written_of_isComplete hcomplete

theorem writesAll_singleton {t : Term} {d : AlternativesDialect} (h : d.Writes t) :
    d.WritesAll [t] := by
  refine ⟨by simp, fun u hu => ?_⟩
  obtain rfl := List.mem_singleton.1 hu
  exact h

theorem writesAll_any (d : AlternativesDialect) : d.WritesAll [.any] :=
  writesAll_of_isExpansion (PartialVersion.isExpansion_any .equal) (by simp)

theorem writesAll_npmTerms {mark : Option Mark} {p : PartialVersion} (hp : p.Fits)
    {ts : List Term} (h : npmTerms? mark p = some (.ok ts)) : WritesAll .npm ts := by
  have hother : AlternativesDialect.npm = .npm → Operator.equal ≠ .notEqual := by simp
  unfold npmTerms? at h
  split at h
  · exact writesAll_of_isExpansion
      (PartialVersion.isExpansion_caret .equal hp (Option.some.inj h)) hother
  · exact writesAll_of_isExpansion
      (PartialVersion.isExpansion_tilde .equal hp (Option.some.inj h)) hother
  · exact writesAll_of_isExpansion
      (PartialVersion.isExpansion_tilde .equal hp (Option.some.inj h)) hother
  · exact writesAll_of_isExpansion
      (PartialVersion.isExpansion_covered .equal hp (Option.some.inj h)) hother
  · exact writesAll_of_isExpansion
      (PartialVersion.isExpansion_covered .equal hp (Option.some.inj h)) hother
  · cases h
  · rename_i op _ hop
    exact writesAll_of_isExpansion
      (PartialVersion.isExpansion_comparison hp (Option.some.inj h)) fun _ => hop
  · cases h
  · cases h

theorem writesAll_composer {op : Operator} {ts : List Term} (h : IsExpansion op ts) :
    WritesAll .composer ts :=
  writesAll_of_isExpansion h (by simp)

theorem writesAll_floor {op : Operator} {p : PartialVersion} (hp : p.Fits) :
    WritesAll .composer [⟨op, p.floor⟩] :=
  writesAll_singleton (exists_written_of_isComplete (PartialVersion.isComplete_floor hp))

theorem writesAll_pessimistic {operand : List Char} {p : PartialVersion}
    (hread : PartialVersion.read? operand = some p) {upper : Option Version}
    (h : Release.pessimisticEnd operand = .ok upper) :
    WritesAll .composer (PartialVersion.between p.floor upper) := by
  have hlower : Writes .composer ⟨.atLeast, p.floor⟩ := exists_written_of_isComplete
    (PartialVersion.isComplete_floor (PartialVersion.fits_of_read? hread))
  refine ⟨by simp [PartialVersion.between], fun t ht => ?_⟩
  rcases List.mem_cons.1 ht with rfl | ht
  · exact hlower
  · cases upper with
    | none => cases ht
    | some v =>
        obtain rfl := List.mem_singleton.1 ht
        exact Release.exists_written_of_pessimisticEnd hread h

theorem writesAll_composerTerms {mark : Option Mark} {operand : List Char} {p : PartialVersion}
    (hread : PartialVersion.read? operand = some p) {ts : List Term}
    (h : composerTerms? mark operand p = some (.ok ts)) : WritesAll .composer ts := by
  have hp := PartialVersion.fits_of_read? hread
  have hequal (h : (if PartialVersion.hasWildcard operand || decide (p = .any) then p.covered
      else .ok [.exact p.floor]) = .ok ts) : WritesAll .composer ts := by
    split at h
    · exact writesAll_composer (PartialVersion.isExpansion_covered .equal hp h)
    · obtain rfl := Except.ok.inj h
      exact writesAll_floor hp
  unfold composerTerms? at h
  dsimp only at h
  split at h
  · exact writesAll_composer (PartialVersion.isExpansion_caret .equal hp (Option.some.inj h))
  · obtain ⟨upper, hupper, rfl⟩ := map_eq_ok.1 (Option.some.inj h)
    exact writesAll_pessimistic hread hupper
  · obtain ⟨upper, hupper, rfl⟩ := map_eq_ok.1 (Option.some.inj h)
    exact writesAll_pessimistic hread hupper
  · exact hequal (Option.some.inj h)
  · exact hequal (Option.some.inj h)
  · have h := Option.some.inj h
    split at h
    · exact writesAll_composer (PartialVersion.isExpansion_comparison hp h)
    · obtain rfl := Except.ok.inj h
      exact writesAll_floor hp
  · cases h
  · cases h

/-- A comparator stands for the terms of its mark and of the version that is read of
its operand. -/
theorem comparator_eq_ok_iff {d : AlternativesDialect} {token operand : List Char}
    {mark : Option Mark}
    (h : Mark.split? isOperand token Mark.ofComparators = some (mark, operand)) {ts : List Term} :
    d.comparator token = .ok ts ↔
      ∃ p, PartialVersion.read? operand = some p ∧ d.terms? mark operand p = some (.ok ts) := by
  simp only [comparator, h]
  rw [← Option.bind_eq_some_iff]
  cases hterms : (PartialVersion.read? operand).bind (d.terms? mark operand) with
  | none => simp
  | some terms => simp [mapError_eq_ok]

/-- A comparator stands for one or more terms that its dialect writes. -/
theorem writesAll_comparator {d : AlternativesDialect} {token : List Char} {ts : List Term}
    (h : d.comparator token = .ok ts) : d.WritesAll ts := by
  cases hsplit : Mark.split? isOperand token Mark.ofComparators with
  | none => simp [comparator, hsplit] at h
  | some result =>
      obtain ⟨p, hread, hterms⟩ := (comparator_eq_ok_iff hsplit).1 h
      cases d with
      | npm => exact writesAll_npmTerms (PartialVersion.fits_of_read? hread) hterms
      | composer => exact writesAll_composerTerms hread hterms

theorem writesAll_hyphenRange {d : AlternativesDialect} {lower upper : List Char}
    {ts : List Term} (h : hyphenRange lower upper = .ok ts) : d.WritesAll ts := by
  have hexpansion : IsExpansion .equal ts := by
    unfold hyphenRange at h
    split at h
    · cases h
    · cases h
    · rename_i l a b c tag hl hu
      obtain rfl := Except.ok.inj h
      have hlower := PartialVersion.isComplete_floor (PartialVersion.fits_of_read? hl)
      have hupper := PartialVersion.isComplete_floor (PartialVersion.fits_of_read? hu)
      refine ⟨by simp, fun t ht => ?_⟩
      simp only [List.mem_cons, List.not_mem_nil, or_false] at ht
      rcases ht with rfl | rfl
      · exact ⟨hlower, by simp⟩
      · exact ⟨hupper, by simp⟩
    · rename_i l u _ hl hu
      obtain ⟨bound, hbound, rfl⟩ := map_eq_ok.1 (mapError_eq_ok.1 h)
      exact PartialVersion.isExpansion_between _
        (PartialVersion.isComplete_floor (PartialVersion.fits_of_read? hl)) fun v hv =>
          PartialVersion.isComplete_of_ceiling (PartialVersion.fits_of_read? hu) (hv ▸ hbound)
  exact writesAll_of_isExpansion hexpansion (by simp)

theorem writesAll_branch {d : AlternativesDialect} {cs : List Char} {ts : List Term}
    (h : d.branch cs = .ok ts) : d.WritesAll ts := by
  unfold branch at h
  dsimp only at h
  split at h
  · obtain rfl := Except.ok.inj h
    exact writesAll_any d
  · split at h
    · exact writesAll_hyphenRange h
    · obtain ⟨tss, htss, h⟩ := bind_eq_ok.1 h
      obtain rfl := pure_eq_ok.1 h
      split
      · exact writesAll_any d
      · rename_i hne
        refine ⟨by simpa using hne, fun t ht => ?_⟩
        obtain ⟨ts, hts, ht⟩ := List.mem_flatten.1 ht
        obtain ⟨token, _, htoken⟩ := exists_of_mem_mapM htss hts
        exact (writesAll_comparator htoken).2 t ht

theorem splitBars_ne_nil (single : Bool) (cs : List Char) : splitBars single cs ≠ [] := by
  fun_induction splitBars single cs <;> simp

/-- A normalized range that the dialect writes: one or more alternatives, each
of one or more terms that can be written. -/
def IsNormal (d : AlternativesDialect) (branches : Alternatives) : Prop :=
  branches ≠ [] ∧ ∀ ts ∈ branches, d.WritesAll ts

theorem isNormal_normalize {d : AlternativesDialect} {range : List Char} {branches : Alternatives}
    (h : d.normalize range = .ok branches) : d.IsNormal branches := by
  constructor
  · have hlength := (mapM_eq_ok.1 h).length_eq
    rintro rfl
    have hnil : d.branches range = [] := List.length_eq_zero_iff.1 hlength
    cases d with
    | npm => exact splitBars_ne_nil _ _ hnil
    | composer => exact splitBars_ne_nil _ _ hnil
  · intro ts hts
    obtain ⟨cs, _, hcs⟩ := exists_of_mem_mapM h hts
    exact writesAll_branch hcs

/-! ## Comparators read back -/

/-- What a written term reads back as: an equivalent one, which in npm is the very
term. -/
def ReadsAs (d : AlternativesDialect) (t u : Term) : Prop :=
  t.Equivalent u ∧ (d = .npm → u = t)

/-- A comparator reads back from a term as one with the same operator and a
version of the same rank. -/
theorem comparator_text {d : AlternativesDialect} {t : Term} (h : d.Writes t) :
    ∃ u, d.comparator t.text.toList = .ok [u] ∧ d.ReadsAs t u := by
  have htoken := isVersionToken_of_writes h
  have hsplit := Mark.split?_ofComparators htoken (isOperand_of_isVersionToken htoken) t.op
  rw [← Term.toList_text] at hsplit
  obtain ⟨op, v⟩ := t
  cases d with
  | npm =>
      obtain ⟨⟨a, b, c, tag, hfits, hv⟩, hop⟩ := h
      have hread := PartialVersion.read?_written hfits
      obtain rfl : v = (PartialVersion.patch a b c tag).floor := hv
      refine ⟨⟨op, _⟩, ?_, .refl _, fun _ => rfl⟩
      have hterms : npmTerms? (some (.compare op)) (.patch a b c tag) =
          some (.ok [⟨op, (PartialVersion.patch a b c tag).floor⟩]) := by
        cases op with
        | notEqual => exact absurd rfl hop
        | _ => rfl
      change PartialVersion.read? (PartialVersion.patch a b c tag).floor.toList = _ at hread
      exact (comparator_eq_ok_iff hsplit).2 ⟨_, hread, hterms⟩
  | composer =>
      obtain ⟨p, hfits, hany, hv⟩ := h
      obtain rfl : v = p.written := hv
      refine ⟨⟨op, p.floor⟩, ?_, ⟨rfl, PartialVersion.compare_written_floor hany⟩, nofun⟩
      have hterms : composerTerms? (some (.compare op)) p.written.toList p =
          some (.ok [⟨op, p.floor⟩]) := by
        cases op <;> simp [composerTerms?, PartialVersion.hasWildcard_written hany, hany, Term.exact]
      exact (comparator_eq_ok_iff hsplit).2 ⟨p, PartialVersion.read?_written hfits, hterms⟩

end Requirements.AlternativesDialect
