import Mathlib
import Requirements.Proofs.Specifier.Compose

/-!
# Parsed requirements are well-formed

Whatever the grammar, a specifier that is read names a package in one word and
has branches of terms that compare with version tokens. So a parsed requirement
is never the empty choice, which admits nothing, and has no empty conjunction,
which admits everything.
-/

namespace Requirements

open AlternativesDialect (IsWord)
open Alternatives (IsTokenBranch)

/-- A letter or digit, and then letters, digits and four other signs. -/
def Version.IsToken (v : Version) : Prop :=
  ∃ c cs, v.toList = c :: cs ∧ c.isAlphanum = true ∧
    ∀ x ∈ cs, x.isAlphanum = true ∨ x ∈ ['.', '+', '_', '-']

theorem Version.isToken_iff {v : Version} : v.IsToken ↔ isVersionToken v.toList = true := by
  cases hv : v.toList with
  | nil => simp [IsToken, isVersionToken, hv]
  | cons c cs => simp [IsToken, isVersionToken, isVersionChar, hv, or_assoc]

structure Branch.IsWellFormed (b : Branch) : Prop where
  terms_ne_nil : b.terms ≠ []
  single_iff : (∃ t, b = .single t) ↔ b.terms.length = 1
  isToken : ∀ t ∈ b.terms, t.version.IsToken

structure Requirement.IsWellFormed (r : Requirement) : Prop where
  name_ne_nil : r.name.toList ≠ []
  name_blank : ∀ c ∈ r.name.toList, Text.isBlank c = false
  branches_ne_nil : r.branches ≠ []
  branch : ∀ b ∈ r.branches, b.IsWellFormed

theorem Branch.ofTerms_eq_single_iff {ts : List Term} :
    (∃ t, ofTerms ts = .single t) ↔ ts.length = 1 := by
  match ts with
  | [] => simp [ofTerms]
  | [t] => simp [ofTerms]
  | t :: u :: ts => simp [ofTerms]

theorem Branch.isWellFormed_ofTerms {ts : List Term} (h : IsTokenBranch ts) :
    (ofTerms ts).IsWellFormed where
  terms_ne_nil := by
    rw [terms_ofTerms]
    exact h.1
  single_iff := by
    rw [terms_ofTerms]
    exact ofTerms_eq_single_iff
  isToken := by
    rw [terms_ofTerms]
    exact fun t ht => Version.isToken_iff.2 (h.2 t ht)

/-- Every reader makes a word the name and each list of terms a branch. -/
theorem Requirement.isWellFormed_map_ofTerms {name : List Char} {tss : List (List Term)}
    (hname : IsWord name) (hne : tss ≠ []) (h : ∀ ts ∈ tss, IsTokenBranch ts) :
    IsWellFormed ⟨String.ofList name, tss.map Branch.ofTerms⟩ where
  name_ne_nil := by
    rw [String.toList_ofList]
    exact hname.1
  name_blank := by
    rw [String.toList_ofList]
    exact hname.2
  branches_ne_nil := by simpa using hne
  branch := by
    intro b hb
    obtain ⟨ts, hts, rfl⟩ := List.mem_map.1 hb
    exact Branch.isWellFormed_ofTerms (h ts hts)

theorem ClauseDialect.isWord_of_isName {cs : List Char} (h : IsName cs) : IsWord cs := by
  obtain ⟨c, rest, rfl, _, hchars⟩ := h
  exact ⟨List.cons_ne_nil c rest, fun x hx => isBlank_of_isNameChar (hchars x hx)⟩

theorem ClauseDialect.isWellFormed_of_read {d : ClauseDialect} {cs : List Char} {r : Requirement}
    (h : d.read cs = .ok r) : r.IsWellFormed ∧ r.branches.length = 1 := by
  obtain ⟨name, ts, rfl, hname, hne, hwrites⟩ := exists_of_read h
  have hbranch : ∀ us ∈ [ts], IsTokenBranch us := by
    intro us hus
    obtain rfl := List.mem_singleton.1 hus
    exact ⟨hne, fun t ht => isVersionToken_of_writes (hwrites t ht)⟩
  exact ⟨Requirement.isWellFormed_map_ofTerms (isWord_of_isName hname) (by simp) hbranch, rfl⟩

theorem AlternativesDialect.isWellFormed_of_read {d : AlternativesDialect} {cs : List Char}
    {r : Requirement} (h : d.read cs = .ok r) : r.IsWellFormed := by
  have hcomposable := composable_of_read h
  obtain ⟨name, range, branches, _, _, hnormalize, rfl⟩ := exists_of_read h
  have hname : IsWord name := by simpa using hcomposable.name
  have hnormal := isNormal_normalize hnormalize
  exact Requirement.isWellFormed_map_ofTerms hname hnormal.1 (isTokenBranch_of_isNormal hnormal)

theorem Pin.isWellFormed_of_read {cs : List Char} {r : Requirement} (h : Pin.read cs = .ok r) :
    r.IsWellFormed ∧ r.branches.length = 1 := by
  unfold Pin.read at h
  split at h
  · rename_i name version hwords
    obtain ⟨v, hv, h⟩ := bind_eq_ok.1 h
    obtain rfl := pure_eq_ok.1 h
    have hmem : name ∈ Text.words cs := by simp [hwords]
    have hname : IsWord name := Text.of_mem_words hmem
    have hbranch : ∀ ts ∈ [[Term.exact v]], IsTokenBranch ts := by
      intro ts hts
      obtain rfl := List.mem_singleton.1 hts
      refine ⟨by simp, fun t ht => ?_⟩
      obtain rfl := List.mem_singleton.1 ht
      exact (isVersionToken_of_versionToken hv).1
    exact ⟨Requirement.isWellFormed_map_ofTerms hname (by simp) hbranch, rfl⟩
  · cases h

namespace Ecosystem

/-- Every specifier that an ecosystem accepts is read as a well-formed
requirement, with a single branch where the grammar has no alternatives. -/
theorem parse_isWellFormed (e : Ecosystem) (s : String) (r : Requirement)
    (h : e.parse s = .ok r) :
    r.IsWellFormed ∧
      (e ∈ [pypi, cargo, rubygems, maven, go] → r.branches.length = 1) := by
  have hread := parse_eq_ok.1 h
  cases hg : e.grammar with
  | clauses d =>
      rw [hg] at hread
      obtain ⟨hwell, hlength⟩ := ClauseDialect.isWellFormed_of_read hread
      exact ⟨hwell, fun _ => hlength⟩
  | alternatives d =>
      rw [hg] at hread
      refine ⟨AlternativesDialect.isWellFormed_of_read hread, fun he => ?_⟩
      cases e <;> simp [grammar] at hg he
  | pin =>
      rw [hg] at hread
      obtain ⟨hwell, hlength⟩ := Pin.isWellFormed_of_read hread
      exact ⟨hwell, fun _ => hlength⟩

/-- A hyphen range, a star and a comparison, between bars. -/
theorem parse_isWellFormed_alternatives :
    let r : Requirement := ⟨"foo", [.all [⟨.atLeast, "1.2.0"⟩, ⟨.below, "2.4.0"⟩],
      .single ⟨.atLeast, "0.0.0"⟩, .single ⟨.atLeast, "3.0.0"⟩]⟩
    npm.parse "foo\t1.2 - 2.3 || * || > 2" = .ok r ∧ r.IsWellFormed := by
  intro r
  have hparse : npm.parse "foo\t1.2 - 2.3 || * || > 2" = .ok r := by decide +kernel
  exact ⟨hparse, (parse_isWellFormed npm _ r hparse).1⟩

end Ecosystem

end Requirements
