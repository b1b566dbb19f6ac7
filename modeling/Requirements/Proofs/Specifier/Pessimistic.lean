import Mathlib
import Requirements.Proofs.Range.Numeric
import Requirements.Proofs.Specifier.Shorthand

/-!
# What pessimistic specifiers admit of numeric releases

PyPI, RubyGems and Composer write a pessimistic range each with a sign of its
own, and PyPI asks for the start of a version with a star. On a version written
as plain numbers, each of these specifiers is read as the range from that
version on that keeps some of its numbers, or it is refused because the last of
these cannot be bumped.
-/

namespace Requirements

open PartialVersion (between)
open Release (kept numbers)
open Text (wordMax)

/-- The component without a successor that a fault reports. -/
def SpecifierFault.oversized? : SpecifierFault → Option Oversized
  | .oversized component => some component
  | .unsupportedRange range => range.reason
  | _ => none

namespace Ecosystem

/-- A specifier is read, and among the numeric releases it admits those with the
given meaning. If the number to be bumped is the largest of a word, the specifier is
refused for that instead. -/
structure AdmitsNumeric (e : Ecosystem) (specifier : String) (bumped : Nat)
    (meaning : List Nat → Prop) : Prop where
  admits : bumped < wordMax → ∃ r, e.parse specifier = .ok r ∧
    ∀ (v : Version) (ms : List Nat), v.Denotes ms → (r.accepts v = true ↔ meaning ms)
  refused : bumped = wordMax → ∃ fault, e.parse specifier = .error ⟨specifier, fault⟩ ∧
    fault.oversized? = some ⟨wordMax⟩

theorem AdmitsNumeric.of_isSpan {e : Ecosystem} {specifier name : String}
    {terms : Except Oversized (List Term)} {f : Oversized → SpecifierFault}
    (hread : e.grammar.read specifier.toList =
      (terms.map fun ts => ⟨name, [.ofTerms ts]⟩).mapError f)
    (hf : ∀ o, (f o).oversized? = some o) {lower : Version} {kept ns : List Nat}
    (hspan : IsSpan lower kept terms) (hlower : Version.compare lower (dotted ns) = .eq)
    (hkept : kept <+: ns) {bumped : Nat} (hbumped : kept.getLast? = some bumped) :
    e.AdmitsNumeric specifier bumped fun ms => Reaches ms ns ∧ AgreeOn kept.length ms ns where
  admits := by
    intro hlt
    obtain ⟨ts, hts⟩ := hspan.exists_eq_ok fun n hn => by
      rwa [Option.mem_unique hn hbumped]
    refine ⟨⟨name, [.ofTerms ts]⟩, ?_, fun v ms hv => ?_⟩
    · rw [parse_eq_ok, hread, hts]
      rfl
    · rw [Requirement.accepts_ofTerms]
      exact PartialVersion.accepts_iff_of_isSpan hv hspan hts hlower hkept
  refused := by
    rintro rfl
    rw [hspan.eq_error hbumped] at hread
    refine ⟨f ⟨wordMax⟩, ?_, hf _⟩
    rw [parse, hread]
    rfl

end Ecosystem

/-- Spaces between a sign and a version. -/
def spaces (count : Nat) : String :=
  String.ofList (List.replicate count ' ')

/-! ## Clauses -/

namespace ClauseDialect

/-- The signs of pessimistic clauses. -/
inductive IsSign : List Char → Mark → Prop
  | compatible : IsSign ['~', '='] .compatible
  | pessimistic : IsSign ['~', '>'] .pessimistic

section

variable {cs : List Char} (htoken : isVersionToken cs = true) (gap : Nat)

include htoken

theorem trimStart_spaces : Text.trimStart (List.replicate gap ' ' ++ cs) = cs := by
  refine (Text.takeWhile_dropWhile_append _ _ (fun c hc => ?_) fun c hc => ?_).2
  · rw [List.eq_of_mem_replicate hc]
    decide
  · exact isBlank_of_mem_token htoken c (List.mem_of_mem_head? hc)

theorem isOperand_spaces : isOperand (List.replicate gap ' ' ++ cs) = true := by
  have hoperand := isOperand_of_isVersionToken htoken
  have hstart := trimStart_spaces htoken 0
  rw [List.replicate_zero, List.nil_append] at hstart
  rw [isOperand, hstart] at hoperand
  rwa [isOperand, trimStart_spaces htoken]

/-- Only a sign, spaces and version characters occur in a clause. -/
theorem ne_of_mem_spaced {sign : List Char} {x : Char} (hsign : x ∉ sign) (hspace : x ≠ ' ')
    (hx : isVersionChar x = false) :
    ∀ c ∈ sign ++ (List.replicate gap ' ' ++ cs), c ≠ x := by
  obtain ⟨_, _, _, _, hchars⟩ := exists_cons_of_isVersionToken htoken
  rintro c hc rfl
  rcases List.mem_append.1 hc with hc | hc
  · exact hsign hc
  · rcases List.mem_append.1 hc with hc | hc
    · exact hspace (List.eq_of_mem_replicate hc)
    · rw [hchars c hc] at hx
      cases hx

variable {sign : List Char} {mark : Mark} (hsign : IsSign sign mark)

include hsign

theorem split?_spaced :
    Mark.split? isOperand (sign ++ (List.replicate gap ' ' ++ cs)) Mark.ofClauses =
      some (some mark, List.replicate gap ' ' ++ cs) := by
  have hoperand := isOperand_spaces htoken gap
  cases hsign <;> simp [Mark.split?_cons, Mark.ofClauses, hoperand]

theorem isClauses_spaced : IsClauses (sign ++ (List.replicate gap ' ' ++ cs)) := by
  have hne : cs ≠ [] := by
    rintro rfl
    cases htoken
  refine ⟨?_, fun c hc => ?_, fun c hc => ?_, ?_, ?_⟩
  · cases hsign <;> simp
  · have htilde : c = '~' := by cases hsign <;> exact (Option.some.inj hc).symm
    rw [htilde]
    decide
  · rw [List.getLast?_append_of_ne_nil _ (by simp [hne]),
      List.getLast?_append_of_ne_nil _ hne] at hc
    exact isBlank_of_mem_token htoken c (List.mem_of_mem_getLast? hc)
  · exact ne_of_mem_spaced htoken gap (by cases hsign <;> decide) (by decide) (by decide)
  · exact ne_of_mem_spaced htoken gap (by cases hsign <;> decide) (by decide) (by decide)

/-- The requirement of a clause of a sign, spaces and a version token. -/
theorem read_spaced {d : ClauseDialect} {name : List Char} (hname : IsName name) :
    d.read (name ++ ' ' :: (sign ++ (List.replicate gap ' ' ++ cs))) =
      (d.terms (some mark) cs).map fun ts => ⟨String.ofList name, [.ofTerms ts]⟩ := by
  have hclauses := isClauses_spaced htoken gap hsign
  have htrim := Text.trim_eq_self (fun c hc => (hclauses.first c hc).1) hclauses.last
  have hsplit := split?_spaced htoken gap hsign
  have hcomma : ∀ c ∈ sign ++ (List.replicate gap ' ' ++ cs), c ≠ ',' :=
    ne_of_mem_spaced htoken gap (by cases hsign <;> decide) (by decide) (by decide)
  have hstar : sign ++ (List.replicate gap ' ' ++ cs) ≠ ['*'] := by
    cases hsign <;> simp
  rw [← htrim] at hsplit
  rw [read_clause hname hclauses hstar hcomma, clause_of_split hsplit, trimStart_spaces htoken]

end

/-- Both pessimistic clauses on plain numbers keep all but the last one. -/
theorem terms_pessimistic_dotted {d : ClauseDialect} {mark : Mark} {ns : List Nat}
    (hmark : d = .pep440 ∧ mark = .compatible ∧ 2 ≤ ns.length ∨ d = .gem ∧ mark = .pessimistic)
    (hne : ns ≠ []) (hfits : ∀ n ∈ ns, n ≤ wordMax) :
    d.terms (some mark) (dotted ns).toList =
      ((Release.pessimisticEnd (dotted ns).toList).map (between (dotted ns))).mapError
        .oversized := by
  have hnumbers := Release.numbers_dotted hne hfits
  have hterms := pessimistic_eq (PartialVersion.isVersionToken_dotted hne)
    (by rw [hnumbers]; exact hne)
  rw [String.ofList_toList] at hterms
  rw [← hterms]
  rcases hmark with ⟨rfl, rfl, hlength⟩ | ⟨rfl, rfl⟩
  · simp only [terms, pep440Terms, hnumbers]
    exact if_neg (by omega)
  · rfl

theorem isBare_star {cs : List Char} (htoken : isVersionToken cs = true) :
    IsBare (cs ++ ['.', '*']) := by
  have hbare := isBare_of_isVersionToken htoken
  have hend {p : Char → Prop} (hcs : ∀ c ∈ cs, p c) (hpoint : p '.') (hstar : p '*') :
      ∀ c ∈ cs ++ ['.', '*'], p c := by
    intro c hc
    simp only [List.mem_append, List.mem_cons, List.not_mem_nil, or_false] at hc
    rcases hc with hc | rfl | rfl
    · exact hcs c hc
    · exact hpoint
    · exact hstar
  exact ⟨⟨by simp, hend hbare.word.2 (by decide) (by decide)⟩,
    hend hbare.comma (by decide) (by decide), hend hbare.marker (by decide) (by decide),
    hend hbare.sign (by decide) (by decide)⟩

/-- Equality with a star after plain numbers keeps all of them. -/
theorem read_star_dotted {name : List Char} (hname : IsName name) {ns : List Nat} (hne : ns ≠ [])
    (hfits : ∀ n ∈ ns, n ≤ wordMax) :
    pep440.read (name ++ ' ' :: (['=', '='] ++ ((dotted ns).toList ++ ['.', '*']))) =
      (((bumpLast ns).map fun upper => between (dotted ns) (some upper)).mapError .oversized).map
        fun ts => ⟨String.ofList name, [.ofTerms ts]⟩ := by
  have hnumbers := Release.numbers_dotted hne hfits
  have hbare := isBare_star (PartialVersion.isVersionToken_dotted hne)
  have hstem : numbers (dotted ns).toList ≠ [] := by rwa [hnumbers]
  have hdotted : dotted (numbers (dotted ns).toList) = String.ofList (dotted ns).toList := by
    rw [hnumbers, String.ofList_toList]
  have hterms := startingWith_eq hstem hdotted
  rw [hnumbers, String.ofList_toList] at hterms
  rw [read_exact (.inr rfl) hbare hname, ← hterms]
  simp only [terms, pep440Terms, wildcardStem?_append]

end ClauseDialect

/-! ## Comparators -/

/-- One to three numbers are the numbers of a partial version. -/
theorem PartialVersion.exists_read?_dotted {ns : List Nat} (hne : ns ≠ []) (hlength : ns.length ≤ 3)
    (hfits : ∀ n ∈ ns, n ≤ wordMax) :
    ∃ p : PartialVersion, p.IsPlain ∧ p.numbers = ns ∧ read? (dotted ns).toList = some p := by
  have hexists : ∃ p : PartialVersion, p.IsPlain ∧ p.numbers = ns ∧ p.Fits := by
    match ns, hlength with
    | [a], _ => exact ⟨.major a, trivial, rfl, hfits a (by simp)⟩
    | [a, b], _ => exact ⟨.minor a b, trivial, rfl, hfits a (by simp), hfits b (by simp)⟩
    | [a, b, c], _ =>
        exact ⟨.patch a b c none, trivial, rfl, hfits a (by simp), hfits b (by simp),
          hfits c (by simp), by simp⟩
  obtain ⟨p, hp, rfl, hpfits⟩ := hexists
  refine ⟨p, hp, rfl, ?_⟩
  rw [← hp.written_eq]
  exact read?_written hpfits

namespace AlternativesDialect

section

variable {cs : List Char} (htoken : isVersionToken cs = true)

include htoken

theorem isComparator_tilde : IsComparator ('~' :: cs) := by
  obtain ⟨_, _, _, _, hchars⟩ := exists_cons_of_isVersionToken htoken
  have hother {x : Char} (htilde : x ≠ '~') (hx : isVersionChar x = false) :
      ∀ c ∈ '~' :: cs, c ≠ x := by
    rintro c hc rfl
    rcases List.mem_cons.1 hc with rfl | hc
    · exact htilde rfl
    · rw [hchars c hc] at hx
      cases hx
  refine ⟨⟨by simp, fun c hc => ?_⟩, hother (by decide) (by decide),
    hother (by decide) (by decide), hother (by decide) (by decide), rfl⟩
  rcases List.mem_cons.1 hc with rfl | hc
  · decide
  · exact isBlank_of_mem_token htoken c hc

theorem split?_tilde :
    Mark.split? isOperand ('~' :: cs) Mark.ofComparators = some (some .tilde, cs) := by
  have hoperand := isOperand_of_isVersionToken htoken
  obtain ⟨c, rest, rfl, _, hgreater⟩ := Mark.exists_cons_not_sign htoken
  simp [Mark.split?_cons, Mark.ofComparators, hgreater, hoperand]

end

/-- A Composer tilde on plain numbers keeps all but the last one. -/
theorem read_tilde_dotted {name : List Char} (hname : IsWord name) {ns : List Nat} (hne : ns ≠ [])
    {p : PartialVersion} (hread : PartialVersion.read? (dotted ns).toList = some p) :
    composer.read (name ++ ' ' :: ('~' :: (dotted ns).toList)) =
      (((Release.pessimisticEnd (dotted ns).toList).map (between p.floor)).map
        fun ts => ⟨String.ofList name, [.ofTerms ts]⟩).mapError fun oversized =>
          .unsupportedRange ⟨String.ofList ('~' :: (dotted ns).toList), some oversized⟩ := by
  have htoken := PartialVersion.isVersionToken_dotted hne
  rw [read_comparator (isComparator_tilde htoken) hname]
  simp only [comparator, split?_tilde htoken, hread, Option.bind_some, terms?, composerTerms?]
  cases Release.pessimisticEnd (dotted ns).toList <;> rfl

end AlternativesDialect

/-! ## Specifiers -/

namespace Ecosystem

/-- The ways to write that all but the last of some numbers may not change. -/
inductive WritesPessimistic (ns : List Nat) : Ecosystem → String → Prop
  | compatible (gap : Nat) (h : 2 ≤ ns.length) :
      WritesPessimistic ns pypi ("~=" ++ spaces gap ++ dotted ns)
  | pessimistic (gap : Nat) : WritesPessimistic ns rubygems ("~>" ++ spaces gap ++ dotted ns)
  | tilde (h : ns.length ≤ 3) : WritesPessimistic ns packagist ("~" ++ dotted ns)

theorem isSpan_pessimistic_dotted {ns : List Nat} (hne : ns ≠ []) (hfits : ∀ n ∈ ns, n ≤ wordMax)
    {lower : Version} (hlower : Version.compare lower (dotted ns) = .eq) :
    IsSpan lower (kept ns)
      ((Release.pessimisticEnd (dotted ns).toList).map (between lower)) := by
  have hnumbers := Release.numbers_dotted hne hfits
  have hne' : numbers (dotted ns).toList ≠ [] := by rwa [hnumbers]
  have hwithin : lower.Within (numbers (dotted ns).toList) := by
    intro i _
    rw [hnumbers, Version.compare_eq_eq_iff.1 hlower i, Version.place_dotted hne]
  have hspan := Release.isSpan_pessimistic hne' hwithin
  rwa [hnumbers] at hspan

/-- A pessimistic specifier on plain numbers is read as a range from their version
on that keeps all but the last of them. -/
theorem exists_isSpan_of_writesPessimistic {e : Ecosystem} {name range : String} {ns : List Nat}
    (hrange : WritesPessimistic ns e range) (hname : e.grammar.IsName name.toList) (hne : ns ≠ [])
    (hfits : ∀ n ∈ ns, n ≤ wordMax) :
    ∃ lower terms, ∃ f : Oversized → SpecifierFault,
      e.grammar.read (name ++ " " ++ range).toList =
        (terms.map fun ts => ⟨name, [.ofTerms ts]⟩).mapError f ∧
      (∀ o, (f o).oversized? = some o) ∧ IsSpan lower (kept ns) terms ∧
      Version.compare lower (dotted ns) = .eq := by
  have hself : Version.compare (dotted ns) (dotted ns) = .eq := Std.ReflCmp.compare_self
  have htoken := PartialVersion.isVersionToken_dotted hne
  cases hrange with
  | compatible gap hlength =>
      refine ⟨dotted ns, _, .oversized, ?_, fun o => rfl,
        isSpan_pessimistic_dotted hne hfits hself, hself⟩
      have hread := ClauseDialect.read_spaced (d := .pep440) htoken gap .compatible hname
      rw [ClauseDialect.terms_pessimistic_dotted (.inl ⟨rfl, rfl, hlength⟩) hne hfits,
        map_mapError, String.ofList_toList] at hread
      have htext : (name ++ " " ++ ("~=" ++ spaces gap ++ dotted ns)).toList =
          name.toList ++ ' ' :: (['~', '='] ++ (List.replicate gap ' ' ++ (dotted ns).toList)) := by
        simp [spaces]
      rw [htext]
      exact hread
  | pessimistic gap =>
      refine ⟨dotted ns, _, .oversized, ?_, fun o => rfl,
        isSpan_pessimistic_dotted hne hfits hself, hself⟩
      have hread := ClauseDialect.read_spaced (d := .gem) htoken gap .pessimistic hname
      rw [ClauseDialect.terms_pessimistic_dotted (.inr ⟨rfl, rfl⟩) hne hfits, map_mapError,
        String.ofList_toList] at hread
      have htext : (name ++ " " ++ ("~>" ++ spaces gap ++ dotted ns)).toList =
          name.toList ++ ' ' :: (['~', '>'] ++ (List.replicate gap ' ' ++ (dotted ns).toList)) := by
        simp [spaces]
      rw [htext]
      exact hread
  | tilde hlength =>
      obtain ⟨p, hp, rfl, hpread⟩ := PartialVersion.exists_read?_dotted hne hlength hfits
      refine ⟨p.floor, _, fun o => .unsupportedRange
          ⟨String.ofList ('~' :: (dotted p.numbers).toList), some o⟩, ?_, fun o => rfl,
        isSpan_pessimistic_dotted hne hfits hp.compare_floor, hp.compare_floor⟩
      have hread := AlternativesDialect.read_tilde_dotted hname hne hpread
      rw [String.ofList_toList] at hread
      have htext : (name ++ " " ++ ("~" ++ dotted p.numbers)).toList =
          name.toList ++ ' ' :: ('~' :: (dotted p.numbers).toList) := by
        simp
      rw [htext]
      exact hread

/-- On numeric releases, a pessimistic specifier admits those from its version on
that agree with it on all numbers but the last one, or on the only one, and equality
with a star admits those that agree with its version on all of its numbers. Either
is refused if the number to be bumped is the largest of a word. -/
theorem pessimistic_numeric_iff (name : String) (ns : List Nat) (hne : ns ≠ [])
    (hfits : ∀ n ∈ ns, n ≤ wordMax) :
    (∀ e range, WritesPessimistic ns e range → e.grammar.IsName name.toList →
      ∀ bumped ∈ (kept ns).getLast?, e.AdmitsNumeric (name ++ " " ++ range) bumped fun ms =>
        Reaches ms ns ∧ AgreeOn (max (ns.length - 1) 1) ms ns) ∧
    (pypi.grammar.IsName name.toList → ∀ bumped ∈ ns.getLast?,
      pypi.AdmitsNumeric (name ++ " ==" ++ dotted ns ++ ".*") bumped fun ms =>
        AgreeOn ns.length ms ns) := by
  have hself : Version.compare (dotted ns) (dotted ns) = .eq := Std.ReflCmp.compare_self
  constructor
  · intro e range hrange hname bumped hbumped
    obtain ⟨lower, terms, f, hread, hf, hspan, hlower⟩ :=
      exists_isSpan_of_writesPessimistic hrange hname hne hfits
    rw [← Release.length_kept hne]
    exact .of_isSpan hread hf hspan hlower (Release.kept_isPrefix ns) hbumped
  · intro hname bumped hbumped
    have hread := ClauseDialect.read_star_dotted hname hne hfits
    have htext : (name ++ " ==" ++ dotted ns ++ ".*").toList =
        name.toList ++ ' ' :: (['=', '='] ++ ((dotted ns).toList ++ ['.', '*'])) := by
      simp
    rw [map_mapError, String.ofList_toList, ← htext] at hread
    have hmeans := AdmitsNumeric.of_isSpan (e := pypi) hread (fun o => rfl)
      (Release.isSpan_bumpLast hne (Version.within_dotted hne)) hself List.prefix_rfl hbumped
    have hequal (ms : List Nat) :
        Reaches ms ns ∧ AgreeOn ns.length ms ns ↔ AgreeOn ns.length ms ns :=
      and_iff_right_of_imp reaches_of_agreeOn
    simpa only [hequal] using hmeans

/-- A gem version of three numbers, and the largest number of a word with a star. -/
theorem pessimistic_numeric_iff_gem :
    let r : Requirement := ⟨"foo", [.all [⟨.atLeast, "1.4.2"⟩, ⟨.below, "1.5"⟩]]⟩
    rubygems.parse "foo ~> 1.4.2" = .ok r ∧
    Version.Denotes "1.4.010.0" [1, 4, 10, 0] ∧ r.accepts "1.4.010.0" = true ∧
    (Reaches [1, 4, 10, 0] [1, 4, 2] ∧ AgreeOn 2 [1, 4, 10, 0] [1, 4, 2]) ∧
    ∃ fault, pypi.parse "foo ==18446744073709551615.*" =
        .error ⟨"foo ==18446744073709551615.*", fault⟩ ∧
      fault.oversized? = some ⟨wordMax⟩ := by
  intro r
  have hname : ClauseDialect.IsName "foo".toList :=
    ⟨'f', ['o', 'o'], by decide, by decide, List.all_eq_true.1 (by decide)⟩
  have hparse : rubygems.parse "foo ~> 1.4.2" = .ok r := by decide +kernel
  have hdenotes : Version.Denotes "1.4.010.0" [1, 4, 10, 0] :=
    ⟨["1".toList, "4".toList, "010".toList, "0".toList], by simp, by simp [IsDigits], by decide,
      by decide⟩
  have haccepts : r.accepts "1.4.010.0" = true := by decide
  have hgem := (pessimistic_numeric_iff "foo" [1, 4, 2] (by simp) (by decide)).1 rubygems
    ("~>" ++ spaces 1 ++ dotted [1, 4, 2]) (.pessimistic 1) hname 4 (by decide)
  obtain ⟨r', hr', hmeaning⟩ := hgem.admits (by decide)
  have hsame : r' = r := by
    have htext : "foo" ++ " " ++ ("~>" ++ spaces 1 ++ dotted [1, 4, 2]) = "foo ~> 1.4.2" := by
      decide
    rw [htext, hparse] at hr'
    exact (Except.ok.inj hr').symm
  have hstar := (pessimistic_numeric_iff "foo" [wordMax] (by simp) (by simp)).2 hname wordMax rfl
  exact ⟨hparse, hdenotes, haccepts, (hmeaning _ _ hdenotes).1 (hsame ▸ haccepts),
    hstar.refused rfl⟩

end Ecosystem

end Requirements
