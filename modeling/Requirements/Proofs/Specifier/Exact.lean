import Mathlib
import Requirements.Proofs.Range.Spelling
import Requirements.Proofs.Specifier.Compose

/-!
# Exact versions

An exact clause admits the version that it names. PyPI, RubyGems, Maven and Go
take the version as it is written. Cargo, npm and Composer take it apart and
leave out a `v` in front and build metadata, so there a clause names the version
that is left.
-/

namespace Requirements

open PartialVersion (Spelling hasWildcard)
open Text (isBlank wordMax)

namespace PartialVersion.Spelling

theorem exists_head (x : Spelling) :
    ∃ c rest, x.text = c :: rest ∧ c.isAlphanum = true ∧
      (c.isDigit = true ∨ c = 'v' ∨ c = 'V') := by
  obtain ⟨d, ds, more, _, hd, hcore⟩ := x.exists_cons
  rw [text]
  rcases x.isMark with hmark | hmark | hmark
  · rw [hmark, hcore]
    exact ⟨d, _, rfl, by simp [Char.isAlphanum, hd], .inl hd⟩
  · rw [hmark]
    exact ⟨'v', _, rfl, by decide, .inr (.inl rfl)⟩
  · rw [hmark]
    exact ⟨'V', _, rfl, by decide, .inr (.inr rfl)⟩

theorem isVersionChar_of_mem_text (x : Spelling) : ∀ c ∈ x.text, isVersionChar c = true := by
  intro c hc
  rcases x.isTagChar_of_mem_text hc with hc | rfl
  · exact isVersionChar_of_isTagChar hc
  · decide

theorem isVersionToken_text (x : Spelling) : isVersionToken x.text = true := by
  obtain ⟨c, rest, htext, hc, _⟩ := x.exists_head
  have hchars := x.isVersionChar_of_mem_text
  rw [htext] at hchars ⊢
  exact Bool.and_eq_true_iff.2 ⟨hc, List.all_eq_true.2 fun y hy =>
    hchars y (List.mem_cons_of_mem c hy)⟩

end PartialVersion.Spelling

/-! ## Clauses -/

namespace ClauseDialect

/-- A word without the characters that end a clause or belong to its sign. -/
structure IsBare (cs : List Char) : Prop where
  word : AlternativesDialect.IsWord cs
  comma : ∀ c ∈ cs, c ≠ ','
  marker : ∀ c ∈ cs, c ≠ ';'
  sign : ∀ c ∈ cs, c ≠ '='

theorem isBare_of_isVersionToken {cs : List Char} (h : isVersionToken cs = true) : IsBare cs := by
  have hblank := isBlank_of_mem_token h
  obtain ⟨c, rest, rfl, _, hchars⟩ := exists_cons_of_isVersionToken h
  exact ⟨⟨by simp, hblank⟩, fun x hx => Text.ne_of_class (hchars x hx) (by decide),
    fun x hx => Text.ne_of_class (hchars x hx) (by decide),
    fun x hx => Text.ne_of_class (hchars x hx) (by decide)⟩

theorem mem_sign_append {sign cs : List Char} (hsign : sign = ['='] ∨ sign = ['=', '='])
    {p : Char → Prop} (hequal : p '=') (h : ∀ c ∈ cs, p c) : ∀ c ∈ sign ++ cs, p c := by
  intro c hc
  rcases List.mem_append.1 hc with hc | hc
  · have heq : c = '=' := by rcases hsign with rfl | rfl <;> simpa using hc
    rwa [heq]
  · exact h c hc

section

variable {d : ClauseDialect} {sign cs : List Char} (hsign : sign = ['='] ∨ sign = ['=', '='])
  (hcs : IsBare cs)

include hsign hcs

theorem clause_exact : d.clause (sign ++ cs) = d.terms (some (.compare .equal)) cs := by
  have hfirst : ∀ c ∈ cs.head?, c ≠ '=' := fun c hc => hcs.sign c (List.mem_of_mem_head? hc)
  have hstart : Text.trimStart cs = cs :=
    Text.trimStart_eq_self fun c hc => hcs.word.2 c (List.mem_of_mem_head? hc)
  have hoperand : isOperand cs = true := by
    have hempty := List.isEmpty_eq_false_iff.2 hcs.word.1
    simpa [isOperand, hstart, hempty] using hcs.word.2
  have hsplit : Mark.split? isOperand (sign ++ cs) Mark.ofClauses =
      some (some (.compare .equal), cs) := by
    obtain ⟨hone, htwo⟩ := Mark.split?_ofClauses_exact hfirst hoperand
    rcases hsign with rfl | rfl
    · exact hone
    · exact htwo
  have hblank := mem_sign_append hsign (p := fun c => isBlank c = false) (by decide) hcs.word.2
  have hempty : (sign ++ cs).isEmpty = false :=
    List.isEmpty_eq_false_iff.2 (List.append_ne_nil_of_right_ne_nil _ hcs.word.1)
  rw [clause, Text.trim_of_forall hblank]
  simp only [hempty, hsplit, hstart]
  rfl

/-- The terms of an exact specifier are those of its version. -/
theorem read_exact {name : List Char} (hname : IsName name) :
    d.read (name ++ ' ' :: (sign ++ cs)) =
      (d.terms (some (.compare .equal)) cs).map fun ts => ⟨String.ofList name, [.ofTerms ts]⟩ := by
  have hblank := mem_sign_append hsign (p := fun c => isBlank c = false) (by decide) hcs.word.2
  have hmarker := mem_sign_append hsign (p := fun c => c ≠ ';') (by decide) hcs.marker
  have hcomma := mem_sign_append hsign (p := fun c => c ≠ ',') (by decide) hcs.comma
  have hhead : (sign ++ cs).head? = some '=' := by rcases hsign with rfl | rfl <;> rfl
  have hne : sign ++ cs ≠ [] := List.append_ne_nil_of_right_ne_nil _ hcs.word.1
  have hfirst : ∀ c ∈ (sign ++ cs).head?, c ≠ '[' := by
    intro c hc
    rw [hhead] at hc
    obtain rfl := Option.some.inj hc
    decide
  have hstar : sign ++ cs ≠ ['*'] := by
    intro heq
    rw [heq] at hhead
    exact absurd hhead (by decide)
  rw [read_clause hname (.of_forall hne hblank hfirst hmarker) hstar hcomma,
    clause_exact hsign hcs]

theorem read_exact_eq_ok_iff {name : List Char} (hname : IsName name) {r : Requirement} :
    d.read (name ++ ' ' :: (sign ++ cs)) = .ok r ↔
      ∃ ts, d.terms (some (.compare .equal)) cs = .ok ts ∧
        r = ⟨String.ofList name, [.ofTerms ts]⟩ := by
  rw [read_exact hsign hcs hname, map_eq_ok]
  exact exists_congr fun ts => and_congr_right fun _ => eq_comm

end

theorem hasWildcard_of_startingWith {cs stem : List Char} (hstem : wildcardStem? cs = some stem)
    {ts : List Term} (h : startingWith stem = .ok ts) : hasWildcard cs = true := by
  have hcs : cs = stem ++ ['.', '*'] := eq_append_of_wildcardStem? hstem
  -- The stem is made of digits and points, so no hyphen or plus sign cuts the star off.
  have hdotted : dotted (Release.numbers stem) = String.ofList stem := by
    unfold startingWith at h
    dsimp only at h
    split at h
    · cases h
    · rename_i hequal
      simp only [Bool.or_eq_true, bne_iff_ne, not_or, not_not] at hequal
      exact hequal.2
  have hchars : ∀ c ∈ cs, (c != '-' && c != '+') = true := by
    intro c hc
    rw [hcs] at hc
    rcases List.mem_append.1 hc with hc | hc
    · rw [← String.toList_ofList (l := stem), ← hdotted] at hc
      rw [Bool.and_eq_true, bne_iff_ne, bne_iff_ne]
      rcases PartialVersion.isDigit_of_mem_dotted hc with rfl | hdigit
      · decide
      · exact ⟨Text.ne_of_class hdigit (by decide), Text.ne_of_class hdigit (by decide)⟩
    · simp only [List.mem_cons, List.not_mem_nil, or_false] at hc
      rcases hc with rfl | rfl <;> decide
  rw [hasWildcard, List.takeWhile_eq_self_iff.2 hchars, hcs,
    List.splitOnP_append_cons stem ['*'] (by decide), List.any_append, Bool.or_eq_true]
  exact .inr (by decide)

theorem plain_eq_ok {op : Operator} {cs : List Char} {ts : List Term}
    (h : plain op cs = .ok ts) : ts = [⟨op, String.ofList cs⟩] := by
  obtain ⟨v, hv, h⟩ := bind_eq_ok.1 h
  rw [← pure_eq_ok.1 h, (isVersionToken_of_versionToken hv).2]

/-- The comparison of an exact clause with its version, unless the clause is one
of Cargo. -/
theorem terms_kept {d : ClauseDialect} (hd : d ≠ .cargo) {cs : List Char}
    (hwildcard : d = .pep440 → hasWildcard cs = false) {ts : List Term}
    (h : d.terms (some (.compare .equal)) cs = .ok ts) : ts = [.exact (String.ofList cs)] := by
  cases d with
  | cargo => exact absurd rfl hd
  | gem => exact plain_eq_ok h
  | pep440 =>
      simp only [terms, pep440Terms] at h
      split at h
      · -- What asks for the start of a version has a wildcard component.
        rename_i stem hstem
        have hstart := hasWildcard_of_startingWith hstem h
        rw [hwildcard rfl] at hstart
        cases hstart
      · exact plain_eq_ok h

theorem accepts_of_read_kept {d : ClauseDialect} (hd : d ≠ .cargo) {sign name : List Char}
    {v : Version} (hsign : sign = ['='] ∨ sign = ['=', '=']) (hname : IsName name)
    (hv : IsBare v.toList) (hwildcard : d = .pep440 → hasWildcard v.toList = false)
    {r : Requirement} (h : d.read (name ++ ' ' :: (sign ++ v.toList)) = .ok r) :
    r.accepts v = true := by
  obtain ⟨ts, hts, rfl⟩ := (read_exact_eq_ok_iff hsign hv hname).1 h
  rw [terms_kept hd hwildcard hts, String.ofList_toList]
  exact (Requirement.accepts_exact _).2 (Version.equivalence_equal.refl v)

theorem cargoTerms_exact_eq_ok_iff (x : Spelling) {ts : List Term} :
    cargo.terms (some (.compare .equal)) x.text = .ok ts ↔ x.version.covered = .ok ts := by
  have hread : PartialVersion.read? x.text = some x.version := x.read?_text
  simp only [terms, cargoTerms, hread, mapError_eq_ok]

/-- Cargo admits the version that is left of the one an exact specifier is
written with. -/
theorem accepts_of_read_cargo {name : List Char} (hname : IsName name) (x : Spelling)
    {r : Requirement} (h : cargo.read (name ++ ' ' :: (['='] ++ x.text)) = .ok r) :
    r.accepts (String.ofList x.core) = true := by
  have hbare := isBare_of_isVersionToken x.isVersionToken_text
  obtain ⟨ts, hts, rfl⟩ := (read_exact_eq_ok_iff (.inl rfl) hbare hname).1 h
  exact Requirement.accepts_ofTerms.2 (x.accepts_core ((cargoTerms_exact_eq_ok_iff x).1 hts))

end ClauseDialect

/-! ## Alternatives -/

namespace AlternativesDialect

/-- The sign in front of the version of an exact comparator. -/
def exactSign : AlternativesDialect → List Char
  | .npm => ['=']
  | .composer => []

theorem comparator_npm_eq_ok_iff (x : Spelling) {ts : List Term} :
    npm.comparator (exactSign .npm ++ x.text) = .ok ts ↔ x.version.covered = .ok ts := by
  have htoken := x.isVersionToken_text
  have hread : PartialVersion.read? x.text = some x.version := x.read?_text
  have hsplit : Mark.split? isOperand (exactSign .npm ++ x.text) Mark.ofComparators =
      some (some (.compare .equal), x.text) :=
    Mark.split?_ofComparators htoken (isOperand_of_isVersionToken htoken) .equal
  simp only [comparator, hsplit, hread, Option.bind_some, terms?, npmTerms?, mapError_eq_ok]

/-- Composer takes a version without a wildcard as it is, if a number is read of it. -/
theorem comparator_composer_eq_ok_iff (x : Spelling) {ts : List Term} :
    composer.comparator (exactSign .composer ++ x.text) = .ok ts ↔
      (if hasWildcard x.text || decide (x.version = .any) then x.version.covered
        else .ok [.exact x.version.floor]) = .ok ts := by
  have htoken := x.isVersionToken_text
  have hread : PartialVersion.read? x.text = some x.version := x.read?_text
  have hsplit := Mark.split?_ofComparators_bare htoken (isOperand_of_isVersionToken htoken)
  simp only [comparator, exactSign, List.nil_append, hsplit, hread, Option.bind_some, terms?,
    composerTerms?, mapError_eq_ok]

/-- An exact comparator admits the version that is left of the one it is
written with. Composer has to read all of the numerals. -/
theorem accepts_of_comparator {d : AlternativesDialect} (x : Spelling)
    (hx : d = .composer → ∀ n ∈ x.values, n ≤ wordMax) {ts : List Term}
    (h : d.comparator (d.exactSign ++ x.text) = .ok ts) :
    ∀ t ∈ ts, t.accepts (String.ofList x.core) = true := by
  cases d with
  | npm => exact x.accepts_core ((comparator_npm_eq_ok_iff x).1 h)
  | composer =>
      have h := (comparator_composer_eq_ok_iff x).1 h
      split at h
      · exact x.accepts_core h
      · obtain rfl := Except.ok.inj h
        intro t ht
        rw [List.mem_singleton.1 ht]
        exact beq_iff_eq.2 (x.compare_core_floor (hx rfl))

theorem isTermChar_of_mem_exact (d : AlternativesDialect) (x : Spelling) :
    ∀ c ∈ d.exactSign ++ x.text, isTermChar c = true := by
  intro c hc
  rcases List.mem_append.1 hc with hc | hc
  · cases d with
    | npm => rw [List.mem_singleton.1 hc]; rfl
    | composer => cases hc
  · exact isTermChar_of_isVersionChar (x.isVersionChar_of_mem_text c hc)

theorem isAnyVersion_exact (d : AlternativesDialect) (x : Spelling) :
    isAnyVersion (d.exactSign ++ x.text) = false := by
  obtain ⟨c, rest, htext, _, hc⟩ := x.exists_head
  cases d with
  | npm => rfl
  | composer =>
      have hother : ∀ y, y.isDigit = false → y ≠ 'v' → y ≠ 'V' → c ≠ y := by
        intro y hdigit hsmall hlarge
        rcases hc with hc | rfl | rfl
        · exact Text.ne_of_class hc hdigit
        · exact hsmall.symm
        · exact hlarge.symm
      have hstar := hother '*' (by decide) (by decide) (by decide)
      have hx := hother 'x' (by decide) (by decide) (by decide)
      have hX := hother 'X' (by decide) (by decide) (by decide)
      have hl := hother 'l' (by decide) (by decide) (by decide)
      simp [exactSign, htext, isAnyVersion, hstar, hx, hX, hl]

/-- The requirement of an exact specifier is that of its one comparator. -/
theorem read_exact_eq_ok_iff {d : AlternativesDialect} {name : List Char} (hname : IsWord name)
    (x : Spelling) {r : Requirement} :
    d.read (name ++ ' ' :: (d.exactSign ++ x.text)) = .ok r ↔
      ∃ ts, d.comparator (d.exactSign ++ x.text) = .ok ts ∧
        r = ⟨String.ofList name, [.ofTerms ts]⟩ := by
  have hchars := isTermChar_of_mem_exact d x
  have hne : d.exactSign ++ x.text ≠ [] := by
    obtain ⟨c, rest, htext, _⟩ := x.exists_head
    simp [htext]
  have hcomparator : IsComparator (d.exactSign ++ x.text) :=
    ⟨⟨hne, fun c hc => isBlank_of_isTermChar (hchars c hc)⟩,
      fun c hc => Text.ne_of_class (hchars c hc) (by decide),
      fun c hc => Text.ne_of_class (hchars c hc) (by decide),
      fun c hc => Text.ne_of_class (hchars c hc) (by decide), isAnyVersion_exact d x⟩
  rw [read_comparator hcomparator hname, mapError_eq_ok, map_eq_ok]
  exact exists_congr fun ts => and_congr_right fun _ => eq_comm

/-- An exact specifier admits the version that is left of the one it is written
with. -/
theorem accepts_of_read_exact {d : AlternativesDialect} {name : List Char} (hname : IsWord name)
    (x : Spelling) (hx : d = .composer → ∀ n ∈ x.values, n ≤ wordMax) {r : Requirement}
    (h : d.read (name ++ ' ' :: (d.exactSign ++ x.text)) = .ok r) :
    r.accepts (String.ofList x.core) = true := by
  obtain ⟨ts, hts, rfl⟩ := (read_exact_eq_ok_iff hname x).1 h
  exact Requirement.accepts_ofTerms.2 (accepts_of_comparator x hx hts)

end AlternativesDialect

/-! ## Pins -/

theorem Pin.eq_of_read {cs : List Char} {name version : String} {r : Requirement}
    (hwords : Text.words cs = [name.toList, version.toList]) (h : Pin.read cs = .ok r) :
    r = .ofTerm name (.exact version) := by
  rw [Pin.read, hwords] at h
  obtain ⟨v, hv, h⟩ := bind_eq_ok.1 h
  obtain rfl := pure_eq_ok.1 h
  rw [(isVersionToken_of_versionToken hv).2, String.ofList_toList, String.ofList_toList]

theorem Pin.accepts_of_read {name v : String} (hname : AlternativesDialect.IsWord name.toList)
    (hv : AlternativesDialect.IsWord v.toList) {r : Requirement}
    (h : read (name.toList ++ ' ' :: v.toList) = .ok r) : r.accepts v = true := by
  have hwords : Text.words ([' '].intercalate [name.toList, v.toList]) =
      [name.toList, v.toList] :=
    Text.words_intercalate (List.forall_mem_cons.2 ⟨hname, List.forall_mem_singleton.2 hv⟩)
  rw [List.intercalate_cons_cons, List.intercalate_singleton, List.append_assoc] at hwords
  rw [eq_of_read hwords h]
  exact (Requirement.accepts_exact _).2 (Version.equivalence_equal.refl v)

/-! ## Specifiers -/

namespace Ecosystem

/-- The sign in front of an exact version. -/
def exactSign : Ecosystem → String
  | .pypi => "=="
  | .cargo | .rubygems | .npm => "="
  | .packagist | .maven | .go => ""

/-- The version that an exact clause on `v` names. It is `v` itself where
versions are kept as they are written, and else what is left of `v` without a
`v` in front and build metadata. -/
def Names (e : Ecosystem) (v w : Version) : Prop :=
  match e with
  | .pypi => w = v ∧ ClauseDialect.IsBare v.toList ∧ hasWildcard v.toList = false
  | .rubygems => w = v ∧ ClauseDialect.IsBare v.toList
  | .maven | .go => w = v ∧ AlternativesDialect.IsWord v.toList
  | .cargo | .npm => ∃ x : Spelling, v = String.ofList x.text ∧ w = String.ofList x.core
  | .packagist => ∃ x : Spelling, (∀ n ∈ x.values, n ≤ wordMax) ∧ v = String.ofList x.text ∧
      w = String.ofList x.core

theorem toList_exact (e : Ecosystem) (name v : String) :
    (name ++ " " ++ e.exactSign ++ v).toList =
      name.toList ++ ' ' :: (e.exactSign.toList ++ v.toList) := by
  simp

/-- An exact specifier admits the version that it names. -/
theorem exact_accepts_named (e : Ecosystem) (name v w : String)
    (hname : e.grammar.IsName name.toList) (hw : e.Names v w) (r : Requirement)
    (h : e.parse (name ++ " " ++ e.exactSign ++ v) = .ok r) : r.accepts w = true := by
  have hread := parse_eq_ok.1 h
  rw [toList_exact] at hread
  cases e with
  | pypi =>
      obtain ⟨rfl, hbare, hwildcard⟩ := hw
      exact ClauseDialect.accepts_of_read_kept (by decide) (.inr rfl) hname hbare
        (fun _ => hwildcard) hread
  | rubygems =>
      obtain ⟨rfl, hbare⟩ := hw
      exact ClauseDialect.accepts_of_read_kept (by decide) (.inl rfl) hname hbare
        (fun hd => absurd hd (by decide)) hread
  | cargo =>
      obtain ⟨x, rfl, rfl⟩ := hw
      rw [String.toList_ofList] at hread
      exact ClauseDialect.accepts_of_read_cargo hname x hread
  | npm =>
      obtain ⟨x, rfl, rfl⟩ := hw
      have hsign : (exactSign .npm).toList = AlternativesDialect.exactSign .npm := rfl
      rw [String.toList_ofList, hsign] at hread
      exact AlternativesDialect.accepts_of_read_exact (d := .npm) hname x
        (fun hd => absurd hd (by decide)) hread
  | packagist =>
      obtain ⟨x, hx, rfl, rfl⟩ := hw
      have hsign : (exactSign .packagist).toList = AlternativesDialect.exactSign .composer := rfl
      rw [String.toList_ofList, hsign] at hread
      exact AlternativesDialect.accepts_of_read_exact (d := .composer) hname x (fun _ => hx) hread
  | maven =>
      obtain ⟨rfl, hword⟩ := hw
      exact Pin.accepts_of_read hname hword hread
  | go =>
      obtain ⟨rfl, hword⟩ := hw
      exact Pin.accepts_of_read hname hword hread

/-- A version with a `v`, a tag and build metadata. -/
theorem exact_accepts_named_npm :
    let r : Requirement := .ofTerm "foo" (.exact "1.2.3-rc.1")
    npm.grammar.IsName "foo".toList ∧ npm.Names "v1.2.3-rc.1+5" "1.2.3-rc.1" ∧
    npm.parse ("foo" ++ " " ++ npm.exactSign ++ "v1.2.3-rc.1+5") = .ok r ∧
    r.accepts "1.2.3-rc.1" = true := by
  intro r
  have hname : npm.grammar.IsName "foo".toList :=
    AlternativesDialect.isWord_of_all (by decide) (by decide)
  have hdigits : ∀ ds ∈ [['1'], ['2'], ['3']], IsDigits ds := by
    simp [IsDigits]
  have htag : ∀ t ∈ some "rc.1",
      [['1'], ['2'], ['3']].length = 3 ∧ PartialVersion.IsTag t.toList := by
    intro t ht
    obtain rfl := Option.some.inj ht
    exact ⟨rfl, by decide, List.all_eq_true.1 (by decide)⟩
  have hnames : npm.Names "v1.2.3-rc.1+5" "1.2.3-rc.1" :=
    ⟨⟨['v'], [['1'], ['2'], ['3']], some "rc.1", ['+', '5'], .inr (.inl rfl), by simp, by simp,
      hdigits, htag, by decide⟩, rfl, rfl⟩
  have hparse : npm.parse ("foo" ++ " " ++ npm.exactSign ++ "v1.2.3-rc.1+5") = .ok r := by
    decide +kernel
  exact ⟨hname, hnames, hparse, exact_accepts_named npm "foo" _ _ hname hnames r hparse⟩

/-- So an exact specifier may refuse the version that it is written with. -/
theorem not_exact_accepts_written :
    ¬ ∀ (e : Ecosystem) (name v : String) (r : Requirement), e.grammar.IsName name.toList →
      AlternativesDialect.IsWord v.toList → hasWildcard v.toList = false →
      e.parse (name ++ " " ++ e.exactSign ++ v) = .ok r → r.accepts v = true := by
  intro hall
  have hparse : npm.parse ("foo" ++ " " ++ npm.exactSign ++ "v1.2.3") =
      .ok (.ofTerm "foo" (.exact "1.2.3")) := by decide +kernel
  have hname : AlternativesDialect.IsWord "foo".toList :=
    AlternativesDialect.isWord_of_all (by decide) (by decide)
  have hversion : AlternativesDialect.IsWord "v1.2.3".toList :=
    AlternativesDialect.isWord_of_all (by decide) (by decide)
  have haccepts := hall npm "foo" "v1.2.3" _ hname hversion (by decide) hparse
  exact absurd haccepts (by decide)

end Ecosystem

end Requirements
