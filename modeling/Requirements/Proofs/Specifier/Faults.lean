import Mathlib
import Requirements.Proofs.Range.Origin
import Requirements.Proofs.Specifier.WhiteSpace

/-!
# Faults point into the specifier

A specifier is read, or it is refused with itself and a fault that shows the part
of its text that is to blame. What it is read as comes from its text as well: the
versions stand there, or they are made of numbers that do. So no number wraps
around on the way, and a list of specifiers fails with its first fault.
-/

namespace Requirements

open Text (isBlank)

/-- The comparator stands in the text. It has a number without a successor, or it is
none of a dialect, or it is an end of a hyphen range that is no version. -/
structure UnsupportedRange.StandsIn (text : List Char) (e : UnsupportedRange) : Prop where
  token : e.token.toList <:+: text
  oversized : ∀ o ∈ e.reason, o.StandsIn e.token.toList
  unsupported : e.reason = none → PartialVersion.read? e.token.toList = none ∨
    ∃ d : AlternativesDialect, d.comparator e.token.toList = .error e

/-- The fault shows a part of the text that is to blame. No part is to blame for a
missing name, and the last three faults are those of terms, not of specifiers. -/
def SpecifierFault.PointsInto (text : List Char) : SpecifierFault → Prop
  | .emptyClause => ',' ∈ text
  | .invalidClause clause => clause.toList <:+: text ∧
      Mark.split? ClauseDialect.isOperand clause.toList Mark.ofClauses = none
  | .unparsableVersion version => version.toList <:+: text ∧
      (isVersionToken version.toList = false ∨ Release.numbers version.toList = [] ∨
        PartialVersion.read? version.toList = none)
  | .tooFewNumbers version => version.toList <:+: text ∧
      (Release.numbers version.toList).length < 2
  | .excludedWildcard version => version.toList <:+: text ∧ ['.', '*'] <:+ version.toList
  | .invalidWildcard stem => stem.toList ++ ['.', '*'] <:+: text ∧
      (Release.numbers stem.toList = [] ∨ dotted (Release.numbers stem.toList) ≠ stem)
  | .unsupportedMark mark => mark.symbol.toList <:+: text ∧ ∀ op, mark ≠ .compare op
  | .oversized o => o.StandsIn text
  | .unsupportedRange e => e.StandsIn text
  | .wordCount count => count = (Text.words text).length ∧ count ≠ 2
  | .missingName | .emptyTerm | .invalidOperator _ | .emptyBranch => False

/-- What a mark is called stands in the sign it is written with. -/
theorem Mark.infix_of_split? {admissible : List Char → Bool} {cs operand : List Char}
    {mark : Option Mark} {table : List (String × Mark)}
    (htable : ∀ e ∈ table, e.2.symbol.toList <:+: e.1.toList)
    (h : split? admissible cs table = some (mark, operand)) :
    operand <:+: cs ∧ ∀ m ∈ mark, m.symbol.toList <:+: cs := by
  obtain ⟨rfl, rfl⟩ | ⟨e, he, rfl, rfl⟩ := (split?_eq_some h).2
  · exact ⟨List.infix_rfl, fun _ hm => nomatch hm⟩
  · refine ⟨(List.suffix_append _ _).isInfix, fun m hm => ?_⟩
    obtain rfl := Option.some.inj hm
    exact (htable e he).trans (List.prefix_append _ _).isInfix

theorem Oversized.StandsIn.mono {text text' : List Char} {o : Oversized} (h : o.StandsIn text)
    (htext : text <:+: text') : o.StandsIn text' := by
  obtain ⟨hmax, ds, hds, hinfix⟩ := h
  exact ⟨hmax, ds, hds, hinfix.trans htext⟩

variable {text cs : List Char}

theorem termsFrom_flatten {tss : List (List Term)} (h : ∀ ts ∈ tss, TermsFrom text ts) :
    TermsFrom text tss.flatten := by
  intro t ht
  obtain ⟨ts, hts, ht⟩ := List.mem_flatten.1 ht
  exact h ts hts t ht

theorem termsFrom_ofTerms {tss : List (List Term)} (h : ∀ ts ∈ tss, TermsFrom text ts)
    {name : String} : TermsFrom text (Requirement.mk name (tss.map Branch.ofTerms)).terms := by
  have hterms : (Requirement.mk name (tss.map Branch.ofTerms)).terms = tss.flatten := by
    simp [Requirement.terms, List.flatMap_map]
  rw [hterms]
  exact termsFrom_flatten h

theorem endsIn_versionToken (h : cs <:+: text) :
    EndsIn (fun v => v.toList = cs) (SpecifierFault.PointsInto text) (versionToken cs) := by
  unfold versionToken
  split
  · exact String.toList_ofList
  · rename_i htoken
    simp only [EndsIn, SpecifierFault.PointsInto, String.toList_ofList]
    exact ⟨h, .inl (Bool.eq_false_iff.2 htoken)⟩

/-! ## Clauses -/

namespace ClauseDialect

open SpecifierFault (PointsInto)

theorem endsIn_plain (op : Operator) (h : cs <:+: text) :
    EndsIn (TermsFrom text) (PointsInto text) (plain op cs) :=
  (endsIn_versionToken h).bind fun _ hversion => termsFrom_singleton (.written (hversion ▸ h))

theorem endsIn_pessimistic (h : cs <:+: text) :
    EndsIn (TermsFrom text) (PointsInto text) (pessimistic cs) := by
  refine (endsIn_versionToken h).bind fun version hversion => ?_
  subst hversion
  have hend := Release.endsIn_pessimisticEnd version.toList
  split
  · rename_i o heq
    rw [heq] at hend
    exact Oversized.StandsIn.mono hend h
  · rename_i heq
    have hnone : Release.numbers version.toList = [] := by
      by_contra hne
      obtain ⟨_, _, _, -, hsome⟩ := (Release.endsAfter_pessimisticEnd hne).of_eq_ok heq
      cases hsome
    exact ⟨h, .inr (.inl hnone)⟩
  · rename_i upper heq
    rw [heq] at hend
    exact termsFrom_between (.written h) fun u hu => (hend u hu).mono h

theorem endsIn_startingWith {stem : List Char} (h : stem ++ ['.', '*'] <:+: text) :
    EndsIn (TermsFrom text) (PointsInto text) (startingWith stem) := by
  have hstem : stem <:+: text := (List.prefix_append _ _).isInfix.trans h
  unfold startingWith
  dsimp only
  split
  · rename_i hnumbers
    simp only [EndsIn, PointsInto, String.toList_ofList]
    exact ⟨h, by simpa using hnumbers⟩
  · rename_i hnumbers
    have hne : Release.numbers stem ≠ [] := by
      intro hnil
      simp [hnil] at hnumbers
    have hend := Release.endsIn_bumpLast hne
    split
    · rename_i o heq
      rw [heq] at hend
      exact Oversized.StandsIn.mono hend hstem
    · rename_i upper heq
      rw [heq] at hend
      have hlower : Version.ComesFrom text (String.ofList stem) :=
        .written (by rwa [String.toList_ofList])
      have hupper : EndFrom text (some upper) := by
        rintro _ ⟨⟩
        exact Version.ComesFrom.mono hend hstem
      exact termsFrom_between hlower hupper

variable {mark : Option Mark} (hmark : ∀ m ∈ mark, m.symbol.toList <:+: text)

include hmark

theorem endsIn_cargoTerms (h : cs <:+: text) :
    EndsIn (TermsFrom text) (PointsInto text) (cargoTerms mark cs) := by
  have hoversized {terms : Except Oversized (List Term)}
      (hterms : EndsIn (TermsFrom text) (Oversized.StandsIn text) terms) :
      EndsIn (TermsFrom text) (PointsInto text) (terms.mapError SpecifierFault.oversized) :=
    hterms.mapError fun _ ho => ho
  unfold cargoTerms
  split
  · rename_i hread
    simp only [EndsIn, PointsInto, String.toList_ofList]
    exact ⟨h, .inr (.inr hread)⟩
  · rename_i p hread
    have hp : p.StandsIn text := (PartialVersion.standsIn_of_read? hread).mono h
    split
    · refine hoversized ?_
      split
      · exact hp.covered
      · exact hp.caret
    · refine hoversized ?_
      split
      · exact hp.covered
      · exact hp.caret
    · exact hoversized hp.tilde
    · exact hoversized hp.covered
    · exact hoversized (hp.comparison _)
    · rename_i hother
      exact ⟨hmark _ rfl, hother⟩

theorem endsIn_pep440Terms (h : cs <:+: text) :
    EndsIn (TermsFrom text) (PointsInto text) (pep440Terms mark cs) := by
  have hequality : EndsIn (TermsFrom text) (PointsInto text) (pep440Terms none cs) := by
    unfold pep440Terms
    dsimp only
    split
    · rename_i stem hstem
      exact endsIn_startingWith (eq_append_of_wildcardStem? hstem ▸ h)
    · exact endsIn_plain _ h
  unfold pep440Terms
  split
  · split
    · rename_i hfew
      simp only [EndsIn, PointsInto, String.toList_ofList]
      exact ⟨h, hfew⟩
    · exact endsIn_pessimistic h
  · exact hequality
  · exact hequality
  · exact hequality
  · split
    · rename_i hwildcard
      obtain ⟨stem, hstem⟩ := Option.isSome_iff_exists.1 hwildcard
      simp only [EndsIn, PointsInto, String.toList_ofList]
      exact ⟨h, eq_append_of_wildcardStem? hstem ▸ List.suffix_append _ _⟩
    · exact endsIn_plain _ h
  · exact endsIn_plain _ h
  · exact endsIn_cargoTerms hmark h
  · exact endsIn_cargoTerms hmark h
  · exact ⟨hmark _ rfl, fun _ => nofun⟩

theorem endsIn_gemTerms (h : cs <:+: text) :
    EndsIn (TermsFrom text) (PointsInto text) (gemTerms mark cs) := by
  unfold gemTerms
  split
  · exact endsIn_pessimistic h
  · exact endsIn_plain _ h
  · exact endsIn_plain _ h
  · rename_i hother
    exact ⟨hmark _ rfl, hother⟩

omit hmark

/-- A clause is empty only next to a comma. -/
theorem endsIn_clause (d : ClauseDialect) (h : cs <:+: text)
    (hempty : Text.trim cs = [] → ',' ∈ text) :
    EndsIn (TermsFrom text) (PointsInto text) (d.clause cs) := by
  have htrim : Text.trim cs <:+: text := (Text.infix_trim cs).trans h
  unfold clause
  dsimp only
  split
  · rename_i hnil
    exact hempty (List.isEmpty_iff.1 hnil)
  · split
    · rename_i hsplit
      simp only [EndsIn, PointsInto, String.toList_ofList]
      exact ⟨htrim, hsplit⟩
    · rename_i mark operand hsplit
      obtain ⟨hoperand, hmark⟩ := Mark.infix_of_split? (by decide) hsplit
      have hmark : ∀ m ∈ mark, m.symbol.toList <:+: text := fun m hm => (hmark m hm).trans htrim
      have hstart : Text.trimStart operand <:+: text :=
        ((List.dropWhile_suffix _).isInfix.trans hoperand).trans htrim
      cases d with
      | pep440 => exact endsIn_pep440Terms hmark hstart
      | cargo => exact endsIn_cargoTerms hmark hstart
      | gem => exact endsIn_gemTerms hmark hstart

theorem suffix_skipExtras (cs : List Char) : skipExtras cs <:+ cs := by
  unfold skipExtras
  split
  · rename_i rest
    split
    · rename_i c back hback
      have hdrop : c :: back <:+ rest := hback ▸ List.dropWhile_suffix _
      exact ((List.suffix_cons c back).trans hdrop).trans (List.suffix_cons _ rest)
    · exact List.suffix_rfl
  · exact List.suffix_rfl

theorem suffix_clauseText (cs : List Char) : clauseText cs <:+ cs :=
  ((List.dropWhile_suffix _).trans (suffix_skipExtras _)).trans
    ((List.dropWhile_suffix _).trans (List.dropWhile_suffix _))

theorem infix_of_nameAndClauses? {name rest : List Char}
    (h : nameAndClauses? cs = some (name, rest)) : rest <:+: cs := by
  rw [nameAndClauses?_eq] at h
  split at h
  · obtain ⟨-, rfl⟩ := Prod.mk.inj (Option.some.inj h)
    exact (suffix_clauseText cs).isInfix
  · cases h

theorem infix_trim_line (cs : List Char) : Text.trim (cs.takeWhile (· != ';')) <:+: cs :=
  (Text.infix_trim _).trans (List.takeWhile_prefix _).isInfix

/-- A specifier that starts with a letter or digit does so without its marker. -/
theorem exists_trim_line {c : Char} (hc : c ∈ (Text.trim cs).head?)
    (halnum : c.isAlphanum = true) :
    ∃ rest, Text.trim (cs.takeWhile (· != ';')) = c :: rest := by
  obtain ⟨front, back, hcs, hfront, -⟩ := Text.exists_trim cs
  obtain ⟨tail, htail⟩ := List.head?_eq_some_iff.1 hc
  have hskip : ∀ x ∈ front, (x != ';') = true := fun x hx =>
    bne_iff_ne.2 (Text.ne_of_class (hfront x hx) (by decide))
  have hkeep : (c != ';') = true :=
    bne_iff_ne.2 (Text.ne_of_class (p := Char.isAlphanum) halnum (by decide))
  rw [hcs, htail, List.takeWhile_append_of_pos hskip, List.cons_append, List.takeWhile_cons,
    if_pos hkeep, Text.trim_blanks_append hfront]
  exact Text.exists_trim_cons (Text.isBlank_of_isAlphanum halnum) _

/-- The specifier starts with neither a letter nor a digit, or it has a line break,
which clauses must not have. -/
def LacksName (cs : List Char) : Prop :=
  (∀ c ∈ (Text.trim cs).head?, c.isAlphanum = false) ∨ '\n' ∈ cs

theorem lacksName_of_nameAndClauses?
    (h : nameAndClauses? (Text.trim (cs.takeWhile (· != ';'))) = none) : LacksName cs := by
  by_contra hname
  obtain ⟨hfirst, hline⟩ := not_or.1 hname
  push Not at hfirst
  obtain ⟨c, hc, halnum⟩ := hfirst
  replace halnum : c.isAlphanum = true := by simpa using halnum
  obtain ⟨rest, hstart⟩ := exists_trim_line hc halnum
  have hclauses : clauseText (c :: rest) <:+: cs :=
    (suffix_clauseText _).isInfix.trans (hstart ▸ infix_trim_line cs)
  have hall : (clauseText (c :: rest)).all (· != '\n') = true :=
    List.all_eq_true.2 fun x hx =>
      bne_iff_ne.2 fun heq => hline (heq ▸ hclauses.subset hx)
  have hnamechar : isNameChar c = true := by simp [isNameChar, halnum]
  rw [hstart, nameAndClauses?_eq, hall, List.takeWhile_cons_of_pos hnamechar] at h
  simp [halnum] at h

/-- Among clauses, an empty one stands next to a comma. -/
theorem comma_of_trim_part (hne : Text.trim cs ≠ []) {part : List Char}
    (hpart : part ∈ (Text.trim cs).splitOnP (· == ',')) (hnil : Text.trim part = []) :
    ',' ∈ Text.trim cs := by
  by_contra hcomma
  have hsingle : ∀ c ∈ Text.trim cs, (c == ',') = false := fun c hc =>
    beq_eq_false_iff_ne.2 (ne_of_mem_of_not_mem hc hcomma)
  rw [List.splitOnP_eq_singleton hsingle, List.mem_singleton] at hpart
  obtain ⟨hfirst, hlast⟩ := Text.isBlank_ends_trim cs
  rw [hpart, Text.trim_eq_self hfirst hlast] at hnil
  exact hne hnil

theorem endsIn_read (d : ClauseDialect) (cs : List Char) :
    EndsIn (fun r => TermsFrom cs r.terms)
      (fun fault => fault.PointsInto cs ∨ fault = .missingName ∧ LacksName cs) (d.read cs) := by
  unfold read
  split
  · rename_i hname
    exact .inr ⟨rfl, lacksName_of_nameAndClauses? hname⟩
  · rename_i name rest hname
    have hclauses : Text.trim rest <:+: cs :=
      ((Text.infix_trim rest).trans (infix_of_nameAndClauses? hname)).trans (infix_trim_line cs)
    dsimp only
    split
    · exact termsFrom_any cs
    · rename_i hany
      have hne : Text.trim rest ≠ [] := fun hnil => hany (by simp [hnil])
      have hparts : ∀ part ∈ (Text.trim rest).splitOnP (· == ','),
          EndsIn (TermsFrom cs) (PointsInto cs) (d.clause part) := fun part hpart =>
        d.endsIn_clause ((Text.infix_of_mem_splitOnP hpart).trans hclauses) fun hnil =>
          hclauses.subset (comma_of_trim_part hne hpart hnil)
      have hterms := EndsIn.mapM hparts
      refine (hterms.mono (fun _ h => h) fun _ h => .inl h).bind fun tss htss => ?_
      exact termsFrom_ofTerms (List.forall_mem_singleton.2 (termsFrom_flatten htss))

end ClauseDialect

theorem Pin.endsIn_read (cs : List Char) :
    EndsIn (fun r => TermsFrom cs r.terms) (SpecifierFault.PointsInto cs) (Pin.read cs) := by
  unfold Pin.read
  split
  · rename_i name version hwords
    have hmem : version ∈ Text.words cs := by simp [hwords]
    have hinfix := Text.infix_of_mem_words hmem
    exact (endsIn_versionToken hinfix).bind fun _ hversion =>
      termsFrom_singleton (.written (hversion ▸ hinfix))
  · rename_i hwords
    refine ⟨rfl, fun hlength => ?_⟩
    obtain ⟨name, version, heq⟩ := List.length_eq_two.1 hlength
    exact hwords name version heq

/-! ## Alternatives -/

namespace AlternativesDialect

/-- Closing up goes through a text from left to right. -/
theorem exists_closeUp_append (afterSign : Bool) (front : List Char) :
    ∃ between, ∀ back, closeUp afterSign (front ++ back) =
      closeUp afterSign front ++ closeUp between back := by
  induction front generalizing afterSign with
  | nil => exact ⟨afterSign, fun _ => rfl⟩
  | cons c front ih =>
      simp only [List.cons_append, closeUp]
      split
      · exact ih true
      · obtain ⟨between, h⟩ := ih (endsSign c)
        exact ⟨between, fun back => by rw [h, List.cons_append]⟩

theorem closeUp_isPrefix (afterSign : Bool) (front back : List Char) :
    closeUp afterSign front <+: closeUp afterSign (front ++ back) := by
  obtain ⟨between, h⟩ := exists_closeUp_append afterSign front
  exact h back ▸ List.prefix_append _ _

/-- White space in front of a text follows no sign, so it stays. -/
theorem closeUp_blanks_append {front : List Char} (h : ∀ c ∈ front, isBlank c = true)
    (cs : List Char) : closeUp false (front ++ cs) = front ++ closeUp false cs := by
  induction front with
  | nil => rfl
  | cons c front ih =>
      obtain ⟨hc, hfront⟩ := List.forall_mem_cons.1 h
      rw [List.cons_append, closeUp, if_neg (by simp), endsSign_of_class hc (by decide), ih hfront,
        List.cons_append]

theorem closeUp_trim (cs : List Char) : closeUp false (Text.trim cs) <:+: closeUp false cs := by
  obtain ⟨front, back, hcs, hfront, -⟩ := Text.exists_trim cs
  have hclosed : closeUp false cs = front ++ closeUp false (Text.trim cs ++ back) := by
    rw [← closeUp_blanks_append hfront, ← hcs]
  rw [hclosed]
  exact (closeUp_isPrefix false _ back).isInfix.trans (List.suffix_append front _).isInfix

/-- Words stay as they are. -/
theorem infix_closeUp {w : List Char} (hw : ∀ c ∈ w, isBlank c = false) (h : w <:+: cs) :
    w <:+: closeUp false cs := by
  obtain ⟨front, back, rfl⟩ := h
  obtain ⟨before, hfront⟩ := exists_closeUp_append false front
  have hprefix := closeUp_isPrefix before w back
  rw [closeUp_eq_self hw] at hprefix
  rw [List.append_assoc, hfront]
  exact hprefix.isInfix.trans (List.suffix_append _ _).isInfix

theorem closeUp_bar (afterSign : Bool) (cs : List Char) :
    closeUp afterSign ('|' :: cs) = '|' :: closeUp false cs := by
  have hblank : isBlank '|' = false := by decide
  rw [closeUp, hblank, Bool.and_false, if_neg (by simp)]
  rfl

/-- Alternatives stand behind bars, which are no signs. Only the first one stands at
the start of the text, where a sign may precede it. -/
theorem exists_closeUp_splitBars (single afterSign : Bool) (cs : List Char) :
    ∃ first parts, splitBars single cs = first :: parts ∧
      closeUp afterSign first <+: closeUp afterSign cs ∧
      ∀ part ∈ parts, closeUp false part <:+: closeUp afterSign cs := by
  have hbehind {back : List Char} {parts : List (List Char)} {first : List Char}
      (hfirst : closeUp false first <+: closeUp false back)
      (hparts : ∀ part ∈ parts, closeUp false part <:+: closeUp false back) :
      ∀ part ∈ first :: parts, closeUp false part <:+: closeUp false back :=
    List.forall_mem_cons.2 ⟨hfirst.isInfix, hparts⟩
  fun_induction splitBars single cs generalizing afterSign with
  | case1 => exact ⟨[], [], rfl, List.prefix_rfl, List.forall_mem_nil _⟩
  | case2 cs ih =>
      obtain ⟨first, parts, heq, hfirst, hparts⟩ := ih false
      refine ⟨[], first :: parts, by rw [heq], List.nil_prefix, fun part hpart => ?_⟩
      rw [closeUp_bar, closeUp_bar]
      exact (hbehind hfirst hparts part hpart).trans (List.suffix_append ['|', '|'] _).isInfix
  | case3 c cs _ hsingle ih =>
      obtain ⟨first, parts, heq, hfirst, hparts⟩ := ih false
      obtain rfl : c = '|' := by simpa using (Bool.and_eq_true_iff.1 hsingle).2
      refine ⟨[], first :: parts, by rw [heq], List.nil_prefix, fun part hpart => ?_⟩
      rw [closeUp_bar]
      exact (hbehind hfirst hparts part hpart).trans (List.suffix_cons '|' _).isInfix
  | case4 c cs _ _ part parts heq ih =>
      refine ⟨c :: part, parts, rfl, ?_⟩
      obtain ⟨next, hnext⟩ := exists_closeUp_append afterSign [c]
      obtain ⟨first, others, hsplit, hfirst, hparts⟩ := ih next
      obtain ⟨rfl, rfl⟩ := List.cons.inj (heq.symm.trans hsplit)
      have hcs : closeUp afterSign (c :: cs) = _ := hnext cs
      have hpart : closeUp afterSign (c :: part) = _ := hnext part
      rw [hcs, hpart]
      exact ⟨(List.prefix_append_right_inj _).2 hfirst, fun q hq =>
        (hparts q hq).trans (List.suffix_append _ _).isInfix⟩
  | case5 c cs _ _ hparts _ => exact absurd hparts (splitBars_ne_nil single cs)

theorem closeUp_of_mem_splitBars {single : Bool} {part : List Char}
    (h : part ∈ splitBars single cs) : closeUp false part <:+: closeUp false cs := by
  obtain ⟨first, parts, heq, hfirst, hparts⟩ := exists_closeUp_splitBars single false cs
  rw [heq] at h
  rcases List.mem_cons.1 h with rfl | h
  · exact hfirst.isInfix
  · exact hparts part h

theorem endsIn_npmTerms {mark : Option Mark} {p : PartialVersion} (hp : p.StandsIn text)
    {terms : Except Oversized (List Term)} (h : npmTerms? mark p = some terms) :
    EndsIn (TermsFrom text) (Oversized.StandsIn text) terms := by
  unfold npmTerms? at h
  split at h
  · exact Option.some.inj h ▸ hp.caret
  · exact Option.some.inj h ▸ hp.tilde
  · exact Option.some.inj h ▸ hp.tilde
  · exact Option.some.inj h ▸ hp.covered
  · exact Option.some.inj h ▸ hp.covered
  · cases h
  · exact Option.some.inj h ▸ hp.comparison _
  · cases h
  · cases h

theorem endsIn_composerTerms {mark : Option Mark} {p : PartialVersion} (hp : p.StandsIn cs)
    {terms : Except Oversized (List Term)} (h : composerTerms? mark cs p = some terms) :
    EndsIn (TermsFrom cs) (Oversized.StandsIn cs) terms := by
  have htilde : EndsIn (TermsFrom cs) (Oversized.StandsIn cs)
      ((Release.pessimisticEnd cs).map (PartialVersion.between p.floor)) :=
    (Release.endsIn_pessimisticEnd cs).map fun _ => termsFrom_between hp.floor
  have hequality (covers : Bool) : EndsIn (TermsFrom cs) (Oversized.StandsIn cs)
      (if covers then p.covered else .ok [.exact p.floor]) := by
    split
    · exact hp.covered
    · exact termsFrom_singleton hp.floor
  unfold composerTerms? at h
  dsimp only at h
  split at h
  · exact Option.some.inj h ▸ hp.caret
  · exact Option.some.inj h ▸ htilde
  · exact Option.some.inj h ▸ htilde
  · exact Option.some.inj h ▸ hequality _
  · exact Option.some.inj h ▸ hequality _
  · obtain rfl := Option.some.inj h
    split
    · exact hp.comparison _
    · exact termsFrom_singleton hp.floor
  · cases h
  · cases h

/-- A comparator that is refused is shown whole. -/
theorem endsIn_comparator_token (d : AlternativesDialect) (cs : List Char) :
    EndsIn (TermsFrom cs) (fun e => e.token.toList = cs ∧ ∀ o ∈ e.reason, o.StandsIn cs)
      (d.comparator cs) := by
  unfold comparator
  dsimp only
  split
  · exact ⟨String.toList_ofList, fun _ ho => nomatch ho⟩
  · rename_i mark operand hsplit
    obtain ⟨hoperand, -⟩ := Mark.infix_of_split? (by decide) hsplit
    split
    · exact ⟨String.toList_ofList, fun _ ho => nomatch ho⟩
    · rename_i terms hterms
      obtain ⟨p, hread, hterms⟩ := Option.bind_eq_some_iff.1 hterms
      have hp := PartialVersion.standsIn_of_read? hread
      have hends : EndsIn (TermsFrom operand) (Oversized.StandsIn operand) terms := by
        cases d with
        | npm => exact endsIn_npmTerms hp hterms
        | composer => exact endsIn_composerTerms hp hterms
      have hwider := hends.mono (fun _ hts => hts.mono hoperand) fun _ ho => ho.mono hoperand
      exact hwider.mapError fun o ho =>
        ⟨String.toList_ofList, fun _ ho' => Option.some.inj ho' ▸ ho⟩

theorem endsIn_comparator (d : AlternativesDialect) (h : cs <:+: text) :
    EndsIn (TermsFrom text) (UnsupportedRange.StandsIn text) (d.comparator cs) := by
  have hends := d.endsIn_comparator_token cs
  cases hcomparator : d.comparator cs with
  | ok terms =>
      rw [hcomparator] at hends
      exact TermsFrom.mono hends h
  | error e =>
      rw [hcomparator] at hends
      obtain ⟨htoken, hoversized⟩ := hends
      subst htoken
      exact ⟨h, hoversized, fun _ => .inr ⟨d, hcomparator⟩⟩

theorem endsIn_hyphenRange {lower upper : List Char} (hlower : lower <:+: text)
    (hupper : upper <:+: text) :
    EndsIn (TermsFrom text) (UnsupportedRange.StandsIn text) (hyphenRange lower upper) := by
  have hrefused {word : List Char} {reason : Option Oversized} (hend : word <:+: text)
      (hreason : ∀ o ∈ reason, o.StandsIn word)
      (hread : reason = none → PartialVersion.read? word = none) :
      UnsupportedRange.StandsIn text ⟨String.ofList word, reason⟩ := by
    constructor <;> simp only [String.toList_ofList]
    · exact hend
    · exact hreason
    · exact fun hnone => .inl (hread hnone)
  unfold hyphenRange
  split
  · rename_i hread
    exact hrefused hlower (fun _ ho => nomatch ho) fun _ => hread
  · rename_i hread _
    exact hrefused hupper (fun _ ho => nomatch ho) fun _ => hread
  · rename_i l a b c tag hl hu
    have hl := PartialVersion.standsIn_of_read? hl
    have hu := PartialVersion.standsIn_of_read? hu
    exact List.forall_mem_cons.2
      ⟨(hl.mono hlower).floor, termsFrom_singleton (hu.mono hupper).floor⟩
  · rename_i l u _ hl hu
    have hl := PartialVersion.standsIn_of_read? hl
    have hu := PartialVersion.standsIn_of_read? hu
    have hends := hu.ceiling.map fun upper hend =>
      termsFrom_between (hl.mono hlower).floor fun v hv => (hend v hv).mono hupper
    exact hends.mapError fun o ho => hrefused hupper (fun _ ho' => Option.some.inj ho' ▸ ho) nofun

theorem endsIn_branch (d : AlternativesDialect) (h : closeUp false cs <:+: text) :
    EndsIn (TermsFrom text) (UnsupportedRange.StandsIn text) (d.branch cs) := by
  have htrim : closeUp false (Text.trim cs) <:+: text := (closeUp_trim cs).trans h
  unfold branch
  dsimp only
  split
  · exact termsFrom_any text
  · split
    · rename_i lower upper hwords
      have hword {w : List Char} (hw : w ∈ [lower, ['-'], upper]) : w <:+: text := by
        rw [← hwords] at hw
        exact (infix_closeUp (Text.of_mem_words hw).2 (Text.infix_of_mem_words hw)).trans htrim
      exact endsIn_hyphenRange (hword (by simp)) (hword (by simp))
    · have htokens : ∀ token ∈ d.tokens (Text.trim cs),
          EndsIn (TermsFrom text) (UnsupportedRange.StandsIn text) (d.comparator token) := by
        intro token htoken
        have hmem := (List.mem_filter.1 htoken).1
        exact d.endsIn_comparator ((Text.infix_of_mem_splitOnP hmem).trans htrim)
      refine (EndsIn.mapM htokens).bind fun tss htss => ?_
      show TermsFrom text (if tss.flatten.isEmpty then [.any] else tss.flatten)
      split
      · exact termsFrom_any text
      · exact termsFrom_flatten htss

/-- A range without the flags that the dialect overlooks. -/
def withoutFlags : AlternativesDialect → List Char → List Char
  | .npm, range => range
  | .composer, range => dropFlags false range

/-- The range of a specifier as it is cut into comparators. -/
def rangeText (d : AlternativesDialect) (cs : List Char) : List Char :=
  closeUp false (d.withoutFlags (nameAndRange (Text.trim cs)).2)

theorem endsIn_normalize (d : AlternativesDialect) (range : List Char) :
    EndsIn (fun tss => ∀ ts ∈ tss, TermsFrom (closeUp false (d.withoutFlags range)) ts)
      (UnsupportedRange.StandsIn (closeUp false (d.withoutFlags range))) (d.normalize range) := by
  refine EndsIn.mapM fun part hpart => d.endsIn_branch ?_
  cases d with
  | npm => exact closeUp_of_mem_splitBars hpart
  | composer => exact closeUp_of_mem_splitBars hpart

/-- What starts with no name is nothing but white space. -/
theorem isBlank_of_nameAndRange (h : (nameAndRange (Text.trim cs)).1 = []) :
    ∀ c ∈ cs, isBlank c = true := by
  have hnil : Text.trim cs = [] := by
    cases htrim : Text.trim cs with
    | nil => rfl
    | cons c rest =>
        have hfirst := (Text.isBlank_ends_trim cs).1 c (by rw [htrim]; rfl)
        simp [htrim, nameAndRange, hfirst] at h
  obtain ⟨front, back, hcs, hfront, hback⟩ := Text.exists_trim cs
  rw [hcs, hnil]
  exact List.forall_mem_append.2 ⟨hfront, hback⟩

theorem endsIn_read (d : AlternativesDialect) (cs : List Char) :
    EndsIn (fun r => TermsFrom (d.rangeText cs) r.terms)
      (fun fault => fault.PointsInto (d.rangeText cs) ∨
        fault = .missingName ∧ ∀ c ∈ cs, isBlank c = true) (d.read cs) := by
  have hends := d.endsIn_normalize (nameAndRange (Text.trim cs)).2
  by_cases hname : (nameAndRange (Text.trim cs)).1 = []
  · have hread : d.read cs = .error .missingName := by
      simp only [read, hname, List.isEmpty_nil, if_true]
    rw [hread]
    exact .inr ⟨rfl, isBlank_of_nameAndRange hname⟩
  · cases hnormalize : d.normalize (nameAndRange (Text.trim cs)).2 with
    | ok branches =>
        -- What is normalized reads back, so the second reading has no faults.
        rw [hnormalize] at hends
        rw [read_eq_ok rfl hname hnormalize]
        exact termsFrom_ofTerms hends
    | error e =>
        have hempty := List.isEmpty_eq_false_iff.2 hname
        have hread : d.read cs = .error (.unsupportedRange e) := by
          simp only [read, hempty, hnormalize, Bool.false_eq_true, if_false]
        rw [hnormalize] at hends
        rw [hread]
        exact .inl hends

theorem closeUp_sublist (afterSign : Bool) (cs : List Char) :
    (closeUp afterSign cs).Sublist cs := by
  induction cs generalizing afterSign with
  | nil => exact List.Sublist.refl []
  | cons c cs ih =>
      rw [closeUp]
      split
      · exact (ih true).cons c
      · exact (ih _).cons_cons c

theorem dropFlags_sublist (inFlag : Bool) (cs : List Char) : (dropFlags inFlag cs).Sublist cs := by
  induction cs generalizing inFlag with
  | nil => exact List.Sublist.refl []
  | cons c cs ih =>
      rw [dropFlags]
      split
      · exact (ih true).cons c
      · split
        · exact (ih true).cons c
        · exact (ih false).cons_cons c

theorem rangeText_sublist (d : AlternativesDialect) (cs : List Char) :
    (d.rangeText cs).Sublist cs := by
  have hrange : (nameAndRange (Text.trim cs)).2.Sublist cs :=
    (((Text.infix_trim _).trans (List.dropWhile_suffix _).isInfix).trans
      (Text.infix_trim cs)).sublist
  refine ((closeUp_sublist false _).trans ?_).trans hrange
  cases d with
  | npm => exact List.Sublist.refl _
  | composer => exact dropFlags_sublist false _

end AlternativesDialect

/-! ## Specifiers -/

namespace Grammar

/-- The text of a specifier as its grammar cuts it up. Only grammars with alternatives
leave something out before: the name, flags, and white space behind signs. -/
def textOf : Grammar → List Char → List Char
  | .clauses _, cs | .pin, cs => cs
  | .alternatives d, cs => d.rangeText cs

theorem textOf_sublist (g : Grammar) (cs : List Char) : (g.textOf cs).Sublist cs := by
  cases g with
  | clauses d => exact List.Sublist.refl cs
  | alternatives d => exact d.rangeText_sublist cs
  | pin => exact List.Sublist.refl cs

/-- A specifier in which the grammar finds no name. -/
def LacksName : Grammar → List Char → Prop
  | .clauses _, cs => ClauseDialect.LacksName cs
  | .alternatives _, cs => ∀ c ∈ cs, isBlank c = true
  | .pin, _ => False

/-- The fault is one of the specifier: a part of it is to blame, or it has no name. -/
def Blames (g : Grammar) (cs : List Char) (fault : SpecifierFault) : Prop :=
  fault.PointsInto (g.textOf cs) ∨ fault = .missingName ∧ g.LacksName cs

theorem endsIn_read (g : Grammar) (cs : List Char) :
    EndsIn (fun r => TermsFrom (g.textOf cs) r.terms) (g.Blames cs) (g.read cs) := by
  cases g with
  | clauses d => exact d.endsIn_read cs
  | alternatives d => exact d.endsIn_read cs
  | pin => exact (Pin.endsIn_read cs).mono (fun _ h => h) fun _ h => .inl h

end Grammar

namespace Ecosystem

/-- A specifier is read with versions that come from its text, or it is refused with
itself and a fault that is to be found in it. Specifiers are read together, each in
its place, if every one of them is read; otherwise the first one that is refused is
what all of them are refused for. -/
theorem parse_points_at_fault (e : Ecosystem) :
    (∀ s : String, (e.grammar.textOf s.toList).Sublist s.toList ∧
      ((∃ r, e.parse s = .ok r ∧ TermsFrom (e.grammar.textOf s.toList) r.terms) ∨
        ∃ fault, e.parse s = .error ⟨s, fault⟩ ∧ e.grammar.Blames s.toList fault)) ∧
    (∀ ss rs, e.parseAll ss = .ok rs ↔ List.Forall₂ (fun s r => e.parse s = .ok r) ss rs) ∧
    (∀ ss, (∃ rs, e.parseAll ss = .ok rs) ↔ ∀ s ∈ ss, ∃ r, e.parse s = .ok r) ∧
    ∀ ss error, e.parseAll ss = .error error ↔ ∃ front s back, ss = front ++ s :: back ∧
      (∀ q ∈ front, ∃ r, e.parse q = .ok r) ∧ e.parse s = .error error := by
  refine ⟨fun s => ⟨e.grammar.textOf_sublist s.toList, ?_⟩, fun ss rs => mapM_eq_ok, fun ss => ?_,
    fun ss error => ⟨exists_of_mapM_eq_error, ?_⟩⟩
  · have hends := e.grammar.endsIn_read s.toList
    cases hread : e.grammar.read s.toList with
    | ok r =>
        rw [hread] at hends
        exact .inl ⟨r, by rw [parse, hread]; rfl, hends⟩
    | error fault =>
        rw [hread] at hends
        exact .inr ⟨fault, by rw [parse, hread]; rfl, hends⟩
  · constructor
    · rintro ⟨rs, hrs⟩ s hs
      obtain ⟨r, -, hr⟩ := exists_mem_of_mapM hrs hs
      exact ⟨r, hr⟩
    · intro h
      cases hall : e.parseAll ss with
      | ok rs => exact ⟨rs, rfl⟩
      | error error =>
          obtain ⟨front, s, back, rfl, -, hs⟩ := exists_of_mapM_eq_error hall
          obtain ⟨r, hr⟩ := h s (by simp)
          rw [hs] at hr
          cases hr
  · rintro ⟨front, s, back, rfl, hfront, hs⟩
    exact mapM_eq_error hfront hs

/-- The second specifier is refused for the number that its tilde would bump. The
comparator is shown without the white space and the flag, and the third specifier is
not looked at. -/
theorem parse_points_at_fault_successor :
    let specifier := "a >=1.2, ~ 1.18446744073709551615.3@dev"
    let fault : SpecifierFault :=
      .unsupportedRange ⟨"~1.18446744073709551615.3", some ⟨18446744073709551615⟩⟩
    fault.PointsInto (packagist.grammar.textOf specifier.toList) ∧
    packagist.parseAll ["b 1.*", specifier, ""] = .error ⟨specifier, fault⟩ := by
  intro specifier fault
  obtain ⟨hparse, -, -, hfirst⟩ := parse_points_at_fault packagist
  have hfault : packagist.parse specifier = .error ⟨specifier, fault⟩ := by decide +kernel
  have hfront : ∀ q ∈ ["b 1.*"], ∃ r, packagist.parse q = .ok r :=
    List.forall_mem_singleton.2 ⟨_, rfl⟩
  refine ⟨?_, (hfirst _ _).2 ⟨_, _, _, rfl, hfront, hfault⟩⟩
  obtain ⟨r, hr, -⟩ | ⟨f, hf, hblames⟩ := (hparse specifier).2
  · rw [hfault] at hr
    cases hr
  · rw [hfault] at hf
    obtain ⟨-, rfl⟩ := SpecifierError.mk.inj (Except.error.inj hf)
    exact hblames.resolve_right fun hmissing => nomatch hmissing.1

end Ecosystem

end Requirements
