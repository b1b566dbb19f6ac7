import Mathlib
import Requirements.Proofs.Specifier.Clauses
import Requirements.Proofs.Specifier.Padding
import Requirements.Specifier

/-!
# White space in specifiers

White space of any kind may stand around names, clauses and alternatives, but
comparators are cut at spaces only, and clauses have to stay on one line. So a space may
stand for other white space wherever that is read, but not the other way round: other
white space in the place of a space may have a specifier refused.
-/

namespace Requirements

open Text (withSpaces isBlank)

theorem Pin.read_withSpaces (cs : List Char) : Pin.read (withSpaces cs) = Pin.read cs := by
  rw [Pin.read, Text.words_withSpaces, Pin.read]

/-! ## Clauses -/

/-- White space is no part of a sign, so the same sign is split off. -/
theorem Mark.split?_withSpaces {admissible : List Char → Bool}
    (hadmissible : ∀ cs, admissible (withSpaces cs) = admissible cs)
    {table : List (String × Mark)} (htable : ∀ e ∈ table, ∀ c ∈ e.1.toList, isBlank c = false)
    (cs : List Char) :
    Mark.split? admissible (withSpaces cs) table =
      (Mark.split? admissible cs table).map fun r => (r.1, withSpaces r.2) := by
  induction table with
  | nil =>
      rw [Mark.split?, hadmissible, Mark.split?]
      split <;> rfl
  | cons e table ih =>
      obtain ⟨hsign, htable⟩ := List.forall_mem_cons.1 htable
      have hdrop : (withSpaces cs).drop e.1.toList.length =
          withSpaces (cs.drop e.1.toList.length) := List.map_drop.symm
      rw [Mark.split?_cons, Text.isPrefixOf_withSpaces hsign, hdrop, hadmissible, ih htable,
        Mark.split?_cons]
      split <;> rfl

namespace ClauseDialect

/-- The text of the clauses of a specifier, after its name and extras. -/
def clauseText (cs : List Char) : List Char :=
  Text.trimStart (skipExtras (Text.trimStart (cs.dropWhile isNameChar)))

theorem nameAndClauses?_eq (cs : List Char) :
    nameAndClauses? cs =
      if (cs.takeWhile isNameChar).head?.any Char.isAlphanum &&
          (clauseText cs).all (· != '\n') then
        some (cs.takeWhile isNameChar, clauseText cs)
      else none := by
  unfold nameAndClauses?
  dsimp only
  split
  · rename_i c rest hname
    rw [hname]
    rfl
  · rename_i hname
    rw [hname]
    rfl

theorem overlooksBlanks_isNameChar : Text.OverlooksBlanks isNameChar :=
  .of_false fun _ => Text.class_symm isNameChar fun _ => isBlank_of_isNameChar

theorem skipExtras_withSpaces (cs : List Char) :
    skipExtras (withSpaces cs) = withSpaces (skipExtras cs) := by
  cases cs with
  | nil => rfl
  | cons c cs =>
      by_cases hc : c = '['
      · subst hc
        have hclose : (withSpaces cs).dropWhile (· != ']') = withSpaces (cs.dropWhile (· != ']')) :=
          Text.dropWhile_withSpaces (Text.overlooksBlanks_bne (by decide)) cs
        show skipExtras ('[' :: withSpaces cs) = _
        rw [skipExtras, hclose, skipExtras]
        cases cs.dropWhile (· != ']') <;> rfl
      · have hspaces : (Text.spaceFor c == '[') = (c == '[') :=
          (Text.overlooksBlanks_beq (by decide)).apply c
        rw [beq_eq_false_iff_ne.2 hc, beq_eq_false_iff_ne] at hspaces
        rw [skipExtras_eq_self (by simpa using hspaces), skipExtras_eq_self (by simpa using hc)]

theorem clauseText_withSpaces (cs : List Char) :
    clauseText (withSpaces cs) = withSpaces (clauseText cs) := by
  rw [clauseText, Text.dropWhile_withSpaces overlooksBlanks_isNameChar, Text.trimStart_withSpaces,
    skipExtras_withSpaces, Text.trimStart_withSpaces, clauseText]

theorem nameAndClauses?_withSpaces {cs : List Char} (h : ∀ c ∈ clauseText cs, c ≠ '\n') :
    nameAndClauses? (withSpaces cs) = (nameAndClauses? cs).map fun r => (r.1, withSpaces r.2) := by
  have hname : withSpaces (cs.takeWhile isNameChar) = cs.takeWhile isNameChar :=
    Text.withSpaces_of_forall fun c hc => isBlank_of_isNameChar (List.mem_takeWhile_imp hc)
  have hline : (clauseText cs).all (· != '\n') = true := by simpa using h
  have hspaces : (withSpaces (clauseText cs)).all (· != '\n') = true := by
    refine List.all_eq_true.2 fun c hc => bne_iff_ne.2 ?_
    rintro rfl
    exact absurd (Text.eq_space_of_mem_withSpaces hc (by decide)) (by decide)
  rw [nameAndClauses?_eq, clauseText_withSpaces,
    Text.takeWhile_withSpaces overlooksBlanks_isNameChar, hname, hspaces, nameAndClauses?_eq, hline]
  split <;> rfl

theorem isOperand_withSpaces (cs : List Char) : isOperand (withSpaces cs) = isOperand cs := by
  have hall (cs : List Char) :
      (withSpaces cs).all (fun c => !isBlank c) = cs.all fun c => !isBlank c := by
    simp [withSpaces, Function.comp_def]
  rw [isOperand, Text.trimStart_withSpaces, hall, Text.isEmpty_withSpaces, isOperand]

theorem clause_withSpaces (d : ClauseDialect) (cs : List Char) {ts : List Term} :
    d.clause (withSpaces cs) = .ok ts ↔ d.clause cs = .ok ts := by
  have hsigns : ∀ e ∈ Mark.ofClauses, ∀ c ∈ e.1.toList, isBlank c = false := by
    simp [Mark.ofClauses, isBlank]
  simp only [clause, Text.trim_withSpaces, Text.isEmpty_withSpaces,
    Mark.split?_withSpaces isOperand_withSpaces hsigns]
  split
  · rfl
  · cases hsplit : Mark.split? isOperand (Text.trim cs) Mark.ofClauses with
    | none => simp
    | some result =>
        obtain ⟨mark, operand⟩ := result
        obtain ⟨hoperand, _⟩ := Mark.split?_eq_some hsplit
        have hword : ∀ c ∈ Text.trimStart operand, isBlank c = false := by
          simpa using (Bool.and_eq_true_iff.1 hoperand).2
        rw [Option.map_some]
        simp only [Text.trimStart_withSpaces, Text.withSpaces_of_forall hword]

/-- If the clauses stay on one line, white space of any kind may stand for spaces. -/
theorem read_withSpaces (d : ClauseDialect) {cs : List Char}
    (h : ∀ c ∈ clauseText (Text.trim (cs.takeWhile (· != ';'))), c ≠ '\n') {r : Requirement} :
    d.read (withSpaces cs) = .ok r ↔ d.read cs = .ok r := by
  have htake : (withSpaces cs).takeWhile (· != ';') = withSpaces (cs.takeWhile (· != ';')) :=
    Text.takeWhile_withSpaces (Text.overlooksBlanks_bne (by decide)) cs
  simp only [read, htake, Text.trim_withSpaces, nameAndClauses?_withSpaces h]
  cases nameAndClauses? (Text.trim (cs.takeWhile (· != ';'))) with
  | none => simp
  | some result =>
      obtain ⟨name, rest⟩ := result
      have hstar : (withSpaces (Text.trim rest) == ['*']) = (Text.trim rest == ['*']) :=
        Text.beq_withSpaces (List.forall_mem_singleton.2 (by decide))
      have hcomma : (withSpaces (Text.trim rest)).splitOnP (· == ',') =
          ((Text.trim rest).splitOnP (· == ',')).map withSpaces :=
        Text.splitOnP_withSpaces (Text.overlooksBlanks_beq (by decide)) _
      simp only [Option.map_some, Text.trim_withSpaces, Text.isEmpty_withSpaces, hstar, hcomma]
      split
      · rfl
      · simp only [bind_eq_ok, mapM_eq_ok, List.forall₂_map_left_iff, clause_withSpaces]

theorem line_of_read {d : ClauseDialect} {cs : List Char} {r : Requirement}
    (h : d.read cs = .ok r) : ∀ c ∈ clauseText (Text.trim (cs.takeWhile (· != ';'))), c ≠ '\n' := by
  unfold read at h
  rw [nameAndClauses?_eq] at h
  split at h
  · cases h
  · rename_i name rest hsome
    split at hsome
    · rename_i hname
      simpa using (Bool.and_eq_true_iff.1 hname).2
    · cases hsome

end ClauseDialect

/-! ## Alternatives -/

namespace AlternativesDialect

theorem overlooksBlanks_endsSign : Text.OverlooksBlanks endsSign :=
  .of_false fun _ hc => endsSign_of_class hc (by decide)

theorem overlooksBlanks_isAlpha : Text.OverlooksBlanks Char.isAlpha :=
  .of_false fun _ hc => (Text.not_alphanum_of_isBlank hc).1

theorem splitBars_withSpaces (single : Bool) (cs : List Char) :
    splitBars single (withSpaces cs) = (splitBars single cs).map withSpaces := by
  have hbar (c : Char) : (Text.spaceFor c == '|') = (c == '|') :=
    (Text.overlooksBlanks_beq (by decide)).apply c
  have hfollow (c : Char) (cs : List Char) (hbars : ∀ more, c = '|' → cs = '|' :: more → False) :
      Text.spaceFor c = '|' → ∀ x ∈ (withSpaces cs).head?, x ≠ '|' := by
    rintro hc x hx rfl
    rw [← beq_iff_eq, hbar, beq_iff_eq] at hc
    cases cs with
    | nil => cases hx
    | cons y cs =>
        have hy : Text.spaceFor y = '|' := Option.some.inj hx
        rw [← beq_iff_eq, hbar, beq_iff_eq] at hy
        exact hbars cs hc (hy ▸ rfl)
  fun_induction splitBars single cs with
  | case1 => rfl
  | case2 cs ih =>
      show splitBars single ('|' :: '|' :: withSpaces cs) = _
      rw [splitBars, ih]
      rfl
  | case3 c cs hbars hsingle ih =>
      rw [Text.withSpaces_cons, splitBars_cons (hfollow c cs hbars), hbar, if_pos hsingle, ih]
      rfl
  | case4 c cs hbars hsingle part parts hparts ih =>
      rw [Text.withSpaces_cons, splitBars_cons (hfollow c cs hbars), hbar, if_neg hsingle, ih,
        hparts]
      rfl
  | case5 c cs _ _ hparts _ => exact absurd hparts (splitBars_ne_nil single cs)

theorem dropFlags_withSpaces (inFlag : Bool) (cs : List Char) :
    dropFlags inFlag (withSpaces cs) = withSpaces (dropFlags inFlag cs) := by
  induction cs generalizing inFlag with
  | nil => rfl
  | cons c cs ih =>
      have hletter : (Text.spaceFor c).isAlpha = c.isAlpha := overlooksBlanks_isAlpha.apply c
      have hflag : (Text.spaceFor c == '@') = (c == '@') :=
        (Text.overlooksBlanks_beq (by decide)).apply c
      have hnext : startsWithLetter (withSpaces cs) = startsWithLetter cs := by
        cases cs with
        | nil => rfl
        | cons x cs => exact overlooksBlanks_isAlpha.apply x
      rw [Text.withSpaces_cons, dropFlags, hletter, hflag, hnext, ih, ih, dropFlags]
      split
      · rfl
      · split <;> rfl

theorem closeUp_withSpaces (afterSign : Bool) (cs : List Char) :
    closeUp afterSign (withSpaces cs) = withSpaces (closeUp afterSign cs) := by
  induction cs generalizing afterSign with
  | nil => rfl
  | cons c cs ih =>
      rw [Text.withSpaces_cons, closeUp, Text.isBlank_spaceFor, overlooksBlanks_endsSign.apply, ih,
        ih, closeUp]
      split <;> rfl

theorem branches_withSpaces (d : AlternativesDialect) (range : List Char) :
    d.branches (withSpaces range) = (d.branches range).map withSpaces := by
  cases d with
  | npm => exact splitBars_withSpaces false range
  | composer =>
      rw [branches, dropFlags_withSpaces]
      exact splitBars_withSpaces true _

theorem isSeparator_spaceFor (d : AlternativesDialect) (c : Char) :
    d.isSeparator (Text.spaceFor c) = (isBlank c || d.isSeparator c) := by
  by_cases hc : isBlank c = true
  · rw [Text.spaceFor_of_isBlank hc, hc, Bool.true_or]
    cases d <;> rfl
  · rw [Text.spaceFor_of_not_isBlank (by simpa using hc), Bool.eq_false_iff.2 hc, Bool.false_or]

/-- With spaces, comparators are cut at all white space. -/
theorem tokens_withSpaces (d : AlternativesDialect) (cs : List Char) :
    d.tokens (withSpaces cs) = (d.tokens cs).flatMap Text.words := by
  have hseparator (c : Char) (h : d.isSeparator c = true) :
      (d.isSeparator ∘ Text.spaceFor) c = true := by
    rw [Function.comp_apply, isSeparator_spaceFor, h, Bool.or_true]
  have hparts : ∀ part ∈ (closeUp false cs).splitOnP (d.isSeparator ∘ Text.spaceFor),
      withSpaces part = part := by
    refine fun part hpart => Text.withSpaces_of_forall fun c hc => ?_
    have hnot := Text.of_mem_splitOnP hpart c hc
    rw [Function.comp_apply, isSeparator_spaceFor, Bool.or_eq_false_iff] at hnot
    exact hnot.1
  have hwords : ∀ part ∈ (closeUp false cs).splitOnP d.isSeparator,
      part.splitOnP (d.isSeparator ∘ Text.spaceFor) = part.splitOnP isBlank := by
    refine fun part hpart => Text.splitOnP_congr fun c hc => ?_
    rw [Function.comp_apply, isSeparator_spaceFor, Text.of_mem_splitOnP hpart c hc, Bool.or_false]
  have hempty (parts : List (List Char)) :
      (parts.filter fun part => !part.isEmpty).flatMap Text.words = parts.flatMap Text.words := by
    induction parts with
    | nil => rfl
    | cons part parts ih => cases part <;> simp [ih, Text.words]
  calc d.tokens (withSpaces cs)
    _ = (((closeUp false cs).splitOnP (d.isSeparator ∘ Text.spaceFor)).map withSpaces).filter
        fun part => !part.isEmpty := by
          rw [tokens, closeUp_withSpaces, withSpaces, Text.splitOnP_map]
          rfl
    _ = ((closeUp false cs).splitOnP (d.isSeparator ∘ Text.spaceFor)).filter
        fun part => !part.isEmpty := by
          rw [(List.map_congr_left hparts).trans (List.map_id' _)]
    _ = ((closeUp false cs).splitOnP d.isSeparator).flatMap Text.words := by
          rw [← Text.splitOnP_flatMap hseparator, List.filter_flatMap]
          exact List.flatMap_congr fun part hpart => by rw [hwords part hpart, Text.words]
    _ = (d.tokens cs).flatMap Text.words := (hempty _).symm

/-- White space directly behind a sign is left out before comparators are cut. -/
theorem isClosedUp_cons_closeUp (sign : Char) {afterSign : Bool}
    (h : endsSign sign = true → afterSign = true) (cs : List Char) :
    IsClosedUp (sign :: closeUp afterSign cs) := by
  induction cs generalizing sign afterSign with
  | nil => exact List.isChain_singleton sign
  | cons c cs ih =>
      rw [closeUp]
      split
      · exact ih sign fun _ => rfl
      · rename_i hc
        refine List.isChain_cons_cons.2 ⟨fun hsign => ?_, ih c id⟩
        simpa [h hsign] using hc

theorem isClosedUp_of_mem_tokens {d : AlternativesDialect} {cs token : List Char}
    (h : token ∈ d.tokens cs) : IsClosedUp token := by
  have hclosed : IsClosedUp (closeUp false cs) :=
    (isClosedUp_cons_closeUp ' ' (by decide) cs).tail
  exact List.IsChain.infix hclosed (Text.infix_of_mem_splitOnP (List.mem_filter.1 h).1)

theorem isAnyVersion_withSpaces (cs : List Char) :
    isAnyVersion (withSpaces cs) = isAnyVersion cs := by
  have hlatest : ∀ c ∈ "latest".toList, isBlank c = false := by
    simp [isBlank]
  have hsingle (x : Char) (h : isBlank x = false) : (withSpaces cs == [x]) = (cs == [x]) :=
    Text.beq_withSpaces (List.forall_mem_singleton.2 h)
  rw [isAnyVersion, Text.isEmpty_withSpaces, hsingle '*' (by decide), hsingle 'x' (by decide),
    hsingle 'X' (by decide), Text.beq_withSpaces hlatest, isAnyVersion]

/-- Two words with a hyphen between them. -/
def IsHyphenRange (cs : List Char) : Prop :=
  ∃ lower upper, Text.words cs = [lower, ['-'], upper]

/-- White space of an alternative stands where any kind of it is taken: the alternative
admits every version, it is a hyphen range, or each comparator that is cut out at spaces is
one word on its line. -/
def TakesBlanks (d : AlternativesDialect) (cs : List Char) : Prop :=
  isAnyVersion cs = true ∨ IsHyphenRange cs ∨ ∀ token ∈ d.tokens cs, IsPadded token

/-- No comparator has a wildcard that white space hides. -/
def KeepsWildcards (d : AlternativesDialect) (cs : List Char) : Prop :=
  d = .composer → ∀ token ∈ d.tokens cs,
    PartialVersion.hasWildcard token = PartialVersion.hasWildcard (Text.trim token)

theorem takesBlanks_of_branch {d : AlternativesDialect} {cs : List Char} {ts : List Term}
    (h : d.branch cs = .ok ts) : d.TakesBlanks (Text.trim cs) := by
  unfold branch at h
  dsimp only at h
  split at h
  · exact .inl ‹_›
  · split at h
    · exact .inr (.inl ⟨_, _, ‹_›⟩)
    · obtain ⟨tss, htss, _⟩ := bind_eq_ok.1 h
      refine .inr (.inr fun token htoken => ?_)
      obtain ⟨_, _, hcomparator⟩ := exists_mem_of_mapM htss htoken
      exact isPadded_of_comparator (isClosedUp_of_mem_tokens htoken) hcomparator

theorem branch_withSpaces {d : AlternativesDialect} {cs : List Char}
    (hblanks : d.TakesBlanks (Text.trim cs)) (hwildcards : d.KeepsWildcards (Text.trim cs))
    {ts : List Term} : d.branch (withSpaces cs) = .ok ts ↔ d.branch cs = .ok ts := by
  simp only [branch, Text.trim_withSpaces, isAnyVersion_withSpaces, Text.words_withSpaces]
  split
  · rfl
  · rename_i hany
    split
    · rfl
    · rename_i hhyphen
      have hpadded : ∀ token ∈ d.tokens (Text.trim cs), IsPadded token := by
        rcases hblanks with h | ⟨lower, upper, h⟩ | h
        · exact absurd h hany
        · exact absurd h (hhyphen lower upper)
        · exact h
      have htokens : d.tokens (withSpaces (Text.trim cs)) =
          (d.tokens (Text.trim cs)).map Text.trim := by
        rw [tokens_withSpaces, List.map_eq_flatMap]
        exact List.flatMap_congr fun token htoken => (hpadded token htoken).words
      have hcomparators {tss : List (List Term)} :
          (d.tokens (withSpaces (Text.trim cs))).mapM d.comparator = .ok tss ↔
            (d.tokens (Text.trim cs)).mapM d.comparator = .ok tss := by
        rw [htokens, List.mapM_map]
        exact mapM_congr_ok fun token htoken ts =>
          (comparator_trim (isClosedUp_of_mem_tokens htoken) (hpadded token htoken)
            fun hd => hwildcards hd token htoken).symm
      simp only [bind_eq_ok, hcomparators]

/-! ## Ranges -/

theorem nameAndRange_withSpaces (cs : List Char) :
    nameAndRange (withSpaces cs) = ((nameAndRange cs).1, withSpaces (nameAndRange cs).2) := by
  have hname : withSpaces (cs.takeWhile fun c => !isBlank c) = cs.takeWhile fun c => !isBlank c :=
    Text.withSpaces_of_forall fun c hc => by simpa using List.mem_takeWhile_imp hc
  have hblank := Text.overlooksBlanks_isBlank.not
  rw [nameAndRange, Text.takeWhile_withSpaces hblank, Text.dropWhile_withSpaces hblank,
    Text.trim_withSpaces, hname, nameAndRange]

theorem read_eq_ok_iff {d : AlternativesDialect} {cs : List Char} {r : Requirement} :
    d.read cs = .ok r ↔ (nameAndRange (Text.trim cs)).1 ≠ [] ∧
      ∃ branches, d.normalize (nameAndRange (Text.trim cs)).2 = .ok branches ∧
        r = ⟨String.ofList (nameAndRange (Text.trim cs)).1, branches.map Branch.ofTerms⟩ := by
  constructor
  · intro h
    obtain ⟨name, range, branches, hsplit, hname, hnormalize, rfl⟩ := exists_of_read h
    rw [hsplit]
    exact ⟨hname, branches, hnormalize, rfl⟩
  · rintro ⟨hname, branches, hnormalize, rfl⟩
    exact read_eq_ok rfl hname hnormalize

theorem read_withSpaces {d : AlternativesDialect} {cs : List Char}
    (h : ∀ part ∈ d.branches (nameAndRange (Text.trim cs)).2,
      d.TakesBlanks (Text.trim part) ∧ d.KeepsWildcards (Text.trim part))
    {r : Requirement} : d.read (withSpaces cs) = .ok r ↔ d.read cs = .ok r := by
  have hnormalize {branches : Alternatives} :
      d.normalize (withSpaces (nameAndRange (Text.trim cs)).2) = .ok branches ↔
        d.normalize (nameAndRange (Text.trim cs)).2 = .ok branches := by
    rw [normalize, branches_withSpaces, List.mapM_map, normalize]
    exact mapM_congr_ok fun part hpart ts => branch_withSpaces (h part hpart).1 (h part hpart).2
  simp only [read_eq_ok_iff, Text.trim_withSpaces, nameAndRange_withSpaces, hnormalize]

theorem takesBlanks_of_read {d : AlternativesDialect} {cs : List Char} {r : Requirement}
    (h : d.read cs = .ok r) : ∀ part ∈ d.branches (nameAndRange (Text.trim cs)).2,
      d.TakesBlanks (Text.trim part) := by
  obtain ⟨_, branches, hnormalize, _⟩ := read_eq_ok_iff.1 h
  intro part hpart
  obtain ⟨_, _, hbranch⟩ := exists_mem_of_mapM hnormalize hpart
  exact takesBlanks_of_branch hbranch

end AlternativesDialect

/-! ## Specifiers -/

namespace Grammar

/-- White space of a specifier stands where its grammar takes any kind of it. -/
def TakesBlanks : Grammar → List Char → Prop
  | .clauses _, cs =>
      ∀ c ∈ ClauseDialect.clauseText (Text.trim (cs.takeWhile (· != ';'))), c ≠ '\n'
  | .alternatives d, cs =>
      ∀ part ∈ d.branches (AlternativesDialect.nameAndRange (Text.trim cs)).2,
        d.TakesBlanks (Text.trim part)
  | .pin, _ => True

/-- White space of a specifier hides no wildcard. -/
def KeepsWildcards : Grammar → List Char → Prop
  | .alternatives d, cs =>
      ∀ part ∈ d.branches (AlternativesDialect.nameAndRange (Text.trim cs)).2,
        d.KeepsWildcards (Text.trim part)
  | .clauses _, _ | .pin, _ => True

theorem takesBlanks_of_read {g : Grammar} {cs : List Char} {r : Requirement}
    (h : g.read cs = .ok r) : g.TakesBlanks cs := by
  cases g with
  | clauses d => exact ClauseDialect.line_of_read h
  | alternatives d => exact AlternativesDialect.takesBlanks_of_read h
  | pin => trivial

theorem read_withSpaces {g : Grammar} {cs : List Char} (hblanks : g.TakesBlanks cs)
    (hwildcards : g.KeepsWildcards cs) {r : Requirement} :
    g.read (withSpaces cs) = .ok r ↔ g.read cs = .ok r := by
  cases g with
  | clauses d => exact d.read_withSpaces hblanks
  | alternatives d =>
      exact AlternativesDialect.read_withSpaces fun part hpart =>
        ⟨hblanks part hpart, hwildcards part hpart⟩
  | pin => rw [read, Pin.read_withSpaces]

end Grammar

namespace Ecosystem

/-- The specifier with a space for each of its white space characters. -/
def onlySpaces (s : String) : String :=
  String.ofList (withSpaces s.toList)

theorem parse_eq_ok_iff {e : Ecosystem} {s : String} {r : Requirement} :
    e.parse s = .ok r ↔ e.grammar.read s.toList = .ok r :=
  mapError_eq_ok

/-- What is read has its white space where the grammar takes any kind of it. Unless white
space hides a wildcard, exactly these specifiers are read as they are with spaces. -/
theorem parse_onlySpaces_iff (e : Ecosystem) (s : String) :
    (∀ r, e.parse s = .ok r → e.grammar.TakesBlanks s.toList) ∧
    (e.grammar.KeepsWildcards s.toList → ∀ r, e.parse s = .ok r ↔
      e.grammar.TakesBlanks s.toList ∧ e.parse (onlySpaces s) = .ok r) := by
  simp only [parse_eq_ok_iff, onlySpaces, String.toList_ofList]
  refine ⟨fun r h => Grammar.takesBlanks_of_read h, fun hwildcards r => ⟨fun h => ?_, ?_⟩⟩
  · have hblanks := Grammar.takesBlanks_of_read h
    exact ⟨hblanks, (Grammar.read_withSpaces hblanks hwildcards).2 h⟩
  · rintro ⟨hblanks, h⟩
    exact (Grammar.read_withSpaces hblanks hwildcards).1 h

/-- Tabs and line breaks around a name, a comparator and a bar, and one in the place of
the space between two comparators. -/
theorem parse_onlySpaces_iff_breaks :
    let s := "acme/lib\t>=1.2, <2\n||\t3.*\n"
    let r : Requirement := ⟨"acme/lib", [.all [⟨.atLeast, "1.2.0"⟩, ⟨.below, "2.0.0"⟩],
      .all [⟨.atLeast, "3.0.0"⟩, ⟨.below, "4.0.0"⟩]]⟩
    packagist.grammar.KeepsWildcards s.toList ∧ packagist.parse s = .ok r ∧
    packagist.grammar.TakesBlanks s.toList ∧ packagist.parse (onlySpaces s) = .ok r ∧
    ¬npm.grammar.TakesBlanks "foo >=1.0.0\t<2.0.0".toList := by
  intro s r
  have hwildcards : packagist.grammar.KeepsWildcards s.toList := by
    intro part hpart _
    revert part
    decide +kernel
  have hparse : packagist.parse s = .ok r := by decide +kernel
  obtain ⟨hblanks, hspaces⟩ := ((parse_onlySpaces_iff packagist s).2 hwildcards r).1 hparse
  refine ⟨hwildcards, hparse, hblanks, hspaces, fun htab => ?_⟩
  have hread := ((parse_onlySpaces_iff npm "foo >=1.0.0\t<2.0.0").2 (fun _ _ h => nomatch h)
    ⟨"foo", [.all [⟨.atLeast, "1.0.0"⟩, ⟨.below, "2.0.0"⟩]]⟩).2 ⟨htab, by decide +kernel⟩
  exact absurd hread (by decide +kernel)

/-- A line break between clauses is refused, and a tab after a wildcard hides it. -/
example : (pypi.parse "requests >=2.28,\n<3").toBool = false ∧
    (pypi.parse "requests >=2.28,\t<3").toBool = true ∧
    packagist.parse "acme/lib 1.*\t,<3" =
      .ok ⟨"acme/lib", [.all [.exact "1.0.0", ⟨.below, "3.0.0"⟩]]⟩ := by
  decide +kernel

/-- So a tab between two comparators does not separate them as a space does. -/
theorem not_parse_onlySpaces :
    ¬ ∀ (e : Ecosystem) (s : String) (r : Requirement),
      e.parse (onlySpaces s) = .ok r ↔ e.parse s = .ok r := by
  intro hall
  have hspaces : npm.parse (onlySpaces "foo >=1.0.0\t<2.0.0") =
      .ok ⟨"foo", [.all [⟨.atLeast, "1.0.0"⟩, ⟨.below, "2.0.0"⟩]]⟩ := by decide +kernel
  have htab := (hall npm _ _).1 hspaces
  exact absurd htab (by decide +kernel)

end Ecosystem

end Requirements
