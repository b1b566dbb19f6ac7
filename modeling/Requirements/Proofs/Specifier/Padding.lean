import Mathlib
import Requirements.Proofs.Specifier.Choice
import Requirements.Proofs.Text.Spaces

/-!
# White space around comparators

Comparators are cut at spaces, so white space of another kind stays with a comparator.
A comparator that is accepted is one word with at most white space around it: line
breaks are refused, and so is white space in front of a sign. Without this white space
the same terms are read, unless it hides a wildcard at the end of a Composer version.
-/

namespace Requirements

open Text (isBlank)

/-! ## Versions with white space around them -/

namespace PartialVersion

theorem read?_congr {cs ds : List Char} (h : Text.trim cs = Text.trim ds) :
    read? cs = read? ds := by
  rw [read?, h, read?]

/-- A wildcard that comes first leaves nothing of a version. -/
theorem read?_of_isWildcard {c : Char} {cs : List Char} {p : PartialVersion}
    (hc : isWildcard c = true) (h : read? (c :: cs) = some p) : p = .any := by
  obtain ⟨rest, htrim⟩ := Text.exists_trim_cons (isBlank_of_isWildcard hc) cs
  obtain ⟨core, first, after, tag, hcore, hfirst, _, rfl⟩ := exists_of_read? h
  have hmark : c ≠ 'v' ∧ c ≠ 'V' :=
    ⟨Text.ne_of_class hc (by decide), Text.ne_of_class hc (by decide)⟩
  have hcs : core = c :: rest := by
    rcases hcore with hcore | hcore | hcore <;> rw [htrim] at hcore
    · exact hcore.symm
    · exact absurd (List.cons.inj hcore).1 hmark.1
    · exact absurd (List.cons.inj hcore).1 hmark.2
  rw [hcs, component?, if_neg (by simp [isDecimalDigit_of_isWildcard hc]), if_pos hc] at hfirst
  obtain ⟨rfl, _⟩ := Prod.mk.inj (Option.some.inj hfirst)
  have hnone : Text.numeral? [c] = none := by
    simp only [isWildcard, Bool.or_eq_true, beq_iff_eq] at hc
    rcases hc with (rfl | rfl) | rfl <;> decide
  simp [ofComponents, hnone]

/-- Characters in front hide no wildcard but the one that comes first. -/
theorem hasWildcard_append {front cs : List Char} {p : PartialVersion} (hne : front ≠ [])
    (hfront : ∀ c ∈ front, c ≠ '-' ∧ c ≠ '+' ∧ c ≠ '.' ∧ isWildcard c = false)
    (hread : read? cs = some p) (hany : p ≠ .any) : hasWildcard (front ++ cs) = hasWildcard cs := by
  have hkept : ∀ c ∈ front, (c != '-' && c != '+') = true := fun c hc => by
    simp [(hfront c hc).1, (hfront c hc).2.1]
  have hpoint : ∀ c ∈ front, (c == '.') = false := fun c hc => by simp [(hfront c hc).2.2.1]
  obtain ⟨first, rest, hparts⟩ := List.exists_cons_of_ne_nil
    (List.splitOnP_ne_nil (· == '.') (cs.takeWhile fun c => c != '-' && c != '+'))
  -- A wildcard as the first part would be the first character of the version.
  have hfirst (x : Char) (hx : isWildcard x = true) : first ≠ [x] := by
    rintro rfl
    obtain ⟨more, hmore⟩ := (Text.prefix_of_splitOnP hparts).trans (List.takeWhile_prefix _)
    rw [← hmore] at hread
    exact hany (read?_of_isWildcard hx hread)
  have hhead (x : Char) (hx : isWildcard x = true) : front ++ first ≠ [x] := by
    intro heq
    obtain ⟨c, front, rfl⟩ := List.exists_cons_of_ne_nil hne
    obtain ⟨rfl, _⟩ := List.cons.inj heq
    rw [(hfront c List.mem_cons_self).2.2.2] at hx
    cases hx
  have hpart (part : List Char) (h : ∀ x, isWildcard x = true → part ≠ [x]) :
      (part == ['*'] || part == ['x'] || part == ['X']) = false := by
    simp [h '*' (by decide), h 'x' (by decide), h 'X' (by decide)]
  rw [hasWildcard, List.takeWhile_append_of_pos hkept, Text.splitOnP_append_front hpoint, hparts,
    hasWildcard, hparts, List.modifyHead_cons, List.any_cons, List.any_cons, hpart _ hfirst,
    hpart _ hhead]

end PartialVersion

/-! ## Signs in front -/

namespace AlternativesDialect

/-- The characters of comparison signs. -/
def isSign (c : Char) : Bool :=
  endsSign c || c == '!'

theorem mem_of_isSign {c : Char} (h : isSign c = true) :
    c ∈ ['<', '>', '=', '^', '~', '!'] := by
  simp only [isSign, endsSign, Bool.or_eq_true, beq_iff_eq] at h
  rcases h with ((((rfl | rfl) | rfl) | rfl) | rfl) | rfl <;> decide

/-- A class without comparison signs has none of their characters. -/
theorem isSign_of_class {p : Char → Bool}
    (hp : ['<', '>', '=', '^', '~', '!'].all (fun s => !p s) = true) {c : Char}
    (h : isSign c = true) : p c = false := by
  simpa using List.all_eq_true.1 hp c (mem_of_isSign h)

theorem isBlank_of_isSign {c : Char} (h : isSign c = true) : isBlank c = false :=
  isSign_of_class (by decide) h

/-- A sign: its characters are those of comparison signs, and it ends as one. -/
structure IsSign (sign : List Char) : Prop where
  chars : ∀ c ∈ sign, isSign c = true
  last : ∃ c, sign.getLast? = some c ∧ endsSign c = true

theorem IsSign.ne_nil {sign : List Char} (h : IsSign sign) : sign ≠ [] := by
  rintro rfl
  obtain ⟨c, hc, _⟩ := h.last
  cases hc

theorem isSign_of_mem_ofComparators {e : String × Mark} (h : e ∈ Mark.ofComparators) :
    IsSign e.1.toList := by
  have hall : ∀ e ∈ Mark.ofComparators, (∀ c ∈ e.1.toList, isSign c = true) ∧
      e.1.toList.getLast?.any endsSign = true := by
    simp [Mark.ofComparators, isSign, endsSign]
  obtain ⟨hchars, hlast⟩ := hall e h
  exact ⟨hchars, (Option.any_eq_true _ _).1 hlast⟩

theorem isOperand_iff {cs : List Char} :
    isOperand cs = true ↔ cs ≠ [] ∧ ∀ c ∈ cs, c ≠ '\n' := by
  simp [isOperand]

/-! ## Comparators with white space around them -/

/-- A text that does not start as a sign has none split off. -/
theorem split?_bare {cs : List Char} (hoperand : isOperand cs = true)
    (h : ∀ c ∈ cs.head?, isSign c = false) {table : List (String × Mark)}
    (htable : ∀ e ∈ table, IsSign e.1.toList) :
    Mark.split? isOperand cs table = some (none, cs) := by
  refine Mark.split?_of_not_prefix hoperand fun e he ⟨rest, hcs⟩ => ?_
  obtain ⟨c, sign, hsign⟩ := List.exists_cons_of_ne_nil (htable e he).ne_nil
  have hc := h c (by rw [← hcs, hsign]; rfl)
  rw [(htable e he).chars c (by rw [hsign]; exact List.mem_cons_self)] at hc
  cases hc

theorem prefix_append_blanks {sign word back : List Char} (hsign : IsSign sign)
    (hback : ∀ c ∈ back, isBlank c = true) :
    sign <+: word ++ back ↔ sign <+: word := by
  refine ⟨fun h => ?_, fun h => h.trans (List.prefix_append word back)⟩
  rcases List.prefix_or_prefix_of_prefix h (List.prefix_append word back) with h' | ⟨rest, rfl⟩
  · exact h'
  · cases rest with
    | nil => rw [List.append_nil]
    | cons c rest =>
        have hrest : c :: rest <+: back := (List.prefix_append_right_inj word).1 h
        have hblank := hback c (hrest.subset List.mem_cons_self)
        rw [isBlank_of_isSign (hsign.chars c (by simp))] at hblank
        cases hblank

section

variable {word back : List Char} (hword : ∀ c ∈ word, isBlank c = false)
  (hback : ∀ c ∈ back, isBlank c = true)

include hword hback

/-- White space after a word that does not end as a sign goes to the operand. -/
theorem split?_append_blanks (hne : word ≠ []) (hline : ∀ c ∈ back, c ≠ '\n')
    (hlast : ∀ c ∈ word.getLast?, endsSign c = false) {table : List (String × Mark)}
    (htable : ∀ e ∈ table, IsSign e.1.toList) :
    Mark.split? isOperand (word ++ back) table =
      (Mark.split? isOperand word table).map fun r => (r.1, r.2 ++ back) := by
  have hwordline : ∀ c ∈ word, c ≠ '\n' := by
    rintro c hc rfl
    exact absurd (hword '\n' hc) (by decide)
  induction table with
  | nil =>
      have hoperand : isOperand word = true := isOperand_iff.2 ⟨hne, hwordline⟩
      have hboth : isOperand (word ++ back) = true := isOperand_iff.2
        ⟨List.append_ne_nil_of_left_ne_nil hne _, List.forall_mem_append.2 ⟨hwordline, hline⟩⟩
      rw [Mark.split?, if_pos hboth, Mark.split?, if_pos hoperand]
      rfl
  | cons e table ih =>
      obtain ⟨hsign, htable⟩ := List.forall_mem_cons.1 htable
      rw [Mark.split?_cons, Mark.split?_cons, ih htable]
      by_cases hstart : e.1.toList <+: word
      · obtain ⟨rest, hrest⟩ := hstart
        have hrestne : rest ≠ [] := by
          rintro rfl
          obtain ⟨c, hc, hends⟩ := hsign.last
          rw [List.append_nil] at hrest
          rw [hlast c (hrest ▸ hc)] at hends
          cases hends
        have hrestline : ∀ c ∈ rest, c ≠ '\n' := fun c hc =>
          hwordline c (hrest ▸ List.mem_append_right _ hc)
        have hoperand : isOperand rest = true := isOperand_iff.2 ⟨hrestne, hrestline⟩
        have hboth : isOperand (rest ++ back) = true := isOperand_iff.2
          ⟨List.append_ne_nil_of_left_ne_nil hrestne _,
            List.forall_mem_append.2 ⟨hrestline, hline⟩⟩
        rw [← hrest, List.append_assoc, List.drop_left, List.drop_left, hoperand, hboth]
        simp [List.isPrefixOf_iff_prefix]
      · have hnot : ¬e.1.toList <+: word ++ back := by
          rwa [prefix_append_blanks hsign hback]
        simp [List.isPrefixOf_iff_prefix, hstart, hnot]

end

/-- The terms of a comparator depend on its operand only by the version that is read,
by its numbers after a sign, and in Composer by whether it has a wildcard. -/
theorem terms?_congr {d : AlternativesDialect} {mark : Option Mark} {operand other : List Char}
    {p : PartialVersion}
    (hend : mark ≠ none → Release.pessimisticEnd operand = Release.pessimisticEnd other)
    (hwildcard : d = .composer → p ≠ .any →
      PartialVersion.hasWildcard operand = PartialVersion.hasWildcard other) :
    d.terms? mark operand p = d.terms? mark other p := by
  cases d with
  | npm => rfl
  | composer =>
      have hcovers : (PartialVersion.hasWildcard operand || decide (p = .any)) =
          (PartialVersion.hasWildcard other || decide (p = .any)) := by
        by_cases hany : p = .any
        · simp [hany]
        · rw [hwildcard rfl hany]
      cases mark with
      | none => simp only [terms?, composerTerms?, hcovers]
      | some mark => simp only [terms?, composerTerms?, hcovers, hend (by simp)]

theorem isSign_of_mem_outline (x : PartialVersion.Outline) : ∀ c ∈ x.text, isSign c = false := by
  intro c hc
  rcases x.class_of_mem_text hc with hc | hc | hc | rfl
  · exact Text.class_symm isSign (fun _ => isSign_of_class (by decide)) hc
  · exact Text.class_symm isSign (fun _ => isSign_of_class (by decide)) hc
  · exact Text.class_symm isSign (fun _ => isSign_of_class (by decide)) hc
  · decide

/-- A comparator that is one word on its line, with at most white space around it, and
none in front of a sign. -/
structure IsPadded (token : List Char) : Prop where
  ne_nil : Text.trim token ≠ []
  word : ∀ c ∈ Text.trim token, isBlank c = false
  line : ∀ c ∈ token, c ≠ '\n'
  bare : (∃ c ∈ token.head?, isBlank c = true) → ∀ c ∈ (Text.trim token).head?, isSign c = false

theorem IsPadded.words {token : List Char} (h : IsPadded token) :
    Text.words token = [Text.trim token] := by
  have hsingle := Text.words_intercalate (List.forall_mem_singleton.2 ⟨h.ne_nil, h.word⟩)
  rwa [List.intercalate_singleton, Text.words_trim] at hsingle

/-- No white space stands directly behind a comparison sign. -/
def IsClosedUp (cs : List Char) : Prop :=
  cs.IsChain fun a b => endsSign a = true → isBlank b = false

theorem isPadded_of_comparator {d : AlternativesDialect} {token : List Char} {ts : List Term}
    (hclosed : IsClosedUp token) (h : d.comparator token = .ok ts) : IsPadded token := by
  cases hsplit : Mark.split? isOperand token Mark.ofComparators with
  | none => simp [comparator, hsplit] at h
  | some result =>
      obtain ⟨mark, operand⟩ := result
      obtain ⟨p, hread, _⟩ := (comparator_eq_ok_iff hsplit).1 h
      obtain ⟨x, htrim, rfl⟩ := PartialVersion.read?_eq_some_iff.1 hread
      obtain ⟨hoperand, hshape⟩ := Mark.split?_eq_some hsplit
      obtain ⟨_, hline⟩ := isOperand_iff.1 hoperand
      rcases hshape with ⟨rfl, rfl⟩ | ⟨e, he, rfl, rfl⟩
      · refine ⟨?_, ?_, hline, fun _ c hc => ?_⟩
        · rw [htrim]
          exact x.text_ne_nil
        · rw [htrim]
          exact x.isBlank_of_mem_text
        · rw [htrim] at hc
          exact isSign_of_mem_outline x c (List.mem_of_mem_head? hc)
      · have hsign := isSign_of_mem_ofComparators he
        obtain ⟨front, back, hoperandeq, hfront, hback⟩ := Text.exists_trim operand
        -- The operand comes directly after the sign.
        have hnil : front = [] := by
          cases front with
          | nil => rfl
          | cons c front =>
              obtain ⟨s, hs, hends⟩ := hsign.last
              rw [hoperandeq] at hclosed
              have hafter := (List.isChain_append.1 hclosed).2.2 s hs c rfl hends
              rw [hfront c List.mem_cons_self] at hafter
              cases hafter
        rw [hnil, List.nil_append, htrim] at hoperandeq
        have hword : ∀ c ∈ e.1.toList ++ x.text, isBlank c = false := List.forall_mem_append.2
          ⟨fun c hc => isBlank_of_isSign (hsign.chars c hc), x.isBlank_of_mem_text⟩
        have htoken : Text.trim (e.1.toList ++ operand) = e.1.toList ++ x.text := by
          rw [hoperandeq, ← List.append_assoc, Text.trim_append_blanks hback,
            Text.trim_of_forall hword]
        refine ⟨?_, ?_, List.forall_mem_append.2 ⟨?_, hline⟩, ?_⟩
        · rw [htoken]
          exact List.append_ne_nil_of_left_ne_nil hsign.ne_nil _
        · rwa [htoken]
        · rintro c hc rfl
          exact absurd (hsign.chars '\n' hc) (by decide)
        · rintro ⟨c, hc, hblank⟩
          rw [List.head?_append_of_ne_nil _ hsign.ne_nil] at hc
          rw [isBlank_of_isSign (hsign.chars c (List.mem_of_mem_head? hc))] at hblank
          cases hblank

/-- What is read of a sign and a version is read of them without white space at the end. -/
theorem comparator_append_blanks {d : AlternativesDialect} {word back : List Char}
    (hne : word ≠ []) (hword : ∀ c ∈ word, isBlank c = false)
    (hback : ∀ c ∈ back, isBlank c = true) (hline : ∀ c ∈ back, c ≠ '\n')
    (hlast : ∀ c ∈ word.getLast?, endsSign c = false)
    (hwildcard : d = .composer →
      PartialVersion.hasWildcard (word ++ back) = PartialVersion.hasWildcard word)
    {ts : List Term} : d.comparator (word ++ back) = .ok ts ↔ d.comparator word = .ok ts := by
  have happend := split?_append_blanks hword hback hne hline hlast
    fun _ => isSign_of_mem_ofComparators
  cases hsplit : Mark.split? isOperand word Mark.ofComparators with
  | none =>
      rw [hsplit] at happend
      simp [comparator, hsplit, happend]
  | some result =>
      obtain ⟨mark, operand⟩ := result
      rw [hsplit] at happend
      have hread : PartialVersion.read? (operand ++ back) = PartialVersion.read? operand :=
        PartialVersion.read?_congr (Text.trim_append_blanks hback operand)
      rw [comparator_eq_ok_iff hsplit, comparator_eq_ok_iff happend, hread]
      refine exists_congr fun p => and_congr_right fun hp => ?_
      rw [terms?_congr (fun _ => Release.pessimisticEnd_append_blanks hback operand)]
      intro hd hany
      rcases (Mark.split?_eq_some hsplit).2 with ⟨_, rfl⟩ | ⟨e, he, _, rfl⟩
      · exact hwildcard hd
      · have hsign := isSign_of_mem_ofComparators he
        have hchars : ∀ c ∈ e.1.toList,
            c ≠ '-' ∧ c ≠ '+' ∧ c ≠ '.' ∧ PartialVersion.isWildcard c = false := fun c hc =>
          ⟨Text.ne_of_class (hsign.chars c hc) (by decide),
            Text.ne_of_class (hsign.chars c hc) (by decide),
            Text.ne_of_class (hsign.chars c hc) (by decide),
            isSign_of_class (by decide) (hsign.chars c hc)⟩
        rw [← PartialVersion.hasWildcard_append hsign.ne_nil hchars (hread.trans hp) hany,
          ← PartialVersion.hasWildcard_append hsign.ne_nil hchars hp hany, ← List.append_assoc]
        exact hwildcard hd

/-- What is read of a version without a sign is read of it without white space around. -/
theorem comparator_bare {d : AlternativesDialect} {token : List Char}
    (hne : token ≠ []) (hline : ∀ c ∈ token, c ≠ '\n') (hhead : ∀ c ∈ token.head?, isSign c = false)
    {ts : List Term} :
    d.comparator token = .ok ts ↔
      ∃ p, PartialVersion.read? token = some p ∧ d.terms? none token p = some (.ok ts) :=
  comparator_eq_ok_iff
    (split?_bare (isOperand_iff.2 ⟨hne, hline⟩) hhead fun _ => isSign_of_mem_ofComparators)

/-- What is read of a padded comparator is read of it without white space around. -/
theorem comparator_trim {d : AlternativesDialect} {token : List Char}
    (hclosed : IsClosedUp token) (hpad : IsPadded token)
    (hwildcard : d = .composer →
      PartialVersion.hasWildcard token = PartialVersion.hasWildcard (Text.trim token))
    {ts : List Term} : d.comparator token = .ok ts ↔ d.comparator (Text.trim token) = .ok ts := by
  obtain ⟨front, back, htoken, hfront, hback⟩ := Text.exists_trim token
  obtain ⟨hne, hword, hline, hbare⟩ := hpad
  generalize Text.trim token = word at *
  cases front with
  | nil =>
      rw [List.nil_append] at htoken
      subst htoken
      obtain ⟨_, hbackline⟩ := List.forall_mem_append.1 hline
      cases back with
      | nil => rw [List.append_nil]
      | cons c back =>
          -- A sign at the end would have white space behind it.
          have hlast : ∀ x ∈ word.getLast?, endsSign x = false := by
            intro x hx
            by_contra hends
            have hafter := (List.isChain_append.1 hclosed).2.2 x hx c rfl (by simpa using hends)
            rw [hback c List.mem_cons_self] at hafter
            cases hafter
          exact comparator_append_blanks hne hword hback hbackline hlast hwildcard
  | cons c front =>
      have hblank : isBlank c = true := hfront c List.mem_cons_self
      have hsign := hbare ⟨c, by rw [htoken]; rfl, hblank⟩
      have hread : PartialVersion.read? token = PartialVersion.read? word := by
        refine PartialVersion.read?_congr ?_
        rw [htoken, Text.trim_blanks_append hfront, Text.trim_append_blanks hback]
      have hwordline : ∀ x ∈ word, x ≠ '\n' := fun x hx =>
        hline x (htoken ▸ List.mem_append_right _ (List.mem_append_left _ hx))
      have hhead : ∀ x ∈ token.head?, isSign x = false := by
        intro x hx
        rw [htoken] at hx
        obtain rfl := Option.some.inj hx
        exact Text.class_symm isSign (fun _ => isBlank_of_isSign) hblank
      have htokenne : token ≠ [] := by simp [htoken]
      rw [comparator_bare htokenne hline hhead, comparator_bare hne hwordline hsign, hread]
      refine exists_congr fun p => and_congr_right fun _ => ?_
      rw [terms?_congr (fun h => absurd rfl h) fun hd _ => hwildcard hd]

end AlternativesDialect

end Requirements
