import Mathlib
import Requirements.Proofs.Requirement.Merge
import Requirements.Proofs.Specifier.Term
import Requirements.Specifier.Clauses

/-!
# Comma-separated clauses read back

Whatever the clauses of a specifier are, reading them gives terms that each
dialect writes as one clause: Cargo expands every clause to complete versions,
and the others keep version tokens. Such a term reads back as itself, because a
comparison with a version of that kind is no shorthand.
-/

namespace Requirements.ClauseDialect

open PartialVersion (IsExpansion)
open Text (isBlank)

/-! ## Terms that clauses stand for -/

/-- One or more terms with version tokens. -/
def IsTokenList (ts : List Term) : Prop :=
  ts ≠ [] ∧ ∀ t ∈ ts, isVersionToken t.version.toList = true

/-- The terms that a dialect writes so that they read back. -/
def Writes : ClauseDialect → Term → Prop
  | .cargo, t => t.version.IsComplete
  | .pep440, t | .gem, t => isVersionToken t.version.toList = true

theorem isVersionToken_of_writes {d : ClauseDialect} {t : Term} (h : d.Writes t) :
    isVersionToken t.version.toList = true := by
  cases d with
  | pep440 => exact h
  | cargo => exact PartialVersion.isVersionToken_of_isComplete h
  | gem => exact h

theorem isTokenList_of_isExpansion {op : Operator} {ts : List Term} (h : IsExpansion op ts) :
    IsTokenList ts :=
  ⟨h.1, fun t ht => PartialVersion.isVersionToken_of_isComplete (h.2 t ht).1⟩

theorem isTokenList_plain {op : Operator} {cs : List Char} {ts : List Term}
    (h : plain op cs = .ok ts) : IsTokenList ts := by
  obtain ⟨v, hv, h⟩ := bind_eq_ok.1 h
  obtain rfl := pure_eq_ok.1 h
  refine ⟨by simp, fun t ht => ?_⟩
  obtain rfl := List.mem_singleton.1 ht
  exact (isVersionToken_of_versionToken hv).1

theorem isTokenList_range {lower upper : Version} (hlower : isVersionToken lower.toList = true)
    (hupper : isVersionToken upper.toList = true) :
    IsTokenList [⟨.atLeast, lower⟩, ⟨.below, upper⟩] := by
  refine ⟨by simp, fun t ht => ?_⟩
  simp only [List.mem_cons, List.not_mem_nil, or_false] at ht
  rcases ht with rfl | rfl
  · exact hlower
  · exact hupper

theorem isVersionToken_of_bumpLast {ns : List Nat} (hne : ns ≠ []) {v : Version}
    (h : bumpLast ns = .ok v) : isVersionToken v.toList = true := by
  obtain ⟨n, ns, rfl⟩ := List.exists_cons_of_ne_nil hne
  obtain ⟨last, _, h⟩ := bind_eq_ok.1 h
  obtain rfl := pure_eq_ok.1 h
  exact PartialVersion.isVersionToken_dotted (by simp)

theorem isVersionToken_of_pessimisticEnd {cs : List Char} {v : Version}
    (h : Release.pessimisticEnd cs = .ok (some v)) : isVersionToken v.toList = true := by
  unfold Release.pessimisticEnd at h
  split at h
  · cases h
  · obtain ⟨upper, hupper, h⟩ := bind_eq_ok.1 h
    obtain rfl := Option.some.inj (pure_eq_ok.1 h)
    refine isVersionToken_of_bumpLast (fun hnil => ?_) hupper
    rcases List.take_eq_nil_iff.1 hnil with h | h
    · omega
    · cases h

theorem isTokenList_pessimistic {cs : List Char} {ts : List Term} (h : pessimistic cs = .ok ts) :
    IsTokenList ts := by
  obtain ⟨v, hv, h⟩ := bind_eq_ok.1 h
  split at h
  · cases h
  · cases h
  · rename_i upper hupper
    obtain rfl := Except.ok.inj h
    exact isTokenList_range (isVersionToken_of_versionToken hv).1
      (isVersionToken_of_pessimisticEnd hupper)

theorem isTokenList_startingWith {stem : List Char} {ts : List Term}
    (h : startingWith stem = .ok ts) : IsTokenList ts := by
  unfold startingWith at h
  dsimp only at h
  split at h
  · cases h
  · rename_i hstem
    simp only [Bool.or_eq_true, List.isEmpty_iff, bne_iff_ne, ne_eq, not_or, not_not] at hstem
    obtain ⟨hne, hdotted⟩ := hstem
    split at h
    · cases h
    · rename_i upper hupper
      obtain rfl := Except.ok.inj h
      refine isTokenList_range ?_ (isVersionToken_of_bumpLast hne hupper)
      rw [← hdotted]
      exact PartialVersion.isVersionToken_dotted hne

theorem isExpansion_cargoTerms {mark : Option Mark} {cs : List Char} {ts : List Term}
    (h : cargoTerms mark cs = .ok ts) : IsExpansion .notEqual ts := by
  unfold cargoTerms at h
  split at h
  · cases h
  · rename_i p hp
    have hfits := PartialVersion.fits_of_read? hp
    split at h
    · have h := mapError_eq_ok.1 h
      split at h
      · exact PartialVersion.isExpansion_covered _ hfits h
      · exact PartialVersion.isExpansion_caret _ hfits h
    · have h := mapError_eq_ok.1 h
      split at h
      · exact PartialVersion.isExpansion_covered _ hfits h
      · exact PartialVersion.isExpansion_caret _ hfits h
    · exact PartialVersion.isExpansion_tilde _ hfits (mapError_eq_ok.1 h)
    · exact PartialVersion.isExpansion_covered _ hfits (mapError_eq_ok.1 h)
    · have hop := PartialVersion.isExpansion_comparison hfits (mapError_eq_ok.1 h)
      exact ⟨hop.1, fun t ht => ⟨(hop.2 t ht).1, fun _ => rfl⟩⟩
    · cases h

theorem isTokenList_pep440Terms {mark : Option Mark} {cs : List Char} {ts : List Term}
    (h : pep440Terms mark cs = .ok ts) : IsTokenList ts := by
  unfold pep440Terms at h
  split at h
  · split at h
    · cases h
    · exact isTokenList_pessimistic h
  · split at h
    · exact isTokenList_startingWith h
    · exact isTokenList_plain h
  · split at h
    · exact isTokenList_startingWith h
    · exact isTokenList_plain h
  · split at h
    · exact isTokenList_startingWith h
    · exact isTokenList_plain h
  · split at h
    · cases h
    · exact isTokenList_plain h
  · exact isTokenList_plain h
  · exact isTokenList_of_isExpansion (isExpansion_cargoTerms h)
  · exact isTokenList_of_isExpansion (isExpansion_cargoTerms h)
  · cases h

theorem isTokenList_gemTerms {mark : Option Mark} {cs : List Char} {ts : List Term}
    (h : gemTerms mark cs = .ok ts) : IsTokenList ts := by
  unfold gemTerms at h
  split at h
  · exact isTokenList_pessimistic h
  · exact isTokenList_plain h
  · exact isTokenList_plain h
  · cases h

/-- A clause stands for one or more terms, all of which its dialect can write. -/
theorem writes_of_clause {d : ClauseDialect} {cs : List Char} {ts : List Term}
    (h : d.clause cs = .ok ts) : ts ≠ [] ∧ ∀ t ∈ ts, d.Writes t := by
  unfold clause at h
  dsimp only at h
  split at h
  · cases h
  · split at h
    · cases h
    · cases d with
      | pep440 => exact isTokenList_pep440Terms h
      | cargo =>
          have hterms := isExpansion_cargoTerms h
          exact ⟨hterms.1, fun t ht => (hterms.2 t ht).1⟩
      | gem => exact isTokenList_gemTerms h

/-! ## Clauses read back -/

theorem toList_renderTerm (d : ClauseDialect) (t : Term) :
    (d.renderTerm t).toList = t.op.symbol.toList ++ t.version.toList ∨
      t.op = .equal ∧ (d.renderTerm t).toList = '=' :: '=' :: t.version.toList := by
  unfold renderTerm
  split
  · rename_i h
    exact .inr ⟨h.2, String.toList_append⟩
  · exact .inl t.toList_text

theorem isTermChar_of_mem_renderTerm {d : ClauseDialect} {t : Term} (h : d.Writes t) :
    ∀ c ∈ (d.renderTerm t).toList, isTermChar c = true := by
  have hchars := Term.isTermChar_of_mem_text (isVersionToken_of_writes h)
  rw [Term.toList_text] at hchars
  intro c hc
  rcases toList_renderTerm d t with heq | ⟨_, heq⟩
  · exact hchars c (heq ▸ hc)
  · rw [heq] at hc
    rcases List.mem_cons.1 hc with rfl | hc
    · rfl
    · rcases List.mem_cons.1 hc with rfl | hc
      · rfl
      · exact hchars c (List.mem_append_right _ hc)

theorem renderTerm_ne_nil (d : ClauseDialect) (t : Term) : (d.renderTerm t).toList ≠ [] := by
  rcases toList_renderTerm d t with heq | ⟨_, heq⟩
  · rw [heq, ← Term.toList_text]
    exact t.text_ne_nil
  · rw [heq]
    simp

theorem isOperand_of_isVersionToken {cs : List Char} (h : isVersionToken cs = true) :
    isOperand cs = true := by
  have hblank := isBlank_of_mem_token h
  obtain ⟨c, rest, rfl, _, _⟩ := exists_cons_of_isVersionToken h
  rw [isOperand, Text.trimStart_eq_self fun x hx => hblank x (List.mem_of_mem_head? hx)]
  exact Bool.and_eq_true_iff.2 ⟨rfl, List.all_eq_true.2 fun x hx => by simp [hblank x hx]⟩

theorem eq_append_of_wildcardStem? {cs stem : List Char} (h : wildcardStem? cs = some stem) :
    cs = stem ++ ['.', '*'] := by
  unfold wildcardStem? at h
  split at h
  · rename_i hsuffix
    obtain ⟨front, rfl⟩ := List.isSuffixOf_iff_suffix.1 hsuffix
    obtain rfl := Option.some.inj h
    simp
  · cases h

/-- A star is no version character, so a version token is no wildcard. -/
theorem wildcardStem?_of_isVersionToken {cs : List Char} (h : isVersionToken cs = true) :
    wildcardStem? cs = none := by
  obtain ⟨_, _, _, _, hchars⟩ := exists_cons_of_isVersionToken h
  refine if_neg fun hsuffix => ?_
  have hstar : '*' ∈ cs := (List.isSuffixOf_iff_suffix.1 hsuffix).subset (by simp)
  exact absurd (hchars '*' hstar) (by decide)

theorem plain_of_isVersionToken {t : Term} (h : isVersionToken t.version.toList = true) :
    plain t.op t.version.toList = .ok [t] := by
  rw [plain, versionToken_eq_ok h, String.ofList_toList]
  rfl

theorem cargoTerms_of_isComplete {t : Term} (h : t.version.IsComplete) :
    cargoTerms (some (.compare t.op)) t.version.toList = .ok [t] := by
  obtain ⟨op, v⟩ := t
  obtain ⟨a, b, c, tag, hfits, rfl⟩ := h
  have hread := PartialVersion.read?_written hfits
  have hwritten : (PartialVersion.patch a b c tag).written =
      (PartialVersion.patch a b c tag).floor := rfl
  rw [hwritten] at hread
  cases op <;> simp only [cargoTerms, hread] <;> rfl

/-- A comparison with a version that the dialect writes is no shorthand. -/
theorem terms_of_writes {d : ClauseDialect} {t : Term} (h : d.Writes t) :
    d.terms (some (.compare t.op)) t.version.toList = .ok [t] := by
  have hplain := plain_of_isVersionToken (isVersionToken_of_writes h)
  have hwildcard := wildcardStem?_of_isVersionToken (isVersionToken_of_writes h)
  cases d with
  | cargo => exact cargoTerms_of_isComplete h
  | gem => exact hplain
  | pep440 =>
      obtain ⟨op, v⟩ := t
      cases op <;> simpa [terms, pep440Terms, hwildcard] using hplain

/-- Every term reads back from the clause it is written as. -/
theorem clause_renderTerm {d : ClauseDialect} {t : Term} (h : d.Writes t) :
    d.clause (d.renderTerm t).toList = .ok [t] := by
  have htoken := isVersionToken_of_writes h
  have hoperand := isOperand_of_isVersionToken htoken
  have hblank : ∀ c ∈ (d.renderTerm t).toList, isBlank c = false := fun c hc =>
    isBlank_of_isTermChar (isTermChar_of_mem_renderTerm h c hc)
  have hsplit : Mark.split? isOperand (d.renderTerm t).toList Mark.ofClauses =
      some (some (.compare t.op), t.version.toList) := by
    rcases toList_renderTerm d t with heq | ⟨hop, heq⟩
    · rw [heq, Mark.split?_ofClauses htoken hoperand]
    · rw [heq, Mark.split?_ofClauses_equal htoken hoperand, hop]
  have htrim : Text.trimStart t.version.toList = t.version.toList :=
    Text.trimStart_eq_self fun c hc => isBlank_of_mem_token htoken c (List.mem_of_mem_head? hc)
  have hempty := List.isEmpty_eq_false_iff.2 (renderTerm_ne_nil d t)
  rw [clause, Text.trim_of_forall hblank]
  simp only [hempty, hsplit, htrim]
  exact terms_of_writes h

/-! ## Specifiers -/

/-- A package name: a letter or digit and further name characters. -/
def IsName (cs : List Char) : Prop :=
  ∃ c rest, cs = c :: rest ∧ c.isAlphanum = true ∧ ∀ x ∈ cs, isNameChar x = true

/-- A requirement that the dialect writes so that it reads back: it has a name,
and its one branch has terms, all of which can be written. -/
structure Composable (d : ClauseDialect) (r : Requirement) : Prop where
  name : IsName r.name.toList
  branch : ∃ b, r.branches = [b] ∧ b.terms ≠ [] ∧ ∀ t ∈ b.terms, d.Writes t

theorem Composable.join {d : ClauseDialect} {m r : Requirement} (hm : d.Composable m)
    (hr : d.Composable r) : d.Composable (m.join r) where
  name := hm.name
  branch := by
    obtain ⟨b, hb, hbne, hbterms⟩ := hm.branch
    obtain ⟨c, hc, _, hcterms⟩ := hr.branch
    refine ⟨.ofTerms (b.terms ++ c.terms), ?_, ?_, ?_⟩
    · simp [Requirement.join, hb, hc, Branch.conjoin]
    · rw [Branch.terms_ofTerms]
      exact List.append_ne_nil_of_left_ne_nil hbne _
    · intro t ht
      rw [Branch.terms_ofTerms] at ht
      rcases List.mem_append.1 ht with ht | ht
      · exact hbterms t ht
      · exact hcterms t ht

theorem writes_any (d : ClauseDialect) : d.Writes .any := by
  have hcomplete : Term.any.version.IsComplete :=
    PartialVersion.isComplete_floor (p := .any) trivial
  cases d with
  | cargo => exact hcomplete
  | pep440 => exact PartialVersion.isVersionToken_of_isComplete hcomplete
  | gem => exact PartialVersion.isVersionToken_of_isComplete hcomplete

theorem isName_of_nameAndClauses? {cs name rest : List Char}
    (h : nameAndClauses? cs = some (name, rest)) : IsName name := by
  unfold nameAndClauses? at h
  dsimp only at h
  split at h
  · rename_i c cs' hname
    split at h
    · rename_i hc
      obtain rfl := (Prod.mk.inj (Option.some.inj h)).1
      refine ⟨c, cs', hname, (Bool.and_eq_true_iff.1 hc).1, fun x hx => ?_⟩
      exact List.mem_takeWhile_imp hx
    · cases h
  · cases h

/-- What is read is a name and one branch, with terms that can be written. -/
theorem exists_of_read {d : ClauseDialect} {cs : List Char} {r : Requirement}
    (h : d.read cs = .ok r) :
    ∃ name ts, r = ⟨String.ofList name, [.ofTerms ts]⟩ ∧ IsName name ∧ ts ≠ [] ∧
      ∀ t ∈ ts, d.Writes t := by
  unfold read at h
  split at h
  · cases h
  · rename_i name rest hname
    have hisName := isName_of_nameAndClauses? hname
    dsimp only at h
    split at h
    · obtain rfl := pure_eq_ok.1 h
      refine ⟨name, [.any], rfl, hisName, by simp, fun t ht => ?_⟩
      obtain rfl := List.mem_singleton.1 ht
      exact d.writes_any
    · obtain ⟨tss, htss, h⟩ := bind_eq_ok.1 h
      obtain rfl := pure_eq_ok.1 h
      refine ⟨name, tss.flatten, rfl, hisName, ?_, fun t ht => ?_⟩
      · -- There is a first clause, and it has a first term.
        have hlength := (mapM_eq_ok.1 htss).length_eq
        cases tss with
        | nil => exact absurd (List.length_eq_zero_iff.1 hlength) (List.splitOnP_ne_nil _ _)
        | cons ts tss =>
            obtain ⟨clause, _, hclause⟩ := exists_of_mem_mapM htss List.mem_cons_self
            rw [List.flatten_cons]
            exact List.append_ne_nil_of_left_ne_nil (writes_of_clause hclause).1 _
      · obtain ⟨ts, hts, ht⟩ := List.mem_flatten.1 ht
        obtain ⟨clause, _, hclause⟩ := exists_of_mem_mapM htss hts
        exact (writes_of_clause hclause).2 t ht

/-- Whatever is read can be written. -/
theorem composable_of_read {d : ClauseDialect} {cs : List Char} {r : Requirement}
    (h : d.read cs = .ok r) : d.Composable r := by
  obtain ⟨name, ts, rfl, hname, hterms⟩ := exists_of_read h
  refine ⟨by rwa [String.toList_ofList], .ofTerms ts, rfl, ?_⟩
  rwa [Branch.terms_ofTerms]

/-! ## Specifiers read back -/

theorem isBlank_of_isNameChar {c : Char} (h : isNameChar c = true) : isBlank c = false := by
  simp only [isNameChar, Bool.or_eq_true, beq_iff_eq] at h
  rcases h with ((h | rfl) | rfl) | rfl
  · exact Text.isBlank_of_isAlphanum h
  all_goals decide

theorem skipExtras_eq_self {cs : List Char} (h : ∀ c ∈ cs.head?, c ≠ '[') :
    skipExtras cs = cs := by
  cases cs with
  | nil => rfl
  | cons c cs =>
      have hc : c ≠ '[' := h c rfl
      simp [skipExtras, hc]

/-- A text of clauses of which nothing is cut off: it starts and ends with something
else than white space, has no extras in front, and is on one line without a marker. -/
structure IsClauses (text : List Char) : Prop where
  ne_nil : text ≠ []
  first : ∀ c ∈ text.head?, isBlank c = false ∧ c ≠ '['
  last : ∀ c ∈ text.getLast?, isBlank c = false
  line : ∀ c ∈ text, c ≠ '\n'
  marker : ∀ c ∈ text, c ≠ ';'

theorem IsClauses.of_forall {text : List Char} (hne : text ≠ [])
    (hblank : ∀ c ∈ text, isBlank c = false) (hfirst : ∀ c ∈ text.head?, c ≠ '[')
    (hmarker : ∀ c ∈ text, c ≠ ';') : IsClauses text where
  ne_nil := hne
  first := fun c hc => ⟨hblank c (List.mem_of_mem_head? hc), hfirst c hc⟩
  last := fun c hc => hblank c (List.mem_of_mem_getLast? hc)
  line := by
    rintro c hc rfl
    exact absurd (hblank '\n' hc) (by decide)
  marker := hmarker

section

variable {d : ClauseDialect} {name text : List Char} (hname : IsName name)
  (htext : IsClauses text)

include hname htext

/-- A name and, after a space, a text of clauses are told apart. -/
theorem nameAndClauses?_join : nameAndClauses? (name ++ ' ' :: text) = some (name, text) := by
  obtain ⟨c, rest, rfl, hc, hnamechars⟩ := hname
  obtain ⟨htake, hdrop⟩ := Text.takeWhile_dropWhile_append (c :: rest) (' ' :: text)
    hnamechars (by
      intro x hx
      obtain rfl := Option.some.inj hx
      decide)
  have hstart : Text.trimStart text = text :=
    Text.trimStart_eq_self fun x hx => (htext.first x hx).1
  have hspace : Text.trimStart (' ' :: text) = text := by
    rw [Text.trimStart_cons, if_pos Text.isBlank_space, hstart]
  have hline : text.all (· != '\n') = true := by simpa using htext.line
  rw [nameAndClauses?, htake, hdrop, hspace,
    skipExtras_eq_self fun x hx => (htext.first x hx).2, hstart]
  simp [hc, hline]

/-- Neither a marker nor white space at the ends is cut off a name and a text. -/
theorem trim_takeWhile_join :
    Text.trim ((name ++ ' ' :: text).takeWhile (· != ';')) = name ++ ' ' :: text := by
  obtain ⟨c, rest, rfl, hc, hnamechars⟩ := hname
  have htake : (c :: rest ++ ' ' :: text).takeWhile (· != ';') = c :: rest ++ ' ' :: text := by
    refine List.takeWhile_eq_self_iff.2 fun x hx => bne_iff_ne.2 ?_
    rcases List.mem_append.1 hx with hx | hx
    · exact Text.ne_of_class (hnamechars x hx) (by decide)
    · rcases List.mem_cons.1 hx with rfl | hx
      · decide
      · exact htext.marker x hx
  rw [htake]
  exact Text.trim_join (by simp) htext.ne_nil
    (fun x hx => isBlank_of_isNameChar (hnamechars x (List.mem_of_mem_head? hx))) htext.last

/-- After a name and a space, a text is read clause by clause. -/
theorem read_join (hstar : text ≠ ['*']) : d.read (name ++ ' ' :: text) = do
    let terms ← (text.splitOnP (· == ',')).mapM d.clause
    return ⟨String.ofList name, [.ofTerms terms.flatten]⟩ := by
  have hempty : text.isEmpty = false := List.isEmpty_eq_false_iff.2 htext.ne_nil
  have hany : (text == ['*']) = false := beq_eq_false_iff_ne.2 hstar
  have htrim := Text.trim_eq_self (fun c hc => (htext.first c hc).1) htext.last
  simp only [read, trim_takeWhile_join hname htext, nameAndClauses?_join hname htext, htrim,
    hempty, hany]
  rfl

/-- The requirement of a single clause has its terms. -/
theorem read_clause (hstar : text ≠ ['*']) (hcomma : ∀ c ∈ text, c ≠ ',') :
    d.read (name ++ ' ' :: text) =
      (d.clause text).map fun ts => ⟨String.ofList name, [.ofTerms ts]⟩ := by
  rw [read_join hname htext hstar, List.splitOnP_eq_singleton (by simpa using hcomma),
    mapM_singleton]
  cases d.clause text with
  | error e => rfl
  | ok ts =>
      show Except.ok (Requirement.mk _ [.ofTerms [ts].flatten]) = _
      rw [List.flatten_singleton]
      rfl

end

/-- The clauses of one or more terms, with commas between them. -/
def clauses (d : ClauseDialect) (ts : List Term) : List Char :=
  [','].intercalate (ts.map fun t => (d.renderTerm t).toList)

section

variable {d : ClauseDialect} {ts : List Term} (hwrites : ∀ t ∈ ts, d.Writes t)

include hwrites

theorem mem_clauses : ∀ c ∈ d.clauses ts, c = ',' ∨ isTermChar c = true := by
  intro c hc
  rcases Text.mem_intercalate hc with hc | ⟨part, hpart, hc⟩
  · exact .inl (List.mem_singleton.1 hc)
  · obtain ⟨t, ht, rfl⟩ := List.mem_map.1 hpart
    exact .inr (isTermChar_of_mem_renderTerm (hwrites t ht) c hc)

theorem splitOnP_clauses (hne : ts ≠ []) :
    (d.clauses ts).splitOnP (· == ',') = ts.map fun t => (d.renderTerm t).toList := by
  refine Text.splitOnP_intercalate (by decide) (fun part hpart c hc => ?_) (by simpa using hne)
  obtain ⟨t, ht, rfl⟩ := List.mem_map.1 hpart
  exact beq_eq_false_iff_ne.2
    (Text.ne_of_class (isTermChar_of_mem_renderTerm (hwrites t ht) c hc) (by decide))

theorem clauses_ne_nil (hne : ts ≠ []) : d.clauses ts ≠ [] := by
  intro hnil
  have hsplit := splitOnP_clauses hwrites hne
  rw [hnil, List.splitOnP_nil] at hsplit
  obtain ⟨t, ts, rfl⟩ := List.exists_cons_of_ne_nil hne
  exact renderTerm_ne_nil d t (List.cons.inj hsplit).1.symm

theorem mapM_clause : (ts.map fun t => (d.renderTerm t).toList).mapM d.clause =
    .ok (ts.map fun t => [t]) := by
  rw [mapM_eq_ok, List.forall₂_map_left_iff, List.forall₂_map_right_iff, List.forall₂_same]
  exact fun t ht => clause_renderTerm (hwrites t ht)

/-- The terms of a specifier read back from their clauses. -/
theorem read_clauses {name : List Char} (hname : IsName name) (hne : ts ≠ []) :
    d.read (name ++ ' ' :: d.clauses ts) = .ok ⟨String.ofList name, [.ofTerms ts]⟩ := by
  have hchars := mem_clauses hwrites
  have hblank : ∀ c ∈ d.clauses ts, isBlank c = false := by
    intro c hc
    rcases hchars c hc with rfl | hc
    · decide
    · exact isBlank_of_isTermChar hc
  have hother : ∀ x, isTermChar x = false → x ≠ ',' → ∀ c ∈ d.clauses ts, c ≠ x := by
    intro x hx hcomma c hc
    rcases hchars c hc with rfl | hc
    · exact hcomma.symm
    · exact Text.ne_of_class hc hx
  have hstar : d.clauses ts ≠ ['*'] := fun h =>
    hother '*' (by decide) (by decide) '*' (by rw [h]; exact List.mem_cons_self) rfl
  have hflatten : (ts.map fun t => [t]).flatten = ts := by
    rw [← List.flatMap_def, List.flatMap_singleton']
  have htext : IsClauses (d.clauses ts) := .of_forall (clauses_ne_nil hwrites hne) hblank
    (fun c hc => hother '[' (by decide) (by decide) c (List.mem_of_mem_head? hc))
    (hother ';' (by decide) (by decide))
  rw [read_join hname htext hstar, splitOnP_clauses hwrites hne, mapM_clause hwrites]
  exact congrArg (fun ts => Except.ok (Requirement.mk (String.ofList name) [.ofTerms ts])) hflatten

end

/-- A requirement reads back from its name and what it is written as. -/
theorem read_render {d : ClauseDialect} {r : Requirement} (h : d.Composable r) :
    ∃ r', d.read (r.name ++ " " ++ d.render r).toList = .ok r' ∧ r'.name = r.name ∧
      ∀ v, r'.accepts v = r.accepts v := by
  obtain ⟨b, hb, hne, hwrites⟩ := h.branch
  have htext : (r.name ++ " " ++ d.render r).toList =
      r.name.toList ++ ' ' :: d.clauses b.terms := by
    simp [render, clauses, Requirement.terms, hb, Function.comp_def]
  refine ⟨⟨r.name, [.ofTerms b.terms]⟩, ?_, rfl, fun v => ?_⟩
  · rw [htext, read_clauses hwrites h.name hne, String.ofList_toList]
  · simp [Requirement.accepts, hb, Branch.accepts]

end Requirements.ClauseDialect
