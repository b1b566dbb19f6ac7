import Mathlib
import Requirements.Proofs.Fallible
import Requirements.Proofs.Range.Expansion
import Requirements.Proofs.Requirement.Ranks
import Requirements.Specifier.Term

/-!
# Terms read back

A term is written as the sign of its operator and its version. Since a version
token starts with a letter or digit, the sign is the longest one that fits, so
every table of marks splits a written term where it was joined.
-/

namespace Requirements

open Text (isBlank)

/-! ## Characters of written terms -/

/-- The characters of written terms: those of versions and those of signs. -/
def isTermChar (c : Char) : Bool :=
  isVersionChar c || c == '<' || c == '>' || c == '=' || c == '!'

theorem isBlank_of_isTermChar {c : Char} (h : isTermChar c = true) : isBlank c = false := by
  simp only [isTermChar, isVersionChar, Bool.or_eq_true, beq_iff_eq] at h
  rcases h with ((((((((h | rfl) | rfl) | rfl) | rfl) | rfl) | rfl) | rfl) | rfl)
  · exact Text.isBlank_of_isAlphanum h
  all_goals decide

/-- A version token starts with a letter or digit, and so with no sign. -/
theorem exists_cons_of_isVersionToken {cs : List Char} (h : isVersionToken cs = true) :
    ∃ c rest, cs = c :: rest ∧ c.isAlphanum = true ∧ ∀ x ∈ cs, isVersionChar x = true := by
  cases cs with
  | nil => cases h
  | cons c rest =>
      obtain ⟨hc, hrest⟩ := Bool.and_eq_true_iff.1 h
      refine ⟨c, rest, rfl, hc, fun x hx => ?_⟩
      rcases List.mem_cons.1 hx with rfl | hx
      · simp [isVersionChar, hc]
      · exact List.all_eq_true.1 hrest x hx

theorem isTermChar_of_isVersionChar {c : Char} (h : isVersionChar c = true) :
    isTermChar c = true := by
  simp [isTermChar, h]

theorem isBlank_of_mem_token {cs : List Char} (h : isVersionToken cs = true) :
    ∀ c ∈ cs, isBlank c = false := by
  obtain ⟨_, _, _, _, hchars⟩ := exists_cons_of_isVersionToken h
  exact fun c hc => isBlank_of_isTermChar (isTermChar_of_isVersionChar (hchars c hc))

namespace Term

theorem toList_text (t : Term) : t.text.toList = t.op.symbol.toList ++ t.version.toList :=
  String.toList_append

theorem isTermChar_of_mem_symbol {op : Operator} {c : Char} (h : c ∈ op.symbol.toList) :
    isTermChar c = true := by
  have hall : op.symbol.toList.all isTermChar = true := by
    cases op <;> decide
  exact List.all_eq_true.1 hall c h

theorem isTermChar_of_mem_text {t : Term} (h : isVersionToken t.version.toList = true) :
    ∀ c ∈ t.text.toList, isTermChar c = true := by
  obtain ⟨_, _, _, _, hchars⟩ := exists_cons_of_isVersionToken h
  intro c hc
  rw [toList_text] at hc
  rcases List.mem_append.1 hc with hc | hc
  · exact isTermChar_of_mem_symbol hc
  · exact isTermChar_of_isVersionChar (hchars c hc)

theorem text_ne_nil (t : Term) : t.text.toList ≠ [] := by
  rw [toList_text]
  cases t.op <;> simp [Operator.symbol]

end Term

/-! ## Marks in front of a token -/

namespace Mark

theorem split?_cons (admissible : List Char → Bool) (cs : List Char) (symbol : String)
    (mark : Mark) (table : List (String × Mark)) :
    split? admissible cs ((symbol, mark) :: table) =
      if symbol.toList.isPrefixOf cs && admissible (cs.drop symbol.toList.length) then
        some (some mark, cs.drop symbol.toList.length)
      else split? admissible cs table := by
  rw [String.length_toList]
  rfl

/-- What is split off stands behind one of the signs, or is the whole text. -/
theorem split?_eq_some {admissible : List Char → Bool} {cs operand : List Char}
    {mark : Option Mark} {table : List (String × Mark)}
    (h : split? admissible cs table = some (mark, operand)) :
    admissible operand = true ∧
      (mark = none ∧ operand = cs ∨ ∃ e ∈ table, mark = some e.2 ∧ cs = e.1.toList ++ operand) := by
  induction table with
  | nil =>
      rw [split?] at h
      split at h
      · rename_i hcs
        obtain ⟨rfl, rfl⟩ := Prod.mk.inj (Option.some.inj h)
        exact ⟨hcs, .inl ⟨rfl, rfl⟩⟩
      · cases h
  | cons e table ih =>
      obtain ⟨symbol, m⟩ := e
      rw [split?_cons] at h
      split at h
      · rename_i hcs
        obtain ⟨hstart, hoperand⟩ := Bool.and_eq_true_iff.1 hcs
        obtain ⟨rfl, rfl⟩ := Prod.mk.inj (Option.some.inj h)
        obtain ⟨rest, rfl⟩ := List.isPrefixOf_iff_prefix.1 hstart
        exact ⟨hoperand, .inr ⟨_, List.mem_cons_self, rfl, by rw [List.drop_left]⟩⟩
      · obtain ⟨hoperand, hshape⟩ := ih h
        refine ⟨hoperand, hshape.imp_right ?_⟩
        rintro ⟨e, he, hmark⟩
        exact ⟨e, List.mem_cons_of_mem _ he, hmark⟩

/-- A text with none of the signs in front is all operand. -/
theorem split?_of_not_prefix {admissible : List Char → Bool} {cs : List Char}
    (hadmissible : admissible cs = true) {table : List (String × Mark)}
    (h : ∀ e ∈ table, ¬e.1.toList <+: cs) : split? admissible cs table = some (none, cs) := by
  induction table with
  | nil => rw [split?, if_pos hadmissible]
  | cons e table ih =>
      obtain ⟨he, htable⟩ := List.forall_mem_cons.1 h
      rw [← List.isPrefixOf_iff_prefix] at he
      rw [split?_cons, Bool.eq_false_iff.2 he, Bool.false_and, if_neg (by simp), ih htable]

/-- One or two signs of equality stand in front of a text that starts with none. -/
theorem split?_ofClauses_exact {admissible : List Char → Bool} {cs : List Char}
    (hfirst : ∀ c ∈ cs.head?, c ≠ '=') (hadmissible : admissible cs = true) :
    split? admissible ('=' :: cs) ofClauses = some (some (.compare .equal), cs) ∧
      split? admissible ('=' :: '=' :: cs) ofClauses = some (some (.compare .equal), cs) := by
  cases cs with
  | nil => simp [split?_cons, ofClauses, hadmissible]
  | cons c rest =>
      have hc : '=' ≠ c := (hfirst c rfl).symm
      simp [split?_cons, ofClauses, hc, hadmissible]

section

variable {admissible : List Char → Bool} {cs : List Char} (htoken : isVersionToken cs = true)
  (hadmissible : admissible cs = true)

include htoken

theorem exists_cons_not_sign : ∃ c rest, cs = c :: rest ∧ '=' ≠ c ∧ '>' ≠ c := by
  obtain ⟨c, rest, rfl, hc, _⟩ := exists_cons_of_isVersionToken htoken
  exact ⟨c, rest, rfl, (Text.ne_of_class hc (by decide)).symm,
    (Text.ne_of_class hc (by decide)).symm⟩

include hadmissible

theorem split?_ofClauses (op : Operator) :
    split? admissible (op.symbol.toList ++ cs) ofClauses = some (some (.compare op), cs) := by
  obtain ⟨c, rest, rfl, hequal, hgreater⟩ := exists_cons_not_sign htoken
  cases op <;> simp [split?_cons, ofClauses, Operator.symbol, hequal, hgreater, hadmissible]

theorem split?_ofClauses_equal :
    split? admissible ('=' :: '=' :: cs) ofClauses = some (some (.compare .equal), cs) := by
  obtain ⟨c, rest, rfl, hequal, _⟩ := exists_cons_not_sign htoken
  refine (split?_ofClauses_exact (fun x hx => ?_) hadmissible).2
  rw [← Option.some.inj hx]
  exact hequal.symm

theorem split?_ofTerms (op : Operator) :
    split? admissible (op.symbol.toList ++ cs) ofTerms = some (some (.compare op), cs) := by
  obtain ⟨c, rest, rfl, hequal, _⟩ := exists_cons_not_sign htoken
  cases op <;> simp [split?_cons, ofTerms, Operator.symbol, hequal, hadmissible]

/-- A token with no sign in front is all operand. -/
theorem split?_bare {table : List (String × Mark)}
    (hsigns : ∀ e ∈ table, ∃ s rest, e.1.toList = s :: rest ∧ s.isAlphanum = false) :
    split? admissible cs table = some (none, cs) := by
  refine split?_of_not_prefix hadmissible fun e he hstart => ?_
  obtain ⟨s, rest, hs, hsign⟩ := hsigns e he
  obtain ⟨c, cs, rfl, hc, _⟩ := exists_cons_of_isVersionToken htoken
  rw [hs, List.cons_prefix_cons] at hstart
  exact Text.ne_of_class hc hsign hstart.1.symm

theorem split?_ofComparators_bare : split? admissible cs ofComparators = some (none, cs) := by
  refine split?_bare htoken hadmissible ?_
  simp [ofComparators]

theorem split?_ofComparators (op : Operator) :
    split? admissible (op.symbol.toList ++ cs) ofComparators =
      some (some (.compare op), cs) := by
  obtain ⟨c, rest, rfl, hequal, hgreater⟩ := exists_cons_not_sign htoken
  cases op <;> simp [split?_cons, ofComparators, Operator.symbol, hequal, hgreater, hadmissible]

end

end Mark

/-! ## Reading a term -/

theorem versionToken_eq_ok {cs : List Char} (h : isVersionToken cs = true) :
    versionToken cs = .ok (String.ofList cs) :=
  if_pos h

theorem isVersionToken_of_versionToken {cs : List Char} {v : Version}
    (h : versionToken cs = .ok v) : isVersionToken v.toList = true ∧ v = String.ofList cs := by
  unfold versionToken at h
  split at h
  · rename_i htoken
    obtain rfl := Except.ok.inj h
    exact ⟨by rwa [String.toList_ofList], rfl⟩
  · cases h

theorem isOperand_of_isVersionToken {cs : List Char} (h : isVersionToken cs = true) :
    AlternativesDialect.isOperand cs = true := by
  have hblank := isBlank_of_mem_token h
  obtain ⟨c, rest, rfl, _, _⟩ := exists_cons_of_isVersionToken h
  refine Bool.and_eq_true_iff.2 ⟨rfl, List.all_eq_true.2 fun x hx => bne_iff_ne.2 ?_⟩
  rintro rfl
  exact absurd (hblank '\n' hx) (by decide)

/-- A term reads back from its text. -/
theorem Term.read_text {t : Term} (h : isVersionToken t.version.toList = true) :
    Term.read t.text.toList = .ok t := by
  have hop : operator t.text.toList (some (.compare t.op)) = .ok t.op := by
    simp [operator, Mark.symbol]
  rw [toList_text] at hop ⊢
  rw [read, Mark.split?_ofTerms h (isOperand_of_isVersionToken h)]
  refine bind_eq_ok.2 ⟨t.op, hop, bind_eq_ok.2 ⟨t.version, ?_, rfl⟩⟩
  rw [versionToken_eq_ok h, String.ofList_toList]

end Requirements
