import Mathlib
import Requirements.Proofs.Requirement.Merge
import Requirements.Proofs.Specifier.Seam

/-!
# Specifiers with alternatives read back

A normalized range that is written and normalized again keeps its alternatives
and their terms, up to the rank of versions. So a requirement reads back from
what it is written as, with the same meaning.
-/

namespace Requirements.AlternativesDialect

open Alternatives (IsTokenBranch renderBranch)
open Text (isBlank)

theorem isTokenBranch_of_writesAll {d : AlternativesDialect} {ts : List Term}
    (h : d.WritesAll ts) : IsTokenBranch ts :=
  ⟨h.1, fun t ht => isVersionToken_of_writes (h.2 t ht)⟩

/-! ## Shorthands do not apply to written alternatives -/

/-- The first character of a written term is part of its sign. -/
theorem mem_head?_text {t : Term} {c : Char} (h : c ∈ t.text.toList.head?) :
    c = '<' ∨ c = '>' ∨ c = '=' ∨ c = '!' := by
  have hsign : t.text.toList.head? = t.op.symbol.toList.head? := by
    rw [Term.toList_text, List.head?_append_of_ne_nil]
    cases t.op <;> simp [Operator.symbol]
  rw [hsign] at h
  cases hop : t.op <;> simp [hop, Operator.symbol] at h <;> simp [← h]

/-- No character of a class without comparison signs ends one. -/
theorem endsSign_of_class {p : Char → Bool} {c : Char} (hc : p c = true)
    (hp : ['<', '>', '=', '^', '~'].all (fun s => !p s) = true) : endsSign c = false := by
  by_contra hsign
  have hmem : c ∈ ['<', '>', '=', '^', '~'] := by
    simp only [endsSign, Bool.not_eq_false, Bool.or_eq_true, beq_iff_eq] at hsign
    rcases hsign with (((rfl | rfl) | rfl) | rfl) | rfl <;> decide
  have hnot := List.all_eq_true.1 hp c hmem
  rw [hc] at hnot
  cases hnot

/-- Nothing is closed up in a text without white space. -/
theorem closeUp_eq_self {cs : List Char} (hblank : ∀ c ∈ cs, isBlank c = false)
    (afterSign : Bool) : closeUp afterSign cs = cs := by
  induction cs generalizing afterSign with
  | nil => rfl
  | cons c cs ih =>
      rw [closeUp, if_neg (by simp [hblank c List.mem_cons_self]),
        ih fun x hx => hblank x (List.mem_cons_of_mem c hx)]

/-- A word stays, and its last character decides what becomes of white space after it. -/
theorem closeUp_append {cs : List Char} (hne : cs ≠ []) (hblank : ∀ c ∈ cs, isBlank c = false)
    (afterSign : Bool) (rest : List Char) :
    closeUp afterSign (cs ++ rest) = cs ++ closeUp (endsSign (cs.getLast hne)) rest := by
  induction cs generalizing afterSign with
  | nil => exact absurd rfl hne
  | cons c cs ih =>
      have hc : isBlank c = false := hblank c List.mem_cons_self
      rw [List.cons_append, closeUp, if_neg (by simp [hc])]
      cases cs with
      | nil => rfl
      | cons x cs =>
          rw [ih (by simp) fun y hy => hblank y (List.mem_cons_of_mem c hy)]
          rfl

/-- A term ends in a version, so the white space after it stays. -/
theorem closeUp_text {t : Term} (h : isVersionToken t.version.toList = true) (afterSign : Bool)
    (rest : List Char) :
    closeUp afterSign (t.text.toList ++ rest) = t.text.toList ++ closeUp false rest := by
  obtain ⟨c, cs, hv, hc, hchars⟩ := exists_cons_of_isVersionToken h
  have hne : t.version.toList ≠ [] := by simp [hv]
  have hlast : endsSign (t.text.toList.getLast t.text_ne_nil) = false := by
    simp only [Term.toList_text, List.getLast_append_of_ne_nil _ hne]
    exact endsSign_of_class (hchars _ (List.getLast_mem hne)) (by decide)
  rw [closeUp_append t.text_ne_nil fun x hx =>
    isBlank_of_isTermChar (Term.isTermChar_of_mem_text h x hx), hlast]

theorem closeUp_renderBranch {ts : List Term}
    (h : ∀ t ∈ ts, isVersionToken t.version.toList = true) :
    closeUp false (renderBranch ts).toList = (renderBranch ts).toList := by
  rw [Alternatives.toList_renderBranch]
  induction ts with
  | nil => rfl
  | cons t ts ih =>
      have ht := h t List.mem_cons_self
      have hts := ih fun u hu => h u (List.mem_cons_of_mem t hu)
      cases ts with
      | nil =>
          have hsingle := closeUp_text ht false []
          rw [List.append_nil, closeUp, List.append_nil] at hsingle
          rwa [List.map_singleton, List.intercalate_singleton]
      | cons u ts =>
          rw [List.map_cons] at hts ⊢
          rw [List.map_cons, List.intercalate_cons_cons, List.append_assoc, closeUp_text ht,
            List.singleton_append, closeUp, if_neg (by simp)]
          exact congrArg (fun rest => t.text.toList ++ ' ' :: rest) hts

/-- The comparators of a written alternative are its terms. -/
theorem tokens_renderBranch (d : AlternativesDialect) {ts : List Term} (h : IsTokenBranch ts) :
    d.tokens (renderBranch ts).toList = ts.map fun t => t.text.toList := by
  have hsep : d.isSeparator ' ' = true := by
    cases d <;> decide
  have hword : ∀ c, isTermChar c = true → d.isSeparator c = false := by
    intro c hc
    have hspace : c ≠ ' ' := Text.ne_of_class hc (by decide)
    have hcomma : c ≠ ',' := Text.ne_of_class hc (by decide)
    cases d <;> simp [isSeparator, hspace, hcomma]
  rw [tokens, closeUp_renderBranch h.2, Alternatives.toList_renderBranch,
    Text.splitOnP_intercalate hsep]
  · exact List.filter_eq_self.2 fun w hw => by
      simpa using (Alternatives.word_of_mem_texts h w hw).1
  · exact fun w hw c hc => hword c ((Alternatives.word_of_mem_texts h w hw).2 c hc)
  · simpa using h.1

theorem not_isAnyVersion_renderBranch {ts : List Term} (h : IsTokenBranch ts) :
    isAnyVersion (renderBranch ts).toList = false := by
  obtain ⟨c, cs, hcs⟩ := List.exists_cons_of_ne_nil (Alternatives.renderBranch_ne_nil h)
  have hhead : c ∈ ([' '].intercalate (ts.map fun t => t.text.toList)).head? := by
    rw [← Alternatives.toList_renderBranch, hcs]
    rfl
  obtain ⟨w, hw, hcw⟩ := Text.mem_head?_intercalate
    (fun w hw => (Alternatives.word_of_mem_texts h w hw).1) hhead
  obtain ⟨t, _, rfl⟩ := List.mem_map.1 hw
  rw [hcs]
  rcases mem_head?_text hcw with rfl | rfl | rfl | rfl <;> rfl

theorem hyphen_not_mem_texts (ts : List Term) : ['-'] ∉ ts.map fun t => t.text.toList := by
  intro hmem
  obtain ⟨t, _, ht⟩ := List.mem_map.1 hmem
  rcases mem_head?_text (t := t) (c := '-') (by rw [ht]; rfl) with h | h | h | h
  all_goals exact absurd h (by decide)

/-- Written terms read back as comparators, one for each term. -/
theorem mapM_comparator {d : AlternativesDialect} {ts : List Term} (h : ∀ t ∈ ts, d.Writes t) :
    ∃ us : List Term, (ts.map fun t => t.text.toList).mapM d.comparator =
      .ok (us.map fun u => [u]) ∧ List.Forall₂ d.ReadsAs ts us := by
  rw [List.mapM_map]
  exact exists_mapM_ok fun t ht => comparator_text (h t ht)

/-- A written alternative reads back term by term. -/
theorem branch_renderBranch {d : AlternativesDialect} {ts : List Term} (h : d.WritesAll ts) :
    ∃ us : List Term, d.branch (renderBranch ts).toList = .ok us ∧
      List.Forall₂ d.ReadsAs ts us := by
  have htoken := isTokenBranch_of_writesAll h
  obtain ⟨us, hus, hall⟩ := mapM_comparator h.2
  have hne : us.isEmpty = false := by
    have hlength := hall.length_eq
    refine List.isEmpty_eq_false_iff.2 fun hnil => h.1 (List.length_eq_zero_iff.1 ?_)
    rw [hlength, hnil]
    rfl
  have hflatten : (us.map fun u => [u]).flatten = us := by
    rw [← List.flatMap_def, List.flatMap_singleton']
  refine ⟨us, ?_, hall⟩
  have hcomparators : (do
      let terms ← (d.tokens (renderBranch ts).toList).mapM d.comparator
      return if terms.flatten.isEmpty then [.any] else terms.flatten :
        Except UnsupportedRange (List Term)) = .ok us := by
    rw [tokens_renderBranch d htoken]
    exact bind_eq_ok.2 ⟨_, hus, by rw [hflatten, hne]; rfl⟩
  rw [branch, Alternatives.trim_renderBranch htoken]
  simp only [not_isAnyVersion_renderBranch htoken, Alternatives.words_renderBranch htoken]
  split
  · cases ‹false = true›
  · split
    · rename_i lower upper hwords
      have hmem : ['-'] ∈ ts.map fun t => t.text.toList := by simp [hwords]
      exact absurd hmem (hyphen_not_mem_texts ts)
    · exact hcomparators

/-- Written alternatives have no stability flags. -/
theorem dropFlags_render {branches : Alternatives} (h : ∀ ts ∈ branches, IsTokenBranch ts) :
    dropFlags false (Alternatives.render branches).toList =
      (Alternatives.render branches).toList := by
  refine dropFlags_eq_self fun c hc => ?_
  rcases Alternatives.mem_render h c hc with rfl | rfl | hc
  · decide
  · decide
  · exact Text.ne_of_class hc (by decide)

/-- A normalized range that is written and normalized again keeps its
alternatives, and in each of them the terms read back. -/
theorem normalize_render {d : AlternativesDialect} {branches : Alternatives}
    (h : d.IsNormal branches) :
    ∃ again : Alternatives, d.normalize (Alternatives.render branches).toList = .ok again ∧
      List.Forall₂ (List.Forall₂ d.ReadsAs) branches again := by
  obtain ⟨hne, hwrites⟩ := h
  have htoken : ∀ ts ∈ branches, IsTokenBranch ts := fun ts hts =>
    isTokenBranch_of_writesAll (hwrites ts hts)
  have hspace : ∀ c ∈ [' '], isBlank c = true := List.forall_mem_singleton.2 Text.isBlank_space
  have hsplit (single : Bool) := mapM_eq_of_map_eq <| Alternatives.map_splitBars_render
    (branch_blanks_append d hspace) (branch_append_blanks d hspace) single hne htoken
  have hnormalize : d.normalize (Alternatives.render branches).toList =
      branches.mapM fun ts => d.branch (renderBranch ts).toList := by
    cases d with
    | npm => exact hsplit false
    | composer =>
        rw [normalize, AlternativesDialect.branches, dropFlags_render htoken]
        exact hsplit true
  obtain ⟨again, hagain, hreads⟩ := exists_mapM_ok (g := id) fun ts hts =>
    branch_renderBranch (hwrites ts hts)
  rw [List.map_id] at hagain
  exact ⟨again, hnormalize.trans hagain, hreads⟩

/-! ## Specifiers -/

/-- A package name before white space: one word. -/
def IsWord (cs : List Char) : Prop :=
  cs ≠ [] ∧ ∀ c ∈ cs, isBlank c = false

theorem isWord_of_all {s : String} (hne : s.toList ≠ [])
    (h : s.toList.all (fun c => !isBlank c) = true) : IsWord s.toList :=
  ⟨hne, fun c hc => by simpa using List.all_eq_true.1 h c hc⟩

/-- A requirement that the dialect writes so that it reads back. -/
structure Composable (d : AlternativesDialect) (r : Requirement) : Prop where
  name : IsWord r.name.toList
  branches : d.IsNormal (r.branches.map (·.terms))

theorem Composable.join {d : AlternativesDialect} {m r : Requirement} (hm : d.Composable m)
    (hr : d.Composable r) : d.Composable (m.join r) where
  name := hm.name
  branches := by
    obtain ⟨hmne, hm⟩ := hm.branches
    obtain ⟨hrne, hr⟩ := hr.branches
    constructor
    · have hlength := Branch.length_conjoin m.branches r.branches
      simp only [ne_eq, List.map_eq_nil_iff] at hmne hrne ⊢
      rw [← List.length_eq_zero_iff] at hmne hrne ⊢
      show ¬(Branch.conjoin m.branches r.branches).length = 0
      rw [hlength]
      exact Nat.mul_ne_zero hmne hrne
    · intro ts hts
      obtain ⟨b, hb, rfl⟩ := List.mem_map.1 hts
      obtain ⟨l, hl, k, hk, rfl⟩ := Branch.mem_conjoin.1 hb
      obtain ⟨hlne, hlwrites⟩ := hm l.terms (List.mem_map_of_mem hl)
      obtain ⟨_, hkwrites⟩ := hr k.terms (List.mem_map_of_mem hk)
      rw [Branch.terms_ofTerms]
      refine ⟨List.append_ne_nil_of_left_ne_nil hlne _, fun t ht => ?_⟩
      rcases List.mem_append.1 ht with ht | ht
      · exact hlwrites t ht
      · exact hkwrites t ht

theorem isTokenBranch_of_isNormal {d : AlternativesDialect} {branches : Alternatives}
    (h : d.IsNormal branches) : ∀ ts ∈ branches, IsTokenBranch ts := fun ts hts =>
  isTokenBranch_of_writesAll (h.2 ts hts)

/-- The requirement of a specifier has the branches of its normalized range. -/
theorem read_eq_ok {d : AlternativesDialect} {cs name range : List Char}
    {branches : Alternatives} (hsplit : nameAndRange (Text.trim cs) = (name, range))
    (hname : name ≠ []) (hnormalize : d.normalize range = .ok branches) :
    d.read cs = .ok ⟨String.ofList name, branches.map Branch.ofTerms⟩ := by
  have hnormal := isNormal_normalize hnormalize
  have hread := Alternatives.read_render hnormal.1 (isTokenBranch_of_isNormal hnormal)
  have hempty := List.isEmpty_eq_false_iff.2 hname
  simp only [read, hsplit, hempty, hnormalize, hread]
  rfl

/-- What is read of a specifier are its name and its normalized range. -/
theorem exists_of_read {d : AlternativesDialect} {cs : List Char} {r : Requirement}
    (h : d.read cs = .ok r) :
    ∃ name range branches, nameAndRange (Text.trim cs) = (name, range) ∧ name ≠ [] ∧
      d.normalize range = .ok branches ∧
      r = ⟨String.ofList name, branches.map Branch.ofTerms⟩ := by
  have hread := h
  unfold read at h
  dsimp only at h
  split at h
  · cases h
  · rename_i hname
    have hne : (nameAndRange (Text.trim cs)).1 ≠ [] := by simpa using hname
    split at h
    · cases h
    · rename_i normalized hnormalize
      rw [read_eq_ok rfl hne hnormalize] at hread
      exact ⟨_, _, normalized, rfl, hne, hnormalize, (Except.ok.inj hread).symm⟩

/-- Whatever is read can be written. -/
theorem composable_of_read {d : AlternativesDialect} {cs : List Char} {r : Requirement}
    (h : d.read cs = .ok r) : d.Composable r := by
  obtain ⟨name, range, branches, hsplit, hne, hnormalize, rfl⟩ := exists_of_read h
  obtain ⟨hname, _⟩ := Prod.mk.inj hsplit
  refine ⟨⟨by rwa [String.toList_ofList], fun c hc => ?_⟩, ?_⟩
  · rw [String.toList_ofList, ← hname] at hc
    simpa using List.mem_takeWhile_imp hc
  · have hterms : (branches.map Branch.ofTerms).map (·.terms) = branches := by
      simp [Function.comp_def]
    rw [hterms]
    exact isNormal_normalize hnormalize

/-! ## Specifiers read back -/

/-- A word and the text after a space are told apart. White space around the text
is left out, which may be all there is of it. -/
theorem nameAndRange_join {name : List Char} (hname : IsWord name) (range : List Char) :
    nameAndRange (Text.trim (name ++ ' ' :: range)) = (name, Text.trim range) := by
  obtain ⟨front, back, hrange, hfront, hback⟩ := Text.exists_trim range
  obtain ⟨hfirst, hlast⟩ := Text.isBlank_ends_trim range
  generalize Text.trim range = mid at hrange hfirst hlast ⊢
  have hword : ∀ c ∈ name, isBlank c = false := hname.2
  have hspace : ∀ c ∈ ' ' :: front, isBlank c = true := List.forall_mem_cons.2 ⟨rfl, hfront⟩
  obtain ⟨gap, htrim, hgap, hhead⟩ : ∃ gap, Text.trim (name ++ ' ' :: range) = name ++ (gap ++ mid) ∧
      (∀ c ∈ gap, isBlank c = true) ∧ ∀ c ∈ (gap ++ mid).head?, isBlank c = true := by
    by_cases hmid : mid = []
    · refine ⟨[], ?_, by simp, by simp [hmid]⟩
      have hblank : ∀ c ∈ ' ' :: range, isBlank c = true := by
        rw [hrange, hmid, List.nil_append]
        exact List.forall_mem_append.2 ⟨hspace, hback⟩
      rw [Text.trim_append_blanks hblank, Text.trim_of_forall hword, hmid]
      simp
    · refine ⟨' ' :: front, ?_, hspace, ?_⟩
      · have hjoin : name ++ ' ' :: range = (name ++ ' ' :: (front ++ mid)) ++ back := by
          simp [hrange]
        rw [hjoin, Text.trim_append_blanks hback, Text.trim_join hname.1 (by simp [hmid])
          fun c hc => hword c (List.mem_of_mem_head? hc)]
        · rfl
        · rwa [List.getLast?_append_of_ne_nil _ hmid]
      · rintro c ⟨⟩
        rfl
  obtain ⟨htake, hdrop⟩ := Text.takeWhile_dropWhile_append (p := fun c => !isBlank c) name
    (gap ++ mid) (fun c hc => by simp [hword c hc]) fun c hc => by simp [hhead c hc]
  rw [htrim, nameAndRange, htake, hdrop, Text.trim_blanks_append hgap,
    Text.trim_eq_self hfirst hlast]

/-- After normalization nothing fails: the requirement of a name and a range has the
branches of the normalized range. -/
theorem read_range {d : AlternativesDialect} {name : List Char} (hname : IsWord name)
    (range : List Char) :
    d.read (name ++ ' ' :: range) =
      ((d.normalize range).map fun branches =>
        ⟨String.ofList name, branches.map Branch.ofTerms⟩).mapError .unsupportedRange := by
  have hjoin := nameAndRange_join hname range
  have htrim := normalize_trim d range
  cases hnormalize : d.normalize range with
  | error e =>
      have hempty := List.isEmpty_eq_false_iff.2 hname.1
      simp only [read, hjoin, hempty, htrim, hnormalize]
      rfl
  | ok branches => exact read_eq_ok hjoin hname.1 (htrim.trans hnormalize)

theorem read_eq_ok_of_normalize {d : AlternativesDialect} {name range : String}
    (hname : IsWord name.toList) {branches : Alternatives}
    (h : d.normalize range.toList = .ok branches) :
    d.read (name ++ " " ++ range).toList = .ok ⟨name, branches.map Branch.ofTerms⟩ := by
  have htext : (name ++ " " ++ range).toList = name.toList ++ ' ' :: range.toList := by
    simp
  rw [htext, read_range hname, h, String.ofList_toList]
  rfl

/-- Where all terms read back, so does the requirement, as an equivalent one. -/
theorem equivalent_of_forall₂ {d : AlternativesDialect} {r : Requirement} {again : Alternatives}
    (h : List.Forall₂ (List.Forall₂ d.ReadsAs) (r.branches.map Branch.terms) again)
    (name : String) : r.Equivalent ⟨name, again.map Branch.ofTerms⟩ := by
  rw [List.forall₂_map_left_iff] at h
  rw [Requirement.Equivalent, List.forall₂_map_right_iff]
  refine h.imp fun b us hus => ?_
  rw [Branch.terms_ofTerms]
  exact hus.imp fun t u htu => htu.1

/-- A requirement reads back from its name and what it is written as, with
terms that are equivalent to its own. -/
theorem read_render {d : AlternativesDialect} {r : Requirement} (h : d.Composable r) :
    ∃ r', d.read (r.name ++ " " ++ AlternativesDialect.render r).toList = .ok r' ∧
      r'.name = r.name ∧ ∀ v, r'.accepts v = r.accepts v := by
  obtain ⟨again, hagain, hreads⟩ := normalize_render h.branches
  exact ⟨⟨r.name, again.map Branch.ofTerms⟩, read_eq_ok_of_normalize h.name hagain, rfl,
    (equivalent_of_forall₂ hreads r.name).accepts⟩

/-! ## Specifiers of one comparator -/

/-- A single comparator: a word without bars, flags and commas that is more than a
way to write that every version will do. -/
structure IsComparator (cs : List Char) : Prop where
  word : IsWord cs
  bar : ∀ c ∈ cs, c ≠ '|'
  flag : ∀ c ∈ cs, c ≠ '@'
  comma : ∀ c ∈ cs, c ≠ ','
  proper : isAnyVersion cs = false

section

variable {d : AlternativesDialect} {cs : List Char} (h : IsComparator cs)

include h

theorem branches_eq_singleton : d.branches cs = [cs] := by
  cases d with
  | npm => exact splitBars_of_forall h.bar
  | composer =>
      rw [branches, dropFlags_eq_self h.flag]
      exact splitBars_of_forall h.bar

theorem tokens_eq_singleton : d.tokens cs = [cs] := by
  have hsep : ∀ c ∈ cs, d.isSeparator c = false := by
    intro c hc
    have hspace : c ≠ ' ' := by
      rintro rfl
      exact absurd (h.word.2 ' ' hc) (by decide)
    have hcomma := h.comma c hc
    cases d <;> simp [isSeparator, hspace, hcomma]
  have hempty := List.isEmpty_eq_false_iff.2 h.word.1
  rw [tokens, closeUp_eq_self h.word.2, List.splitOnP_eq_singleton hsep]
  simp [hempty]

/-- A single comparator is a range of one alternative. -/
theorem normalize_comparator : d.normalize cs = (d.comparator cs).map fun ts => [ts] := by
  have hwords : Text.words cs = [cs] := by
    have hsingle : Text.words ([' '].intercalate [cs]) = [cs] :=
      Text.words_intercalate (List.forall_mem_singleton.2 h.word)
    rwa [List.intercalate_singleton] at hsingle
  have hbranch : d.branch cs = d.comparator cs := by
    rw [branch, Text.trim_of_forall h.word.2]
    simp only [h.proper, hwords, tokens_eq_singleton h]
    show (do
      let terms ← [cs].mapM d.comparator
      return if terms.flatten.isEmpty then [Term.any] else terms.flatten) = _
    rw [mapM_singleton]
    cases hts : d.comparator cs with
    | error e => rfl
    | ok ts =>
        have hempty := List.isEmpty_eq_false_iff.2 (writesAll_comparator hts).1
        show Except.ok (if [ts].flatten.isEmpty then [Term.any] else [ts].flatten) = _
        rw [List.flatten_singleton, hempty]
        rfl
  rw [normalize, branches_eq_singleton h, mapM_singleton, hbranch]

/-- The requirement of a single comparator has its terms. -/
theorem read_comparator {name : List Char} (hname : IsWord name) :
    d.read (name ++ ' ' :: cs) =
      ((d.comparator cs).map fun ts => ⟨String.ofList name, [.ofTerms ts]⟩).mapError
        .unsupportedRange := by
  rw [read_range hname, normalize_comparator h]
  cases d.comparator cs <;> rfl

end

end Requirements.AlternativesDialect
