import Mathlib
import Requirements.Proofs.Text.Words

/-!
# Spaces for white space

A text in which every white space character is replaced by a space is cut in the same
places as before, by whatever does not tell one kind of white space from another:
trimming, cutting into words, and cutting at a character that is no white space.
-/

namespace Requirements.Text

/-- A space for white space of any kind; other characters stay. -/
def spaceFor (c : Char) : Char :=
  if isBlank c then ' ' else c

/-- The text with a space for each of its white space characters. -/
def withSpaces (cs : List Char) : List Char :=
  cs.map spaceFor

theorem spaceFor_of_isBlank {c : Char} (h : isBlank c = true) : spaceFor c = ' ' :=
  if_pos h

theorem spaceFor_of_not_isBlank {c : Char} (h : isBlank c = false) : spaceFor c = c :=
  if_neg (by simp [h])

@[simp] theorem withSpaces_cons (c : Char) (cs : List Char) :
    withSpaces (c :: cs) = spaceFor c :: withSpaces cs :=
  rfl

@[simp] theorem isEmpty_withSpaces (cs : List Char) : (withSpaces cs).isEmpty = cs.isEmpty :=
  List.isEmpty_map

theorem withSpaces_of_forall {cs : List Char} (h : ∀ c ∈ cs, isBlank c = false) :
    withSpaces cs = cs :=
  (List.map_congr_left fun c hc => spaceFor_of_not_isBlank (h c hc)).trans (List.map_id cs)

/-! ## Classes of characters -/

/-- A class of characters that does not tell one kind of white space from another. -/
def OverlooksBlanks (p : Char → Bool) : Prop :=
  ∀ c, isBlank c = true → p c = p ' '

theorem eq_space_of_mem_withSpaces {cs : List Char} {c : Char} (h : c ∈ withSpaces cs)
    (hc : isBlank c = true) : c = ' ' := by
  obtain ⟨d, _, rfl⟩ := List.mem_map.1 h
  by_cases hd : isBlank d = true
  · exact spaceFor_of_isBlank hd
  · rw [spaceFor_of_not_isBlank (by simpa using hd)] at hc
    exact absurd hc hd

theorem overlooksBlanks_isBlank : OverlooksBlanks isBlank := fun _ hc => hc

theorem OverlooksBlanks.of_false {p : Char → Bool} (h : ∀ c, isBlank c = true → p c = false) :
    OverlooksBlanks p := fun c hc => (h c hc).trans (h ' ' isBlank_space).symm

theorem OverlooksBlanks.not {p : Char → Bool} (h : OverlooksBlanks p) :
    OverlooksBlanks fun c => !p c := fun c hc => congrArg (!·) (h c hc)

/-- A character that is no white space can be told from all white space. -/
theorem overlooksBlanks_beq {x : Char} (h : isBlank x = false) : OverlooksBlanks (· == x) :=
  .of_false fun _ hc => beq_eq_false_iff_ne.2 (ne_of_class hc h)

theorem overlooksBlanks_bne {x : Char} (h : isBlank x = false) : OverlooksBlanks (· != x) :=
  (overlooksBlanks_beq h).not

section

variable {p : Char → Bool} (hp : OverlooksBlanks p)

include hp

theorem OverlooksBlanks.apply (c : Char) : p (spaceFor c) = p c := by
  by_cases hc : isBlank c = true
  · rw [spaceFor_of_isBlank hc, hp c hc]
  · rw [spaceFor_of_not_isBlank (by simpa using hc)]

theorem takeWhile_withSpaces (cs : List Char) :
    (withSpaces cs).takeWhile p = withSpaces (cs.takeWhile p) := by
  rw [withSpaces, List.takeWhile_map, withSpaces, Function.comp_def]
  simp only [hp.apply]

theorem dropWhile_withSpaces (cs : List Char) :
    (withSpaces cs).dropWhile p = withSpaces (cs.dropWhile p) := by
  rw [withSpaces, List.dropWhile_map, withSpaces, Function.comp_def]
  simp only [hp.apply]

theorem splitOnP_withSpaces (cs : List Char) :
    (withSpaces cs).splitOnP p = (cs.splitOnP p).map withSpaces := by
  rw [withSpaces, splitOnP_map, Function.comp_def]
  simp only [hp.apply]
  rfl

end

@[simp] theorem isBlank_spaceFor (c : Char) : isBlank (spaceFor c) = isBlank c :=
  overlooksBlanks_isBlank.apply c

/-- Words are the same with spaces around them. -/
theorem withSpaces_eq_iff {cs word : List Char} (h : ∀ c ∈ word, isBlank c = false) :
    withSpaces cs = word ↔ cs = word := by
  refine ⟨fun heq => ?_, fun heq => heq ▸ withSpaces_of_forall (heq ▸ h)⟩
  refine (withSpaces_of_forall fun c hc => ?_).symm.trans heq
  rw [← isBlank_spaceFor]
  exact h _ (heq ▸ List.mem_map_of_mem hc)

theorem beq_withSpaces {cs word : List Char} (h : ∀ c ∈ word, isBlank c = false) :
    (withSpaces cs == word) = (cs == word) := by
  rw [Bool.eq_iff_iff, beq_iff_eq, beq_iff_eq, withSpaces_eq_iff h]

/-! ## Trimming, words and signs -/

theorem trimStart_withSpaces (cs : List Char) :
    trimStart (withSpaces cs) = withSpaces (trimStart cs) :=
  dropWhile_withSpaces overlooksBlanks_isBlank cs

theorem trim_withSpaces (cs : List Char) : trim (withSpaces cs) = withSpaces (trim cs) := by
  have hreverse : (withSpaces (trimStart cs)).reverse = withSpaces (trimStart cs).reverse :=
    List.map_reverse.symm
  rw [trim, trimStart_withSpaces, trimEnd, hreverse, dropWhile_withSpaces overlooksBlanks_isBlank]
  exact List.map_reverse.symm

theorem words_withSpaces (cs : List Char) : words (withSpaces cs) = words cs := by
  have hparts : (cs.splitOnP isBlank).map withSpaces = (cs.splitOnP isBlank).map id :=
    List.map_congr_left fun part hpart => withSpaces_of_forall (of_mem_splitOnP hpart)
  rw [words, splitOnP_withSpaces overlooksBlanks_isBlank, hparts, List.map_id, words]

theorem words_blanks_append {front : List Char} (h : ∀ c ∈ front, isBlank c = true)
    (cs : List Char) : words (front ++ cs) = words cs := by
  induction front with
  | nil => rfl
  | cons c front ih =>
      obtain ⟨hc, hfront⟩ := List.forall_mem_cons.1 h
      rw [List.cons_append, words, List.splitOnP_cons_eq_if_modifyHead, if_pos hc, ← ih hfront,
        words]
      rfl

theorem words_append_blanks {back : List Char} (h : ∀ c ∈ back, isBlank c = true)
    (cs : List Char) : words (cs ++ back) = words cs := by
  induction back using List.reverseRecOn with
  | nil => rw [List.append_nil]
  | append_singleton back c ih =>
      obtain ⟨hback, hc⟩ := List.forall_mem_append.1 h
      rw [← List.append_assoc, words,
        List.splitOnP_append_cons _ [] (hc c List.mem_cons_self), List.filter_append,
        ← ih hback, words]
      simp

theorem words_trim (cs : List Char) : words (trim cs) = words cs := by
  obtain ⟨front, back, hcs, hfront, hback⟩ := exists_trim cs
  conv_rhs => rw [hcs, words_blanks_append hfront, words_append_blanks hback]

/-- A sign stands in front of the text with spaces as it does in front of the text. -/
theorem isPrefixOf_withSpaces {sign : List Char} (h : ∀ c ∈ sign, isBlank c = false)
    (cs : List Char) : sign.isPrefixOf (withSpaces cs) = sign.isPrefixOf cs := by
  induction sign generalizing cs with
  | nil => rfl
  | cons s sign ih =>
      cases cs with
      | nil => rfl
      | cons c cs =>
          obtain ⟨hs, hsign⟩ := List.forall_mem_cons.1 h
          have hhead : (s == spaceFor c) = (s == c) := by
            rw [Bool.beq_comm, (overlooksBlanks_beq hs).apply c, Bool.beq_comm]
          rw [withSpaces_cons, List.isPrefixOf, hhead, ih hsign, List.isPrefixOf]

end Requirements.Text
