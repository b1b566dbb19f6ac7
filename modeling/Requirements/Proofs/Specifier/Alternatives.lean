import Mathlib
import Requirements.Proofs.Specifier.Comparators
import Requirements.Specifier.Choice

/-!
# Alternatives read back

Alternatives are written with spaces between terms and bars between them.
Neither occurs in a term, so the written text is cut where it was joined, and
the spaces around bars do not matter to what is cut off.
-/

namespace Requirements

open Text (isBlank)

namespace AlternativesDialect

/-! ## Bars -/

theorem splitBars_append_front {single : Bool} {front : List Char} (h : ∀ c ∈ front, c ≠ '|')
    (rest : List Char) :
    splitBars single (front ++ rest) = (splitBars single rest).modifyHead (front ++ ·) := by
  induction front with
  | nil => cases hparts : splitBars single rest <;> exact hparts
  | cons c front ih =>
      have hc : c ≠ '|' := h c List.mem_cons_self
      have hstep : splitBars single (c :: (front ++ rest)) =
          (splitBars single (front ++ rest)).modifyHead (c :: ·) := by
        obtain ⟨part, parts, hparts⟩ :=
          List.exists_cons_of_ne_nil (splitBars_ne_nil single (front ++ rest))
        rw [splitBars, hparts]
        · simp [hc]
        · rintro cs rfl
          exact absurd rfl hc
      rw [List.cons_append, hstep, ih fun x hx => h x (List.mem_cons_of_mem c hx),
        List.modifyHead_modifyHead]
      rfl

theorem splitBars_of_forall {single : Bool} {cs : List Char} (h : ∀ c ∈ cs, c ≠ '|') :
    splitBars single cs = [cs] := by
  have hfront : splitBars single (cs ++ []) = _ := splitBars_append_front h []
  rwa [List.append_nil, splitBars, List.modifyHead_cons, List.append_nil] at hfront

/-- Bars with spaces around them cut a text where it was joined, for whatever
takes no notice of these spaces. -/
theorem map_splitBars {β : Type} {f : List Char → β} (hfront : ∀ cs, f (' ' :: cs) = f cs)
    (hback : ∀ cs, f (cs ++ [' ']) = f cs) (single : Bool) {parts : List (List Char)}
    (h : ∀ part ∈ parts, ∀ c ∈ part, c ≠ '|') (hne : parts ≠ []) :
    (splitBars single ([' ', '|', '|', ' '].intercalate parts)).map f = parts.map f := by
  induction parts with
  | nil => exact absurd rfl hne
  | cons part rest ih =>
      have hpart : ∀ c ∈ part, c ≠ '|' := h part List.mem_cons_self
      cases rest with
      | nil => rw [List.intercalate_singleton, splitBars_of_forall hpart]
      | cons next rest =>
          have hrest := ih (fun q hq => h q (List.mem_cons_of_mem part hq)) (by simp)
          have hspace : ∀ c ∈ part ++ [' '], c ≠ '|' := by
            intro c hc
            rcases List.mem_append.1 hc with hc | hc
            · exact hpart c hc
            · obtain rfl := List.mem_singleton.1 hc
              decide
          let text := [' ', '|', '|', ' '].intercalate (next :: rest)
          have hjoin : [' ', '|', '|', ' '].intercalate (part :: next :: rest) =
              (part ++ [' ']) ++ '|' :: '|' :: ([' '] ++ text) := by
            simp [text, List.intercalate_cons_cons]
          have hbars : splitBars single ('|' :: '|' :: ([' '] ++ text)) =
              [] :: (splitBars single text).modifyHead ([' '] ++ ·) := by
            rw [splitBars, splitBars_append_front (by simp)]
          obtain ⟨first, others, hparts⟩ := List.exists_cons_of_ne_nil (splitBars_ne_nil single text)
          rw [hjoin, splitBars_append_front hspace, hbars, List.modifyHead_cons, List.append_nil,
            List.map_cons, hback, List.map_cons, ← hrest]
          show _ = f part :: (splitBars single text).map f
          rw [hparts]
          simp [hfront]

/-! ## Written alternatives -/

end AlternativesDialect

namespace Alternatives

theorem toList_renderBranch (ts : List Term) :
    (renderBranch ts).toList = [' '].intercalate (ts.map fun t => t.text.toList) := by
  simp [renderBranch, Function.comp_def]

theorem toList_render (branches : Alternatives) :
    (render branches).toList =
      [' ', '|', '|', ' '].intercalate (branches.map fun ts => (renderBranch ts).toList) := by
  simp [render, Function.comp_def]

/-- Terms that can be written one after the other: there is one at least, and
all have version tokens. -/
def IsTokenBranch (ts : List Term) : Prop :=
  ts ≠ [] ∧ ∀ t ∈ ts, isVersionToken t.version.toList = true

section

variable {ts : List Term} (h : IsTokenBranch ts)

include h

theorem word_of_mem_texts : ∀ w ∈ ts.map (fun t => t.text.toList),
    w ≠ [] ∧ ∀ c ∈ w, isTermChar c = true := by
  intro w hw
  obtain ⟨t, ht, rfl⟩ := List.mem_map.1 hw
  exact ⟨t.text_ne_nil, Term.isTermChar_of_mem_text (h.2 t ht)⟩

theorem words_renderBranch :
    Text.words (renderBranch ts).toList = ts.map fun t => t.text.toList := by
  rw [toList_renderBranch]
  refine Text.words_intercalate fun w hw => ?_
  obtain ⟨hne, hchars⟩ := word_of_mem_texts h w hw
  exact ⟨hne, fun c hc => isBlank_of_isTermChar (hchars c hc)⟩

theorem isBlank_head?_renderBranch : ∀ c ∈ (renderBranch ts).toList.head?, isBlank c = false := by
  intro c hc
  rw [toList_renderBranch] at hc
  obtain ⟨w, hw, hc⟩ := Text.mem_head?_intercalate (fun w hw => (word_of_mem_texts h w hw).1) hc
  exact isBlank_of_isTermChar ((word_of_mem_texts h w hw).2 c (List.mem_of_mem_head? hc))

theorem isBlank_getLast?_renderBranch :
    ∀ c ∈ (renderBranch ts).toList.getLast?, isBlank c = false := by
  intro c hc
  rw [toList_renderBranch] at hc
  obtain ⟨w, hw, hc⟩ := Text.mem_getLast?_intercalate
    (fun w hw => (word_of_mem_texts h w hw).1) hc
  exact isBlank_of_isTermChar ((word_of_mem_texts h w hw).2 c (List.mem_of_mem_getLast? hc))

theorem trim_renderBranch : Text.trim (renderBranch ts).toList = (renderBranch ts).toList :=
  Text.trim_eq_self (isBlank_head?_renderBranch h) (isBlank_getLast?_renderBranch h)

theorem mem_renderBranch : ∀ c ∈ (renderBranch ts).toList, c = ' ' ∨ isTermChar c = true := by
  intro c hc
  rw [toList_renderBranch] at hc
  rcases Text.mem_intercalate hc with hc | ⟨w, hw, hc⟩
  · exact .inl (List.mem_singleton.1 hc)
  · exact .inr ((word_of_mem_texts h w hw).2 c hc)

theorem renderBranch_ne_nil : (renderBranch ts).toList ≠ [] := by
  rw [toList_renderBranch]
  exact Text.intercalate_ne_nil _ (by simpa using h.1) fun w hw => (word_of_mem_texts h w hw).1

/-- The terms of an alternative read back. -/
theorem readBranch_renderBranch : readBranch (renderBranch ts).toList = .ok ts := by
  have hterms : (ts.map fun t => t.text.toList).mapM readTerm = .ok ts := by
    rw [mapM_eq_ok, List.forall₂_map_left_iff, List.forall₂_same]
    intro t ht
    have hstar : t.text.toList ≠ ['*'] := by
      intro hstar
      have hchars := Term.isTermChar_of_mem_text (h.2 t ht) '*' (by simp [hstar])
      exact absurd hchars (by decide)
    rw [readTerm, if_neg hstar, Term.read_text (h.2 t ht)]
  have hempty : ts.isEmpty = false := List.isEmpty_eq_false_iff.2 h.1
  rw [readBranch, words_renderBranch h]
  exact bind_eq_ok.2 ⟨ts, hterms, by rw [hempty]; rfl⟩

end

theorem readBranch_space_cons (cs : List Char) : readBranch (' ' :: cs) = readBranch cs := by
  rw [readBranch, Text.words_space_cons, readBranch]

theorem readBranch_append_space (cs : List Char) : readBranch (cs ++ [' ']) = readBranch cs := by
  rw [readBranch, Text.words_append_space, readBranch]

theorem ne_bar_of_mem_renderBranch {ts : List Term} (h : IsTokenBranch ts) :
    ∀ c ∈ (renderBranch ts).toList, c ≠ '|' := by
  intro c hc
  rcases mem_renderBranch h c hc with rfl | hc
  · decide
  · exact Text.ne_of_class hc (by decide)

theorem mem_render {branches : Alternatives} (h : ∀ ts ∈ branches, IsTokenBranch ts) :
    ∀ c ∈ (render branches).toList, c = ' ' ∨ c = '|' ∨ isTermChar c = true := by
  intro c hc
  rw [toList_render] at hc
  rcases Text.mem_intercalate hc with hc | ⟨part, hpart, hc⟩
  · simp only [List.mem_cons, List.not_mem_nil, or_false] at hc
    tauto
  · obtain ⟨ts, hts, rfl⟩ := List.mem_map.1 hpart
    rcases mem_renderBranch (h ts hts) c hc with hc | hc
    · exact .inl hc
    · exact .inr (.inr hc)

/-- The parts between the bars are the alternatives where they were written, for
whatever takes no notice of spaces around them. -/
theorem map_splitBars_render {β : Type} {f : List Char → β} (hfront : ∀ cs, f (' ' :: cs) = f cs)
    (hback : ∀ cs, f (cs ++ [' ']) = f cs) (single : Bool) {branches : Alternatives}
    (hne : branches ≠ []) (h : ∀ ts ∈ branches, IsTokenBranch ts) :
    (AlternativesDialect.splitBars single (render branches).toList).map f =
      branches.map fun ts => f (renderBranch ts).toList := by
  rw [toList_render, AlternativesDialect.map_splitBars hfront hback single, List.map_map]
  · rfl
  · intro part hpart
    obtain ⟨ts, hts, rfl⟩ := List.mem_map.1 hpart
    exact ne_bar_of_mem_renderBranch (h ts hts)
  · simpa using hne

/-- The words between the bars are the terms of the alternatives. -/
theorem words_render {branches : Alternatives} (hne : branches ≠ [])
    (h : ∀ ts ∈ branches, IsTokenBranch ts) :
    (AlternativesDialect.splitBars false (render branches).toList).map Text.words =
      branches.map fun ts => ts.map fun t => t.text.toList := by
  rw [map_splitBars_render Text.words_space_cons Text.words_append_space false hne h]
  exact List.map_congr_left fun ts hts => words_renderBranch (h ts hts)

/-- Alternatives read back. -/
theorem read_render {branches : Alternatives} (hne : branches ≠ [])
    (h : ∀ ts ∈ branches, IsTokenBranch ts) : read (render branches).toList = .ok branches := by
  rw [read, mapM_eq_of_map_eq (map_splitBars_render readBranch_space_cons readBranch_append_space
    false hne h), mapM_eq_ok, List.forall₂_same]
  exact fun ts hts => readBranch_renderBranch (h ts hts)

end Alternatives

end Requirements
