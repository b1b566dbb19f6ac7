import Mathlib
import Requirements.Text.Blank

/-!
# Joined texts and their parts

Splitting a text undoes joining parts with a separator that none of them holds,
and the words of words joined with spaces are these words. Trimming a text
changes nothing if it starts and ends with something else than white space.
-/

namespace Requirements.Text

/-- Characters that a class tells apart are different. -/
theorem ne_of_class {p : Char → Bool} {c d : Char} (hc : p c = true) (hd : p d = false) :
    c ≠ d := by
  rintro rfl
  rw [hc] at hd
  cases hd

/-- If no character of one class is in another, none of the other is in the first. -/
theorem class_symm (p : Char → Bool) {q : Char → Bool} (h : ∀ c, p c = true → q c = false)
    {c : Char} (hc : q c = true) : p c = false := by
  by_contra hp
  rw [h c (by simpa using hp)] at hc
  cases hc

/-- Taking and dropping stop where the text goes on with another kind of character. -/
theorem takeWhile_dropWhile_append {α : Type} {p : α → Bool} (front rest : List α)
    (hfront : ∀ x ∈ front, p x = true) (hrest : ∀ x ∈ rest.head?, p x = false) :
    (front ++ rest).takeWhile p = front ∧ (front ++ rest).dropWhile p = rest := by
  rw [List.takeWhile_append_of_pos hfront, List.dropWhile_append_of_pos hfront]
  cases rest with
  | nil => simp
  | cons x rest => simp [hrest x rfl]

/-- Joining texts with a separator that none of them holds is undone by splitting. -/
theorem splitOnP_intercalate {α : Type} {p : α → Bool} {sep : α} (hsep : p sep = true)
    {parts : List (List α)} (h : ∀ part ∈ parts, ∀ x ∈ part, p x = false) (hne : parts ≠ []) :
    ([sep].intercalate parts).splitOnP p = parts := by
  induction parts with
  | nil => exact absurd rfl hne
  | cons part rest ih =>
      have hpart := h part (by simp)
      cases rest with
      | nil => rw [List.intercalate_singleton, List.splitOnP_eq_singleton hpart]
      | cons next rest =>
          rw [List.intercalate_cons_cons, List.append_assoc, List.singleton_append,
            List.splitOnP_append_cons_of_forall_mem hpart sep hsep,
            ih (fun q hq => h q (List.mem_cons_of_mem part hq)) (by simp)]

/-- The first of some joined parts is split off, whatever follows the last one. -/
theorem splitOnP_intercalate_append {α : Type} {p : α → Bool} {sep : α} (hsep : p sep = true)
    {part : List α} (hpart : ∀ x ∈ part, p x = false) (next : List α) (parts : List (List α))
    (rest : List α) : ([sep].intercalate (part :: next :: parts) ++ rest).splitOnP p =
      part :: ([sep].intercalate (next :: parts) ++ rest).splitOnP p := by
  rw [List.intercalate_cons_cons, List.append_assoc, List.append_assoc, List.singleton_append,
    List.splitOnP_append_cons_of_forall_mem hpart sep hsep]

/-- What stands in front of the first separator goes to the first part. -/
theorem splitOnP_append_front {α : Type} {p : α → Bool} {front : List α}
    (h : ∀ x ∈ front, p x = false) (rest : List α) :
    (front ++ rest).splitOnP p = (rest.splitOnP p).modifyHead (front ++ ·) := by
  induction front with
  | nil => cases hparts : rest.splitOnP p <;> exact hparts
  | cons x front ih =>
      rw [List.cons_append, List.splitOnP_cons_eq_if_modifyHead, if_neg (by simp [h x]),
        ih fun y hy => h y (List.mem_cons_of_mem x hy), List.modifyHead_modifyHead]
      rfl

/-- What stands behind the last separator goes to the last part. -/
theorem splitOnP_append_back {α : Type} {p : α → Bool} {back : List α}
    (h : ∀ x ∈ back, p x = false) (xs : List α) :
    ∃ front last, xs.splitOnP p = front ++ [last] ∧
      (xs ++ back).splitOnP p = front ++ [last ++ back] := by
  induction xs with
  | nil => exact ⟨[], [], rfl, List.splitOnP_eq_singleton h⟩
  | cons x xs ih =>
      obtain ⟨front, last, hxs, happend⟩ := ih
      rw [List.cons_append, List.splitOnP_cons_eq_if_modifyHead,
        List.splitOnP_cons_eq_if_modifyHead, hxs, happend]
      split
      · exact ⟨[] :: front, last, rfl, rfl⟩
      · cases front with
        | nil => exact ⟨[], x :: last, rfl, rfl⟩
        | cons part front => exact ⟨(x :: part) :: front, last, rfl, rfl⟩

theorem splitOnP_map {α β : Type} (f : α → β) (p : β → Bool) (xs : List α) :
    (xs.map f).splitOnP p = (xs.splitOnP (p ∘ f)).map (List.map f) := by
  induction xs with
  | nil => rfl
  | cons x xs ih =>
      rw [List.map_cons, List.splitOnP_cons_eq_if_modifyHead, List.splitOnP_cons_eq_if_modifyHead,
        ih, Function.comp_apply]
      split
      · rfl
      · cases xs.splitOnP (p ∘ f) <;> rfl

theorem splitOnP_congr {α : Type} {p q : α → Bool} {xs : List α} (h : ∀ x ∈ xs, p x = q x) :
    xs.splitOnP p = xs.splitOnP q := by
  induction xs with
  | nil => rfl
  | cons x xs ih =>
      rw [List.splitOnP_cons_eq_if_modifyHead, List.splitOnP_cons_eq_if_modifyHead,
        h x List.mem_cons_self, ih fun y hy => h y (List.mem_cons_of_mem x hy)]

/-- A text can be cut at some of the separators first. -/
theorem splitOnP_flatMap {α : Type} {p q : α → Bool} (h : ∀ x, q x = true → p x = true)
    (xs : List α) : (xs.splitOnP q).flatMap (List.splitOnP p) = xs.splitOnP p := by
  induction xs with
  | nil => rfl
  | cons x xs ih =>
      obtain ⟨part, parts, hparts⟩ := List.exists_cons_of_ne_nil (List.splitOnP_ne_nil q xs)
      rw [List.splitOnP_cons_eq_if_modifyHead, List.splitOnP_cons_eq_if_modifyHead, ← ih, hparts]
      by_cases hq : q x = true
      · rw [if_pos hq, if_pos (h x hq)]
        rfl
      · rw [if_neg hq, List.modifyHead_cons, List.flatMap_cons, List.flatMap_cons,
          List.splitOnP_cons_eq_if_modifyHead]
        split
        · rfl
        · obtain ⟨first, rest, hfirst⟩ := List.exists_cons_of_ne_nil (List.splitOnP_ne_nil p part)
          rw [hfirst]
          rfl

theorem mem_intercalate {α : Type} {sep : List α} {x : α} {parts : List (List α)}
    (h : x ∈ sep.intercalate parts) : x ∈ sep ∨ ∃ part ∈ parts, x ∈ part := by
  induction parts with
  | nil => cases h
  | cons part rest ih =>
      cases rest with
      | nil =>
          rw [List.intercalate_singleton] at h
          exact .inr ⟨part, List.mem_cons_self, h⟩
      | cons next rest =>
          rw [List.intercalate_cons_cons, List.mem_append, List.mem_append] at h
          rcases h with (h | h) | h
          · exact .inr ⟨part, List.mem_cons_self, h⟩
          · exact .inl h
          · rcases ih h with h | ⟨q, hq, hx⟩
            · exact .inl h
            · exact .inr ⟨q, List.mem_cons_of_mem part hq, hx⟩

theorem intercalate_ne_nil {α : Type} (sep : List α) {parts : List (List α)} (hne : parts ≠ [])
    (h : ∀ part ∈ parts, part ≠ []) : sep.intercalate parts ≠ [] := by
  obtain ⟨part, rest, rfl⟩ := List.exists_cons_of_ne_nil hne
  have hpart := h part List.mem_cons_self
  cases rest with
  | nil => rwa [List.intercalate_singleton]
  | cons next rest =>
      rw [List.intercalate_cons_cons, List.append_assoc]
      exact List.append_ne_nil_of_left_ne_nil hpart _

/-- A joined text starts with the first part. -/
theorem mem_head?_intercalate {α : Type} {sep : List α} {parts : List (List α)} {x : α}
    (h : ∀ part ∈ parts, part ≠ []) (hx : x ∈ (sep.intercalate parts).head?) :
    ∃ part ∈ parts, x ∈ part.head? := by
  cases parts with
  | nil => cases hx
  | cons part rest =>
      refine ⟨part, List.mem_cons_self, ?_⟩
      cases rest with
      | nil => rwa [List.intercalate_singleton] at hx
      | cons next rest =>
          rwa [List.intercalate_cons_cons, List.append_assoc,
            List.head?_append_of_ne_nil _ (h part List.mem_cons_self)] at hx

/-- A joined text ends with the last part. -/
theorem mem_getLast?_intercalate {α : Type} {sep : List α} {parts : List (List α)} {x : α}
    (h : ∀ part ∈ parts, part ≠ []) (hx : x ∈ (sep.intercalate parts).getLast?) :
    ∃ part ∈ parts, x ∈ part.getLast? := by
  induction parts with
  | nil => cases hx
  | cons part rest ih =>
      cases rest with
      | nil =>
          rw [List.intercalate_singleton] at hx
          exact ⟨part, List.mem_cons_self, hx⟩
      | cons next rest =>
          have hrest : ∀ q ∈ next :: rest, q ≠ [] := fun q hq => h q (List.mem_cons_of_mem part hq)
          rw [List.intercalate_cons_cons,
            List.getLast?_append_of_ne_nil _ (intercalate_ne_nil sep (by simp) hrest)] at hx
          obtain ⟨q, hq, hxq⟩ := ih hrest hx
          exact ⟨q, List.mem_cons_of_mem part hq, hxq⟩

/-! ## Trimming -/

theorem toNat_of_isAlphanum {c : Char} (h : c.isAlphanum = true) :
    48 ≤ c.toNat ∧ c.toNat ≤ 122 := by
  simp only [Char.isAlphanum, Char.isAlpha, Char.isUpper, Char.isLower, Char.isDigit,
    Bool.or_eq_true, Bool.and_eq_true, decide_eq_true_eq] at h
  change ((65 ≤ c.toNat ∧ c.toNat ≤ 90) ∨ (97 ≤ c.toNat ∧ c.toNat ≤ 122)) ∨
    (48 ≤ c.toNat ∧ c.toNat ≤ 57) at h
  omega

/-- ASCII letters and digits are no white space. -/
theorem isBlank_of_isAlphanum {c : Char} (h : c.isAlphanum = true) : isBlank c = false := by
  have hc := toNat_of_isAlphanum h
  simp only [isBlank, Bool.or_eq_false_iff, Bool.and_eq_false_iff, decide_eq_false_iff_not,
    beq_eq_false_iff_ne]
  omega

/-- White space is neither an ASCII letter nor a digit. -/
theorem not_alphanum_of_isBlank {c : Char} (h : isBlank c = true) :
    c.isAlpha = false ∧ c.isDigit = false := by
  cases halnum : c.isAlphanum with
  | false => simpa [Char.isAlphanum] using halnum
  | true =>
      rw [isBlank_of_isAlphanum halnum] at h
      cases h

theorem isBlank_space : isBlank ' ' = true := by decide

theorem trimStart_eq_self {cs : List Char} (h : ∀ c ∈ cs.head?, isBlank c = false) :
    trimStart cs = cs := by
  cases cs with
  | nil => rfl
  | cons c cs => rw [trimStart_cons, if_neg (by simp [h c rfl])]

theorem trim_eq_self {cs : List Char} (hfirst : ∀ c ∈ cs.head?, isBlank c = false)
    (hlast : ∀ c ∈ cs.getLast?, isBlank c = false) : trim cs = cs := by
  have hreverse : trimStart cs.reverse = cs.reverse :=
    trimStart_eq_self fun c hc => hlast c (by rwa [List.head?_reverse] at hc)
  rw [trim, trimStart_eq_self hfirst]
  show (trimStart cs.reverse).reverse = cs
  rw [hreverse, List.reverse_reverse]

/-- A text without white space is trimmed. -/
theorem trim_of_forall {cs : List Char} (h : ∀ c ∈ cs, isBlank c = false) : trim cs = cs :=
  trim_eq_self (fun c hc => h c (List.mem_of_mem_head? hc))
    fun c hc => h c (List.mem_of_mem_getLast? hc)

/-- Two texts with a space between them are trimmed if the first one starts and
the second one ends with something else than white space. -/
theorem trim_join {front back : List Char} (hne : front ≠ []) (hback : back ≠ [])
    (hfirst : ∀ c ∈ front.head?, isBlank c = false)
    (hlast : ∀ c ∈ back.getLast?, isBlank c = false) :
    trim (front ++ ' ' :: back) = front ++ ' ' :: back := by
  refine trim_eq_self (fun c hc => ?_) fun c hc => ?_
  · rw [List.head?_append_of_ne_nil _ hne] at hc
    exact hfirst c hc
  · rw [List.getLast?_append_of_ne_nil _ (by simp), List.getLast?_cons_of_ne_nil hback] at hc
    exact hlast c hc

theorem isBlank_of_mem_takeWhile {cs : List Char} {c : Char} (h : c ∈ cs.takeWhile isBlank) :
    isBlank c = true :=
  List.mem_takeWhile_imp h

theorem trim_append_takeWhile (cs : List Char) :
    trim cs ++ ((trimStart cs).reverse.takeWhile isBlank).reverse = trimStart cs := by
  rw [trim, trimEnd, ← List.reverse_append, List.takeWhile_append_dropWhile,
    List.reverse_reverse]

/-- Trimming takes white space off both ends and nothing else. -/
theorem exists_trim (cs : List Char) :
    ∃ front back, cs = front ++ (trim cs ++ back) ∧ (∀ c ∈ front, isBlank c = true) ∧
      ∀ c ∈ back, isBlank c = true := by
  refine ⟨cs.takeWhile isBlank, ((trimStart cs).reverse.takeWhile isBlank).reverse, ?_,
    fun c => isBlank_of_mem_takeWhile, fun c hc =>
      isBlank_of_mem_takeWhile (List.mem_reverse.1 hc)⟩
  rw [trim_append_takeWhile, trimStart, List.takeWhile_append_dropWhile]

theorem infix_trim (cs : List Char) : trim cs <:+: cs := by
  obtain ⟨front, back, hcs, -, -⟩ := exists_trim cs
  exact ⟨front, back, by rw [List.append_assoc, ← hcs]⟩

/-- A text that starts with something else than white space does so when trimmed. -/
theorem exists_trim_cons {c : Char} (h : isBlank c = false) (cs : List Char) :
    ∃ rest, trim (c :: cs) = c :: rest := by
  obtain ⟨front, back, hcs, hfront, hback⟩ := exists_trim (c :: cs)
  cases front with
  | cons x front =>
      obtain ⟨rfl, _⟩ := List.cons.inj hcs
      rw [hfront c List.mem_cons_self] at h
      cases h
  | nil =>
      cases htrim : trim (c :: cs) with
      | nil =>
          rw [htrim] at hcs
          have hmem : c ∈ back := by
            rw [List.nil_append, List.nil_append] at hcs
            exact hcs ▸ List.mem_cons_self
          rw [hback c hmem] at h
          cases h
      | cons x rest =>
          rw [htrim] at hcs
          obtain ⟨rfl, _⟩ := List.cons.inj hcs
          exact ⟨rest, rfl⟩

/-- A trimmed text neither starts nor ends with white space. -/
theorem isBlank_ends_trim (cs : List Char) :
    (∀ c ∈ (trim cs).head?, isBlank c = false) ∧ ∀ c ∈ (trim cs).getLast?, isBlank c = false := by
  have hfirst (xs : List Char) : ∀ c ∈ (xs.dropWhile isBlank).head?, isBlank c = false := by
    intro c hc
    have hnot := List.head?_dropWhile_not isBlank xs
    rw [hc] at hnot
    simpa using hnot
  constructor
  · intro c hc
    have hstart : c ∈ (trimStart cs).head? := by
      rw [← trim_append_takeWhile, List.head?_append, Option.mem_def.1 hc]
      rfl
    exact hfirst cs c hstart
  · intro c hc
    rw [trim, trimEnd, List.getLast?_reverse] at hc
    exact hfirst _ c hc

theorem trim_blanks_append {front : List Char} (h : ∀ c ∈ front, isBlank c = true)
    (cs : List Char) : trim (front ++ cs) = trim cs := by
  rw [trim, trimStart, List.dropWhile_append_of_pos h]
  rfl

theorem trimEnd_append_blanks {back : List Char} (h : ∀ c ∈ back, isBlank c = true)
    (cs : List Char) : trimEnd (cs ++ back) = trimEnd cs := by
  rw [trimEnd, List.reverse_append, List.dropWhile_append_of_pos (by simpa using h), trimEnd]

theorem trim_append_blanks {back : List Char} (h : ∀ c ∈ back, isBlank c = true)
    (cs : List Char) : trim (cs ++ back) = trim cs := by
  rw [trim, trimStart, List.dropWhile_append]
  split
  · rename_i hall
    have hcs : trimStart cs = [] := List.isEmpty_iff.1 hall
    rw [trim, hcs, List.dropWhile_eq_nil_iff.2 h]
  · exact trimEnd_append_blanks h _

/-! ## Words -/

/-- A part that is split off has no separators. -/
theorem of_mem_splitOnP {α : Type} {p : α → Bool} {xs part : List α}
    (h : part ∈ xs.splitOnP p) : ∀ x ∈ part, p x = false := by
  induction xs generalizing part with
  | nil =>
      obtain rfl : part = [] := by simpa using h
      simp
  | cons x xs ih =>
      rw [List.splitOnP_cons_eq_if_modifyHead] at h
      split at h
      · rcases List.mem_cons.1 h with rfl | h
        · simp
        · exact ih h
      · rename_i hx
        obtain ⟨first, rest, hparts⟩ := List.exists_cons_of_ne_nil (List.splitOnP_ne_nil p xs)
        rw [hparts, List.modifyHead_cons] at h
        rcases List.mem_cons.1 h with rfl | h
        · intro y hy
          rcases List.mem_cons.1 hy with rfl | hy
          · simpa using hx
          · exact ih (by simp [hparts]) y hy
        · exact ih (by simp [hparts, h])

theorem prefix_of_splitOnP {α : Type} {p : α → Bool} {xs first : List α} {rest : List (List α)}
    (h : xs.splitOnP p = first :: rest) : first <+: xs := by
  induction xs generalizing first rest with
  | nil =>
      obtain ⟨rfl, _⟩ := List.cons.inj h
      exact List.nil_prefix
  | cons x xs ih =>
      rw [List.splitOnP_cons_eq_if_modifyHead] at h
      split at h
      · obtain ⟨rfl, _⟩ := List.cons.inj h
        exact List.nil_prefix
      · obtain ⟨part, parts, hparts⟩ := List.exists_cons_of_ne_nil (List.splitOnP_ne_nil p xs)
        rw [hparts] at h
        obtain ⟨rfl, _⟩ := List.cons.inj h
        exact List.cons_prefix_cons.2 ⟨rfl, ih hparts⟩

/-- A part that is split off is a stretch of the text. -/
theorem infix_of_mem_splitOnP {α : Type} {p : α → Bool} {xs part : List α}
    (h : part ∈ xs.splitOnP p) : part <:+: xs := by
  induction xs generalizing part with
  | nil =>
      obtain rfl : part = [] := by simpa using h
      exact List.nil_infix
  | cons x xs ih =>
      obtain ⟨first, rest, hparts⟩ := List.exists_cons_of_ne_nil
        (List.splitOnP_ne_nil p (x :: xs))
      rw [hparts] at h
      rcases List.mem_cons.1 h with rfl | h
      · exact (prefix_of_splitOnP hparts).isInfix
      · have hmem : part ∈ xs.splitOnP p := by
          rw [List.splitOnP_cons_eq_if_modifyHead] at hparts
          split at hparts
          · rwa [(List.cons.inj hparts).2]
          · cases hxs : xs.splitOnP p with
            | nil => exact absurd hxs (List.splitOnP_ne_nil p xs)
            | cons next others =>
                rw [hxs] at hparts
                rw [← (List.cons.inj hparts).2] at h
                exact List.mem_cons_of_mem next h
        exact (ih hmem).trans (List.suffix_cons x xs).isInfix

/-- A word is nonempty and has no white space. -/
theorem of_mem_words {cs w : List Char} (h : w ∈ words cs) :
    w ≠ [] ∧ ∀ c ∈ w, isBlank c = false := by
  obtain ⟨hmem, hne⟩ := List.mem_filter.1 h
  exact ⟨by simpa using hne, of_mem_splitOnP hmem⟩

theorem infix_of_mem_words {cs w : List Char} (h : w ∈ words cs) : w <:+: cs :=
  infix_of_mem_splitOnP (List.mem_filter.1 h).1

theorem words_space_cons (cs : List Char) : words (' ' :: cs) = words cs := by
  rw [words, List.splitOnP_cons_eq_if_modifyHead, if_pos isBlank_space, words]
  rfl

theorem words_append_space (cs : List Char) : words (cs ++ [' ']) = words cs := by
  rw [words, List.splitOnP_append_cons cs [] isBlank_space, List.filter_append]
  simp [words]

/-- Words with spaces between them are the words of the joined text. -/
theorem words_intercalate {ws : List (List Char)}
    (h : ∀ w ∈ ws, w ≠ [] ∧ ∀ c ∈ w, isBlank c = false) : words ([' '].intercalate ws) = ws := by
  by_cases hnil : ws = []
  · rw [hnil]
    decide
  · rw [words, splitOnP_intercalate isBlank_space (fun w hw => (h w hw).2) hnil]
    exact List.filter_eq_self.2 fun w hw => by simpa using (h w hw).1

end Requirements.Text
