import Mathlib
import Requirements.Proofs.Specifier.Alternatives

/-!
# Where ranges meet

A text that goes on with white space is cut into alternatives as if it ended
there: the white space joins no bars, starts no stability flag and ends the last
one. So white space around a range does not count, and two ranges with bars and
spaces between them have the alternatives of the first and then those of the
second.
-/

namespace Requirements.AlternativesDialect

open Text (isBlank)

/-! ## Bars and flags -/

/-- A bar is cut on its own if no other one follows. -/
theorem splitBars_cons {single : Bool} {c : Char} {cs : List Char}
    (h : c = '|' → ∀ x ∈ cs.head?, x ≠ '|') :
    splitBars single (c :: cs) =
      if single && c == '|' then [] :: splitBars single cs
      else (splitBars single cs).modifyHead (c :: ·) := by
  obtain ⟨part, parts, hparts⟩ := List.exists_cons_of_ne_nil (splitBars_ne_nil single cs)
  rw [splitBars, hparts]
  · rfl
  · rintro rest rfl rfl
    exact h rfl '|' rfl rfl

/-- A text is cut into the same parts if something follows that does not start with
a bar. The part in which the two texts meet goes on from one to the other. -/
theorem splitBars_append {single : Bool} (cs : List Char) {rest : List Char}
    (hrest : ∀ x ∈ rest.head?, x ≠ '|') :
    ∃ front last head tail, splitBars single cs = front ++ [last] ∧
      splitBars single rest = head :: tail ∧
      splitBars single (cs ++ rest) = front ++ (last ++ head) :: tail := by
  obtain ⟨head, tail, hsplit⟩ := List.exists_cons_of_ne_nil (splitBars_ne_nil single rest)
  suffices ∃ front last, splitBars single cs = front ++ [last] ∧
      splitBars single (cs ++ rest) = front ++ (last ++ head) :: tail by
    obtain ⟨front, last, hcs, happend⟩ := this
    exact ⟨front, last, head, tail, hcs, hsplit, happend⟩
  have hfollow (c : Char) (cs : List Char) (hbars : ∀ more, c = '|' → cs = '|' :: more → False) :
      c = '|' → ∀ x ∈ (cs ++ rest).head?, x ≠ '|' := by
    rintro hc x hx rfl
    cases cs with
    | nil => exact hrest '|' hx rfl
    | cons y cs =>
        obtain rfl := Option.some.inj hx
        exact hbars cs hc rfl
  fun_induction splitBars single cs with
  | case1 => exact ⟨[], [], rfl, hsplit⟩
  | case2 cs ih =>
      obtain ⟨front, last, hcs, happend⟩ := ih
      refine ⟨[] :: front, last, by rw [hcs]; rfl, ?_⟩
      rw [List.cons_append, List.cons_append, splitBars, happend]
      rfl
  | case3 c cs hbars hsingle ih =>
      obtain ⟨front, last, hcs, happend⟩ := ih
      refine ⟨[] :: front, last, by rw [hcs]; rfl, ?_⟩
      rw [List.cons_append, splitBars_cons (hfollow c cs hbars), if_pos hsingle, happend]
      rfl
  | case4 c cs hbars hsingle part parts hparts ih =>
      obtain ⟨front, last, hcs, happend⟩ := ih
      rw [List.cons_append, splitBars_cons (hfollow c cs hbars), if_neg hsingle, happend]
      rw [hparts] at hcs
      cases front with
      | nil =>
          obtain ⟨rfl, rfl⟩ := List.cons.inj hcs
          exact ⟨[], c :: part, rfl, rfl⟩
      | cons first front =>
          obtain ⟨rfl, rfl⟩ := List.cons.inj hcs
          exact ⟨(c :: part) :: front, last, rfl, rfl⟩
  | case5 c cs _ _ hparts _ => exact absurd hparts (splitBars_ne_nil single cs)

/-- A flag does not reach past its letters. -/
theorem dropFlags_append {rest : List Char} (h : ∀ x ∈ rest.head?, x.isAlpha = false)
    (inFlag : Bool) (cs : List Char) :
    dropFlags inFlag (cs ++ rest) = dropFlags inFlag cs ++ dropFlags false rest := by
  induction cs generalizing inFlag with
  | nil =>
      cases rest with
      | nil => rfl
      | cons x rest => simp [dropFlags, h x rfl]
  | cons c cs ih =>
      have hnext : startsWithLetter (cs ++ rest) = startsWithLetter cs := by
        cases cs with
        | nil =>
            cases rest with
            | nil => rfl
            | cons x rest => exact h x rfl
        | cons x cs => rfl
      rw [List.cons_append, dropFlags, dropFlags, hnext, ih, ih]
      split
      · rfl
      · split <;> rfl

/-- Nothing is dropped from a text in front if it has no sign of a flag. -/
theorem dropFlags_append_front {front : List Char} (h : ∀ c ∈ front, c ≠ '@') (rest : List Char) :
    dropFlags false (front ++ rest) = front ++ dropFlags false rest := by
  induction front with
  | nil => rfl
  | cons c front ih =>
      have hc : c ≠ '@' := h c List.mem_cons_self
      rw [List.cons_append, dropFlags, ih fun x hx => h x (List.mem_cons_of_mem c hx)]
      simp [hc]

theorem dropFlags_eq_self {cs : List Char} (h : ∀ c ∈ cs, c ≠ '@') : dropFlags false cs = cs := by
  have hself := dropFlags_append_front h []
  rwa [dropFlags, List.append_nil] at hself

/-! ## White space between alternatives -/

theorem branches_ne_nil (d : AlternativesDialect) (range : List Char) : d.branches range ≠ [] := by
  cases d with
  | npm => exact splitBars_ne_nil _ _
  | composer => exact splitBars_ne_nil _ _

/-- A range is cut into the same alternatives if white space follows, and perhaps more. -/
theorem branches_append (d : AlternativesDialect) (range : List Char) {rest : List Char}
    (h : ∀ x ∈ rest.head?, isBlank x = true) :
    ∃ front last head tail, d.branches range = front ++ [last] ∧ d.branches rest = head :: tail ∧
      d.branches (range ++ rest) = front ++ (last ++ head) :: tail := by
  have hbar : ∀ x ∈ rest.head?, x ≠ '|' := fun x hx => Text.ne_of_class (h x hx) (by decide)
  cases d with
  | npm => exact splitBars_append range hbar
  | composer =>
      have hletter : ∀ x ∈ rest.head?, x.isAlpha = false := fun x hx =>
        (Text.not_alphanum_of_isBlank (h x hx)).1
      have hkept : ∀ x ∈ (dropFlags false rest).head?, x ≠ '|' := by
        cases rest with
        | nil => simp [dropFlags]
        | cons c rest =>
            have hflag : c ≠ '@' := Text.ne_of_class (h c rfl) (by decide)
            simpa [dropFlags, hflag] using hbar
      rw [branches, branches, branches, dropFlags_append hletter]
      exact splitBars_append _ hkept

section

variable (d : AlternativesDialect) {blanks : List Char} (h : ∀ c ∈ blanks, isBlank c = true)

include h

theorem branches_blanks_append (range : List Char) :
    d.branches (blanks ++ range) = (d.branches range).modifyHead (blanks ++ ·) := by
  have hbar : ∀ x ∈ blanks, x ≠ '|' := fun x hx => Text.ne_of_class (h x hx) (by decide)
  cases d with
  | npm => exact splitBars_append_front hbar range
  | composer =>
      have hflag : ∀ x ∈ blanks, x ≠ '@' := fun x hx => Text.ne_of_class (h x hx) (by decide)
      rw [branches, branches, dropFlags_append_front hflag]
      exact splitBars_append_front hbar _

theorem branch_blanks_append (cs : List Char) : d.branch (blanks ++ cs) = d.branch cs := by
  rw [branch, Text.trim_blanks_append h, branch]

theorem branch_append_blanks (cs : List Char) : d.branch (cs ++ blanks) = d.branch cs := by
  rw [branch, Text.trim_append_blanks h, branch]

/-- White space after the last alternative does not count. -/
theorem mapM_branch_append_blanks (front : List (List Char)) (last : List Char) :
    (front ++ [last ++ blanks]).mapM d.branch = (front ++ [last]).mapM d.branch := by
  refine mapM_eq_of_map_eq ?_
  rw [List.map_append, List.map_append, List.map_singleton, List.map_singleton,
    branch_append_blanks d h]

theorem normalize_blanks_append (range : List Char) :
    d.normalize (blanks ++ range) = d.normalize range := by
  obtain ⟨part, parts, hparts⟩ := List.exists_cons_of_ne_nil (branches_ne_nil d range)
  rw [normalize, normalize, branches_blanks_append d h, hparts, List.modifyHead_cons,
    List.mapM_cons, List.mapM_cons, branch_blanks_append d h]

theorem normalize_append_blanks (range : List Char) :
    d.normalize (range ++ blanks) = d.normalize range := by
  obtain ⟨front, last, head, tail, hrange, hblanks, happend⟩ :=
    branches_append d range fun x hx => h x (List.mem_of_mem_head? hx)
  have hsingle : d.branches blanks = [blanks] := by
    have hself := branches_blanks_append d h []
    rw [List.append_nil] at hself
    rw [hself]
    cases d <;> simp [branches, splitBars, dropFlags]
  obtain ⟨rfl, rfl⟩ := List.cons.inj (hblanks.symm.trans hsingle)
  rw [normalize, normalize, happend, hrange, mapM_branch_append_blanks d h]

end

/-- White space around a range does not count. -/
theorem normalize_trim (d : AlternativesDialect) (range : List Char) :
    d.normalize (Text.trim range) = d.normalize range := by
  obtain ⟨front, back, hrange, hfront, hback⟩ := Text.exists_trim range
  rw [← normalize_append_blanks d hback, ← normalize_blanks_append d hfront, ← hrange]

/-- Bars between two ranges, with a space on either side, put the alternatives of
the second one after those of the first. -/
theorem normalize_append_bars (d : AlternativesDialect) (left right : List Char) :
    d.normalize (left ++ ' ' :: '|' :: '|' :: ' ' :: right) = (do
      let first ← d.normalize left
      let second ← d.normalize right
      return first ++ second) := by
  have hspace : ∀ c ∈ [' '], isBlank c = true := List.forall_mem_singleton.2 Text.isBlank_space
  have hhead : ∀ c ∈ (' ' :: '|' :: '|' :: ' ' :: right).head?, isBlank c = true := by
    rintro c ⟨⟩
    exact Text.isBlank_space
  obtain ⟨front, last, head, tail, hleft, hbars, hjoin⟩ := branches_append d left hhead
  have hseam : d.branches (' ' :: '|' :: '|' :: ' ' :: right) =
      [' '] :: d.branches (' ' :: right) := by
    cases d <;> rfl
  obtain ⟨rfl, rfl⟩ := List.cons.inj (hbars.symm.trans hseam)
  have hright : d.normalize (' ' :: right) = d.normalize right :=
    normalize_blanks_append d hspace right
  rw [← hright, normalize, hjoin, List.append_cons, List.mapM_append,
    mapM_branch_append_blanks d hspace, ← hleft]
  rfl

end Requirements.AlternativesDialect
