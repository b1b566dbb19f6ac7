import Mathlib
import Requirements.Proofs.Range.Caret
import Requirements.Proofs.Range.Pessimistic

/-!
# Where the bounds of ranges come from

A version that a range starts or ends at stands in the text of the range, or it is
made of numbers that stand there: zeros take the place of missing components, or
the last number is bumped. No number wraps around, since the one without a
successor is what a range is refused for.
-/

namespace Requirements

open Text (numeral? wordMax)

/-! ## Numbers in a text -/

/-- The numbers stand in the text, each of them within a word, with points between
them and the given rest after them. -/
def Spells (text : List Char) (ns : List Nat) (rest : List Char) : Prop :=
  ∃ parts, List.Forall₂ (fun ds n => numeral? ds = some n) parts ns ∧
    ['.'].intercalate parts ++ rest <:+: text

section

variable {text text' cs rest : List Char} {ns : List Nat} {n : Nat}

theorem intercalate_isPrefix {front parts : List (List Char)}
    (h : front.flatMap ('.' :: ·) <+: parts.flatMap ('.' :: ·)) :
    ['.'].intercalate front <+: ['.'].intercalate parts := by
  cases front with
  | nil => exact List.nil_prefix
  | cons first more =>
      cases parts with
      | nil => exact absurd (List.prefix_nil.1 h) (List.cons_ne_nil _ _)
      | cons part parts =>
          rw [PartialVersion.intercalate_cons, PartialVersion.intercalate_cons]
          exact (List.cons_prefix_cons.1 h).2

theorem infix_intercalate {part : List Char} {parts : List (List Char)} (h : part ∈ parts) :
    part <:+: ['.'].intercalate parts := by
  induction parts with
  | nil => cases h
  | cons first more ih =>
      cases more with
      | nil =>
          obtain rfl := List.mem_singleton.1 h
          rw [List.intercalate_singleton]
      | cons next more =>
          rw [List.intercalate_cons_cons]
          rcases List.mem_cons.1 h with rfl | h
          · exact ((List.prefix_append _ _).trans (List.prefix_append _ _)).isInfix
          · exact (ih h).trans (List.suffix_append _ _).isInfix

theorem Spells.mono (h : Spells text ns rest) (htext : text <:+: text') : Spells text' ns rest := by
  obtain ⟨parts, hparts, hinfix⟩ := h
  exact ⟨parts, hparts, hinfix.trans htext⟩

theorem spells_nil (text : List Char) : Spells text [] [] :=
  ⟨[], .nil, List.nil_infix⟩

theorem Spells.of_isPrefix (h : Spells text ns rest) {kept : List Nat} (hkept : kept <+: ns) :
    Spells text kept [] := by
  obtain ⟨parts, hparts, hinfix⟩ := h
  obtain ⟨more, rfl⟩ := hkept
  refine ⟨parts.take kept.length, List.forall₂_take_append parts kept more hparts, ?_⟩
  rw [List.append_nil]
  have htake := intercalate_isPrefix ((List.take_prefix kept.length parts).flatMap ('.' :: ·))
  exact (htake.trans (List.prefix_append _ rest)).isInfix.trans hinfix

theorem Spells.exists_of_mem (h : Spells text ns rest) (hn : n ∈ ns) :
    ∃ ds, numeral? ds = some n ∧ ds <:+: text := by
  obtain ⟨parts, hparts, hinfix⟩ := h
  have hmem : ∃ ds ∈ parts, numeral? ds = some n := by
    clear hinfix
    induction hparts with
    | nil => cases hn
    | @cons ds m parts ns hds _ ih =>
        rcases List.mem_cons.1 hn with rfl | hn
        · exact ⟨ds, List.mem_cons_self, hds⟩
        · obtain ⟨es, hes, hvalue⟩ := ih hn
          exact ⟨es, List.mem_cons_of_mem ds hes, hvalue⟩
  obtain ⟨ds, hds, hvalue⟩ := hmem
  exact ⟨ds, hvalue, ((infix_intercalate hds).trans (List.prefix_append _ _).isInfix).trans hinfix⟩

theorem Spells.le_wordMax (h : Spells text ns rest) (hn : n ∈ ns) : n ≤ wordMax := by
  obtain ⟨ds, hds, -⟩ := h.exists_of_mem hn
  exact le_wordMax_of_numeral? hds

end

/-- The leading values of components are written in the leading components. -/
theorem PartialVersion.forall₂_leadingValues (components : List (List Char)) :
    ∃ parts, parts <+: components ∧
      List.Forall₂ (fun ds n => numeral? ds = some n) parts (leadingValues components) := by
  induction components with
  | nil => exact ⟨[], List.prefix_rfl, .nil⟩
  | cons part components ih =>
      cases hvalue : numeral? part with
      | none => exact ⟨[], List.nil_prefix, by simp only [leadingValues, hvalue]; exact .nil⟩
      | some n =>
          obtain ⟨parts, hparts, hall⟩ := ih
          refine ⟨part :: parts, List.cons_prefix_cons.2 ⟨rfl, hparts⟩, ?_⟩
          simp only [leadingValues, hvalue]
          exact .cons hvalue hall

namespace Release

/-- The last release number may be the start of a part, the others are whole parts. -/
theorem forall₂_leadingNumbers (parts : List (List Char)) :
    ∃ digits, digits.flatMap ('.' :: ·) <+: parts.flatMap ('.' :: ·) ∧
      List.Forall₂ (fun ds n => numeral? ds = some n) digits (leadingNumbers parts) := by
  induction parts with
  | nil => exact ⟨[], List.nil_prefix, .nil⟩
  | cons part parts ih =>
      cases hvalue : numeral? (part.takeWhile Char.isDigit) with
      | none => exact ⟨[], List.nil_prefix, by simp only [leadingNumbers, hvalue]; exact .nil⟩
      | some n =>
          by_cases hlength : (part.takeWhile Char.isDigit).length = part.length
          · have hall := (List.takeWhile_prefix Char.isDigit).eq_of_length hlength
            obtain ⟨digits, hdigits, hvalues⟩ := ih
            refine ⟨part :: digits, ?_, ?_⟩
            · rw [List.flatMap_cons, List.flatMap_cons]
              exact (List.prefix_append_right_inj _).2 hdigits
            · simp only [leadingNumbers, hvalue, if_pos hlength]
              exact .cons (hall ▸ hvalue) hvalues
          · refine ⟨[part.takeWhile Char.isDigit], ?_, ?_⟩
            · rw [List.flatMap_singleton, List.flatMap_cons]
              exact (List.cons_prefix_cons.2 ⟨rfl, List.takeWhile_prefix _⟩).trans
                (List.prefix_append _ _)
            · simp only [leadingNumbers, hvalue, if_neg hlength]
              exact .cons hvalue .nil

/-- The release numbers of a version stand in it. -/
theorem spells_numbers (cs : List Char) : Spells cs (numbers cs) [] := by
  obtain ⟨digits, hprefix, hvalues⟩ :=
    forall₂_leadingNumbers ((cs.dropWhile fun c => c == 'v' || c == 'V').splitOnP (· == '.'))
  refine ⟨digits, hvalues, ?_⟩
  have hjoin (xs : List Char) : ['.'].intercalate (xs.splitOnP (· == '.')) = xs :=
    List.intercalate_splitOn '.'
  have hstart := intercalate_isPrefix hprefix
  rw [hjoin] at hstart
  rw [List.append_nil]
  exact hstart.isInfix.trans (List.dropWhile_suffix _).isInfix

end Release

namespace Version

/-- The version stands in the text, or it is made of numbers of the text. -/
inductive ComesFrom (text : List Char) : Version → Prop
  /-- It stands there as it is. -/
  | written {v : Version} (h : v.toList <:+: text) : ComesFrom text v
  /-- Zeros take the place of missing components. -/
  | padded {ns : List Nat} (k : Nat) (h : Spells text ns []) :
      ComesFrom text (dotted (ns ++ List.replicate k 0))
  /-- The numbers have a tag. -/
  | tagged {ns : List Nat} {tag : String} (h : Spells text ns ('-' :: tag.toList)) :
      ComesFrom text (dotted ns ++ "-" ++ tag)
  /-- The last number is bumped, and zeros follow it. -/
  | bumped {front : List Nat} {n : Nat} (k : Nat) (h : Spells text (front ++ [n]) [])
      (hn : n < wordMax) : ComesFrom text (dotted (front ++ (n + 1) :: List.replicate k 0))

theorem ComesFrom.mono {text text' : List Char} {v : Version} (h : v.ComesFrom text)
    (htext : text <:+: text') : v.ComesFrom text' := by
  cases h with
  | written h => exact .written (h.trans htext)
  | padded k h => exact .padded k (h.mono htext)
  | tagged h => exact .tagged (h.mono htext)
  | bumped k h hn => exact .bumped k (h.mono htext) hn

theorem comesFrom_lowest (text : List Char) : Term.lowestVersion.ComesFrom text :=
  .padded 3 (spells_nil text)

end Version

/-- The terms are about versions from the text. -/
def TermsFrom (text : List Char) (ts : List Term) : Prop :=
  ∀ t ∈ ts, t.version.ComesFrom text

/-- An end that comes from the text, or none. -/
def EndFrom (text : List Char) (upper : Option Version) : Prop :=
  ∀ u ∈ upper, u.ComesFrom text

/-- The number without a successor is the largest one of a word, and it stands in
the text. -/
def Oversized.StandsIn (text : List Char) (o : Oversized) : Prop :=
  o.component = wordMax ∧ ∃ ds, numeral? ds = some o.component ∧ ds <:+: text

theorem termsFrom_singleton {text : List Char} {t : Term} (h : t.version.ComesFrom text) :
    TermsFrom text [t] :=
  List.forall_mem_singleton.2 h

theorem termsFrom_any (text : List Char) : TermsFrom text [.any] :=
  termsFrom_singleton (Version.comesFrom_lowest text)

theorem termsFrom_between {text : List Char} {lower : Version} {upper : Option Version}
    (hlower : lower.ComesFrom text) (hupper : EndFrom text upper) :
    TermsFrom text (PartialVersion.between lower upper) := by
  refine List.forall_mem_cons.2 ⟨hlower, fun t ht => ?_⟩
  obtain ⟨u, hu, rfl⟩ := Option.map_eq_some_iff.1 (Option.mem_toList.1 ht)
  exact hupper u hu

theorem TermsFrom.mono {text text' : List Char} {ts : List Term} (h : TermsFrom text ts)
    (htext : text <:+: text') : TermsFrom text' ts :=
  fun t ht => (h t ht).mono htext

/-- A bound either comes from the text, or a number of the text has no successor. -/
theorem EndsAfter.endsIn {text : List Char} {kept : List Nat}
    {bound : Except Oversized (Option Version)} (h : EndsAfter kept bound)
    (hkept : Spells text kept []) : EndsIn (EndFrom text) (Oversized.StandsIn text) bound := by
  obtain ⟨front, n, k, rfl, rfl⟩ := h
  have hmem : n ∈ front ++ [n] := List.mem_append_right front (List.mem_singleton_self n)
  unfold bump
  by_cases hn : n < wordMax
  · rw [if_pos hn]
    intro u hu
    obtain rfl := Option.some.inj hu
    exact .bumped k hkept hn
  · rw [if_neg hn]
    exact ⟨Nat.le_antisymm (hkept.le_wordMax hmem) (Nat.le_of_not_lt hn), hkept.exists_of_mem hmem⟩

namespace Release

theorem endsIn_pessimisticEnd (cs : List Char) :
    EndsIn (EndFrom cs) (Oversized.StandsIn cs) (pessimisticEnd cs) := by
  by_cases hne : numbers cs = []
  · rw [pessimisticEnd_of_nil hne]
    exact fun _ hu => nomatch hu
  · exact (endsAfter_pessimisticEnd hne).endsIn ((spells_numbers cs).of_isPrefix (kept_isPrefix _))

theorem endsIn_bumpLast {cs : List Char} (hne : numbers cs ≠ []) :
    EndsIn (Version.ComesFrom cs) (Oversized.StandsIn cs) (bumpLast (numbers cs)) := by
  have hend := (endsAfter_bumpLast hne).endsIn (spells_numbers cs)
  cases hbump : bumpLast (numbers cs) with
  | ok upper =>
      rw [hbump] at hend
      exact hend upper rfl
  | error o =>
      rw [hbump] at hend
      exact hend

end Release

namespace PartialVersion

/-- The components and the tag stand in the text. -/
structure StandsIn (text : List Char) (p : PartialVersion) : Prop where
  numbers : Spells text p.numbers []
  tagged : ∀ a b c t, p = .patch a b c (some t) → Spells text [a, b, c] ('-' :: t.toList)

theorem standsIn_of_read? {cs : List Char} {p : PartialVersion} (h : read? cs = some p) :
    p.StandsIn cs := by
  obtain ⟨x, htrim, rfl⟩ := read?_eq_some_iff.1 h
  obtain ⟨parts, hparts, hvalues⟩ := forall₂_leadingValues x.components
  have hnumbers : x.version.numbers = leadingValues x.components :=
    numbers_ofComponents _ x.length_le
  have htext : ['.'].intercalate x.components ++ (tagText x.tag ++ x.build) <:+: cs := by
    have htext := Text.infix_trim cs
    rw [htrim] at htext
    exact (List.suffix_append x.mark _).isInfix.trans htext
  rw [← hnumbers] at hvalues
  constructor
  · refine ⟨parts, hvalues, ?_⟩
    rw [List.append_nil]
    have hstart := intercalate_isPrefix (hparts.flatMap ('.' :: ·))
    exact (hstart.trans (List.prefix_append _ _)).isInfix.trans htext
  · -- A version with a tag has a value for every component.
    intro a b c t hpatch
    have htag : x.tag = some t := by
      have h := tag_of_ofComponents hpatch
      simpa [Function.comp_def] using h.symm
    rw [hpatch] at hvalues
    have hlength := hvalues.length_eq
    have hall : parts = x.components :=
      hparts.eq_of_length (Nat.le_antisymm hparts.length_le (hlength ▸ x.length_le))
    refine ⟨parts, hvalues, ?_⟩
    rw [htag, ← List.append_assoc] at htext
    rw [hall]
    exact (List.prefix_append _ x.build).isInfix.trans htext

variable {p : PartialVersion} {text : List Char} (h : p.StandsIn text)

include h

theorem StandsIn.mono {text' : List Char} (htext : text <:+: text') : p.StandsIn text' where
  numbers := h.numbers.mono htext
  tagged := fun a b c t hp => (h.tagged a b c t hp).mono htext

theorem StandsIn.floor : p.floor.ComesFrom text := by
  by_cases hlength : p.numbers.length = 3
  · obtain ⟨a, b, c, tag, rfl⟩ := exists_patch hlength
    cases tag with
    | none => exact .padded 0 h.numbers
    | some t => exact .tagged (h.tagged a b c t rfl)
  · rw [floor_eq_dotted hlength]
    exact .padded _ h.numbers

/-- Every range ends after some of the numbers, unless it does not end. -/
theorem StandsIn.endsIn {kept : List Nat} (hkept : kept <+: p.numbers)
    {bound : Except Oversized (Option Version)} (hany : p = .any → bound = .ok none)
    (hend : p ≠ .any → EndsAfter kept bound) :
    EndsIn (EndFrom text) (Oversized.StandsIn text) bound := by
  by_cases hp : p = .any
  · rw [hany hp]
    exact fun _ hu => nomatch hu
  · exact (hend hp).endsIn (h.numbers.of_isPrefix hkept)

theorem StandsIn.ceiling : EndsIn (EndFrom text) (Oversized.StandsIn text) p.ceiling :=
  h.endsIn List.prefix_rfl (fun hp => hp ▸ rfl) endsAfter_ceiling

theorem StandsIn.between {bound : Except Oversized (Option Version)}
    (hbound : EndsIn (EndFrom text) (Oversized.StandsIn text) bound) :
    EndsIn (TermsFrom text) (Oversized.StandsIn text)
      (do return PartialVersion.between p.floor (← bound)) :=
  hbound.bind fun _ hupper => termsFrom_between h.floor hupper

theorem StandsIn.caret : EndsIn (TermsFrom text) (Oversized.StandsIn text) p.caret :=
  h.between (h.endsIn (isPrefix_frozen _) (fun hp => hp ▸ rfl) endsAfter_caretEnd)

theorem StandsIn.tilde : EndsIn (TermsFrom text) (Oversized.StandsIn text) p.tilde :=
  h.between (h.endsIn (List.take_prefix 2 _) (fun hp => hp ▸ rfl) endsAfter_tildeEnd)

theorem StandsIn.covered : EndsIn (TermsFrom text) (Oversized.StandsIn text) p.covered := by
  unfold PartialVersion.covered
  split
  · exact termsFrom_singleton h.floor
  · exact h.between h.ceiling

theorem StandsIn.comparison (op : Operator) :
    EndsIn (TermsFrom text) (Oversized.StandsIn text) (p.comparison op) := by
  -- Without an end, the start stands in for it.
  have hstart {op' : Operator} : EndsIn (TermsFrom text) (Oversized.StandsIn text)
      (do return [⟨op', (← p.ceiling).getD p.floor⟩]) := by
    refine h.ceiling.bind fun upper hupper => termsFrom_singleton ?_
    cases upper with
    | none => exact h.floor
    | some u => exact hupper u rfl
  unfold PartialVersion.comparison
  split
  · split
    · exact termsFrom_singleton (Version.comesFrom_lowest text)
    · exact termsFrom_singleton (Version.comesFrom_lowest text)
    · exact termsFrom_any text
  · exact termsFrom_singleton h.floor
  · split
    · exact termsFrom_singleton h.floor
    · exact termsFrom_singleton h.floor
    · exact termsFrom_singleton h.floor
    · exact hstart
    · exact hstart
    · exact h.covered

end PartialVersion

end Requirements
