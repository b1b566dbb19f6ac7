import Mathlib
import Requirements.CommandLine
import Requirements.Proofs.Fallible
import Requirements.Proofs.Range.Partial

/-!
# Command lines read

An option keeps its text until the next known argument judges it, wherever that
argument stands. So the values of a command line are judged one at a time, and
none of them gets into the arguments of a run without it.
-/

namespace Requirements

open Text (wordMax numeral? signedNumeral?)

theorem le_wordMax_of_signedNumeral? {cs : List Char} {n : Nat} (h : signedNumeral? cs = some n) :
    n ≤ wordMax := by
  unfold signedNumeral? at h
  split at h
  · exact le_wordMax_of_numeral? h
  · exact le_wordMax_of_numeral? h

theorem positive?_bounds {text : String} {n : Nat} (h : positive? text = some n) :
    1 ≤ n ∧ n ≤ wordMax := by
  unfold positive? at h
  cases hread : signedNumeral? (Text.trim text.toList) with
  | none =>
      rw [hread] at h
      cases h
  | some m =>
      rw [hread] at h
      cases m with
      | zero => cases h
      | succ m =>
          obtain rfl := Option.some.inj h
          exact ⟨Nat.one_le_iff_ne_zero.2 m.succ_ne_zero, le_wordMax_of_signedNumeral? hread⟩

namespace CommandLine

theorem readValue_eq_number {o : ValueOption} {text : String} {n : Nat}
    (h : readValue o text = .ok (.number n)) : positive? text = some n := by
  unfold readValue at h
  split at h
  · -- A path is no number.
    split at h <;> cases h
  · -- A path is no number.
    split at h <;> cases h
  all_goals
    split at h
    · rename_i m hm
      cases h
      exact hm
    · cases h

namespace Reading

variable {r r' : Reading} {o : ValueOption} {text : String} {cs : List Char}

/-- Every value comes from a text that was judged for its option. -/
def Judged (r : Reading) : Prop :=
  ∀ e ∈ r.values, ∃ text, readValue e.1 text = .ok e.2

theorem judged_start : start.Judged :=
  List.forall_mem_nil _

/-- What is not a value may change. -/
theorem Judged.congr (h : r.Judged) (hvalues : r'.values = r.values) : r'.Judged := by
  unfold Judged
  rw [hvalues]
  exact h

/-! ## One argument -/

theorem Judged.give (hr : r.Judged) (h : r.give o text = .ok r') : r'.Judged := by
  unfold Reading.give at h
  split at h
  · cases h
  · obtain ⟨value, hvalue, h⟩ := bind_eq_ok.1 h
    obtain rfl := pure_eq_ok.1 h
    intro e he
    rcases List.mem_append.1 he with he | he
    · exact hr e he
    · obtain rfl := List.mem_singleton.1 he
      exact ⟨text, hvalue⟩

theorem Judged.settle (hr : r.Judged) (h : r.settle = .ok r') : r'.Judged := by
  unfold Reading.settle at h
  split at h
  · obtain rfl := Except.ok.inj h
    exact hr
  · cases h
  · have hnone : { r with pending := none }.Judged := hr.congr rfl
    exact hnone.give h

theorem Judged.raise {f : Flag} (hr : r.Judged) (h : r.raise f = .ok r') : r'.Judged := by
  unfold Reading.raise at h
  obtain ⟨s, hs, h⟩ := bind_eq_ok.1 h
  split at h
  · cases h
  · cases h
  · split at h
    · cases h
    · obtain rfl := pure_eq_ok.1 h
      exact (hr.settle hs).congr rfl

theorem Judged.long (hr : r.Judged) (h : r.long cs = .ok r') : r'.Judged := by
  unfold Reading.long at h
  dsimp only at h
  split at h
  · obtain ⟨s, hs, h⟩ := bind_eq_ok.1 h
    exact (hr.settle hs).give h
  · obtain ⟨s, hs, h⟩ := bind_eq_ok.1 h
    obtain rfl := pure_eq_ok.1 h
    exact (hr.settle hs).congr rfl
  · exact hr.raise h
  · cases h
  · cases h

theorem Judged.short (hr : r.Judged) (h : r.short cs = .ok r') : r'.Judged := by
  induction cs generalizing r with
  | nil =>
      obtain rfl := Except.ok.inj h
      exact hr
  | cons c cs ih =>
      unfold Reading.short at h
      split at h
      · obtain ⟨s, hs, h⟩ := bind_eq_ok.1 h
        exact ih (hr.raise hs) h
      · cases h

theorem Judged.plain (hr : r.Judged) (h : r.plain text = .ok r') : r'.Judged := by
  unfold Reading.plain at h
  split at h
  · obtain rfl := Except.ok.inj h
    exact hr.congr rfl
  · obtain ⟨s, hs, h⟩ := bind_eq_ok.1 h
    obtain rfl := pure_eq_ok.1 h
    exact (hr.settle hs).congr rfl

theorem Judged.argument (hr : r.Judged) (h : r.argument text = .ok r') : r'.Judged := by
  unfold Reading.argument at h
  split at h
  · exact hr.plain h
  · split at h
    · obtain rfl := Except.ok.inj h
      exact hr.congr rfl
    · exact hr.long h
    · exact hr.short h
    · exact hr.plain h

/-! ## All arguments -/

theorem Judged.arguments {argv : List String} (hr : r.Judged)
    (h : argv.foldlM Reading.argument r = .ok r') : r'.Judged :=
  foldlM_preserves (fun hs hstep => hs.argument hstep) hr h

theorem Judged.number? {n : Nat} (hr : r.Judged) (h : r.number? o = some n) :
    1 ≤ n ∧ n ≤ wordMax := by
  unfold Reading.number? at h
  split at h
  · rename_i m hlookup
    obtain rfl := Option.some.inj h
    obtain ⟨front, back, hvalues, -⟩ := List.lookup_eq_some_iff.1 hlookup
    have hmem : (o, .number m) ∈ r.values := by simp [hvalues]
    obtain ⟨text, htext⟩ := hr _ hmem
    exact positive?_bounds (readValue_eq_number htext)
  · cases h

end Reading

end CommandLine

namespace Arguments

/-- The numbers of a command line are positive and fit a word. -/
theorem number_bounds {argv : List String} {a : Arguments} {n : Nat} (h : read argv = .ok a)
    (hn : a.concurrency = some n ∨ a.timeout = some n) : 1 ≤ n ∧ n ≤ wordMax := by
  obtain ⟨r, hr, h⟩ := bind_eq_ok.1 h
  unfold CommandLine.Reading.finish at h
  obtain ⟨s, hs, h⟩ := bind_eq_ok.1 h
  have hjudged : s.Judged := (CommandLine.Reading.judged_start.arguments hr).settle hs
  split at h
  · obtain rfl := pure_eq_ok.1 h
    rcases hn with hn | hn
    · exact hjudged.number? hn
    · exact hjudged.number? hn
  · cases h

end Arguments

end Requirements
