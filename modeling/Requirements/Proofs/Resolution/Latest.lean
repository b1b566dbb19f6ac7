import Mathlib
import Requirements.Proofs.Resolution.Outcome

/-!
# The highest release is the end of all releases

A call for the highest releases and a call for all matching ones go through the
requirements in step: they ask for the same packages, fail together and skip
together, since what a requirement picks decides nothing about the next one. An
entry of the one is the end of the entry of the other.
-/

namespace Requirements

namespace Picked

/-- The highest release stands at the end of all matching ones, or none matches. -/
inductive IsEndOf : Picked → Picked → Prop
  | unmatched : IsEndOf .unmatched .unmatched
  | latest {v : Version} {vs : List Version} (last : vs.getLast? = some v)
      (top : ∀ w ∈ vs, Version.compare w v ≠ .gt) : IsEndOf (.latest v) (.every vs)

/-- Of an ascending list the end is picked or the whole list. -/
theorem isEndOf_ofSorted {vs : List Version}
    (h : vs.Pairwise fun a b => Version.compare a b ≠ .gt) :
    IsEndOf (ofSorted false vs) (ofSorted true vs) := by
  unfold ofSorted
  cases hlast : vs.getLast? with
  | none => exact .unmatched
  | some v =>
      obtain ⟨front, rfl⟩ := List.getLast?_eq_some_iff.1 hlast
      refine .latest hlast fun w hw => ?_
      rcases List.mem_append.1 hw with hw | hw
      · exact (List.pairwise_append.1 h).2.2 w hw v (List.mem_singleton.2 rfl)
      · rw [List.mem_singleton.1 hw, Version.equivalence_equal.refl v]
        decide

end Picked

namespace Solve

variable {fetch : String → Answer}

theorem isEndOf_matching (r : Requirement) (releases : List Version) :
    (Picked.ofSorted false (matching r releases)).IsEndOf
      (Picked.ofSorted true (matching r releases)) :=
  Picked.isEndOf_ofSorted (Version.sort_isStableSort _).ascending

/-- A requirement gets an entry in both calls or in none, under one name. -/
theorem picked?_isEndOf (fetch : String → Answer) (r : Requirement) :
    Option.Rel (fun d e => d.1 = e.1 ∧ Picked.IsEndOf d.2 e.2) (picked? fetch false r)
      (picked? fetch true r) := by
  unfold picked?
  cases listed? fetch r with
  | none => exact .none
  | some set => exact .some ⟨rfl, isEndOf_matching r set.releases⟩

theorem agree_resolved_isEndOf (fetch : String → Answer) (rs : List Requirement) :
    (resolved fetch false rs).entries.Agree Picked.IsEndOf (resolved fetch true rs).entries := by
  refine Table.agree_ofList (List.rel_filterMap (R := Eq) ?_ (List.forall₂_refl rs))
  rintro r _ rfl
  exact picked?_isEndOf fetch r

/-- A call for the highest releases and one for all matching releases ask for the
same packages. They fail with the same error, or they skip the same packages and
have entries for the same ones: where one call finds no match the other finds
none, and the highest release that the one picks is the end of the list that the
other picks, in which nothing ranks above it. -/
theorem latest_is_end_of_every (fetch : String → Answer) (graceful : Bool)
    (rs : List Requirement) :
    let latest := requirements fetch ⟨graceful, false⟩ rs
    let every := requirements fetch ⟨graceful, true⟩ rs
    latest.calls = every.calls ∧
    ((∃ e, latest.result = .error e ∧ every.result = .error e) ∨
      ∃ res all, latest.result = .ok res ∧ every.result = .ok all ∧
        res.skipped = all.skipped ∧ res.entries.keys = all.entries.keys ∧
        res.entries.Agree Picked.IsEndOf all.entries) := by
  intro latest every
  rcases passes_or_failure fetch graceful rs with hpass | ⟨front, r, back, e, rfl, hfront, hr⟩
  · have hlatest : latest = ⟨rs.map (·.name), .ok (resolved fetch false rs)⟩ :=
      @requirements_of_passes fetch ⟨graceful, false⟩ rs hpass
    have hevery : every = ⟨rs.map (·.name), .ok (resolved fetch true rs)⟩ :=
      @requirements_of_passes fetch ⟨graceful, true⟩ rs hpass
    have hagree := agree_resolved_isEndOf fetch rs
    rw [hlatest, hevery]
    exact ⟨rfl, .inr ⟨_, _, rfl, rfl, rfl, hagree.keys_eq, hagree⟩⟩
  · have hlatest : latest = ⟨(front ++ [r]).map (·.name), .error e⟩ :=
      @requirements_of_failure fetch ⟨graceful, false⟩ front r e hfront hr back
    have hevery : every = ⟨(front ++ [r]).map (·.name), .error e⟩ :=
      @requirements_of_failure fetch ⟨graceful, true⟩ front r e hfront hr back
    rw [hlatest, hevery]
    exact ⟨rfl, .inl ⟨e, rfl, rfl⟩⟩

end Solve

end Requirements
