import Mathlib
import Requirements.Proofs.Range.End

/-!
# Comparisons with partial versions

A comparison with a partial version takes it as one point of the order: what is
below all that it covers is less, what is past its ceiling is greater, and all
that it covers is equal to it. The inequality is the exception, since it leaves
out one version only.
-/

namespace Requirements.PartialVersion

/-- How a version ranks against those from `lower` on and below `upper`. -/
def rankAgainst (lower upper v : Version) : Ordering :=
  if Version.compare v lower = .lt then .lt
  else if Version.compare v upper = .lt then .eq
  else .gt

theorem rankAgainst_eq_lt_iff {lower upper v : Version} :
    rankAgainst lower upper v = .lt ↔ Version.compare v lower = .lt := by
  unfold rankAgainst
  split_ifs <;> simp [*]

theorem rankAgainst_eq_eq_iff {lower upper v : Version} :
    rankAgainst lower upper v = .eq ↔
      Version.compare v lower ≠ .lt ∧ Version.compare v upper = .lt := by
  unfold rankAgainst
  split_ifs <;> simp [*]

/-- The version has the rank of a complete one, or lies in the interval that a partial
one covers: from its floor on and below its ceiling. -/
def Covers (p : PartialVersion) (v : Version) : Prop :=
  if p.numbers.length = 3 then Version.compare v p.floor = .eq
  else Version.compare v p.floor ≠ .lt ∧
    ∃ upper, p.ceiling = .ok (some upper) ∧ Version.compare v upper = .lt

/-- The comparison with a partial version holds for a version. -/
def Holds (p : PartialVersion) (op : Operator) (v : Version) : Prop :=
  ∃ ts, p.comparison op = .ok ts ∧ ∀ t ∈ ts, t.accepts v = true

section

variable {p : PartialVersion} {v : Version}

theorem holds_iff {op : Operator} {ts : List Term} (h : p.comparison op = .ok ts) :
    p.Holds op v ↔ ∀ t ∈ ts, t.accepts v = true := by
  constructor
  · rintro ⟨us, hus, hall⟩
    obtain rfl := Except.ok.inj (h.symm.trans hus)
    exact hall
  · exact fun hall => ⟨ts, h, hall⟩

theorem holds_singleton_iff {op op' : Operator} {bound : Version}
    (h : p.comparison op = .ok [⟨op', bound⟩]) :
    p.Holds op v ↔ op'.accepts (Version.compare v bound) = true := by
  rw [holds_iff h]
  simp [Term.accepts]

/-- The comparisons with a version that is not complete, if it has a ceiling. -/
theorem comparison_of_ceiling (hp : p ≠ .any) (hlength : p.numbers.length ≠ 3) {upper : Version}
    (hupper : p.ceiling = .ok (some upper)) :
    p.comparison .atLeast = .ok [⟨.atLeast, p.floor⟩] ∧
    p.comparison .above = .ok [⟨.atLeast, upper⟩] ∧
    p.comparison .atMost = .ok [⟨.below, upper⟩] ∧
    p.comparison .below = .ok [⟨.below, p.floor⟩] ∧
    p.comparison .equal = .ok (between p.floor (some upper)) := by
  cases p with
  | any => exact absurd rfl hp
  | patch a b c tag => exact absurd rfl hlength
  | _ =>
      simp only [comparison, covered, hupper]
      exact ⟨trivial, rfl, rfl, trivial, rfl⟩

/-- A partial version without its last components is compared like one point. -/
theorem holds_iff_rankAgainst (hp : p ≠ .any) (hlength : p.numbers.length ≠ 3) {upper : Version}
    (hupper : p.ceiling = .ok (some upper)) {op : Operator} (hop : op ≠ .notEqual) :
    p.Holds op v ↔ op.accepts (rankAgainst p.floor upper v) = true := by
  obtain ⟨hatLeast, habove, hatMost, hbelow, hequal⟩ := comparison_of_ceiling hp hlength hupper
  have hlt : Version.compare p.floor upper = .lt :=
    (endsAfter_ceiling hp).compare_lt (startsWith_floor p).within hupper upper rfl
  have htrans (h : Version.compare v p.floor = .lt) : Version.compare v upper = .lt :=
    Std.TransCmp.lt_trans h hlt
  unfold rankAgainst
  cases op with
  | atLeast =>
      rw [holds_singleton_iff hatLeast]
      split_ifs with hl hu <;> simp [Operator.accepts, hl]
  | above =>
      rw [holds_singleton_iff habove]
      split_ifs with hl hu
      · simp [Operator.accepts, htrans hl]
      · simp [Operator.accepts, hu]
      · simp [Operator.accepts, hu]
  | atMost =>
      rw [holds_singleton_iff hatMost]
      split_ifs with hl hu
      · simp [Operator.accepts, htrans hl]
      · simp [Operator.accepts, hu]
      · simp [Operator.accepts, hu]
  | below =>
      rw [holds_singleton_iff hbelow]
      split_ifs with hl hu <;> simp [Operator.accepts, hl]
  | equal =>
      rw [holds_iff hequal, accepts_between_iff]
      split_ifs with hl hu
      · simp [Operator.accepts, hl]
      · simp [Operator.accepts, hl, hu]
      · simp [Operator.accepts, hu]
  | notEqual => exact absurd rfl hop

/-- No comparison fails where there is a ceiling. -/
theorem exists_comparison {upper : Option Version} (h : p.ceiling = .ok upper) (op : Operator) :
    ∃ ts, p.comparison op = .ok ts := by
  cases p with
  | any => exact ⟨_, rfl⟩
  | patch a b c tag => exact ⟨_, rfl⟩
  | _ =>
      simp only [comparison, covered, h]
      cases op <;> exact ⟨_, rfl⟩

/-- Where the comparison from above succeeds, there is a ceiling. -/
theorem exists_ceiling (hp : p ≠ .any) (hlength : p.numbers.length ≠ 3)
    (habove : ∃ ts, p.comparison .above = .ok ts) : ∃ upper, p.ceiling = .ok (some upper) := by
  obtain ⟨ts, hts⟩ := habove
  obtain ⟨bound, hbound⟩ : ∃ bound, p.ceiling = .ok bound := by
    cases p with
    | any => exact absurd rfl hp
    | patch a b c tag => exact absurd rfl hlength
    | _ =>
        obtain ⟨bound, hbound, _⟩ := bind_eq_ok.1 hts
        exact ⟨bound, hbound⟩
  obtain ⟨front, n, k, _, rfl⟩ := (endsAfter_ceiling hp).of_eq_ok hbound
  exact ⟨_, hbound⟩

/-- Every partial version with a major component is compared like one point, which
stands for what it covers. -/
theorem exists_rank (hp : p ≠ .any) (hall : ∀ op, ∃ ts, p.comparison op = .ok ts) (v : Version) :
    ∃ rank : Ordering, (∀ op ≠ .notEqual, p.Holds op v ↔ op.accepts rank = true) ∧
      (rank = .lt ↔ Version.compare v p.floor = .lt) ∧ (rank = .eq ↔ p.Covers v) := by
  by_cases hlength : p.numbers.length = 3
  · obtain ⟨a, b, c, tag, rfl⟩ := exists_patch hlength
    refine ⟨Version.compare v (PartialVersion.patch a b c tag).floor,
      fun op _ => holds_singleton_iff rfl, Iff.rfl, ?_⟩
    rw [Covers, if_pos hlength]
  · obtain ⟨upper, hupper⟩ := exists_ceiling hp hlength (hall .above)
    refine ⟨_, fun op hop => holds_iff_rankAgainst hp hlength hupper hop,
      rankAgainst_eq_lt_iff, ?_⟩
    rw [Covers, if_neg hlength, hupper, rankAgainst_eq_eq_iff]
    simp

/-- Exactly one of less, equal and greater holds between a version and a partial
one. Less are the versions below its floor, and equal are those that it covers. At
least means equal or greater, and at most means less or equal. -/
theorem comparison_partition (p : PartialVersion) (hp : p ≠ .any)
    (hall : ∀ op, ∃ ts, p.comparison op = .ok ts) (v : Version) :
    (∃! op, op ∈ [Operator.below, .equal, .above] ∧ p.Holds op v) ∧
    (p.Holds .below v ↔ Version.compare v p.floor = .lt) ∧
    (p.Holds .equal v ↔ p.Covers v) ∧
    (p.Holds .atLeast v ↔ p.Holds .equal v ∨ p.Holds .above v) ∧
    (p.Holds .atMost v ↔ p.Holds .below v ∨ p.Holds .equal v) := by
  obtain ⟨rank, hrank, hbelow, hequal⟩ := exists_rank hp hall v
  have hone : (∃! op, op ∈ [Operator.below, .equal, .above] ∧ p.Holds op v) ↔
      ∃! op, op ∈ [Operator.below, .equal, .above] ∧ op.accepts rank = true := by
    refine existsUnique_congr fun op => and_congr_right fun hop => hrank op ?_
    rintro rfl
    exact absurd hop (by decide)
  rw [hone, hrank .atLeast (by decide), hrank .equal (by decide), hrank .above (by decide),
    hrank .atMost (by decide), hrank .below (by decide), ← hbelow, ← hequal]
  have hpoint : (Operator.below.accepts rank = true ↔ rank = .lt) ∧
      (Operator.equal.accepts rank = true ↔ rank = .eq) := by cases rank <;> decide
  refine ⟨?_, hpoint.1, hpoint.2, ?_⟩
  · cases rank with
    | lt => exact ⟨.below, by decide, fun op => by cases op <;> decide⟩
    | eq => exact ⟨.equal, by decide, fun op => by cases op <;> decide⟩
    | gt => exact ⟨.above, by decide, fun op => by cases op <;> decide⟩
  · cases rank <;> decide

end

/-- A pre-release of the ceiling, which is still covered. -/
theorem comparison_partition_prerelease :
    let p : PartialVersion := .minor 1 2
    p ≠ .any ∧ (∀ op, ∃ ts, p.comparison op = .ok ts) ∧
    (∃! op, op ∈ [Operator.below, .equal, .above] ∧ p.Holds op "1.3.0-rc.1") ∧
    ¬ p.Holds .below "1.3.0-rc.1" ∧ p.Covers "1.3.0-rc.1" ∧ p.Holds .equal "1.3.0-rc.1" ∧
    p.Holds .atLeast "1.3.0-rc.1" ∧ p.Holds .atMost "1.3.0-rc.1" := by
  intro p
  have hp : p ≠ .any := by decide
  have hall : ∀ op, ∃ ts, p.comparison op = .ok ts := by
    intro op
    cases op <;> exact ⟨_, rfl⟩
  have hequal : p.Holds .equal "1.3.0-rc.1" :=
    ⟨[⟨.atLeast, "1.2.0"⟩, ⟨.below, "1.3.0"⟩], by decide, by decide⟩
  have hfloor : Version.compare "1.3.0-rc.1" p.floor ≠ .lt := by decide
  obtain ⟨hone, hbelow, hcovers, hatLeast, hatMost⟩ := comparison_partition p hp hall "1.3.0-rc.1"
  exact ⟨hp, hall, hone, fun h => hfloor (hbelow.1 h), hcovers.1 hequal, hequal,
    hatLeast.2 (.inl hequal), hatMost.2 (.inr hequal)⟩

/-! ## The inequality -/

/-- The version is covered but lies past the start of what is covered. -/
def CoversPastFloor (p : PartialVersion) (v : Version) : Prop :=
  p.numbers.length ≠ 3 ∧ Version.compare v p.floor = .gt ∧
    ∃ upper, p.ceiling = .ok (some upper) ∧ Version.compare v upper = .lt

section

variable {p : PartialVersion} {v : Version}

theorem holds_notEqual_iff (hp : p ≠ .any) :
    p.Holds .notEqual v ↔ Version.compare v p.floor ≠ .eq := by
  have hterms : p.comparison .notEqual = .ok [⟨.notEqual, p.floor⟩] := by
    cases p with
    | any => exact absurd rfl hp
    | _ => rfl
  rw [holds_singleton_iff hterms, Operator.accepts, bne_iff_ne]

/-- What is equal to a partial version is its floor or lies past it. -/
theorem holds_equal_iff (hp : p ≠ .any) (hall : ∀ op, ∃ ts, p.comparison op = .ok ts) :
    p.Holds .equal v ↔ Version.compare v p.floor = .eq ∨ p.CoversPastFloor v := by
  by_cases hlength : p.numbers.length = 3
  · have hnot : ¬p.CoversPastFloor v := fun h => h.1 hlength
    obtain ⟨a, b, c, tag, rfl⟩ := exists_patch hlength
    rw [holds_singleton_iff rfl, Operator.accepts, beq_iff_eq, or_iff_left hnot]
  · obtain ⟨upper, hupper⟩ := exists_ceiling hp hlength (hall .above)
    obtain ⟨_, _, _, _, hequal⟩ := comparison_of_ceiling hp hlength hupper
    have hlt : Version.compare p.floor upper = .lt :=
      (endsAfter_ceiling hp).compare_lt (startsWith_floor p).within hupper upper rfl
    have hpast : p.CoversPastFloor v ↔
        Version.compare v p.floor = .gt ∧ Version.compare v upper = .lt := by
      rw [CoversPastFloor, hupper]
      simp [hlength]
    rw [holds_iff hequal, accepts_between_iff, hpast]
    simp only [Option.mem_some_iff, forall_eq']
    cases hrank : Version.compare v p.floor with
    | lt => simp
    | eq => simp [Std.TransCmp.congr_left hrank, hlt]
    | gt => simp

/-- The inequality leaves out one rank, that of the floor. Every version passes
it or the equality, and it is the complement of the equality except for the
versions that are covered past the floor, which pass both. -/
theorem notEqual_complement_iff (p : PartialVersion) (hp : p ≠ .any)
    (hall : ∀ op, ∃ ts, p.comparison op = .ok ts) (v : Version) :
    (p.Holds .notEqual v ↔ Version.compare v p.floor ≠ .eq) ∧
    (p.Holds .notEqual v ∨ p.Holds .equal v) ∧
    ((p.Holds .notEqual v ↔ ¬p.Holds .equal v) ↔ ¬p.CoversPastFloor v) := by
  have hnotEqual := holds_notEqual_iff (v := v) hp
  have hequal := holds_equal_iff (v := v) hp hall
  have hpast (h : p.CoversPastFloor v) : Version.compare v p.floor ≠ .eq := by
    rw [h.2.1]
    decide
  refine ⟨hnotEqual, ?_, ?_⟩
  · rw [hnotEqual, hequal]
    tauto
  · rw [hnotEqual, hequal]
    tauto

/-- A patch release, which both `=1.2` and `!=1.2` admit. -/
theorem notEqual_complement_iff_patch :
    let p : PartialVersion := .minor 1 2
    p ≠ .any ∧ (∀ op, ∃ ts, p.comparison op = .ok ts) ∧ p.CoversPastFloor "1.2.5" ∧
    p.Holds .equal "1.2.5" ∧ p.Holds .notEqual "1.2.5" ∧
    ¬(p.Holds .notEqual "1.2.5" ↔ ¬p.Holds .equal "1.2.5") := by
  intro p
  have hp : p ≠ .any := by decide
  have hupper : p.ceiling = .ok (some "1.3.0") := by decide
  have hall := exists_comparison hupper
  have hpast : p.CoversPastFloor "1.2.5" := ⟨by decide, by decide, "1.3.0", hupper, by decide⟩
  have hequal : p.Holds .equal "1.2.5" :=
    ⟨[⟨.atLeast, "1.2.0"⟩, ⟨.below, "1.3.0"⟩], by decide, by decide⟩
  obtain ⟨hnotEqual, _, hcomplement⟩ := notEqual_complement_iff p hp hall "1.2.5"
  exact ⟨hp, hall, hpast, hequal, hnotEqual.2 (by decide), fun h => hcomplement.1 h hpast⟩

/-- So excluding a partial version does not exclude all that it covers. -/
theorem not_notEqual_complement :
    ¬ ∀ (p : PartialVersion) (v : Version), p ≠ .any →
      (∀ op, ∃ ts, p.comparison op = .ok ts) →
      (p.Holds .notEqual v ↔ ¬p.Holds .equal v) := by
  intro hcomplement
  have hupper : (PartialVersion.minor 1 2).ceiling = .ok (some "1.3.0") := by decide
  have hequal : (PartialVersion.minor 1 2).Holds .equal "1.2.5" :=
    ⟨[⟨.atLeast, "1.2.0"⟩, ⟨.below, "1.3.0"⟩], by decide, by decide⟩
  have hnotEqual : (PartialVersion.minor 1 2).Holds .notEqual "1.2.5" :=
    ⟨[⟨.notEqual, "1.2.0"⟩], by decide, by decide⟩
  exact (hcomplement (.minor 1 2) "1.2.5" (by decide) (exists_comparison hupper)).1 hnotEqual
    hequal

end

end Requirements.PartialVersion
