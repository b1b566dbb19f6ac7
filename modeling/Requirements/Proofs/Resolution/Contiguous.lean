import Mathlib
import Requirements.Proofs.Requirement.Ranks
import Requirements.Proofs.Resolution.Outcome

/-!
# Without inequalities the matching releases stand together

Every operator but the inequality admits with two versions all that rank between
them, and so does a conjunction of terms. Filtering the releases and then sorting
them gives what filtering the sorted releases gives. So the releases that meet a
conjunction without inequalities are one stretch of the sorted releases, and what
stands on either side of it does not meet the conjunction.
-/

namespace Requirements

/-! ## Versions between two that are admitted -/

theorem Term.accepts_of_between {t : Term} (ht : t.op ≠ .notEqual) {x y z : Version}
    (hxy : Version.compare x y ≠ .gt) (hyz : Version.compare y z ≠ .gt)
    (hx : t.accepts x = true) (hz : t.accepts z = true) : t.accepts y = true := by
  rw [← Version.le_iff] at hxy hyz
  obtain ⟨op, v⟩ := t
  have hv := Version.le_refl v
  cases op with
  | atLeast => exact Operator.accepts_of_lower rfl hxy hv hx
  | above => exact Operator.accepts_of_lower rfl hxy hv hx
  | atMost => exact Operator.accepts_of_upper rfl hyz hv hz
  | below => exact Operator.accepts_of_upper rfl hyz hv hz
  | equal =>
      simp only [accepts, Operator.accepts, beq_iff_eq] at hx hz ⊢
      have hyv : Version.le y v = true := Version.le_trans hyz (Version.le_of_equal hz)
      have hvy : Version.le v y = true :=
        Version.le_trans (Version.le_of_equal (Std.OrientedCmp.eq_symm hx)) hxy
      exact Version.eq_of_ne_gt (Version.le_iff.1 hyv) (Version.le_iff.1 hvy)
  | notEqual => exact absurd rfl ht

theorem Branch.accepts_of_between {b : Branch} (hb : ∀ t ∈ b.terms, t.op ≠ .notEqual)
    {x y z : Version} (hxy : Version.compare x y ≠ .gt) (hyz : Version.compare y z ≠ .gt)
    (hx : b.accepts x = true) (hz : b.accepts z = true) : b.accepts y = true := by
  rw [accepts, List.all_eq_true] at hx hz ⊢
  exact fun t ht => Term.accepts_of_between (hb t ht) hxy hyz (hx t ht) (hz t ht)

/-! ## One stretch of a sorted list -/

namespace Version

/-- `kept` is one stretch of `sorted`, with what passes a test inside it and what
does not pass on either side. -/
def IsStretch (p : Version → Bool) (kept sorted : List Version) : Prop :=
  ∃ before after, sorted = before ++ kept ++ after ∧
    (∀ v ∈ kept, p v = true) ∧ ∀ v ∈ before ++ after, p v = false

/-- A test that is passed between any two versions that pass it selects one stretch
of an ascending list. -/
theorem isStretch_filter {p : Version → Bool}
    (hp : ∀ {x y z}, compare x y ≠ .gt → compare y z ≠ .gt → p x = true → p z = true → p y = true)
    {vs : List Version} (h : vs.Pairwise fun a b => compare a b ≠ .gt) :
    IsStretch p (vs.filter p) vs := by
  induction vs with
  | nil => exact ⟨[], [], rfl, by simp, by simp⟩
  | cons v vs ih =>
      obtain ⟨hv, hvs⟩ := List.pairwise_cons.1 h
      obtain ⟨before, after, hsplit, hin, hout⟩ := ih hvs
      by_cases hpv : p v = true
      · rw [List.filter_cons_of_pos hpv]
        cases hkept : vs.filter p with
        | nil =>
            refine ⟨[], vs, rfl, by simpa using hpv, fun w hw => ?_⟩
            simpa using List.filter_eq_nil_iff.1 hkept w hw
        | cons u us =>
            rw [hkept] at hsplit hin
            -- What stands before the stretch would be between `v` and its first version.
            have hbefore : before = [] := by
              refine List.eq_nil_iff_forall_not_mem.2 fun w hw => ?_
              rw [hsplit, List.append_assoc] at hv hvs
              have hwu := (List.pairwise_append.1 hvs).2.2 w hw u (by simp)
              have hpw := hp (hv w (by simp [hw])) hwu hpv (hin u List.mem_cons_self)
              rw [hout w (by simp [hw])] at hpw
              cases hpw
            refine ⟨[], after, ?_, List.forall_mem_cons.2 ⟨hpv, hin⟩, fun w hw => ?_⟩
            · rw [hsplit, hbefore]
              rfl
            · exact hout w (List.mem_append_right _ hw)
      · rw [List.filter_cons_of_neg hpv]
        refine ⟨v :: before, after, ?_, hin, ?_⟩
        · rw [List.cons_append, List.cons_append, ← hsplit]
        · exact List.forall_mem_cons.2 ⟨by simpa using hpv, hout⟩

end Version

namespace Solve

/-- The matching releases are those of the sorted releases that match. -/
theorem isStretch_matching {b : Branch} (hb : ∀ t ∈ b.terms, t.op ≠ .notEqual) (name : String)
    (releases : List Version) :
    Version.IsStretch b.accepts (matching ⟨name, [b]⟩ releases) (Version.sort releases) := by
  rw [matching, Requirement.accepts_branch, Version.sort_filter]
  exact Version.isStretch_filter (fun hxy hyz hx hz => Branch.accepts_of_between hb hxy hyz hx hz)
    (Version.sort_isStableSort releases).ascending

theorem versions_ofSorted (vs : List Version) : (Picked.ofSorted true vs).versions = vs := by
  unfold Picked.ofSorted
  cases hlast : vs.getLast? with
  | none => rw [List.getLast?_eq_none_iff.1 hlast]; rfl
  | some v => rfl

/-- A branch without inequalities admits with two versions all that rank between
them. The releases that meet it are one stretch of the sorted releases, and a call
for all matching releases gives just this stretch. -/
theorem matching_contiguous (b : Branch) (hb : ∀ t ∈ b.terms, t.op ≠ .notEqual) :
    (∀ x y z : Version, Version.compare x y ≠ .gt → Version.compare y z ≠ .gt →
      b.accepts x = true → b.accepts z = true → b.accepts y = true) ∧
    (∀ name releases, Version.IsStretch b.accepts (matching ⟨name, [b]⟩ releases)
      (Version.sort releases)) ∧
    ∀ (fetch : String → Answer) (graceful : Bool) (rs : List Requirement) (res : Resolution),
      (requirements fetch ⟨graceful, true⟩ rs).result = .ok res →
      ∀ name set, ⟨name, [b]⟩ ∈ rs → fetch name = .ok set → set.releases ≠ [] →
        ∃ p, res.entries.find? set.name = some p ∧
          Version.IsStretch b.accepts p.versions (Version.sort set.releases) := by
  refine ⟨fun x y z => Branch.accepts_of_between hb, isStretch_matching hb, ?_⟩
  intro fetch graceful rs res hres name set hr hfetch hne
  obtain ⟨hpass, rfl⟩ := requirements_eq_ok_iff.1 hres
  refine ⟨_, hpass.find?_resolved true hr (listed?_eq_some hfetch hne), ?_⟩
  rw [versions_ofSorted]
  exact isStretch_matching hb name set.releases

/-- A range that ends below a release: the pre-releases of that release stand in it,
and a release with a word in front stands below everything. -/
theorem matching_contiguous_range :
    let b : Branch := .all [⟨.atLeast, "1.0"⟩, ⟨.below, "2.0"⟩]
    let releases : List Version := ["2.0", "v1.5", "2.0-rc1", "0.9", "1.0.0", "1.5"]
    let fetch : String → Answer := fun _ => .ok ⟨"foo", releases⟩
    (∀ t ∈ b.terms, t.op ≠ .notEqual) ∧
    (Version.compare "1.0.0" "1.5" ≠ .gt ∧ Version.compare "1.5" "2.0-rc1" ≠ .gt ∧
      b.accepts "1.0.0" = true ∧ b.accepts "2.0-rc1" = true ∧ b.accepts "1.5" = true) ∧
    ∃ res, (requirements fetch ⟨false, true⟩ [⟨"foo", [b]⟩]).result = .ok res ∧
      ∃ p, res.entries.find? "foo" = some p ∧
        Version.IsStretch b.accepts p.versions (Version.sort releases) := by
  intro b releases fetch
  have hb : ∀ t ∈ b.terms, t.op ≠ .notEqual := by decide
  obtain ⟨hbetween, -, hcall⟩ := matching_contiguous b hb
  have hlow : Version.compare "1.0.0" "1.5" ≠ .gt := by decide
  have hhigh : Version.compare "1.5" "2.0-rc1" ≠ .gt := by decide
  have hfirst : b.accepts "1.0.0" = true := by decide
  have hlast : b.accepts "2.0-rc1" = true := by decide
  obtain ⟨res, hres⟩ :
      ∃ res, (requirements fetch ⟨false, true⟩ [⟨"foo", [b]⟩]).result = .ok res := ⟨_, rfl⟩
  exact ⟨hb, ⟨hlow, hhigh, hfirst, hlast, hbetween _ _ _ hlow hhigh hfirst hlast⟩, res, hres,
    hcall fetch false _ res hres "foo" ⟨"foo", releases⟩ List.mem_cons_self rfl (by simp [releases])⟩

end Solve

end Requirements
