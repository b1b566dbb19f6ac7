import Mathlib
import Requirements.Proofs.Version.Order
import Requirements.Requirement

/-!
# Requirements go by rank

A requirement asks nothing of a version but how it ranks against the versions of
its terms. So versions of equal rank pass the same requirements, and in a term
they may stand for each other. The order is no finer than that: the exact terms
tell any two versions of different rank apart.
-/

namespace Requirements

/-! ## Bounds -/

namespace Operator

variable {op : Operator} {v w x y : Version}

/-- A lower bound that a version meets is met by higher versions, and they meet lower
bounds than that. -/
theorem accepts_of_lower (hop : op.isLowerBound = true) (hxy : Version.le x y = true)
    (hwv : Version.le w v = true) (h : op.accepts (Version.compare x v) = true) :
    op.accepts (Version.compare y w) = true := by
  cases op with
  | atLeast =>
      simp only [accepts, bne_iff_ne, ne_eq] at h ⊢
      intro hlt
      exact h (Std.TransCmp.lt_of_lt_of_isLE (Std.TransCmp.lt_of_isLE_of_lt hxy hlt) hwv)
  | above =>
      simp only [accepts, beq_iff_eq] at h ⊢
      rw [Std.OrientedCmp.gt_iff_lt] at h ⊢
      exact Std.TransCmp.lt_of_lt_of_isLE (Std.TransCmp.lt_of_isLE_of_lt hwv h) hxy
  | _ => simp [isLowerBound] at hop

theorem accepts_of_upper (hop : op.isUpperBound = true) (hyx : Version.le y x = true)
    (hvw : Version.le v w = true) (h : op.accepts (Version.compare x v) = true) :
    op.accepts (Version.compare y w) = true := by
  cases op with
  | atMost =>
      simp only [accepts, bne_iff_ne, ne_eq] at h ⊢
      exact Version.le_iff.1 (Version.le_trans (Version.le_trans hyx (Version.le_iff.2 h)) hvw)
  | below =>
      simp only [accepts, beq_iff_eq] at h ⊢
      exact Std.TransCmp.lt_of_lt_of_isLE (Std.TransCmp.lt_of_isLE_of_lt hyx h) hvw
  | _ => simp [isUpperBound] at hop

end Operator

/-! ## Versions of one rank -/

namespace Term

/-- Two terms with one operator and versions of equal rank. -/
def Equivalent (t u : Term) : Prop :=
  u.op = t.op ∧ Version.compare t.version u.version = .eq

theorem Equivalent.refl (t : Term) : t.Equivalent t :=
  ⟨rfl, Std.ReflCmp.compare_self⟩

/-- Equivalent terms admit the same versions. -/
theorem Equivalent.accepts {t u : Term} (h : t.Equivalent u) (v : Version) :
    u.accepts v = t.accepts v := by
  rw [Term.accepts, Term.accepts, h.1, Std.TransCmp.congr_right h.2]

theorem accepts_congr (t : Term) {v w : Version} (h : Version.compare v w = .eq) :
    t.accepts v = t.accepts w := by
  rw [accepts, accepts, Std.TransCmp.congr_left h]

end Term

namespace Branch

theorem accepts_congr (b : Branch) {v w : Version} (h : Version.compare v w = .eq) :
    b.accepts v = b.accepts w := by
  simp only [accepts, Term.accepts_congr _ h]

theorem accepts_of_equivalent {b c : Branch} (h : List.Forall₂ Term.Equivalent b.terms c.terms)
    (v : Version) : c.accepts v = b.accepts v := by
  unfold accepts
  generalize b.terms = ts at h ⊢
  generalize c.terms = us at h ⊢
  induction h with
  | nil => rfl
  | cons htu _ ih => rw [List.all_cons, List.all_cons, htu.accepts, ih]

end Branch

namespace Requirement

theorem accepts_branch (name : String) (b : Branch) :
    (Requirement.mk name [b]).accepts = b.accepts := by
  funext v
  simp [accepts]

theorem accepts_ofTerm (name : String) (t : Term) (v : Version) :
    (ofTerm name t).accepts v = t.accepts v := by
  simp [ofTerm, accepts, Branch.accepts, Branch.terms]

theorem accepts_exact (name : String) {v x : Version} :
    (ofTerm name (.exact v)).accepts x = true ↔ Version.compare x v = .eq := by
  rw [accepts_ofTerm, Term.accepts, Term.exact, Operator.accepts, beq_iff_eq]

theorem accepts_ofTerms {name : String} {ts : List Term} {v : Version} :
    Requirement.accepts ⟨name, [.ofTerms ts]⟩ v = true ↔ ∀ t ∈ ts, t.accepts v = true := by
  simp [accepts, Branch.accepts]

/-- The same branches, with equivalent terms in the same places. -/
def Equivalent (r s : Requirement) : Prop :=
  List.Forall₂ (fun b c => List.Forall₂ Term.Equivalent b.terms c.terms) r.branches s.branches

theorem accepts_congr (r : Requirement) {v w : Version} (h : Version.compare v w = .eq) :
    r.accepts v = r.accepts w := by
  simp only [accepts, Branch.accepts_congr _ h]

theorem Equivalent.accepts {r s : Requirement} (h : r.Equivalent s) (v : Version) :
    s.accepts v = r.accepts v := by
  unfold Equivalent at h
  unfold Requirement.accepts
  generalize r.branches = bs at h ⊢
  generalize s.branches = cs at h ⊢
  induction h with
  | nil => rfl
  | cons hbc _ ih => rw [List.any_cons, List.any_cons, Branch.accepts_of_equivalent hbc, ih]

/-- Versions of equal rank, and they alone, pass the same requirements. A
requirement whose terms name other versions of the same ranks admits the same
versions. -/
theorem accepts_goes_by_rank :
    (∀ v w : Version, Version.compare v w = .eq ↔ ∀ r : Requirement, r.accepts v = r.accepts w) ∧
    ∀ r s : Requirement, r.Equivalent s → ∀ v, s.accepts v = r.accepts v := by
  refine ⟨fun v w => ⟨fun h r => r.accepts_congr h, fun h => ?_⟩, fun r s h => h.accepts⟩
  have hsame := h (ofTerm "" (.exact w))
  rw [Bool.eq_iff_iff, accepts_exact, accepts_exact] at hsame
  exact hsame.2 (Version.equivalence_equal.refl w)

/-- Bounds, an exclusion and an exact version in other spellings. -/
theorem accepts_goes_by_rank_spellings :
    let r : Requirement :=
      ⟨"foo", [.all [⟨.atLeast, "1"⟩, ⟨.notEqual, "1.5"⟩, ⟨.below, "2-rc1"⟩], .single ⟨.equal, "v3"⟩]⟩
    let s : Requirement :=
      ⟨"foo", [.all [⟨.atLeast, "1.0.0"⟩, ⟨.notEqual, "1.05"⟩, ⟨.below, "2-rc2"⟩],
        .single ⟨.equal, "x"⟩]⟩
    r.Equivalent s ∧ s.accepts "1.5" = r.accepts "1.5" ∧ s.accepts "2-a" = r.accepts "2-a" := by
  intro r s
  have hequivalent : r.Equivalent s :=
    .cons (.cons ⟨rfl, by decide⟩ (.cons ⟨rfl, by decide⟩ (.cons ⟨rfl, by decide⟩ .nil)))
      (.cons (.cons ⟨rfl, by decide⟩ .nil) .nil)
  have hsame := accepts_goes_by_rank.2 r s hequivalent
  exact ⟨hequivalent, hsame "1.5", hsame "2-a"⟩

end Requirement

end Requirements
