import Mathlib
import Requirements.Proofs.Requirement.Names
import Requirements.Proofs.Requirement.Ranks
import Requirements.Proofs.Version.Ends
import Requirements.Specifier

/-!
# Tightening never widens

Of the terms with one operator, tightening keeps versions that stand for all the
others: what passes the highest lower bound passes every lower bound, and
excluding a version excludes all of its rank. So the kept terms admit exactly
what all terms admit together. A requirement with alternatives asks for less
than all its terms, which is where a tightened requirement may narrow.
-/

namespace Requirements

namespace Term

/-- Whatever passes the first term passes the second one. -/
def Entails (t u : Term) : Prop :=
  ∀ v, t.accepts v = true → u.accepts v = true

theorem entails_of_equal {a b : Version} (op : Operator) (h : Version.compare a b = .eq) :
    Entails ⟨op, a⟩ ⟨op, b⟩ := by
  have hequivalent : Equivalent ⟨op, a⟩ ⟨op, b⟩ := ⟨rfl, h⟩
  intro v hv
  rw [hequivalent.accepts v, hv]

theorem entails_of_lower {a b : Version} {op : Operator} (hop : op.isLowerBound = true)
    (h : Version.le b a = true) : Entails ⟨op, a⟩ ⟨op, b⟩ :=
  fun v hv => Operator.accepts_of_lower hop (Version.le_refl v) h hv

theorem entails_of_upper {a b : Version} {op : Operator} (hop : op.isUpperBound = true)
    (h : Version.le a b = true) : Entails ⟨op, a⟩ ⟨op, b⟩ :=
  fun v hv => Operator.accepts_of_upper hop (Version.le_refl v) h hv

end Term

namespace Requirement

/-! ## The versions kept for an operator -/

theorem mem_of_mem_tightest {op : Operator} {vs : List Version} {u : Version}
    (h : u ∈ tightest op vs) : u ∈ vs := by
  unfold tightest at h
  split at h
  · exact (Version.highest?_eq_some (Option.mem_toList.1 h)).1
  · split at h
    · exact (Version.lowest?_eq_some (Option.mem_toList.1 h)).1
    · exact (Version.sort_isStableSort vs).perm.subset ((Version.distinct_sublist _).subset h)

theorem exists_ends {w : Version} {vs : List Version} (h : w ∈ vs) :
    (∃ u, Version.highest? vs = some u) ∧ ∃ u, Version.lowest? vs = some u := by
  cases vs with
  | nil => cases h
  | cons v vs => exact ⟨⟨_, rfl⟩, _, rfl⟩

/-- Every version an operator is applied to is entailed by one that is kept. -/
theorem exists_tightest_entails (op : Operator) {vs : List Version} {w : Version} (h : w ∈ vs) :
    ∃ u ∈ tightest op vs, Term.Entails ⟨op, u⟩ ⟨op, w⟩ := by
  unfold tightest
  by_cases hlower : op.isLowerBound = true
  · obtain ⟨u, hu⟩ := (exists_ends h).1
    rw [if_pos hlower, hu]
    exact ⟨u, by simp, Term.entails_of_lower hlower ((Version.highest?_eq_some hu).2 w h)⟩
  · rw [if_neg hlower]
    by_cases hupper : op.isUpperBound = true
    · obtain ⟨u, hu⟩ := (exists_ends h).2
      rw [if_pos hupper, hu]
      exact ⟨u, by simp, Term.entails_of_upper hupper ((Version.lowest?_eq_some hu).2 w h)⟩
    · rw [if_neg hupper]
      have hsorted : w ∈ Version.sort vs := (Version.sort_isStableSort vs).perm.mem_iff.2 h
      obtain ⟨u, hu, huw⟩ := Version.exists_equal_of_mem_distinct hsorted
      exact ⟨u, hu, Term.entails_of_equal op huw⟩

/-! ## The terms kept of a conjunction -/

theorem mem_versionsOf {op : Operator} {ts : List Term} {w : Version} :
    w ∈ versionsOf op ts ↔ Term.mk op w ∈ ts := by
  simp only [versionsOf, List.mem_map, List.mem_filter, decide_eq_true_eq]
  constructor
  · rintro ⟨⟨_, _⟩, ⟨ht, rfl⟩, rfl⟩
    exact ht
  · intro ht
    exact ⟨⟨op, w⟩, ⟨ht, rfl⟩, rfl⟩

theorem mem_all (op : Operator) : op ∈ Operator.all := by
  cases op <;> decide

theorem mem_of_mem_tightenTerms {ts : List Term} {t : Term} (h : t ∈ tightenTerms ts) :
    t ∈ ts := by
  obtain ⟨op, _, ht⟩ := List.mem_flatMap.1 h
  obtain ⟨u, hu, rfl⟩ := List.mem_map.1 ht
  exact mem_versionsOf.1 (mem_of_mem_tightest hu)

theorem exists_tightenTerms_entails {ts : List Term} {t : Term} (h : t ∈ ts) :
    ∃ u ∈ tightenTerms ts, u.Entails t := by
  obtain ⟨u, hu, hentails⟩ := exists_tightest_entails t.op (mem_versionsOf.2 h)
  exact ⟨⟨t.op, u⟩, List.mem_flatMap.2 ⟨t.op, mem_all t.op, List.mem_map_of_mem hu⟩, hentails⟩

/-- The kept terms admit what all terms admit together. -/
theorem forall_tightenTerms_accepts {ts : List Term} {v : Version} :
    (∀ t ∈ tightenTerms ts, t.accepts v = true) ↔ ∀ t ∈ ts, t.accepts v = true := by
  constructor
  · intro h t ht
    obtain ⟨u, hu, hentails⟩ := exists_tightenTerms_entails ht
    exact hentails v (h u hu)
  · intro h t ht
    exact h t (mem_of_mem_tightenTerms ht)

theorem tightenTerms_eq_nil_iff {ts : List Term} : tightenTerms ts = [] ↔ ts = [] := by
  constructor
  · intro h
    refine List.eq_nil_iff_forall_not_mem.2 fun t ht => ?_
    obtain ⟨u, hu, _⟩ := exists_tightenTerms_entails ht
    rw [h] at hu
    cases hu
  · rintro rfl
    exact List.eq_nil_iff_forall_not_mem.2 fun t ht => List.not_mem_nil (mem_of_mem_tightenTerms ht)

/-! ## The tightened requirement of a package -/

theorem mem_termsOn {rs : List Requirement} {n : String} {t : Term} :
    t ∈ termsOn n rs ↔ ∃ r ∈ rs, r.name = n ∧ ∃ b ∈ r.branches, t ∈ b.terms := by
  simp only [termsOn, terms, List.mem_flatMap, List.mem_filter, decide_eq_true_eq, and_assoc]

theorem names_tighten (rs : List Requirement) : (tighten rs).map name = names rs := by
  rw [tighten, List.map_map]
  conv_rhs => rw [← List.map_id (names rs)]
  refine List.map_congr_left fun n _ => ?_
  rw [Function.comp_apply, id_eq]
  split <;> rfl

/-- A version passes a tightened requirement if it passes all terms on the
package, provided that there are any. -/
theorem accepts_of_mem_tighten {rs : List Requirement} {m : Requirement} (h : m ∈ tighten rs)
    (v : Version) :
    m.accepts v = true ↔
      termsOn m.name rs ≠ [] ∧ ∀ t ∈ termsOn m.name rs, t.accepts v = true := by
  obtain ⟨n, _, rfl⟩ := List.mem_map.1 h
  split
  · rename_i hnil
    simp [accepts, tightenTerms_eq_nil_iff.1 hnil]
  · rename_i hne
    have hterms : termsOn n rs ≠ [] := fun hnil => hne (tightenTerms_eq_nil_iff.2 hnil)
    show _ ↔ termsOn n rs ≠ [] ∧ ∀ t ∈ termsOn n rs, t.accepts v = true
    rw [← forall_tightenTerms_accepts]
    simp [accepts, Branch.accepts, hterms]

/-- A requirement that offers no choice: its one branch has terms. -/
def IsConjunction (r : Requirement) : Prop :=
  ∃ b, r.branches = [b] ∧ b.terms ≠ []

theorem accepts_of_forall_terms {r : Requirement} (hr : r.branches ≠ []) {v : Version}
    (h : ∀ b ∈ r.branches, ∀ t ∈ b.terms, t.accepts v = true) : r.accepts v = true := by
  obtain ⟨b, bs, hb⟩ := List.exists_cons_of_ne_nil hr
  have hmem : b ∈ r.branches := by rw [hb]; exact List.mem_cons_self
  exact List.any_eq_true.2 ⟨b, hmem, List.all_eq_true.2 (h b hmem)⟩

theorem IsConjunction.accepts_iff {r : Requirement} (h : r.IsConjunction) (v : Version) :
    r.accepts v = true ↔ ∀ b ∈ r.branches, ∀ t ∈ b.terms, t.accepts v = true := by
  obtain ⟨b, hb, _⟩ := h
  simp [accepts, hb, Branch.accepts]

section

variable {rs : List Requirement} {m : Requirement} (hm : m ∈ tighten rs) {v : Version}

include hm

theorem forall_accepts_of_tighten (hrs : ∀ r ∈ rs, r.branches ≠ []) (h : m.accepts v = true) :
    ∀ r ∈ rs, r.name = m.name → r.accepts v = true := by
  intro r hr hname
  obtain ⟨_, hall⟩ := (accepts_of_mem_tighten hm v).1 h
  apply accepts_of_forall_terms (hrs r hr)
  intro b hb t ht
  exact hall t (mem_termsOn.2 ⟨r, hr, hname, b, hb, ht⟩)

theorem accepts_tighten_of_forall (hconj : ∀ r ∈ rs, r.name = m.name → r.IsConjunction)
    (h : ∀ r ∈ rs, r.name = m.name → r.accepts v = true) : m.accepts v = true := by
  rw [accepts_of_mem_tighten hm]
  constructor
  · have hname : m.name ∈ names rs := by
      rw [← names_tighten]
      exact List.mem_map_of_mem hm
    obtain ⟨r, hr, hrm⟩ := mem_names.1 hname
    obtain ⟨b, hb, hne⟩ := hconj r hr hrm
    obtain ⟨t, ht⟩ := List.exists_mem_of_ne_nil _ hne
    have hbmem : b ∈ r.branches := by rw [hb]; exact List.mem_singleton.2 rfl
    exact List.ne_nil_of_mem (mem_termsOn.2 ⟨r, hr, hrm, b, hbmem, ht⟩)
  · intro t ht
    obtain ⟨r, hr, hrm, b, hb, htb⟩ := mem_termsOn.1 ht
    exact ((hconj r hr hrm).accepts_iff v).1 (h r hr hrm) b hb t htb

end

end Requirement

namespace Ecosystem

/-- Where alternatives are tightened, each package gets one requirement, which
admits nothing that some requirement on the package refuses. If none of these
offers a choice, it admits exactly what all of them admit. -/
theorem restrict_never_widens (e : Ecosystem) (d : AlternativesDialect)
    (he : e.grammar = .alternatives d) (rs : List Requirement)
    (hrs : ∀ r ∈ rs, r.branches ≠ []) :
    ((e.restrict rs).map (·.name)).Nodup ∧
    (∀ n, n ∈ (e.restrict rs).map (·.name) ↔ n ∈ rs.map (·.name)) ∧
    ∀ m ∈ e.restrict rs, ∀ v,
      (m.accepts v = true → ∀ r ∈ rs, r.name = m.name → r.accepts v = true) ∧
      ((∀ r ∈ rs, r.name = m.name → r.IsConjunction) →
        (m.accepts v = true ↔ ∀ r ∈ rs, r.name = m.name → r.accepts v = true)) := by
  have hrestrict : e.restrict rs = Requirement.tighten rs := by
    rw [restrict, he]
  rw [hrestrict, Requirement.names_tighten]
  refine ⟨Requirement.nodup_eraseDups _, fun n => List.mem_eraseDups, fun m hm v => ?_⟩
  refine ⟨?_, fun hconj => ?_⟩
  · exact Requirement.forall_accepts_of_tighten hm hrs
  · exact ⟨Requirement.forall_accepts_of_tighten hm hrs,
      Requirement.accepts_tighten_of_forall hm hconj⟩

/-- Three requirements on a package: the lower bounds have one operator, and
`1.5` and `1.5.0` exclude the same versions. -/
theorem restrict_never_widens_excluded :
    let rs : List Requirement := [
      ⟨"vendor/pkg", [.all [⟨.atLeast, "1.0"⟩, ⟨.notEqual, "1.5"⟩]]⟩,
      ⟨"vendor/pkg", [.all [⟨.atLeast, "1.2"⟩, ⟨.notEqual, "1.5.0"⟩]]⟩,
      ⟨"vendor/pkg", [.single ⟨.below, "2.0.0"⟩]⟩]
    let m : Requirement :=
      ⟨"vendor/pkg", [.all [⟨.atLeast, "1.2"⟩, ⟨.below, "2.0.0"⟩, ⟨.notEqual, "1.5"⟩]]⟩
    packagist.grammar = .alternatives .composer ∧ (∀ r ∈ rs, r.branches ≠ []) ∧
    m ∈ packagist.restrict rs ∧ (∀ r ∈ rs, r.name = m.name → r.IsConjunction) ∧
    (m.accepts "1.9" = true ↔ ∀ r ∈ rs, r.name = m.name → r.accepts "1.9" = true) := by
  intro rs m
  have hrs : ∀ r ∈ rs, r.branches ≠ [] := by decide
  have hm : m ∈ packagist.restrict rs := by
    have hrestrict : packagist.restrict rs = [m] := by cbv
    exact hrestrict ▸ List.mem_singleton.2 rfl
  have hconj : ∀ r ∈ rs, r.name = m.name → r.IsConjunction := by
    intro r hr _
    simp only [rs, List.mem_cons, List.not_mem_nil, or_false] at hr
    rcases hr with rfl | rfl | rfl
    · exact ⟨_, rfl, by simp [Branch.terms]⟩
    · exact ⟨_, rfl, by simp [Branch.terms]⟩
    · exact ⟨_, rfl, by simp [Branch.terms]⟩
  exact ⟨rfl, hrs, hm, hconj,
    ((restrict_never_widens packagist .composer rfl rs hrs).2.2 m hm "1.9").2 hconj⟩

end Ecosystem

end Requirements
