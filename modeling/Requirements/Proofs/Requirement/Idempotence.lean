import Mathlib
import Requirements.Proofs.Requirement.Tighten

/-!
# Tightening a second time changes nothing

What tightening keeps for an operator is already the tightest there is: one
bound, or a sorted list in which no two versions rank equal. So the second pass
finds for each package and operator the versions that the first one kept, keeps
all of them in the same order, and writes the same texts.
-/

namespace Requirements

namespace Requirement

/-! ## The versions kept for an operator -/

theorem tightest_tightest (op : Operator) (vs : List Version) :
    tightest op (tightest op vs) = tightest op vs := by
  unfold tightest
  by_cases hlower : op.isLowerBound = true
  · simp only [if_pos hlower]
    cases Version.highest? vs <;> rfl
  · by_cases hupper : op.isUpperBound = true
    · simp only [if_neg hlower, if_pos hupper]
      cases Version.lowest? vs <;> rfl
    · simp only [if_neg hlower, if_neg hupper]
      rw [Version.sort_distinct_sort, Version.distinct_distinct]

theorem versionsOf_append (op : Operator) (ts us : List Term) :
    versionsOf op (ts ++ us) = versionsOf op ts ++ versionsOf op us := by
  rw [versionsOf, List.filter_append, List.map_append]
  rfl

theorem versionsOf_map_mk (op other : Operator) (vs : List Version) :
    versionsOf op (vs.map (Term.mk other)) = if other = op then vs else [] := by
  by_cases h : other = op
  · simp [versionsOf, List.filter_map, Function.comp_def, h]
  · simp [versionsOf, List.filter_map, Function.comp_def, h]

/-- Terms that are listed by operator are found again under their operator. -/
theorem versionsOf_flatMap (op : Operator) (g : Operator → List Version) {ops : List Operator}
    (h : ops.Nodup) :
    versionsOf op (ops.flatMap fun o => (g o).map (Term.mk o)) = if op ∈ ops then g op else [] := by
  induction ops with
  | nil => rfl
  | cons o ops ih =>
      obtain ⟨hnew, hops⟩ := List.nodup_cons.1 h
      rw [List.flatMap_cons, versionsOf_append, versionsOf_map_mk, ih hops]
      by_cases ho : o = op
      · subst ho
        simp [hnew]
      · have hne : op ≠ o := Ne.symm ho
        simp [ho, hne]

theorem versionsOf_tightenTerms (op : Operator) (ts : List Term) :
    versionsOf op (tightenTerms ts) = tightest op (versionsOf op ts) := by
  have hall : Operator.all.Nodup := by decide
  rw [tightenTerms, versionsOf_flatMap op (fun o => tightest o (versionsOf o ts)) hall,
    if_pos (mem_all op)]

theorem tightenTerms_tightenTerms (ts : List Term) :
    tightenTerms (tightenTerms ts) = tightenTerms ts := by
  conv_lhs => rw [tightenTerms]
  simp only [versionsOf_tightenTerms, tightest_tightest]
  rfl

/-! ## The tightened requirement of a package -/

/-- The requirement on a package that all of the terms hold; without any term
nothing meets it. -/
def conjunction (name : String) : List Term → Requirement
  | [] => ⟨name, []⟩
  | ts => ⟨name, [.ofTerms ts]⟩

@[simp] theorem name_conjunction (n : String) (ts : List Term) : (conjunction n ts).name = n := by
  cases ts <;> rfl

@[simp] theorem terms_conjunction (n : String) (ts : List Term) :
    (conjunction n ts).terms = ts := by
  cases ts with
  | nil => rfl
  | cons t ts => simp [conjunction, terms]

theorem tighten_eq (rs : List Requirement) :
    tighten rs = (names rs).map fun n => conjunction n (tightenTerms (termsOn n rs)) := by
  refine List.map_congr_left fun n _ => ?_
  cases tightenTerms (termsOn n rs) <;> rfl

theorem names_tighten_eq (rs : List Requirement) : names (tighten rs) = names rs := by
  rw [names, names_tighten, eraseDups_eq_self (nodup_names rs)]

/-- Of different names one alone is that of a given requirement. -/
theorem filter_name_map {f : String → Requirement} (hf : ∀ n, (f n).name = n) {ns : List String}
    (h : ns.Nodup) {n : String} (hn : n ∈ ns) : (ns.map f).filter (·.name = n) = [f n] := by
  rw [List.filter_map]
  have hfilter : ns.filter ((fun r : Requirement => decide (r.name = n)) ∘ f) = [n] := by
    simp only [Function.comp_def, hf]
    rw [List.filter_eq, List.count_eq_one_of_mem h hn]
    rfl
  rw [hfilter]
  rfl

/-- The terms of a tightened requirement are those that were kept. -/
theorem termsOn_tighten {rs : List Requirement} {n : String} (hn : n ∈ names rs) :
    termsOn n (tighten rs) = tightenTerms (termsOn n rs) := by
  rw [tighten_eq, termsOn, filter_name_map (fun n => name_conjunction n _) (nodup_names rs) hn]
  simp

theorem tighten_tighten (rs : List Requirement) : tighten (tighten rs) = tighten rs := by
  rw [tighten_eq (tighten rs), names_tighten_eq, tighten_eq rs]
  refine List.map_congr_left fun n hn => ?_
  rw [← tighten_eq, termsOn_tighten hn, tightenTerms_tightenTerms]

end Requirement

/-- Restricting a second time gives the same requirements, with the same terms in
the same order. -/
theorem Ecosystem.restrict_idempotent (e : Ecosystem) (rs : List Requirement) :
    e.restrict (e.restrict rs) = e.restrict rs := by
  unfold restrict
  cases e.grammar with
  | alternatives d => exact Requirement.tighten_tighten rs
  | clauses d => rfl
  | pin => rfl

/-- Of lower bounds that rank equal the last is kept, and excluded versions are
sorted; nothing is lost of a package without branches. -/
example :
    Ecosystem.npm.restrict [
      ⟨"a", [.all [⟨.notEqual, "2.0"⟩, ⟨.atLeast, "1.0"⟩], .single ⟨.atLeast, "1.0.0"⟩]⟩,
      ⟨"b", []⟩, ⟨"a", [.single ⟨.notEqual, "1.5"⟩, .all []]⟩] =
    [⟨"a", [.all [⟨.atLeast, "1.0.0"⟩, ⟨.notEqual, "1.5"⟩, ⟨.notEqual, "2.0"⟩]]⟩,
      ⟨"b", []⟩] := by
  cbv

end Requirements
