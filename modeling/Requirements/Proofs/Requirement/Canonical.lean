import Mathlib
import Requirements.Proofs.Requirement.Idempotence
import Requirements.Proofs.Requirement.Ranks
import Requirements.Proofs.Version.Ends

/-!
# The form of tightened requirements

A tightened requirement lists its terms by operator, with at most one term for
each kind of bound and with the pinned and the excluded versions in ascending
order, no two of one rank. All that is kept of the versions with one operator is
read off their sorted list: its end, its start, or the first of each rank. So a
tightened requirement stays the same up to rank in whatever order requirements,
branches and terms come.
-/

namespace Requirements

namespace Requirement

/-- A list of terms as tightening writes it. -/
structure IsCanonical (ts : List Term) : Prop where
  ordered : ts.Pairwise fun t u => t.op.rank ≤ u.op.rank
  bounds : ∀ op : Operator, op.isLowerBound = true ∨ op.isUpperBound = true →
    (versionsOf op ts).length ≤ 1
  increasing : ∀ op : Operator,
    (versionsOf op ts).Pairwise fun a b => Version.compare a b = .lt

/-- The same branches in any order, each with its terms in any order. -/
structure SameTerms (r s : Requirement) : Prop where
  name_eq : r.name = s.name
  branches : ∃ bs, r.branches.Perm bs ∧
    List.Forall₂ (fun b c => b.terms.Perm c.terms) bs s.branches

/-- The same requirements in any order, each with its branches and terms in any order. -/
def Reordered (rs qs : List Requirement) : Prop :=
  ∃ ss, rs.Perm ss ∧ List.Forall₂ SameTerms ss qs

/-! ## The versions kept for an operator -/

theorem length_tightest_le {op : Operator}
    (h : op.isLowerBound = true ∨ op.isUpperBound = true) (vs : List Version) :
    (tightest op vs).length ≤ 1 := by
  unfold tightest
  by_cases hlower : op.isLowerBound = true
  · rw [if_pos hlower]
    exact Option.length_toList_le
  · rw [if_neg hlower, if_pos (h.resolve_left hlower)]
    exact Option.length_toList_le

theorem pairwise_toList (v : Option Version) :
    v.toList.Pairwise fun a b => Version.compare a b = .lt := by
  cases v with
  | none => exact .nil
  | some v => exact List.pairwise_singleton _ v

theorem pairwise_tightest (op : Operator) (vs : List Version) :
    (tightest op vs).Pairwise fun a b => Version.compare a b = .lt := by
  unfold tightest
  split_ifs
  · exact pairwise_toList _
  · exact pairwise_toList _
  · exact Version.pairwise_distinct (Version.sort_isStableSort vs).ascending

theorem forall₂_toList {v w : Option Version}
    (h : Option.Rel (fun v w => Version.compare v w = .eq) v w) :
    List.Forall₂ (fun v w => Version.compare v w = .eq) v.toList w.toList := by
  cases h with
  | none => exact .nil
  | some hvw => exact .cons hvw .nil

/-- What is kept of versions does not depend on their order, up to rank. -/
theorem forall₂_tightest (op : Operator) {vs ws : List Version} (h : vs.Perm ws) :
    List.Forall₂ (fun v w => Version.compare v w = .eq) (tightest op vs) (tightest op ws) := by
  have hsort := (Version.sort_isStableSort vs).forall₂_of_perm (Version.sort_isStableSort ws) h
  unfold tightest
  split_ifs
  · rw [Version.highest?_eq_getLast?_sort, Version.highest?_eq_getLast?_sort]
    exact forall₂_toList (Version.rel_getLast? hsort)
  · rw [Version.lowest?_eq_head?_sort, Version.lowest?_eq_head?_sort]
    exact forall₂_toList (Version.rel_head? hsort)
  · exact Version.forall₂_distinct hsort

/-! ## The terms kept of a conjunction -/

theorem isCanonical_tightenTerms (ts : List Term) : IsCanonical (tightenTerms ts) where
  ordered := by
    have hall : Operator.all.Pairwise fun o p => o.rank ≤ p.rank := by decide
    rw [tightenTerms, List.pairwise_flatMap]
    constructor
    · intro op _
      rw [List.pairwise_map]
      exact List.pairwise_of_forall fun _ _ => Nat.le_refl _
    · refine hall.imp fun {o p} hle t ht u hu => ?_
      obtain ⟨_, _, rfl⟩ := List.mem_map.1 ht
      obtain ⟨_, _, rfl⟩ := List.mem_map.1 hu
      exact hle
  bounds := fun op hop => by
    rw [versionsOf_tightenTerms]
    exact length_tightest_le hop _
  increasing := fun op => by
    rw [versionsOf_tightenTerms]
    exact pairwise_tightest op _

theorem forall₂_tightenTerms {ts us : List Term} (h : ts.Perm us) :
    List.Forall₂ Term.Equivalent (tightenTerms ts) (tightenTerms us) := by
  refine List.rel_flatMap (R := Eq) (List.forall₂_refl Operator.all) ?_
  rintro op _ rfl
  rw [List.forall₂_map_left_iff, List.forall₂_map_right_iff]
  exact (forall₂_tightest op ((h.filter _).map _)).imp fun v w hvw => ⟨rfl, hvw⟩

/-! ## The tightened requirement of a package -/

theorem mem_tighten {rs : List Requirement} {m : Requirement} :
    m ∈ tighten rs ↔ ∃ n ∈ names rs, conjunction n (tightenTerms (termsOn n rs)) = m := by
  rw [tighten_eq, List.mem_map]

theorem branches_conjunction (n : String) (ts : List Term) :
    (conjunction n ts).branches.length ≤ 1 ∧
      ∀ b ∈ (conjunction n ts).branches, b = .ofTerms ts := by
  cases ts with
  | nil => exact ⟨Nat.zero_le 1, nofun⟩
  | cons t ts => exact ⟨Nat.le_refl 1, fun b hb => List.mem_singleton.1 hb⟩

theorem equivalent_conjunction (n : String) {ts us : List Term}
    (h : List.Forall₂ Term.Equivalent ts us) :
    (conjunction n ts).Equivalent (conjunction n us) := by
  cases h with
  | nil => exact .nil
  | cons htu hrest =>
      refine .cons ?_ .nil
      rw [Branch.terms_ofTerms, Branch.terms_ofTerms]
      exact .cons htu hrest

theorem flatMap_perm {α β γ : Type} {f : α → List γ} {g : β → List γ} {xs : List α} {ys : List β}
    (h : List.Forall₂ (fun x y => (f x).Perm (g y)) xs ys) :
    (xs.flatMap f).Perm (ys.flatMap g) := by
  induction h with
  | nil => exact .nil
  | cons hxy _ ih =>
      rw [List.flatMap_cons, List.flatMap_cons]
      exact hxy.append ih

theorem SameTerms.terms_perm {r s : Requirement} (h : r.SameTerms s) :
    r.terms.Perm s.terms := by
  obtain ⟨bs, hperm, hterms⟩ := h.branches
  exact (hperm.flatMap_right _).trans (flatMap_perm hterms)

section

variable {rs qs : List Requirement} (h : Reordered rs qs)

include h

theorem names_perm : (names rs).Perm (names qs) := by
  obtain ⟨ss, hperm, hsame⟩ := h
  have hnames : ss.map name = qs.map name := by
    rw [← List.forall₂_eq_eq_eq, List.forall₂_map_left_iff, List.forall₂_map_right_iff]
    exact hsame.imp fun r s hrs => hrs.name_eq
  refine (List.perm_ext_iff_of_nodup (nodup_names rs) (nodup_names qs)).2 fun n => ?_
  rw [names, names, List.mem_eraseDups, List.mem_eraseDups, ← hnames]
  exact (hperm.map name).mem_iff

theorem termsOn_perm (n : String) : (termsOn n rs).Perm (termsOn n qs) := by
  obtain ⟨ss, hperm, hsame⟩ := h
  have hfilter : List.Forall₂ SameTerms (ss.filter (·.name = n)) (qs.filter (·.name = n)) := by
    refine List.rel_filter (fun r s hrs => ?_) hsame
    show decide (r.name = n) = true ↔ decide (s.name = n) = true
    rw [hrs.name_eq]
  exact ((hperm.filter _).flatMap_right terms).trans
    (flatMap_perm (hfilter.imp fun r s hrs => hrs.terms_perm))

theorem tighten_equivalent {m k : Requirement} (hm : m ∈ tighten rs) (hk : k ∈ tighten qs)
    (hname : m.name = k.name) : m.Equivalent k := by
  obtain ⟨n, _, rfl⟩ := mem_tighten.1 hm
  obtain ⟨n', _, rfl⟩ := mem_tighten.1 hk
  rw [name_conjunction, name_conjunction] at hname
  subst hname
  exact equivalent_conjunction n (forall₂_tightenTerms (termsOn_perm h n))

end

end Requirement

namespace Ecosystem

/-- Where alternatives are tightened, each package gets one requirement, in the
order in which packages first appear. It has one branch at most, whose terms stand
in operator order, with one term at most for each kind of bound and the versions
of one operator in strictly ascending order. Put into another order, requirements,
branches and terms give the same packages, and for each of them the same operators
in the same places, with versions of equal rank. -/
theorem restrict_canonical (e : Ecosystem) (d : AlternativesDialect)
    (he : e.grammar = .alternatives d) (rs : List Requirement) :
    ((e.restrict rs).map (·.name)).Nodup ∧
    (∀ n, n ∈ (e.restrict rs).map (·.name) ↔ n ∈ rs.map (·.name)) ∧
    ((e.restrict rs).map (·.name)).Pairwise
      (fun a b => (rs.map (·.name)).idxOf a < (rs.map (·.name)).idxOf b) ∧
    (∀ m ∈ e.restrict rs, m.branches.length ≤ 1 ∧
      ∀ b ∈ m.branches, b = .ofTerms b.terms ∧ Requirement.IsCanonical b.terms) ∧
    ∀ qs, Requirement.Reordered rs qs →
      ((e.restrict rs).map (·.name)).Perm ((e.restrict qs).map (·.name)) ∧
      ∀ m ∈ e.restrict rs, ∀ k ∈ e.restrict qs, m.name = k.name → m.Equivalent k := by
  have hrestrict (qs : List Requirement) : e.restrict qs = Requirement.tighten qs := by
    rw [restrict, he]
  simp only [hrestrict, Requirement.names_tighten]
  refine ⟨Requirement.nodup_names rs, fun n => List.mem_eraseDups,
    Requirement.pairwise_idxOf_eraseDups _, fun m hm => ?_, fun qs h => ⟨?_, ?_⟩⟩
  · obtain ⟨n, _, rfl⟩ := Requirement.mem_tighten.1 hm
    obtain ⟨hlength, hbranch⟩ := Requirement.branches_conjunction n
      (Requirement.tightenTerms (Requirement.termsOn n rs))
    refine ⟨hlength, fun b hb => ?_⟩
    rw [hbranch b hb, Branch.terms_ofTerms]
    exact ⟨rfl, Requirement.isCanonical_tightenTerms _⟩
  · exact Requirement.names_perm h
  · exact fun m hm k hk => Requirement.tighten_equivalent h hm hk

/-- Requirements, branches and terms in the opposite order: of two bounds and of two
exclusions of one rank the other one is kept. -/
theorem restrict_canonical_reversed :
    let rs : List Requirement := [
      ⟨"a", [.all [⟨.notEqual, "1.5"⟩, ⟨.atLeast, "1.0"⟩], .single ⟨.atLeast, "1.0.0"⟩]⟩,
      ⟨"b", []⟩, ⟨"a", [.all [⟨.below, "2"⟩, ⟨.notEqual, "1.5.0"⟩]]⟩]
    let qs : List Requirement := [
      ⟨"a", [.all [⟨.notEqual, "1.5.0"⟩, ⟨.below, "2"⟩]]⟩, ⟨"b", []⟩,
      ⟨"a", [.single ⟨.atLeast, "1.0.0"⟩, .all [⟨.atLeast, "1.0"⟩, ⟨.notEqual, "1.5"⟩]]⟩]
    let m : Requirement :=
      ⟨"a", [.all [⟨.atLeast, "1.0.0"⟩, ⟨.below, "2"⟩, ⟨.notEqual, "1.5"⟩]]⟩
    let k : Requirement :=
      ⟨"a", [.all [⟨.atLeast, "1.0"⟩, ⟨.below, "2"⟩, ⟨.notEqual, "1.5.0"⟩]]⟩
    npm.grammar = .alternatives .npm ∧ Requirement.Reordered rs qs ∧
    npm.restrict rs = [m, ⟨"b", []⟩] ∧ npm.restrict qs = [k, ⟨"b", []⟩] ∧
    (m.branches.length ≤ 1 ∧
      ∀ b ∈ m.branches, b = .ofTerms b.terms ∧ Requirement.IsCanonical b.terms) ∧
    m.name = k.name ∧ m.Equivalent k := by
  intro rs qs m k
  have hreordered : Requirement.Reordered rs qs :=
    ⟨rs.reverse, (List.reverse_perm rs).symm,
      .cons ⟨rfl, _, .refl _, .cons (.swap _ _ _) .nil⟩ <|
      .cons ⟨rfl, _, .refl _, .nil⟩ <|
      .cons ⟨rfl, _, .swap _ _ _, .cons (.refl _) (.cons (.swap _ _ _) .nil)⟩ .nil⟩
  have hrs : npm.restrict rs = [m, ⟨"b", []⟩] := by cbv
  have hqs : npm.restrict qs = [k, ⟨"b", []⟩] := by cbv
  have hm : m ∈ npm.restrict rs := hrs ▸ List.mem_cons_self
  have hk : k ∈ npm.restrict qs := hqs ▸ List.mem_cons_self
  obtain ⟨-, -, -, hcanonical, hsame⟩ := restrict_canonical npm .npm rfl rs
  exact ⟨rfl, hreordered, hrs, hqs, hcanonical m hm, rfl, (hsame qs hreordered).2 m hm k hk rfl⟩

end Ecosystem

end Requirements
