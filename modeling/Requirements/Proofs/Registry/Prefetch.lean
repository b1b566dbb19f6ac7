import Mathlib
import Requirements.Proofs.Resolution.Accounting
import Requirements.Proofs.Table
import Requirements.Registry.Fetch

/-!
# Prefetching leaves no trace in a resolution

Before a solve call every distinct name is asked for once, all at the same time,
and the answers are recorded in the order in which they arrive. The names are
different, so recording two answers in either order gives the same index, and
what the index replays for a name is what asking for it gives.
-/

namespace Requirements

theorem FetchSummary.count_comm (s : FetchSummary) (a b : Bool) :
    (s.count a).count b = (s.count b).count a := by
  cases a <;> cases b <;> rfl

/-- What is said of a package, after a second try under its normalized name, if
the registry always gives the same answers. -/
def ask (registry : String) (fetch : String → Answer) (package : String) : Answer :=
  Id.run (fetchWithFallback registry fetch package)

theorem ask_of_isBlankText {registry package : String} (fetch : String → Answer)
    (h : Text.isBlankText package = true) :
    ask registry fetch package = .error (.blankName package registry) := by
  rw [ask, fetchWithFallback, if_pos h]
  rfl

namespace Prefetch

/-! ## Names -/

theorem mem_pending {names : List String} {name : String} :
    name ∈ pending names ↔ name ∈ names := by
  rw [pending, Table.mem_keys_ofList, List.map_map]
  simp

theorem nodup_pending (names : List String) : (pending names).Nodup :=
  Table.keys_nodup _

/-! ## Answers as they arrive -/

/-- Every name asked for gets its answer, in whatever order. -/
def Arrives (answer : String → Answer) (names : List String)
    (arrived : List (String × Answer)) : Prop :=
  arrived.Perm ((pending names).map fun name => (name, answer name))

/-- Record one answer. -/
def receive (s : ReleaseIndex × FetchSummary) (a : String × Answer) :
    ReleaseIndex × FetchSummary :=
  (s.1.record a.1 a.2, s.2.count (succeeded a.2))

theorem receive_comm (s : ReleaseIndex × FetchSummary) {a b : String × Answer} (h : a.1 ≠ b.1) :
    receive (receive s a) b = receive (receive s b) a := by
  refine Prod.ext ?_ (s.2.count_comm _ _)
  exact congrArg (ReleaseIndex.mk s.1.registry) (s.1.answers.insert_comm h a.2 b.2)

theorem collect_append_singleton (registry : String) (arrived : List (String × Answer))
    (a : String × Answer) :
    collect registry (arrived ++ [a]) = receive (collect registry arrived) a := by
  simp only [collect, List.foldl_append]
  rfl

variable {registry : String} {answer : String → Answer} {names : List String}
  {arrived : List (String × Answer)}

/-- The order of arrival does not matter. -/
theorem collect_perm {other : List (String × Answer)} (hnames : (arrived.map (·.1)).Nodup)
    (h : arrived.Perm other) : collect registry arrived = collect registry other := by
  refine h.foldl_eq' (f := receive) (fun a ha b hb s => ?_) _
  by_cases heq : a = b
  · rw [heq]
  · -- Different answers are answers for different names.
    exact receive_comm s fun hname => heq (List.inj_on_of_nodup_map hnames ha hb hname)

theorem answers_collect (registry : String) (arrived : List (String × Answer)) :
    (collect registry arrived).1 = ⟨registry, Table.ofList arrived⟩ := by
  induction arrived using List.reverseRecOn with
  | nil => rfl
  | append_singleton arrived a ih =>
      rw [collect_append_singleton, receive, ih, Table.ofList_concat]
      rfl

theorem Arrives.nodup (h : Arrives answer names arrived) : (arrived.map (·.1)).Nodup := by
  have hperm := h.map (·.1)
  rw [List.map_map] at hperm
  exact hperm.nodup_iff.2 (by simpa [Function.comp_def] using nodup_pending names)

/-- Whatever arrives first, the outcome is that of one name after the other. -/
theorem collect_eq_run (h : Arrives answer names arrived) :
    collect registry arrived = Id.run (run registry answer names) := by
  have hrun : Id.run (run registry answer names) =
      collect registry ((pending names).map fun name => (name, answer name)) := by
    simp only [run, Id.run_bind, List.idRun_mapM]
    rfl
  rw [hrun]
  exact collect_perm h.nodup h

theorem lookup?_collect (h : Arrives answer names arrived) {name : String} (hname : name ∈ names) :
    (collect registry arrived).1.lookup? name = some (answer name) := by
  have hmem : (name, answer name) ∈ arrived :=
    h.mem_iff.2 (List.mem_map_of_mem (mem_pending.2 hname))
  rw [answers_collect, ReleaseIndex.lookup?, Table.find?_ofList_of_mem h.nodup hmem]

/-- The index replays for a name the answer that arrived, if blank names are refused. -/
theorem fetch_collect_eq (h : Arrives answer names arrived) {name : String} (hname : name ∈ names)
    (hblank : Text.isBlankText name = true → answer name = .error (.blankName name registry)) :
    (collect registry arrived).1.fetch name = answer name := by
  rw [ReleaseIndex.fetch, lookup?_collect h hname]
  by_cases hb : Text.isBlankText name = true
  · rw [if_pos hb, hblank hb, answers_collect]
  · rw [if_neg hb, Option.getD_some]

/-- The index replays for a name what asking for it gives. -/
theorem fetch_collect {fetch : String → Answer} (h : Arrives (ask registry fetch) names arrived)
    {name : String} (hname : name ∈ names) :
    (collect registry arrived).1.fetch name = ask registry fetch name :=
  fetch_collect_eq h hname (ask_of_isBlankText fetch)

end Prefetch

namespace Solve

/-- A call takes notice of the answers for its own requirements only. -/
theorem run_congr {fetch other : String → Answer} {options : SolveOptions} {rs : List Requirement}
    (h : ∀ r ∈ rs, fetch r.name = other r.name) (s : State) (asked : List String) :
    (run (call fun _ => fetch) options s rs).run asked =
      (run (call fun _ => other) options s rs).run asked := by
  induction rs generalizing s asked with
  | nil => rfl
  | cons r rs ih =>
      obtain ⟨hr, hrs⟩ := List.forall_mem_cons.1 h
      cases hstep : step options s r (fetch r.name) with
      | error e => rw [run_of_error hstep, run_of_error (hr ▸ hstep)]
      | ok s' => rw [run_of_ok hstep, run_of_ok (hr ▸ hstep), ih hrs]

theorem requirements_congr {fetch other : String → Answer} {rs : List Requirement}
    (h : ∀ r ∈ rs, fetch r.name = other r.name) (options : SolveOptions) :
    requirements fetch options rs = requirements other options rs := by
  simp only [requirements, requirementsFrom, run_congr h]

/-- Whatever the order in which the prefetched answers arrive, they form one
index, and a solve call over it has the outcome of a call that asks for
each package when it comes to it. -/
theorem requirements_prefetched (registry : String) (fetch : String → Answer)
    (options : SolveOptions) (rs : List Requirement) (arrived : List (String × Answer))
    (h : Prefetch.Arrives (ask registry fetch) (rs.map (·.name)) arrived) :
    Prefetch.collect registry arrived =
      Id.run (Prefetch.run registry (ask registry fetch) (rs.map (·.name))) ∧
    requirements (Prefetch.collect registry arrived).1.fetch options rs =
      requirements (ask registry fetch) options rs := by
  refine ⟨Prefetch.collect_eq_run h, requirements_congr (fun r hr => ?_) _⟩
  exact Prefetch.fetch_collect h (List.mem_map_of_mem hr)

/-- A package known under its normalized name only, one that is not known and a
blank name, answered last name first. -/
theorem requirements_prefetched_reversed :
    let set : ReleaseSet := ⟨"Flask-SQLAlchemy", ["3.1.1", "2.5.1"]⟩
    let fetch : String → Answer := fun name =>
      if name = "flask-sqlalchemy" then .ok set else .error (.notFound name "PyPI")
    let rs : List Requirement := [.anyVersion "lost_pkg", .anyVersion " ",
      .ofTerm "Flask_SQLAlchemy" ⟨.below, "3"⟩]
    let arrived := ((Prefetch.pending (rs.map (·.name))).map fun name =>
      (name, ask "PyPI" fetch name)).reverse
    arrived.map (·.1) = ["lost_pkg", "Flask_SQLAlchemy", " "] ∧
    Prefetch.Arrives (ask "PyPI" fetch) (rs.map (·.name)) arrived ∧
    requirements (Prefetch.collect "PyPI" arrived).1.fetch ⟨true, false⟩ rs =
      requirements (ask "PyPI" fetch) ⟨true, false⟩ rs ∧
    ∃ res, (requirements (Prefetch.collect "PyPI" arrived).1.fetch ⟨true, false⟩ rs).result =
      .ok res ∧ res.entries.find? "Flask-SQLAlchemy" = some (.latest "2.5.1") := by
  intro set fetch rs arrived
  have hnames : arrived.map (·.1) = ["lost_pkg", "Flask_SQLAlchemy", " "] := by decide +kernel
  have harrives : Prefetch.Arrives (ask "PyPI" fetch) (rs.map (·.name)) arrived :=
    List.reverse_perm _
  obtain ⟨_, hsame⟩ := requirements_prefetched "PyPI" fetch ⟨true, false⟩ rs arrived harrives
  have hmatching : matching ⟨"Flask_SQLAlchemy", [.single ⟨.below, "3"⟩]⟩ set.releases =
      ["2.5.1"] := by cbv
  have hresult : (requirements (ask "PyPI" fetch) ⟨true, false⟩ rs).result =
      .ok ⟨Table.empty.insert "Flask-SQLAlchemy" (.latest "2.5.1"),
        [⟨"lost_pkg", (RegistryError.notFound "lost-pkg" "PyPI").message⟩,
          ⟨" ", (RegistryError.blankName " " "PyPI").message⟩]⟩ := by
    have hset : ask "PyPI" fetch "Flask_SQLAlchemy" = .ok set := by decide +kernel
    have hlost : ask "PyPI" fetch "lost_pkg" = .error (.notFound "lost-pkg" "PyPI") := by
      decide +kernel
    have hblank : ask "PyPI" fetch " " = .error (.blankName " " "PyPI") :=
      ask_of_isBlankText fetch (by decide)
    simp only [requirements, requirementsFrom, run, run_bind, run_call, step, rs,
      Requirement.anyVersion, Requirement.ofTerm, hlost, hblank, hset, hmatching,
      if_true]
    rfl
  refine ⟨hnames, harrives, hsame, _, hsame ▸ hresult, ?_⟩
  rw [Table.find?_insert, if_pos rfl]

end Solve

end Requirements
