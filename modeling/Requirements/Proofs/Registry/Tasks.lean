import Mathlib
import Requirements.Proofs.Registry.Prefetch

/-!
# Fetches at the same time

A prefetch has a task for every distinct name. At most as many fetches as the limit
allows are under way at a time, a task may start as soon as there is room, and answers
are collected as tasks end, all in any order. Each step keeps account of the names: one
that no task has begun with is waiting, and one that was begun with is being fetched,
has an answer that is not collected yet, or has been collected. So when nothing is left
to do, every name was fetched by one task, and its answer was recorded and counted once.
-/

namespace Requirements.Prefetch

variable {registry : String} {answer : String → Answer} {names : List String}

/-! ## What was collected -/

/-- The index and the counts are those of one answer for every name. -/
structure IsComplete (answer : String → Answer) (names : List String)
    (out : ReleaseIndex × FetchSummary) : Prop where
  keys : ∀ name, name ∈ out.1.answers.keys ↔ name ∈ names
  contents : ∀ name ∈ names, out.1.answers.find? name = some (answer name)
  fetched : out.2.fetched = out.1.answers.values.countP succeeded
  failed : out.2.failed = out.1.answers.values.countP fun a => !succeeded a
  total : out.2.fetched + out.2.failed = names.toFinset.card
  size : out.1.size = names.toFinset.card

theorem length_pending (names : List String) : (pending names).length = names.toFinset.card := by
  rw [← List.toFinset_card_of_nodup (nodup_pending names)]
  refine congrArg Finset.card (Finset.ext fun name => ?_)
  rw [List.mem_toFinset, List.mem_toFinset, mem_pending]

theorem map_fst_answers (answer : String → Answer) (names : List String) :
    (names.map fun name => (name, answer name)).map (·.1) = names := by
  simp [Function.comp_def]

/-- Every answer is counted, as a success or as a failure. -/
theorem summary_collect (registry : String) (arrived : List (String × Answer)) :
    (collect registry arrived).2 = ⟨arrived.countP fun a => succeeded a.2,
      arrived.countP fun a => !succeeded a.2⟩ := by
  induction arrived using List.reverseRecOn with
  | nil => rfl
  | append_singleton arrived a ih =>
      rw [collect_append_singleton, receive, ih, List.countP_append, List.countP_append,
        List.countP_singleton, List.countP_singleton]
      cases h : succeeded a.2 <;> rfl

theorem values_collect_perm (registry : String) {arrived : List (String × Answer)}
    (hnames : (arrived.map (·.1)).Nodup) :
    (collect registry arrived).1.answers.values.Perm (arrived.map (·.2)) := by
  rw [answers_collect]
  exact (Table.entries_ofList_perm hnames).map (·.2)

/-- Whatever the order in which the answers arrive, none is lost or counted twice. -/
theorem isComplete_collect {arrived : List (String × Answer)} (h : Arrives answer names arrived) :
    IsComplete answer names (collect registry arrived) := by
  have hnames : ∀ name, name ∈ arrived.map (·.1) ↔ name ∈ names := by
    intro name
    rw [(h.map (·.1)).mem_iff, map_fst_answers, mem_pending]
  have hlength : arrived.length = names.toFinset.card := by
    rw [h.length_eq, List.length_map, length_pending]
  have hvalues := values_collect_perm registry h.nodup
  refine ⟨fun name => ?_, fun name hname => ?_, ?_, ?_, ?_, ?_⟩
  · rw [answers_collect, Table.mem_keys_ofList, hnames]
  · have hmem : (name, answer name) ∈ arrived :=
      h.mem_iff.2 (List.mem_map_of_mem (mem_pending.2 hname))
    rw [answers_collect, Table.find?_ofList_of_mem h.nodup hmem]
  · rw [hvalues.countP_eq, List.countP_map, summary_collect]
    rfl
  · rw [hvalues.countP_eq, List.countP_map, summary_collect]
    rfl
  · rw [summary_collect, ← hlength, List.length_eq_countP_add_countP fun a => succeeded a.2]
    simp
  · rw [answers_collect, ReleaseIndex.size, Table.size_ofList]
    refine congrArg Finset.card (Finset.ext fun name => ?_)
    rw [List.mem_toFinset, List.mem_toFinset, hnames]

/-! ## Tasks -/

/-- A prefetch under way. -/
structure Stage where
  /-- The names of the tasks that have not begun. -/
  waiting : List String
  /-- The names that are being fetched. -/
  running : List String
  /-- The answers of the tasks that have ended, before they are collected. -/
  ended : List (String × Answer)
  /-- The names that tasks have begun with, in order. -/
  begun : List String
  /-- The index and the counts so far. -/
  collected : ReleaseIndex × FetchSummary

namespace Stage

/-- A task for every distinct name. -/
def initial (registry : String) (names : List String) : Stage :=
  ⟨pending names, [], [], [], (.empty registry, .zero)⟩

/-- Nothing is left to do. -/
def IsOver (s : Stage) : Prop :=
  s.waiting = [] ∧ s.running = [] ∧ s.ended = []

/-- How many steps there are to the end. -/
def remaining (s : Stage) : Nat :=
  3 * s.waiting.length + 2 * s.running.length + s.ended.length

end Stage

/-- What may happen next: there is room for a task to begin, a fetch comes to its end, or
an answer is collected. -/
inductive Step (limit : Nat) (answer : String → Answer) : Stage → Stage → Prop
  | begin {s : Stage} {front back : List String} {name : String}
      (hwaiting : s.waiting = front ++ name :: back) (hroom : s.running.length < limit) :
      Step limit answer s { s with
        waiting := front ++ back, running := name :: s.running, begun := s.begun ++ [name] }
  | finish {s : Stage} {front back : List String} {name : String}
      (hrunning : s.running = front ++ name :: back) :
      Step limit answer s { s with
        running := front ++ back, ended := (name, answer name) :: s.ended }
  | collect {s : Stage} {front back : List (String × Answer)} {a : String × Answer}
      (hended : s.ended = front ++ a :: back) :
      Step limit answer s { s with
        ended := front ++ back, collected := receive s.collected a }

/-- The stages that steps lead to. -/
abbrev Reaches (limit : Nat) (answer : String → Answer) : Stage → Stage → Prop :=
  Relation.ReflTransGen (Step limit answer)

/-- What has become of each name, when the given answers were collected. -/
structure Accounts (registry : String) (answer : String → Answer) (names : List String)
    (s : Stage) (arrived : List (String × Answer)) : Prop where
  begun : (s.begun ++ s.waiting).Perm (pending names)
  answered : ((s.running.map fun name => (name, answer name)) ++ s.ended ++ arrived).Perm
    (s.begun.map fun name => (name, answer name))
  collected : s.collected = Prefetch.collect registry arrived

theorem accounts_initial (registry : String) (answer : String → Answer) (names : List String) :
    Accounts registry answer names (.initial registry names) [] :=
  ⟨.refl _, .refl _, rfl⟩

/-- A step changes what has become of one name, and of no other. -/
theorem Step.accounts {limit : Nat} {s t : Stage} (h : Step limit answer s t)
    {arrived : List (String × Answer)} (hs : Accounts registry answer names s arrived) :
    ∃ arrived, Accounts registry answer names t arrived := by
  obtain ⟨hbegun, hanswered, hcollected⟩ := hs
  let running := s.running.map fun name => (name, answer name)
  cases h with
  | @begin front back name hwaiting =>
      rw [hwaiting] at hbegun
      refine ⟨arrived, ?_, ?_, hcollected⟩
      · refine List.Perm.trans ?_ hbegun
        rw [List.append_assoc, List.singleton_append]
        exact List.perm_middle.symm.append_left s.begun
      · rw [List.map_append, List.map_singleton]
        exact (hanswered.cons (name, answer name)).trans
          (List.perm_append_singleton (name, answer name) _).symm
  | @finish front back name hrunning =>
      rw [hrunning, List.map_append, List.map_cons] at hanswered
      refine ⟨arrived, hbegun, List.Perm.trans ?_ hanswered, hcollected⟩
      rw [List.map_append]
      refine List.Perm.append_right arrived ?_
      rw [List.append_assoc, List.append_assoc]
      exact List.perm_middle.append_left _
  | @collect front back a hended =>
      rw [hended] at hanswered
      refine ⟨arrived ++ [a], hbegun, List.Perm.trans ?_ hanswered, ?_⟩
      · show (running ++ (front ++ back) ++ (arrived ++ [a])).Perm _
        rw [← List.append_assoc]
        refine (List.perm_append_singleton a _).trans ?_
        simpa using (@List.perm_middle _ a (running ++ front) (back ++ arrived)).symm
      · rw [collect_append_singleton, ← hcollected]

theorem accounts_of_reaches {limit : Nat} {s : Stage}
    (h : Reaches limit answer (.initial registry names) s) :
    ∃ arrived, Accounts registry answer names s arrived := by
  induction h with
  | refl => exact ⟨[], accounts_initial registry answer names⟩
  | tail _ hstep ih =>
      obtain ⟨_, hs⟩ := ih
      exact hstep.accounts hs

/-- At the end all names were begun with, and the answers of all were collected. -/
theorem Accounts.of_isOver {s : Stage} {arrived : List (String × Answer)}
    (h : Accounts registry answer names s arrived) (hover : s.IsOver) :
    s.begun.Perm (pending names) ∧ Arrives answer names arrived := by
  obtain ⟨hwaiting, hrunning, hended⟩ := hover
  obtain ⟨hbegun, hanswered, _⟩ := h
  rw [hwaiting, List.append_nil] at hbegun
  rw [hrunning, hended] at hanswered
  exact ⟨hbegun, hanswered.trans (hbegun.map _)⟩

/-! ## Coming to an end -/

/-- As long as there is something to do, it can be done. -/
theorem exists_step {limit : Nat} (hlimit : 0 < limit) (answer : String → Answer) {s : Stage}
    (h : ¬s.IsOver) : ∃ t, Step limit answer s t := by
  -- What comes first is taken: `front` is empty.
  by_cases hended : s.ended = []
  · by_cases hrunning : s.running = []
    · have hwaiting : s.waiting ≠ [] := fun hwaiting => h ⟨hwaiting, hrunning, hended⟩
      obtain ⟨name, back, hwaiting⟩ : ∃ name back, s.waiting = [] ++ name :: back :=
        List.exists_cons_of_ne_nil hwaiting
      exact ⟨_, .begin hwaiting (by rwa [hrunning])⟩
    · obtain ⟨name, back, hrunning⟩ : ∃ name back, s.running = [] ++ name :: back :=
        List.exists_cons_of_ne_nil hrunning
      exact ⟨_, .finish hrunning⟩
  · obtain ⟨a, back, hended⟩ : ∃ a back, s.ended = [] ++ a :: back :=
      List.exists_cons_of_ne_nil hended
    exact ⟨_, .collect hended⟩

theorem Step.remaining {limit : Nat} {s t : Stage} (h : Step limit answer s t) :
    t.remaining < s.remaining := by
  cases h with
  | begin hwaiting =>
      simp only [Stage.remaining, hwaiting, List.length_append, List.length_cons]
      omega
  | finish hrunning =>
      simp only [Stage.remaining, hrunning, List.length_append, List.length_cons]
      omega
  | collect hended =>
      simp only [Stage.remaining, hended, List.length_append, List.length_cons]
      omega

theorem exists_isOver {limit : Nat} (hlimit : 0 < limit) (answer : String → Answer) (s : Stage) :
    ∃ t, Reaches limit answer s t ∧ t.IsOver := by
  induction hn : s.remaining using Nat.strong_induction_on generalizing s with
  | _ n ih =>
      by_cases hover : s.IsOver
      · exact ⟨s, .refl, hover⟩
      · obtain ⟨t, hstep⟩ := exists_step hlimit answer hover
        obtain ⟨u, hreaches, hu⟩ := ih t.remaining (hn ▸ hstep.remaining) t rfl
        exact ⟨u, .head hstep hreaches, hu⟩

/-- Whatever the order in which the answers arrive, the index has the distinct names and
their answers, all of them counted once. With room for one fetch at least, the tasks come
to an end from every stage, and at the end one task has begun for each distinct name, and
what was collected are the answers of all in some order. -/
theorem prefetch_complete (registry : String) (fetch : String → Answer) (names : List String) :
    (∀ arrived, Arrives (ask registry fetch) names arrived →
      IsComplete (ask registry fetch) names (collect registry arrived) ∧
      collect registry arrived = Id.run (run registry (ask registry fetch) names)) ∧
    ∀ limit > 0,
      (∀ s, ∃ t, Reaches limit (ask registry fetch) s t ∧ t.IsOver) ∧
      ∀ s, Reaches limit (ask registry fetch) (.initial registry names) s → s.IsOver →
        s.begun.Nodup ∧ (∀ name, name ∈ s.begun ↔ name ∈ names) ∧
        IsComplete (ask registry fetch) names s.collected ∧
        s.collected = Id.run (run registry (ask registry fetch) names) := by
  have horder : ∀ arrived, Arrives (ask registry fetch) names arrived →
      IsComplete (ask registry fetch) names (collect registry arrived) ∧
      collect registry arrived = Id.run (run registry (ask registry fetch) names) :=
    fun arrived h => ⟨isComplete_collect h, collect_eq_run h⟩
  refine ⟨horder, fun limit hlimit => ⟨exists_isOver hlimit _, fun s hreaches hover => ?_⟩⟩
  obtain ⟨arrived, hs⟩ := accounts_of_reaches hreaches
  obtain ⟨hbegun, harrives⟩ := hs.of_isOver hover
  refine ⟨hbegun.nodup_iff.2 (nodup_pending names), fun name => ?_, ?_⟩
  · rw [hbegun.mem_iff, mem_pending]
  · rw [hs.collected]
    exact horder arrived harrives

/-- A package asked for twice and one that is not known: the answers may arrive last
name first, and one release set and one failure are stored and counted, also where no two
fetches may be under way at a time. -/
theorem prefetch_complete_repeated :
    let fetch : String → Answer := fun name =>
      if name = "lodash" then .ok ⟨name, ["4.17.21"]⟩ else .error (.notFound name "npm")
    let names := ["lodash", "left_pad", "lodash"]
    let answer := ask "npm" fetch
    let arrived := ((pending names).map fun name => (name, answer name)).reverse
    arrived.map (·.1) = ["lodash", "left_pad"] ∧
    Arrives answer names arrived ∧
    IsComplete answer names (collect "npm" arrived) ∧
    (collect "npm" arrived).2 = ⟨1, 1⟩ ∧
    ∃ s, Reaches 1 answer (.initial "npm" names) s ∧ s.IsOver ∧
      s.collected = collect "npm" arrived := by
  intro fetch names answer arrived
  have harrives : Arrives answer names arrived := List.reverse_perm _
  obtain ⟨horder, htasks⟩ := prefetch_complete "npm" fetch names
  obtain ⟨hcomplete, hrun⟩ := horder arrived harrives
  obtain ⟨hends, hover⟩ := htasks 1 Nat.one_pos
  obtain ⟨s, hreaches, hs⟩ := hends (.initial "npm" names)
  obtain ⟨_, _, _, hcollected⟩ := hover s hreaches hs
  refine ⟨by decide +kernel, harrives, hcomplete, by decide +kernel, s, hreaches, hs, ?_⟩
  rw [hcollected, hrun]

end Requirements.Prefetch
