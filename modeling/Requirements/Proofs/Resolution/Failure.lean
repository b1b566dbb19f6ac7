import Mathlib
import Requirements.Proofs.Fallible
import Requirements.Proofs.Resolution.Accounting

/-!
# Where a call fails

A source of releases may change while it is asked: what it says of a package can
depend on the names it was asked for before, and two questions for one package
can get two answers. A solve call asks once for each requirement, in order, so
its outcome hangs on the answers at the places of the requirements. It ends at
the first place where the registry gives a name for the second time or, in a
strict call, where there are no releases.
-/

namespace Requirements

namespace Solve

/-! ## What fails at a place -/

/-- What the source says for the requirement at a place, after those before it. -/
def answerAt (source : Source) (rs : List Requirement) (k : Nat) : Option Answer :=
  rs[k]?.map fun r => source ((rs.take k).map (·.name)) r.name

/-- The registry gives this name to the package of a requirement before place `k`. -/
def GivenBefore (source : Source) (rs : List Requirement) (k : Nat) (package : String) : Prop :=
  ∃ j < k, ∃ releases, answerAt source rs j = some (.ok ⟨package, releases⟩)

/-- How the requirement at place `k` fails a call. -/
inductive FailsAt (source : Source) (graceful : Bool) (rs : List Requirement) (k : Nat) :
    ResolutionError → Prop
  /-- The registry gives a name that it gave before. -/
  | duplicate {package : String} {releases : List Version}
      (answer : answerAt source rs k = some (.ok ⟨package, releases⟩))
      (given : GivenBefore source rs k package) : FailsAt source graceful rs k (.duplicate package)
  /-- The registry gives no list of releases, and the call is strict. -/
  | unanswered {r : Requirement} {failure : RegistryError} (place : rs[k]? = some r)
      (answer : answerAt source rs k = some (.error failure)) (strict : graceful = false) :
      FailsAt source graceful rs k (.unresolved r.name (some failure))
  /-- The registry lists no releases under a new name, and the call is strict. -/
  | unlisted {r : Requirement} {package : String} (place : rs[k]? = some r)
      (answer : answerAt source rs k = some (.ok ⟨package, []⟩))
      (new : ¬ GivenBefore source rs k package) (strict : graceful = false) :
      FailsAt source graceful rs k (.unresolved r.name none)

variable {source : Source} {options : SolveOptions} {graceful : Bool} {rs : List Requirement}
  {k : Nat} {r : Requirement} {e : ResolutionError}

theorem FailsAt.lt_length (h : FailsAt source graceful rs k e) : k < rs.length := by
  have hanswer : ∃ a, answerAt source rs k = some a := by
    cases h with
    | duplicate answer _ => exact ⟨_, answer⟩
    | unanswered _ answer _ => exact ⟨_, answer⟩
    | unlisted _ answer _ _ => exact ⟨_, answer⟩
  obtain ⟨a, ha⟩ := hanswer
  obtain ⟨r, hr, -⟩ := Option.map_eq_some_iff.1 ha
  exact (List.getElem?_eq_some_iff.1 hr).1

theorem givenBefore_succ {package : String} :
    GivenBefore source rs (k + 1) package ↔
      GivenBefore source rs k package ∨
        ∃ releases, answerAt source rs k = some (.ok ⟨package, releases⟩) := by
  constructor
  · rintro ⟨j, hj, h⟩
    rcases Nat.lt_succ_iff_lt_or_eq.1 hj with hj | rfl
    · exact .inl ⟨j, hj, h⟩
    · exact .inr h
  · rintro (⟨j, hj, h⟩ | h)
    · exact ⟨j, Nat.lt_succ_of_lt hj, h⟩
    · exact ⟨k, Nat.lt_succ_self k, h⟩

/-! ## One requirement -/

/-- The packages seen are those whose names were given for the first `k` requirements. -/
def Follows (source : Source) (rs : List Requirement) (k : Nat) (s : State) : Prop :=
  ∀ package, package ∈ s.seen ↔ GivenBefore source rs k package

theorem follows_initial : Follows source rs 0 .initial := by
  intro package
  constructor
  · intro h
    cases h
  · rintro ⟨j, hj, -⟩
    cases hj

section

variable {done rest : List Requirement} {s s' : State}

theorem getElem?_done (done rest : List Requirement) (r : Requirement) :
    (done ++ r :: rest)[done.length]? = some r := by
  rw [List.getElem?_append_right (Nat.le_refl _), Nat.sub_self, List.getElem?_cons_zero]

theorem answerAt_done (source : Source) (done rest : List Requirement) (r : Requirement) :
    answerAt source (done ++ r :: rest) done.length =
      some (source (done.map (·.name)) r.name) := by
  rw [answerAt, getElem?_done, List.take_left]
  rfl

/-- A step fails just where and as the requirement at its place does. -/
theorem failsAt_iff_step (hs : Follows source (done ++ r :: rest) done.length s) :
    FailsAt source options.graceful (done ++ r :: rest) done.length e ↔
      step options s r (source (done.map (·.name)) r.name) = .error e := by
  have hr := getElem?_done done rest r
  have hanswer := answerAt_done source done rest r
  rw [step_eq_error_iff]
  constructor
  · intro h
    cases h with
    | duplicate answer given =>
        have hf := Option.some.inj (hanswer.symm.trans answer)
        exact .inr (.inl ⟨_, hf, (hs _).2 given, rfl⟩)
    | unanswered place answer strict =>
        obtain rfl := Option.some.inj (hr.symm.trans place)
        have hf := Option.some.inj (hanswer.symm.trans answer)
        exact .inl ⟨_, hf, strict, rfl⟩
    | unlisted place answer new strict =>
        obtain rfl := Option.some.inj (hr.symm.trans place)
        have hf := Option.some.inj (hanswer.symm.trans answer)
        exact .inr (.inr ⟨_, hf, fun hseen => new ((hs _).1 hseen), rfl, strict, rfl⟩)
  · rintro (⟨failure, hf, hg, rfl⟩ | ⟨set, hf, hseen, rfl⟩ | ⟨set, hf, hnew, hnone, hg, rfl⟩)
    · rw [hf] at hanswer
      exact .unanswered hr hanswer hg
    · rw [hf] at hanswer
      exact .duplicate hanswer ((hs _).1 hseen)
    · obtain ⟨package, releases⟩ := set
      obtain rfl : releases = [] := hnone
      rw [hf] at hanswer
      exact .unlisted hr hanswer (fun hgiven => hnew ((hs package).2 hgiven)) hg

/-- A step that does not fail has seen the name given at its place. -/
theorem Follows.step (hs : Follows source (done ++ r :: rest) done.length s)
    (h : step options s r (source (done.map (·.name)) r.name) = .ok s') :
    Follows source ((done ++ [r]) ++ rest) (done ++ [r]).length s' := by
  intro package
  have hanswer := answerAt_done source done rest r
  have hgiven {set : ReleaseSet} (hf : source (done.map (·.name)) r.name = .ok set) :
      package ∈ s.seen ++ [set.name] ↔
        GivenBefore source (done ++ r :: rest) (done.length + 1) package := by
    rw [givenBefore_succ, hanswer, hf, List.mem_append, List.mem_singleton, hs package]
    refine or_congr_right ⟨?_, ?_⟩
    · rintro rfl
      exact ⟨set.releases, rfl⟩
    · rintro ⟨releases, heq⟩
      rw [Except.ok.inj (Option.some.inj heq)]
  rw [List.append_assoc, List.length_append]
  rcases step_eq_ok h with ⟨failure, hf, -, rfl⟩ | ⟨set, hf, -, -, -, rfl⟩ | ⟨set, hf, -, -, rfl⟩
  · show _ ↔ GivenBefore source (done ++ r :: rest) (done.length + 1) package
    rw [givenBefore_succ, hanswer, hf]
    simpa [State.skip] using hs package
  · exact hgiven hf
  · exact hgiven hf

end

/-! ## A run of them -/

/-- A run ends at the first place that fails, having asked for its name last. -/
theorem run_fails (done : List Requirement) {rest : List Requirement} {s : State} {i : Nat}
    (hs : Follows source (done ++ rest) done.length s)
    (hfails : FailsAt source options.graceful (done ++ rest) (done.length + i) e)
    (hfirst : ∀ j < done.length + i, ∀ f, ¬ FailsAt source options.graceful (done ++ rest) j f) :
    (run (call source) options s rest).run (done.map (·.name)) =
      (.error e, (done ++ rest.take (i + 1)).map (·.name)) := by
  induction rest generalizing done s i with
  | nil =>
      have hlt := hfails.lt_length
      rw [List.append_nil] at hlt
      omega
  | cons r rest ih =>
      cases i with
      | zero =>
          rw [run_of_error ((failsAt_iff_step hs).1 hfails), List.map_append]
          rfl
      | succ i =>
          cases hstep : step options s r (source (done.map (·.name)) r.name) with
          | error f =>
              exact absurd ((failsAt_iff_step hs).2 hstep) (hfirst _ (by omega) f)
          | ok s' =>
              have hplace : done.length + (i + 1) = (done ++ [r]).length + i := by
                rw [List.length_append, List.length_singleton]
                omega
              rw [List.append_cons, hplace] at hfails hfirst
              have hrest := ih (done ++ [r]) (hs.step hstep) hfails hfirst
              rw [List.map_append] at hrest
              rw [List.take_succ_cons, List.append_cons, run_of_ok hstep]
              exact hrest

/-- Without such a place all names are asked for. -/
theorem run_passes (done : List Requirement) {rest : List Requirement} {s : State}
    (hs : Follows source (done ++ rest) done.length s)
    (hpass : ∀ j f, ¬ FailsAt source options.graceful (done ++ rest) j f) :
    ∃ res, (run (call source) options s rest).run (done.map (·.name)) =
      (.ok res, (done ++ rest).map (·.name)) := by
  induction rest generalizing done s with
  | nil => exact ⟨s.resolution, by rw [List.append_nil]; rfl⟩
  | cons r rest ih =>
      cases hstep : step options s r (source (done.map (·.name)) r.name) with
      | error f => exact absurd ((failsAt_iff_step hs).2 hstep) (hpass _ f)
      | ok s' =>
          rw [List.append_cons] at hpass
          obtain ⟨res, hres⟩ := ih (done ++ [r]) (hs.step hstep) hpass
          rw [List.map_append] at hres
          rw [List.append_cons, run_of_ok hstep]
          exact ⟨res, hres⟩

/-! ## Specifiers -/

theorem specifiersFrom_of_parse {ecosystem : Ecosystem} {ss : List String}
    (h : List.Forall₂ (fun s r => ecosystem.parse s = .ok r) ss rs) :
    specifiersFrom ecosystem source options ss = requirementsFrom source options rs := by
  rw [specifiersFrom, Ecosystem.parseAll, mapM_eq_ok.2 h]

/-- A call whose specifiers cannot all be read asks for nothing and tells what is
wrong with the first of these. Otherwise it fails at the first place where a name
is given for the second time, or where there are no releases if it is strict, and
has then asked for the names up to this place, once each in order. If there is no
such place it succeeds, having asked for all of them. -/
theorem specifiers_fails_first (ecosystem : Ecosystem) (source : Source) (options : SolveOptions)
    (ss : List String) :
    let outcome := specifiersFrom ecosystem source options ss
    (∀ fetch, source = (fun _ => fetch) → outcome = specifiers ecosystem fetch options ss) ∧
    (∀ front s back error, ss = front ++ s :: back →
      (∀ t ∈ front, ∃ r, ecosystem.parse t = .ok r) → ecosystem.parse s = .error error →
      outcome = ⟨[], .error (.specifier error)⟩) ∧
    ∀ rs, List.Forall₂ (fun s r => ecosystem.parse s = .ok r) ss rs →
      (∀ k e, FailsAt source options.graceful rs k e →
        (∀ j < k, ∀ f, ¬ FailsAt source options.graceful rs j f) →
        outcome = ⟨(rs.take (k + 1)).map (·.name), .error e⟩) ∧
      ((∀ k e, ¬ FailsAt source options.graceful rs k e) →
        ∃ res, outcome = ⟨rs.map (·.name), .ok res⟩) := by
  intro outcome
  refine ⟨?_, ?_, fun rs hread => ⟨fun k e hfails hfirst => ?_, fun hpass => ?_⟩⟩
  · rintro fetch rfl
    rfl
  · rintro front s back error rfl hfront hs
    show specifiersFrom ecosystem source options (front ++ s :: back) = _
    rw [specifiersFrom, Ecosystem.parseAll, mapM_eq_error hfront hs]
  · rw [show outcome = _ from specifiersFrom_of_parse hread]
    rw [← Nat.zero_add k] at hfails hfirst
    exact requirementsFrom_of_run (run_fails [] follows_initial hfails hfirst)
  · rw [show outcome = _ from specifiersFrom_of_parse hread]
    obtain ⟨res, hres⟩ := run_passes [] follows_initial hpass
    exact ⟨res, requirementsFrom_of_run hres⟩

/-- A registry that lists a release of a package only the first time it is asked
for it, one in which the package asked for first goes by another name, and
specifiers of which the second cannot be read. -/
theorem specifiers_fails_first_changing :
    let once : Source := fun asked name => .ok ⟨name, if name ∈ asked then [] else ["v1.0.0"]⟩
    let moved : Source := fun asked name =>
      .ok ⟨if asked = [] then "example.com/old" else name, ["v1.0.0"]⟩
    let rs : List Requirement := [.ofTerm "example.com/a" (.exact "v1.0.0"),
      .ofTerm "example.com/b" (.exact "v1.0.0"), .ofTerm "example.com/a" (.exact "v1.1.0")]
    let ss := ["example.com/a v1.0.0", "example.com/b v1.0.0", "example.com/a v1.1.0"]
    List.Forall₂ (fun s r => Ecosystem.go.parse s = .ok r) ss rs ∧
    (FailsAt once true rs 2 (.duplicate "example.com/a") ∧
      (∀ j < 2, ∀ f, ¬ FailsAt once true rs j f) ∧
      specifiersFrom .go once ⟨true, false⟩ ss =
        ⟨["example.com/a", "example.com/b", "example.com/a"],
          .error (.duplicate "example.com/a")⟩) ∧
    ((∀ k e, ¬ FailsAt moved false rs k e) ∧
      ∃ res, specifiersFrom .go moved ⟨false, false⟩ ss =
        ⟨["example.com/a", "example.com/b", "example.com/a"], .ok res⟩) ∧
    (Ecosystem.go.parse "example.com/c" = .error ⟨"example.com/c", .wordCount 1⟩ ∧
      specifiersFrom .go once ⟨true, false⟩ ["example.com/a v1.0.0", "example.com/c", "v1.0.0"] =
        ⟨[], .error (.specifier ⟨"example.com/c", .wordCount 1⟩)⟩) ∧
    let fetch := ((ReleaseIndex.empty "Go Proxy").withReleases "example.com/a" ["v1.0.0"]).fetch
    specifiersFrom .go (fun _ => fetch) ⟨false, false⟩ ss =
      specifiers .go fetch ⟨false, false⟩ ss := by
  intro once moved rs ss
  have hread : List.Forall₂ (fun s r => Ecosystem.go.parse s = .ok r) ss rs :=
    .cons (by decide +kernel) (.cons (by decide +kernel) (.cons (by decide +kernel) .nil))
  have hduplicate : FailsAt once true rs 2 (.duplicate "example.com/a") :=
    .duplicate rfl ⟨0, by decide, _, rfl⟩
  -- What is said at two places, but for the releases, and what is listed at one.
  let named (source : Source) (k : Nat) := (answerAt source rs k).map (Except.map ReleaseSet.name)
  let listed (source : Source) (k : Nat) :=
    (answerAt source rs k).map (Except.map ReleaseSet.releases)
  have hfirst : ∀ j < 2, ∀ f, ¬ FailsAt once true rs j f := by
    have hnew : ∀ j < 2, ∀ i < j, named once i ≠ named once j := by decide
    intro j hj f h
    cases h with
    | duplicate answer given =>
        obtain ⟨i, hi, _, earlier⟩ := given
        exact hnew j hj i hi (by simp only [named, answer, earlier]; rfl)
    | unanswered _ _ strict => cases strict
    | unlisted _ _ _ strict => cases strict
  have hpass : ∀ k e, ¬ FailsAt moved false rs k e := by
    have hnew : ∀ k < 3, ∀ i < k, named moved i ≠ named moved k := by decide
    have hlisted : ∀ k < 3, listed moved k = some (.ok ["v1.0.0"]) := by decide
    intro k e h
    have hk : k < 3 := h.lt_length
    have hk' := hlisted k hk
    cases h with
    | duplicate answer given =>
        obtain ⟨i, hi, _, earlier⟩ := given
        exact hnew k hk i hi (by simp only [named, answer, earlier]; rfl)
    | unanswered _ answer _ =>
        simp only [listed, answer] at hk'
        cases hk'
    | unlisted _ answer _ _ =>
        simp only [listed, answer] at hk'
        cases hk'
  have hrefused : Ecosystem.go.parse "example.com/c" =
      .error ⟨"example.com/c", .wordCount 1⟩ := by decide +kernel
  refine ⟨hread, ⟨hduplicate, hfirst, ?_⟩, ⟨hpass, ?_⟩, ⟨hrefused, ?_⟩, ?_⟩
  · exact ((specifiers_fails_first .go once ⟨true, false⟩ ss).2.2 rs hread).1 2 _ hduplicate hfirst
  · exact ((specifiers_fails_first .go moved ⟨false, false⟩ ss).2.2 rs hread).2 hpass
  · refine (specifiers_fails_first .go once ⟨true, false⟩ _).2.1 ["example.com/a v1.0.0"]
      "example.com/c" ["v1.0.0"] _ rfl (fun t ht => ?_) hrefused
    rw [List.mem_singleton.1 ht]
    exact ⟨.ofTerm "example.com/a" (.exact "v1.0.0"), by decide +kernel⟩
  · exact (specifiers_fails_first .go _ ⟨false, false⟩ ss).1 _ rfl

end Solve

end Requirements
