import Mathlib
import Requirements.Proofs.Resolution.Outcome
import Requirements.Proofs.Table
import Requirements.Registry.Index

/-!
# Spellings of a package in an offline index

An offline index holds releases under the names of their packages. If no two of
these names agree after normalization, every spelling of a name finds the same
package, so two requirements that spell one package differently are duplicates,
and duplicates are always spellings of one name.
-/

namespace Requirements

namespace ReleaseIndex

/-- Indexes to which releases are added under the name of their package only. -/
inductive IsOffline : ReleaseIndex → Prop
  | empty (registry : String) : IsOffline (.empty registry)
  | withReleases {i : ReleaseIndex} (h : IsOffline i) (name : String) (releases : List Version) :
      IsOffline (i.withReleases name releases)
  | ofJson {registry text : String} {i : ReleaseIndex} (h : ofJson? registry text = some i) :
      IsOffline i

/-- Every answer is a list of releases of the package it is stored under. -/
def AnswersByName (i : ReleaseIndex) : Prop :=
  ∀ name a, i.answers.find? name = some a → ∃ releases, a = .ok ⟨name, releases⟩

theorem answersByName_empty (registry : String) : AnswersByName (.empty registry) :=
  fun _ _ h => by cases h

theorem AnswersByName.withReleases {i : ReleaseIndex} (h : i.AnswersByName) (name : String)
    (releases : List Version) : (i.withReleases name releases).AnswersByName := by
  intro other a ha
  rw [ReleaseIndex.withReleases, record, Table.find?_insert] at ha
  split at ha
  · rename_i heq
    subst heq
    exact ⟨releases, (Option.some.inj ha).symm⟩
  · exact h other a ha

theorem AnswersByName.foldl {i : ReleaseIndex} (h : i.AnswersByName)
    (packages : List (String × List Version)) :
    (packages.foldl (fun i p => i.withReleases p.1 p.2) i).AnswersByName := by
  induction packages generalizing i with
  | nil => exact h
  | cons p packages ih => exact ih (h.withReleases p.1 p.2)

theorem IsOffline.answersByName {i : ReleaseIndex} (h : i.IsOffline) : i.AnswersByName := by
  induction h with
  | empty registry => exact answersByName_empty registry
  | withReleases _ name releases ih => exact ih.withReleases name releases
  | ofJson h =>
      obtain ⟨j, -, h⟩ := Option.bind_eq_some_iff.1 h
      obtain ⟨packages, -, h⟩ := Option.bind_eq_some_iff.1 h
      obtain rfl := Option.some.inj h
      exact (answersByName_empty _).foldl packages

/-! ## What a spelling finds -/

theorem exists_key_of_lookup? {i : ReleaseIndex} {name : String} {a : Answer}
    (h : i.lookup? name = some a) :
    ∃ key, i.answers.find? key = some a ∧ normalizeName key = normalizeName name := by
  unfold lookup? at h
  split at h
  · rename_i hfind
    exact ⟨name, hfind.trans h, rfl⟩
  · obtain ⟨e, he, rfl⟩ := Option.map_eq_some_iff.1 h
    have hnormal : normalizeName e.1 = normalizeName name := by simpa using List.find?_some he
    exact ⟨e.1, Table.find?_eq_some_iff.2 (List.mem_of_find?_eq_some he), hnormal⟩

theorem isSome_lookup? {i : ReleaseIndex} {name key : String} (hkey : key ∈ i.answers.keys)
    (hname : normalizeName name = normalizeName key) : (i.lookup? name).isSome = true := by
  obtain ⟨e, he, rfl⟩ := List.mem_map.1 hkey
  unfold lookup?
  split
  · rfl
  · rw [Option.isSome_map, List.find?_isSome]
    exact ⟨e, he, beq_iff_eq.2 hname.symm⟩

/-- If the normalized keys are different, every spelling of a key finds its answer. -/
theorem lookup?_of_spelling {i : ReleaseIndex} (hkeys : (i.answers.keys.map normalizeName).Nodup)
    {name key : String} {a : Answer} (hfind : i.answers.find? key = some a)
    (hname : normalizeName name = normalizeName key) : i.lookup? name = some a := by
  have hkey : key ∈ i.answers.keys := Table.mem_keys_of_find? hfind
  obtain ⟨b, hb⟩ := Option.isSome_iff_exists.1 (isSome_lookup? hkey hname)
  obtain ⟨other, hother, hnormal⟩ := exists_key_of_lookup? hb
  obtain rfl : other = key := List.inj_on_of_nodup_map hkeys (Table.mem_keys_of_find? hother) hkey
    (hnormal.trans hname)
  rw [hb, ← hother, hfind]

/-- What is fetched under a name is stored under a spelling of it. -/
theorem exists_key_of_fetch {i : ReleaseIndex} {name : String} {set : ReleaseSet}
    (h : i.fetch name = .ok set) :
    ∃ key, i.answers.find? key = some (.ok set) ∧ normalizeName key = normalizeName name := by
  unfold fetch at h
  split at h
  · cases h
  · cases hlookup : i.lookup? name with
    | none => rw [hlookup] at h; cases h
    | some a =>
        rw [hlookup, Option.getD_some] at h
        exact exists_key_of_lookup? (h ▸ hlookup)

end ReleaseIndex

namespace Solve

variable {i : ReleaseIndex}

theorem named?_of_spelling (hi : i.AnswersByName)
    (hkeys : (i.answers.keys.map normalizeName).Nodup) {key : String}
    (hkey : key ∈ i.answers.keys) {r : Requirement} (hblank : Text.isBlankText r.name = false)
    (hname : normalizeName r.name = normalizeName key) : named? i.fetch r = some key := by
  obtain ⟨a, ha⟩ := Table.exists_find?_of_mem_keys hkey
  obtain ⟨releases, rfl⟩ := hi key a ha
  refine named?_eq_some_iff.2 ⟨releases, ?_⟩
  rw [ReleaseIndex.fetch, hblank, ReleaseIndex.lookup?_of_spelling hkeys ha hname]
  rfl

theorem spelling_of_named? (hi : i.AnswersByName) {r : Requirement} {package : String}
    (h : named? i.fetch r = some package) : normalizeName r.name = normalizeName package := by
  obtain ⟨releases, hfetch⟩ := named?_eq_some_iff.1 h
  obtain ⟨key, hkey, hnormal⟩ := ReleaseIndex.exists_key_of_fetch hfetch
  obtain ⟨_, hanswer⟩ := hi key _ hkey
  obtain ⟨rfl, -⟩ := ReleaseSet.mk.inj (Except.ok.inj hanswer)
  exact hnormal.symm

theorem not_passes_of_same_package {fetch : String → Answer} {graceful : Bool}
    {rs : List Requirement} {q r : Requirement} {package : String} (h : [q, r].Sublist rs)
    (hq : named? fetch q = some package) (hr : named? fetch r = some package) :
    ¬ Passes fetch graceful rs := by
  intro hpass
  have hpair := h.filterMap (named? fetch)
  simp only [List.filterMap_cons, hq, hr, List.filterMap_nil] at hpair
  exact List.nodup_iff_sublist.1 hpass.distinct package hpair

/-- A call that fails over a duplicate has two requirements on this package. -/
theorem exists_same_package {fetch : String → Answer} {options : SolveOptions}
    {rs : List Requirement} {package : String}
    (h : (requirements fetch options rs).result = .error (.duplicate package)) :
    ∃ q r, [q, r].Sublist rs ∧ named? fetch q = some package ∧ named? fetch r = some package := by
  obtain ⟨front, r, back, rfl, -, hr⟩ := requirements_eq_error_iff.1 h
  obtain ⟨hnamed, hmem⟩ := failure?_eq_duplicate hr
  obtain ⟨q, hq, hqnamed⟩ := List.mem_filterMap.1 hmem
  refine ⟨q, r, ?_, hqnamed, hnamed⟩
  exact (List.singleton_sublist.2 hq).append (List.singleton_sublist.2 List.mem_cons_self)

/-- In an offline index whose keys differ after normalization, two requirements
that spell one key fail the call, over a duplicate if it is graceful. A call that
fails over a duplicate has two requirements that spell the package. -/
theorem requirements_offline_duplicate (hi : i.IsOffline)
    (hkeys : (i.answers.keys.map normalizeName).Nodup) (options : SolveOptions)
    (rs : List Requirement) :
    (∀ key ∈ i.answers.keys, ∀ q r, [q, r].Sublist rs →
      Text.isBlankText q.name = false → normalizeName q.name = normalizeName key →
      Text.isBlankText r.name = false → normalizeName r.name = normalizeName key →
      ∃ e, (requirements i.fetch options rs).result = .error e ∧
        (options.graceful = true → ∃ package, e = .duplicate package)) ∧
    ∀ package, (requirements i.fetch options rs).result = .error (.duplicate package) →
      ∃ q r, [q, r].Sublist rs ∧ normalizeName q.name = normalizeName package ∧
        normalizeName r.name = normalizeName package := by
  have hnames := hi.answersByName
  constructor
  · intro key hkey q r hpair hq hqname hr hrname
    have hfails : ¬ Passes i.fetch options.graceful rs := not_passes_of_same_package hpair
      (named?_of_spelling hnames hkeys hkey hq hqname)
      (named?_of_spelling hnames hkeys hkey hr hrname)
    obtain ⟨e, he⟩ := exists_error_iff.2 hfails
    exact ⟨e, he, fun hg => duplicate_of_graceful hg he⟩
  · intro package h
    obtain ⟨q, r, hpair, hq, hr⟩ := exists_same_package h
    exact ⟨q, r, hpair, spelling_of_named? hnames hq, spelling_of_named? hnames hr⟩

/-- Two spellings of a package in an index that is read from a file and then
gets a package more. -/
theorem requirements_offline_duplicate_spellings :
    let file := "\x7b\"Flask_SQLAlchemy\": [\"3.1.1\"]\x7d"
    let i := ((ReleaseIndex.empty "PyPI").withReleases "Flask_SQLAlchemy" ["3.1.1"]).withReleases
      "click" []
    let first : Requirement := .anyVersion "flask.sqlalchemy"
    let second : Requirement := .anyVersion "FLASK-SQLAlchemy"
    let rs := [first, .anyVersion "click", second]
    (∃ read, ReleaseIndex.ofJson? "PyPI" file = some read ∧ i = read.withReleases "click" []) ∧
    i.IsOffline ∧ (i.answers.keys.map normalizeName).Nodup ∧
    "Flask_SQLAlchemy" ∈ i.answers.keys ∧ [first, second].Sublist rs ∧
    (∃ e, (requirements i.fetch ⟨false, false⟩ rs).result = .error e) ∧
    ∃ package, (requirements i.fetch ⟨true, false⟩ rs).result = .error (.duplicate package) ∧
      ∃ q r, [q, r].Sublist rs ∧ normalizeName q.name = normalizeName package ∧
        normalizeName r.name = normalizeName package := by
  intro file i first second rs
  have hread : ReleaseIndex.ofJson? "PyPI" file =
      some ((ReleaseIndex.empty "PyPI").withReleases "Flask_SQLAlchemy" ["3.1.1"]) := by cbv
  have hi : i.IsOffline := (ReleaseIndex.IsOffline.ofJson hread).withReleases "click" []
  have hkeys : (i.answers.keys.map normalizeName).Nodup := by decide +kernel
  have hkey : "Flask_SQLAlchemy" ∈ i.answers.keys := by decide +kernel
  have hpair : [first, second].Sublist rs := by decide
  have hspells : ∀ r ∈ [first, second], Text.isBlankText r.name = false ∧
      normalizeName r.name = normalizeName "Flask_SQLAlchemy" := by decide +kernel
  obtain ⟨hfirst, hfirstname⟩ := hspells first List.mem_cons_self
  obtain ⟨hsecond, hsecondname⟩ := hspells second (List.mem_cons_of_mem _ List.mem_cons_self)
  obtain ⟨e, hstrict, -⟩ := (requirements_offline_duplicate hi hkeys ⟨false, false⟩ rs).1 _ hkey
    first second hpair hfirst hfirstname hsecond hsecondname
  obtain ⟨hfails, hspelled⟩ := requirements_offline_duplicate hi hkeys ⟨true, false⟩ rs
  obtain ⟨f, hgraceful, hduplicate⟩ := hfails _ hkey first second hpair hfirst hfirstname hsecond
    hsecondname
  obtain ⟨package, rfl⟩ := hduplicate rfl
  exact ⟨⟨_, hread, rfl⟩, hi, hkeys, hkey, hpair, ⟨e, hstrict⟩, package, hgraceful,
    hspelled package hgraceful⟩

end Solve

end Requirements
