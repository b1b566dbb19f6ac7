import Mathlib
import Requirements.Proofs.Fallible
import Requirements.Proofs.Registry.Requests
import Requirements.Proofs.Resolution.Reordering

/-!
# Yanked releases

Some listings mark releases as yanked. A version of a crate is yanked if all of its
rows are marked, a version of a project if it has files and all of them are. What is
read from such a listing are the versions that are not yanked, in whatever order, and
from there on no version is added: not by a second try under another name, not by
collecting answers in whatever order they arrive, not by the index and not by a solve
call. In the end this is followed through whole runs, down to the requests in the log.
-/

namespace Requirements

/-! ## Listings -/

namespace CrateListing

def Lists (l : CrateListing) (v : Version) : Prop :=
  ∃ row ∈ l.versions, row.number = v

/-- All rows of the version are marked. -/
def IsYanked (l : CrateListing) (v : Version) : Prop :=
  l.Lists v ∧ ∀ row ∈ l.versions, row.number = v → row.yanked = true

theorem mem_releaseSet_iff (l : CrateListing) (v : Version) :
    v ∈ l.releaseSet.releases ↔ l.Lists v ∧ ¬ l.IsYanked v := by
  constructor
  · intro h
    obtain ⟨row, hrow, rfl⟩ := List.mem_map.1 h
    obtain ⟨hmem, hkept⟩ := List.mem_filter.1 hrow
    refine ⟨⟨row, hmem, rfl⟩, fun hyanked => ?_⟩
    simp [hyanked.2 row hmem rfl] at hkept
  · rintro ⟨hlists, hnot⟩
    have hrow : ∃ row ∈ l.versions, row.number = v ∧ row.yanked = false := by
      simpa [IsYanked, hlists] using hnot
    obtain ⟨row, hmem, rfl, hkept⟩ := hrow
    exact List.mem_map_of_mem (List.mem_filter.2 ⟨hmem, by simp [hkept]⟩)

end CrateListing

namespace PypiListing

def Lists (l : PypiListing) (v : Version) : Prop :=
  v ∈ l.releases.keys

/-- The version has files, and all of them are marked. -/
def IsYanked (l : PypiListing) (v : Version) : Prop :=
  ∃ files, l.releases.find? v = some files ∧ files ≠ [] ∧ ∀ yanked ∈ files, yanked = true

theorem isOffered_iff (files : List Bool) :
    isOffered files = true ↔ ¬ (files ≠ [] ∧ ∀ yanked ∈ files, yanked = true) := by
  cases files <;> simp [isOffered, imp_iff_not_or]

theorem mem_releaseSet_iff (l : PypiListing) (v : Version) :
    v ∈ l.releaseSet.releases ↔ l.Lists v ∧ ¬ l.IsYanked v := by
  have hoffered : v ∈ l.releaseSet.releases ↔
      ∃ files, l.releases.find? v = some files ∧ isOffered files = true := by
    simp [releaseSet, Table.find?_eq_some_iff]
  rw [hoffered, Lists, Table.mem_keys_iff]
  constructor
  · rintro ⟨files, hfind, hfiles⟩
    refine ⟨⟨files, hfind⟩, ?_⟩
    rintro ⟨files', hfind', hyanked⟩
    obtain rfl := Option.some.inj (hfind.symm.trans hfind')
    exact (isOffered_iff files).1 hfiles hyanked
  · rintro ⟨⟨files, hfind⟩, hnot⟩
    exact ⟨files, hfind, (isOffered_iff files).2 fun hyanked => hnot ⟨files, hfind, hyanked⟩⟩

end PypiListing

/-- A listing that marks yanked releases. -/
inductive MarkedListing where
  | crate (l : CrateListing)
  | project (l : PypiListing)

namespace MarkedListing

/-- The name of the package, as the listing gives it. -/
def package : MarkedListing → String
  | .crate l => l.name
  | .project l => l.name

def Lists : MarkedListing → Version → Prop
  | .crate l => l.Lists
  | .project l => l.Lists

def IsYanked : MarkedListing → Version → Prop
  | .crate l => l.IsYanked
  | .project l => l.IsYanked

def releaseSet : MarkedListing → ReleaseSet
  | .crate l => l.releaseSet
  | .project l => l.releaseSet

/-- What is offered is what is listed and not yanked. -/
theorem mem_releaseSet_iff (m : MarkedListing) (v : Version) :
    v ∈ m.releaseSet.releases ↔ m.Lists v ∧ ¬ m.IsYanked v := by
  cases m with
  | crate l => exact l.mem_releaseSet_iff v
  | project l => exact l.mem_releaseSet_iff v

@[simp] theorem name_releaseSet (m : MarkedListing) : m.releaseSet.name = m.package := by
  cases m <;> rfl

/-- Read a body as a listing of a registry that marks yanked releases. -/
def ofBody? (e : Ecosystem) (body : String) : Option MarkedListing :=
  match e with
  | .cargo => ((Json.read? body).bind CrateListing.ofJson?).map .crate
  | .pypi => ((Json.read? body).bind PypiListing.ofJson?).map .project
  | _ => none

/-- The listing that the last of the requests was answered with, if it was. -/
def ofSent? (e : Ecosystem) (sent : List Request) : Option MarkedListing :=
  (finalBody? sent).bind (ofBody? e)

/-- What is said of a package goes by its listing. The releases are those that it lists
and does not mark as yanked, in some order, and there are none without a listing. -/
inductive Offers : Option MarkedListing → Answer → Prop
  | listed {m : MarkedListing} {releases : List Version}
      (mem_iff : ∀ v, v ∈ releases ↔ m.Lists v ∧ ¬ m.IsYanked v) :
      Offers (some m) (.ok ⟨m.package, releases⟩)
  | absent {failure : RegistryError} : Offers none (.error failure)

theorem offers_of_toOption {listing : Option MarkedListing} {answer : Answer}
    (h : answer.toOption = listing.map (·.releaseSet)) : Offers listing answer := by
  cases listing with
  | none =>
      cases answer with
      | error failure => exact .absent
      | ok set => cases h
  | some m =>
      obtain rfl := toOption_eq_some.1 h
      have hlisted := Offers.listed m.mem_releaseSet_iff
      rwa [← m.name_releaseSet] at hlisted

theorem Offers.reordered {listing : Option MarkedListing} {answer other : Answer}
    (h : Offers listing answer) (horder : Solve.Reordered answer other) :
    Offers listing other := by
  obtain ⟨failure, rfl, rfl⟩ | ⟨name, vs, ws, rfl, rfl, hperm⟩ := horder
  · exact h
  · cases h with
    | listed mem_iff => exact .listed fun v => hperm.mem_iff.symm.trans (mem_iff v)

end MarkedListing

theorem join_bind_map {α β γ : Type} (f : α → Option β) (g : β → γ) (x : Option α) :
    (x.bind fun a => (f a).map fun b => some (g b)).join = (x.bind f).map g := by
  cases x with
  | none => rfl
  | some a =>
      simp only [Option.bind_some]
      cases f a <;> rfl

namespace Ecosystem

/-- Of a JSON body the releases are those of the listing that it is, if any. -/
theorem toOption_readListing {e : Ecosystem} (he : e ≠ .go) (package url body : String) :
    (e.readListing package url body).toOption =
      ((Json.read? body).bind (e.jsonListing? package)).join := by
  unfold readListing
  split
  · exact absurd rfl he
  · split
    · rename_i set hset
      rw [hset]
      rfl
    · rename_i habsent
      rw [habsent]
      rfl
    · rename_i hnone
      rw [hnone]
      rfl

theorem isReadBy_marked {e : Ecosystem} (he : e = .cargo ∨ e = .pypi) :
    e.IsReadBy fun body => (MarkedListing.ofBody? e body).map (·.releaseSet) where
  url := by
    rcases he with rfl | rfl <;> exact fun _ _ => ⟨_, rfl⟩
  listing package url body := by
    rw [toOption_readListing (by rcases he with rfl | rfl <;> decide)]
    rcases he with rfl | rfl
    · rw [MarkedListing.ofBody?, Option.map_map]
      exact join_bind_map CrateListing.ofJson? CrateListing.releaseSet (Json.read? body)
    · rw [MarkedListing.ofBody?, Option.map_map]
      exact join_bind_map PypiListing.ofJson? PypiListing.releaseSet (Json.read? body)

end Ecosystem

/-- A listing that the registry has for a package is found among the requests. -/
theorem MarkedListing.ofSent?_course {e : Ecosystem} (he : e = .cargo ∨ e = .pypi) (c : Client)
    {base package body : String} (hblank : Text.isBlankText package = false)
    (hserves : c.remote.Serves e base package body) {m : MarkedListing}
    (hm : ofBody? e body = some m) : ofSent? e (c.course e base package).2 = some m := by
  have hread : (ofBody? e body).map (·.releaseSet) = some m.releaseSet := by
    rw [hm]
    rfl
  rw [ofSent?, finalBody?_course (Ecosystem.isReadBy_marked he) c hblank hserves hread]
  exact hm

/-- The index of a prefetch offers what the listings that were brought do, even if their
releases are read in another order. -/
theorem Prefetch.offers_fetch_collect {e : Ecosystem} (he : e = .cargo ∨ e = .pypi)
    (base : String) (clients : String → Client) {answer : String → Answer}
    (horder : ∀ name, Solve.Reordered ((clients name).course e base name).1 (answer name))
    {names : List String} {arrived : List (String × Answer)}
    (harrives : Prefetch.Arrives answer names arrived) {name : String} (hname : name ∈ names) :
    MarkedListing.Offers (MarkedListing.ofSent? e ((clients name).course e base name).2)
      ((Prefetch.collect e.registryName arrived).1.fetch name) := by
  have hblank (h : Text.isBlankText name = true) :
      answer name = .error (.blankName name e.registryName) := by
    obtain ⟨failure, hfailure, hanswer⟩ | ⟨_, _, _, hset, -, -⟩ := horder name
    · rw [course_of_isBlankText _ e base h] at hfailure
      rw [hanswer, Except.error.inj hfailure]
    · rw [course_of_isBlankText _ e base h] at hset
      cases hset
  rw [Prefetch.fetch_collect_eq harrives hname hblank]
  refine MarkedListing.Offers.reordered (MarkedListing.offers_of_toOption ?_) (horder name)
  rw [toOption_course (Ecosystem.isReadBy_marked he), MarkedListing.ofSent?]
  cases finalBody? ((clients name).course e base name).2 <;> rfl

/-! ## Resolutions -/

namespace Solve

/-- The entries of the resolution are made from the listings for the requirements,
without the yanked releases and, where all matching releases are picked, with all
others. -/
structure LeavesOutYanked (listing? : Requirement → Option MarkedListing) (allVersions : Bool)
    (rs : List Requirement) (res : Resolution) : Prop where
  source : ∀ package ∈ res.entries.keys,
    ∃ r ∈ rs, ∃ m, listing? r = some m ∧ m.package = package
  sound : ∀ r ∈ rs, ∀ m, listing? r = some m → ∀ p, res.entries.find? m.package = some p →
    ∀ v ∈ p.versions, m.Lists v ∧ ¬ m.IsYanked v ∧ r.accepts v = true
  complete : allVersions = true → ∀ r ∈ rs, ∀ m, listing? r = some m → ∀ v, m.Lists v →
    ¬ m.IsYanked v → r.accepts v = true →
      ∃ vs, res.entries.find? m.package = some (.every vs) ∧ v ∈ vs

theorem mem_matching {r : Requirement} {releases : List Version} {v : Version} :
    v ∈ matching r releases ↔ v ∈ releases ∧ r.accepts v = true := by
  rw [matching, (Version.sort_isStableSort _).perm.mem_iff, List.mem_filter]

theorem mem_of_mem_versions_ofSorted {allVersions : Bool} {vs : List Version} {v : Version}
    (h : v ∈ (Picked.ofSorted allVersions vs).versions) : v ∈ vs := by
  unfold Picked.ofSorted at h
  cases hlast : vs.getLast? with
  | none =>
      rw [hlast] at h
      cases h
  | some w =>
      simp only [hlast] at h
      split at h
      · exact h
      · rw [List.mem_singleton.1 h]
        exact List.mem_of_getLast? hlast

variable {fetch : String → Answer} {options : SolveOptions} {rs : List Requirement}
  {listing? : Requirement → Option MarkedListing}

/-- A solve call adds no version to those that the listings offer. -/
theorem leavesOutYanked_of_offers
    (hoffers : ∀ r ∈ rs, MarkedListing.Offers (listing? r) (fetch r.name)) {res : Resolution}
    (h : (requirements fetch options rs).result = .ok res) :
    LeavesOutYanked listing? options.allVersions rs res := by
  obtain ⟨hpass, rfl⟩ := requirements_eq_ok_iff.1 h
  have hfetch : ∀ r ∈ rs, ∀ m, listing? r = some m → ∃ releases,
      fetch r.name = .ok ⟨m.package, releases⟩ ∧
        ∀ v, v ∈ releases ↔ m.Lists v ∧ ¬ m.IsYanked v := by
    intro r hr m hm
    have hoffer := hoffers r hr
    rw [hm] at hoffer
    generalize fetch r.name = answer at hoffer ⊢
    cases hoffer with
    | listed mem_iff => exact ⟨_, rfl, mem_iff⟩
  constructor
  · intro package hkey
    obtain ⟨p, hp⟩ := Table.mem_keys_iff.1 hkey
    obtain ⟨r, hr, releases, hf, -⟩ := exists_of_find?_resolved hp
    have hoffer := hoffers r hr
    rw [hf] at hoffer
    generalize hlisting : listing? r = listing at hoffer
    cases hoffer with
    | listed mem_iff => exact ⟨r, hr, _, hlisting, rfl⟩
  · intro r hr m hm p hp v hv
    obtain ⟨s, hs, releases, hf, rfl⟩ := exists_of_find?_resolved hp
    obtain ⟨listed, hrf, hmem_iff⟩ := hfetch r hr m hm
    -- The entry is that of the requirement itself, for no other has a package of the name.
    obtain rfl : r = s := hpass.eq_of_named? hr hs
      (named?_eq_some_iff.2 ⟨listed, hrf⟩) (named?_eq_some_iff.2 ⟨releases, hf⟩)
    have hreleases : listed = releases :=
      congrArg ReleaseSet.releases (Except.ok.inj (hrf.symm.trans hf))
    obtain ⟨hmem, haccepts⟩ := mem_matching.1 (mem_of_mem_versions_ofSorted hv)
    rw [← hreleases, hmem_iff] at hmem
    exact ⟨hmem.1, hmem.2, haccepts⟩
  · intro hall r hr m hm v hlists hnot haccepts
    obtain ⟨releases, hf, hmem_iff⟩ := hfetch r hr m hm
    have hmem := (hmem_iff v).2 ⟨hlists, hnot⟩
    have hmatching := mem_matching.2 ⟨hmem, haccepts⟩
    have hlisted : listed? fetch r = some ⟨m.package, releases⟩ :=
      listed?_eq_some hf (List.ne_nil_of_mem hmem)
    have hfind := hpass.find?_resolved options.allVersions hr hlisted
    rw [hall, Picked.ofSorted,
      List.getLast?_eq_some_getLast (List.ne_nil_of_mem hmatching)] at hfind
    rw [hall]
    exact ⟨matching r releases, hfind, hmatching⟩

/-- A yanked release is never resolved, and no other one is lost. The packages of the
requirements are fetched from a registry that may answer each request with anything,
so that requests are repeated or sent once more under a normalized name. The releases
of a listing are read in any order, and the answers are collected in any order. A
listing that the registry has for a package is the one that its last request brings.
Every entry of a resolution is made from such a
listing. What it holds is listed there, is not yanked and meets the requirement, and
where all matching releases are picked it holds every such release. -/
theorem yanked_is_not_resolved {e : Ecosystem} (he : e = .cargo ∨ e = .pypi) (base : String)
    (retries : Nat) (remotes : String → Remote) (options : SolveOptions) (rs : List Requirement) :
    let course (name : String) := (⟨remotes name, retries⟩ : Client).course e base name
    let listing? (r : Requirement) := MarkedListing.ofSent? e (course r.name).2
    (∀ r ∈ rs, Text.isBlankText r.name = false → ∀ body m,
      (remotes r.name).Serves e base r.name body → MarkedListing.ofBody? e body = some m →
        listing? r = some m) ∧
    ∀ answer, (∀ name, Reordered (course name).1 (answer name)) →
    ∀ arrived, Prefetch.Arrives answer (rs.map (·.name)) arrived →
    ∀ res, (requirements (Prefetch.collect e.registryName arrived).1.fetch options rs).result =
        .ok res → LeavesOutYanked listing? options.allVersions rs res := by
  intro course listing?
  constructor
  · intro r _ hblank body m hserves hm
    exact MarkedListing.ofSent?_course he ⟨remotes r.name, retries⟩ hblank hserves hm
  · intro answer horder arrived harrives res h
    refine leavesOutYanked_of_offers (fun r hr => ?_) h
    exact Prefetch.offers_fetch_collect he base (fun name => ⟨remotes name, retries⟩) horder
      harrives (List.mem_map_of_mem hr)

/-- Two projects that are known under their normalized names only. One is found at the
second request; of its versions one is yanked, one has a file that is not, and one has
no files. The other has a yanked version only, and is skipped. The versions are read
from the last to the first. -/
theorem yanked_is_not_resolved_project :
    let body := "\x7b\"info\":\x7b\"name\":\"Py.Foo\"\x7d,\"releases\":\x7b" ++
      "\"1.0\":[\x7b\"yanked\":true\x7d]," ++
      "\"1.1\":[\x7b\"yanked\":true\x7d,\x7b\"yanked\":false\x7d],\"2.0\":[]\x7d\x7d"
    let other := "\x7b\"info\":\x7b\"name\":\"bar\"\x7d," ++
      "\"releases\":\x7b\"0.1\":[\x7b\"yanked\":true\x7d]\x7d\x7d"
    let remote : Remote := fun log url =>
      if url = "http://proxy/bar/json" then .reply 200 other
      else if url ≠ "http://proxy/py-foo/json" then .reply 404 ""
      else if log.any (·.url == url) then .reply 200 body else .timedOut
    let rs : List Requirement := [.anyVersion "Py_Foo", .anyVersion "Bar"]
    let course (name : String) := (⟨remote, 1⟩ : Client).course .pypi "http://proxy" name
    let listing? (r : Requirement) := MarkedListing.ofSent? .pypi (course r.name).2
    let answer (name : String) : Answer :=
      (course name).1.map fun set => ⟨set.name, set.releases.reverse⟩
    let arrived := ["Py_Foo", "Bar"].map fun name => (name, answer name)
    (course "Py_Foo").2.length = 3 ∧
    (∃ m, listing? (.anyVersion "Bar") = some m ∧ m.IsYanked "0.1") ∧
    ∃ res, (requirements (Prefetch.collect "PyPI" arrived).1.fetch ⟨true, true⟩ rs).result =
        .ok res ∧
      res.entries.find? "Py.Foo" = some (.every ["1.1", "2.0"]) ∧
      res.skipped = [⟨"Bar", noReleases⟩] ∧ LeavesOutYanked listing? true rs res := by
  intro body other remote rs course listing? answer arrived
  obtain ⟨hserved, hall⟩ := yanked_is_not_resolved (.inr rfl) "http://proxy" 1 (fun _ => remote)
    ⟨true, true⟩ rs
  have hbar : MarkedListing.ofBody? .pypi other =
      some (.project ⟨"bar", .ofList [("0.1", [true])]⟩) := by cbv
  have hserves : remote.Serves .pypi "http://proxy" "Bar" other := by
    have hurl : Address.url .pypi "http://proxy" "Bar" = .ok "http://proxy/Bar/json" := by
      decide +kernel
    have hmissing (log : List Request) :
        remote log (Address.onWire "http://proxy/Bar/json") = .reply 404 "" := by
      rw [show Address.onWire "http://proxy/Bar/json" = "http://proxy/Bar/json" by decide +kernel]
      rfl
    have hnormal : Address.url .pypi "http://proxy" (normalizeName "Bar") =
        .ok "http://proxy/bar/json" := by decide +kernel
    have hreply (log : List Request) :
        remote log (Address.onWire "http://proxy/bar/json") = .reply 200 other := by
      rw [show Address.onWire "http://proxy/bar/json" = "http://proxy/bar/json" by decide +kernel]
      rfl
    exact .normalized hurl hmissing hnormal ⟨le_rfl, by decide⟩ hreply
  have horder (name : String) : Reordered (course name).1 (answer name) := by
    show Reordered (course name).1 ((course name).1.map _)
    cases (course name).1 with
    | error failure => exact .refl _
    | ok set => exact .inr ⟨_, _, _, rfl, rfl, set.releases.reverse_perm.symm⟩
  have harrives : Prefetch.Arrives answer (rs.map (·.name)) arrived := by
    have hpending : Prefetch.pending (rs.map (·.name)) = ["Bar", "Py_Foo"] := by decide +kernel
    rw [Prefetch.Arrives, hpending]
    exact .swap _ _ _
  have hmatching : matching (.anyVersion "Py_Foo") ["2.0", "1.1"] = ["1.1", "2.0"] := by cbv
  have hfoo : (Prefetch.collect "PyPI" arrived).1.fetch "Py_Foo" =
      .ok ⟨"Py.Foo", ["2.0", "1.1"]⟩ := by decide +kernel
  have hnone : (Prefetch.collect "PyPI" arrived).1.fetch "Bar" = .ok ⟨"bar", []⟩ := by
    decide +kernel
  have hresult : (requirements (Prefetch.collect "PyPI" arrived).1.fetch ⟨true, true⟩ rs).result =
      .ok ⟨Table.empty.insert "Py.Foo" (.every ["1.1", "2.0"]), [⟨"Bar", noReleases⟩]⟩ := by
    have hname (name : String) : (Requirement.anyVersion name).name = name := rfl
    have hnamed : rs.filterMap (named? (Prefetch.collect "PyPI" arrived).1.fetch) =
        ["Py.Foo", "bar"] := by
      simp [rs, named?, hname, hfoo, hnone]
    have hpicked : rs.filterMap (picked? (Prefetch.collect "PyPI" arrived).1.fetch true) =
        [("Py.Foo", .every ["1.1", "2.0"])] := by
      simp [rs, picked?, listed?, hname, hfoo, hnone, hmatching, Picked.ofSorted]
    have hskipped : rs.filterMap (skipped? (Prefetch.collect "PyPI" arrived).1.fetch) =
        [⟨"Bar", noReleases⟩] := by
      simp [rs, skipped?, hname, hfoo, hnone]
    have hpasses : Passes (Prefetch.collect "PyPI" arrived).1.fetch true rs :=
      ⟨by rw [hnamed]; decide, by simp⟩
    rw [requirements_of_passes hpasses, resolved, hpicked, hskipped]
    rfl
  refine ⟨by decide +kernel, ⟨_, hserved _ (by simp [rs]) (by decide) other _ hserves hbar, ?_⟩,
    _, hresult, by decide +kernel, rfl, hall answer horder arrived harrives _ hresult⟩
  exact ⟨[true], by decide +kernel, by simp, by simp⟩

end Solve

/-! ## Whole runs -/

namespace Run

/-- A whole run that asks the registry leaves out what the listings in its log mark as
yanked. Its requests are those for one package after the other. -/
theorem report_leavesOutYanked {env : Environment} {a : Arguments} {t : Task}
    (ht : prepare env.workspace a = .ok t) (he : t.ecosystem = .cargo ∨ t.ecosystem = .pypi)
    (hindex : a.index = none) {r : Report} {res : Resolution} {earlier log : List Request}
    (h : (report env a).run earlier = (.ok r, log)) (hres : r.finding = .resolved res) :
    ∃ sent : String → List Request,
      log = earlier ++ (Prefetch.pending (t.requirements.map (·.name))).flatMap sent ∧
      Solve.LeavesOutYanked (fun r => MarkedListing.ofSent? t.ecosystem (sent r.name))
        a.allVersions t.requirements res := by
  rw [report, ht] at h
  dsimp only at h
  split at h
  · -- A run that tightens constraints resolves nothing.
    obtain rfl := Except.ok.inj (congrArg Prod.fst h)
    cases hres
  · obtain ⟨remotes, hrun⟩ := run_prefetch env.remote t earlier
    simp only [hindex] at h
    rw [run_bind, hrun] at h
    refine ⟨_, (congrArg Prod.snd h).symm, ?_⟩
    obtain ⟨resolution, hresult, hreport⟩ := bind_eq_ok.1 (congrArg Prod.fst h)
    obtain rfl := pure_eq_ok.1 hreport
    obtain rfl := Finding.resolved.inj hres
    refine Solve.leavesOutYanked_of_offers (fun r hr => ?_) (mapError_eq_ok.1 hresult)
    exact Prefetch.offers_fetch_collect he _ (fun name => ⟨remotes name, _⟩)
      (fun name => .refl _) (.refl _) (List.mem_map_of_mem hr)

end Run

end Requirements
