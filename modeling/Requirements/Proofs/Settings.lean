import Mathlib
import Requirements.Proofs.CommandLine
import Requirements.Proofs.Run.Local

/-!
# Settings that a run can use

The settings of a file are checked before the command line has its say, and not
again after it. The command line brings checked numbers only, so what has been
checked still holds afterwards. One bound is checked on neither side: packages
are fetched under a semaphore, and a semaphore has fewer permits than a word
has values. So this bound decides whether a run can fetch packages with its settings,
wherever they come from.
-/

namespace Requirements

open Text (wordMax)

/-- The most permits a semaphore can have: three bits of its word are taken.
With more it cannot be made. -/
def maxPermits : Nat :=
  wordMax >>> 3

/-- An address that requests can be made below: a scheme, then something that
does not end in a slash. -/
def IsBaseUrl (url : String) : Prop :=
  (∃ rest, rest ≠ "" ∧ (url = "http://" ++ rest ∨ url = "https://" ++ rest)) ∧
    url.toList.getLast? ≠ some '/'

namespace Settings

/-- What is checked of settings. -/
structure Valid (s : Settings) : Prop where
  timeout : 1 ≤ s.http.timeoutSecs ∧ s.http.timeoutSecs ≤ wordMax
  agent : ∃ c ∈ s.http.userAgent.toList, Text.isBlank c = false
  urls : ∀ e, ∀ url ∈ s.urlFor e, IsBaseUrl url
  concurrency : 1 ≤ s.http.concurrency ∧ s.http.concurrency ≤ wordMax

/-- Settings that packages can be fetched with. -/
structure Usable (s : Settings) : Prop extends s.Valid where
  permits : s.http.concurrency ≤ maxPermits

variable {s s' : Settings} {a : Arguments} {path text url : String} {argv : List String}

/-! ## Addresses -/

theorem getLast?_urlFor {e : Ecosystem} (h : url ∈ s.urlFor e) :
    url.toList.getLast? ≠ some '/' := by
  obtain ⟨given, -, rfl⟩ := Option.map_eq_some_iff.1 h
  rw [String.toList_ofList, List.getLast?_reverse]
  intro hslash
  have hnot := List.head?_dropWhile_not (· == '/') given.toList.reverse
  rw [hslash] at hnot
  cases hnot

/-- A scheme alone ends in a slash. -/
theorem exists_rest {scheme : String} (hscheme : scheme.toList.getLast? = some '/')
    (h : url.startsWith scheme = true) (hurl : url.toList.getLast? ≠ some '/') :
    ∃ rest, rest ≠ "" ∧ url = scheme ++ rest := by
  obtain ⟨rest, hrest⟩ := String.startsWith_string_iff.1 h
  have heq : url = scheme ++ String.ofList rest := by
    rw [← String.toList_inj, String.toList_append, String.toList_ofList, hrest]
  refine ⟨String.ofList rest, fun hempty => hurl ?_, heq⟩
  rw [heq, hempty, String.append_empty, hscheme]

theorem isBaseUrl_of_isHttpUrl (h : isHttpUrl url = true) (hurl : url.toList.getLast? ≠ some '/') :
    IsBaseUrl url := by
  refine ⟨?_, hurl⟩
  rcases Bool.or_eq_true_iff.1 h with h | h
  · obtain ⟨rest, hne, heq⟩ := exists_rest (by decide) h hurl
    exact ⟨rest, hne, .inl heq⟩
  · obtain ⟨rest, hne, heq⟩ := exists_rest (by decide) h hurl
    exact ⟨rest, hne, .inr heq⟩

theorem isBaseUrl_of_badUrl? (h : s.badUrl? = none) {e : Ecosystem} (hurl : url ∈ s.urlFor e) :
    IsBaseUrl url := by
  have he := List.findSome?_eq_none_iff.1 h e (by cases e <;> decide)
  rw [Option.mem_def.1 hurl, Option.bind_some] at he
  refine isBaseUrl_of_isHttpUrl ?_ (getLast?_urlFor hurl)
  by_contra hhttp
  rw [if_neg hhttp] at he
  cases he

/-! ## Files -/

theorem number?_le {limit standard n : Nat} {t : Option Toml} (hstandard : standard ≤ limit)
    (h : number? limit standard t = some n) : n ≤ limit := by
  unfold number? at h
  split at h
  · obtain rfl := Option.some.inj h
    exact hstandard
  · split at h
    · rename_i hle
      obtain rfl := Option.some.inj h
      exact hle
    · cases h
  · cases h

/-- The numbers of a file fit a word. -/
theorem http?_le {t : Option Toml} {http : HttpSettings} (h : http? t = some http) :
    http.timeoutSecs ≤ wordMax ∧ http.concurrency ≤ wordMax := by
  unfold http? at h
  split at h
  · obtain rfl := Option.some.inj h
    decide
  · split at h
    · obtain ⟨timeout, htimeout, h⟩ := Option.bind_eq_some_iff.1 h
      obtain ⟨_, -, h⟩ := Option.bind_eq_some_iff.1 h
      obtain ⟨_, -, h⟩ := Option.bind_eq_some_iff.1 h
      obtain ⟨concurrency, hconcurrency, h⟩ := Option.bind_eq_some_iff.1 h
      obtain rfl := Option.some.inj h
      exact ⟨number?_le (by decide) htimeout, number?_le (by decide) hconcurrency⟩
    · cases h

theorem ofDocument?_le {ms : Toml.Members} (h : ofDocument? ms = some s) :
    s.http.timeoutSecs ≤ wordMax ∧ s.http.concurrency ≤ wordMax := by
  unfold ofDocument? at h
  split at h
  · obtain ⟨http, hhttp, h⟩ := Option.bind_eq_some_iff.1 h
    obtain ⟨_, -, h⟩ := Option.bind_eq_some_iff.1 h
    obtain rfl := Option.some.inj h
    exact http?_le hhttp
  · cases h

theorem of_validate_eq_ok (h : s.validate = .ok s') : s' = s ∧ s.http.timeoutSecs ≠ 0 ∧
    s.http.concurrency ≠ 0 ∧ Text.isBlankText s.http.userAgent = false ∧ s.badUrl? = none := by
  unfold validate at h
  split at h
  · cases h
  split at h
  · cases h
  split at h
  · cases h
  split at h
  · cases h
  rename_i htimeout hconcurrency hagent _ hurls
  obtain rfl := Except.ok.inj h
  exact ⟨rfl, htimeout, hconcurrency, Bool.eq_false_iff.2 hagent, hurls⟩

/-- A file whose settings are taken has passed every check. -/
theorem valid_of_read (h : read path text = .ok s) : s.Valid := by
  unfold read at h
  split at h
  · rename_i t ht
    obtain ⟨ms, -, hdocument⟩ := Option.bind_eq_some_iff.1 ht
    obtain ⟨hsecs, hmost⟩ := ofDocument?_le hdocument
    obtain ⟨rfl, htimeout, hconcurrency, hagent, hurls⟩ := of_validate_eq_ok h
    obtain ⟨c, hc, hblank⟩ := List.all_eq_false.1 hagent
    exact {
      timeout := ⟨Nat.one_le_iff_ne_zero.2 htimeout, hsecs⟩
      agent := ⟨c, hc, Bool.eq_false_iff.2 hblank⟩
      urls := fun _ _ => isBaseUrl_of_badUrl? hurls
      concurrency := ⟨Nat.one_le_iff_ne_zero.2 hconcurrency, hmost⟩ }
  · cases h

theorem valid_standard : standard.Valid where
  timeout := by decide
  agent := ⟨'d', by decide, by decide⟩
  urls := by
    intro e url hurl
    cases hurl
  concurrency := by decide

/-! ## The command line on top -/

/-- The numbers of a command line are checked like those of a file. -/
theorem Valid.override (hs : s.Valid) (ha : Arguments.read argv = .ok a) :
    (s.override a).Valid where
  timeout := by
    show 1 ≤ a.timeout.getD s.http.timeoutSecs ∧ a.timeout.getD s.http.timeoutSecs ≤ wordMax
    cases hn : a.timeout with
    | none => exact hs.timeout
    | some n => exact Arguments.number_bounds ha (.inr hn)
  agent := hs.agent
  urls := hs.urls
  concurrency := by
    show 1 ≤ a.concurrency.getD s.http.concurrency ∧
      a.concurrency.getD s.http.concurrency ≤ wordMax
    cases hn : a.concurrency with
    | none => exact hs.concurrency
    | some n => exact Arguments.number_bounds ha (.inl hn)

theorem Valid.usable_iff (hs : s.Valid) : s.Usable ↔ s.http.concurrency ≤ maxPermits :=
  ⟨fun h => h.permits, fun h => ⟨hs, h⟩⟩

/-- The settings of a file with a command line on top pass every check again, and
packages can be fetched with them unless there are more to fetch at once than a
semaphore has permits. -/
theorem override_usable_iff {path text : String} {argv : List String} {s : Settings}
    {a : Arguments} (hs : read path text = .ok s) (ha : Arguments.read argv = .ok a) :
    (s.override a).Valid ∧
      ((s.override a).Usable ↔ a.concurrency.getD s.http.concurrency ≤ maxPermits) := by
  have hvalid : (s.override a).Valid := (valid_of_read hs).override ha
  exact ⟨hvalid, hvalid.usable_iff⟩

/-- A file brings a registry with slashes at its end, and the command line brings
how many packages are fetched at once: as many as there are permits, or one more. -/
theorem override_usable_iff_permits :
    let text := "[http]\nconcurrency = 4\n[registries]\nnpm = 'http://proxy/npm//'\n"
    let argv (n : String) := ["npm", "react", "--concurrency", n]
    ∃ s most more, read "depsolve.toml" text = .ok s ∧
      Arguments.read (argv "2305843009213693951") = .ok most ∧
      Arguments.read (argv "2305843009213693952") = .ok more ∧
      s.urlFor .npm = some "http://proxy/npm" ∧
      (s.override most).Usable ∧ (s.override more).Valid ∧ ¬ (s.override more).Usable := by
  intro text argv
  have hfile : (read "depsolve.toml" text).toOption.map (·.urlFor .npm) =
      some (some "http://proxy/npm") := by decide +kernel
  have hmost : ∃ a, Arguments.read (argv "2305843009213693951") = .ok a ∧
      a.concurrency = some maxPermits := ⟨_, rfl, by decide⟩
  have hmore : ∃ a, Arguments.read (argv "2305843009213693952") = .ok a ∧
      a.concurrency = some (maxPermits + 1) := ⟨_, rfl, by decide⟩
  obtain ⟨s, hs, hurl⟩ := Option.map_eq_some_iff.1 hfile
  rw [toOption_eq_some] at hs
  obtain ⟨most, hmost, hpermits⟩ := hmost
  obtain ⟨more, hmore, hbeyond⟩ := hmore
  obtain ⟨-, husable⟩ := override_usable_iff hs hmost
  obtain ⟨hvalid, hunusable⟩ := override_usable_iff hs hmore
  rw [hpermits, Option.getD_some] at husable
  rw [hbeyond, Option.getD_some] at hunusable
  exact ⟨s, most, more, hs, hmost, hmore, hurl, husable.2 (Nat.le_refl maxPermits), hvalid,
    fun h => Nat.not_succ_le_self maxPermits (hunusable.1 h)⟩

/-- More packages at once than there are permits are let through. -/
theorem not_override_usable : ¬ ∀ (path text : String) (argv : List String) (s : Settings)
    (a : Arguments), read path text = .ok s → Arguments.read argv = .ok a →
      (s.override a).Usable := by
  intro h
  have hread : ∃ a, a.concurrency = some (maxPermits + 1) ∧
      Arguments.read ["npm", "react", "--concurrency", "2305843009213693952"] = .ok a :=
    ⟨_, by decide, rfl⟩
  obtain ⟨a, hconcurrency, ha⟩ := hread
  have hpermits : a.concurrency.getD standard.http.concurrency ≤ maxPermits :=
    (h "depsolve.toml" "" _ standard a rfl ha).permits
  rw [hconcurrency] at hpermits
  exact Nat.not_succ_le_self maxPermits hpermits

end Settings

/-! ## Whole runs -/

namespace Run

/-- The settings that a run starts from are those of a file or the standard ones. -/
theorem valid_settings {w : Workspace} {a : Arguments} {s : Settings}
    (h : settings w a = .ok s) : s.Valid := by
  have hfile {path : String} (h : settingsFile w path = .ok s) : s.Valid := by
    unfold settingsFile at h
    split at h
    · cases h
    · exact Settings.valid_of_read h
  unfold settings at h
  split at h
  · exact hfile h
  · split at h
    · exact hfile h
    · obtain rfl := Except.ok.inj h
      exact Settings.valid_standard

/-- A run that gets as far as to need releases has settings that pass every check. It can
fetch packages with them unless it is to fetch more at once than there are permits. -/
theorem prepare_usable_iff {w : Workspace} {argv : List String} {a : Arguments} {t : Task}
    (ha : Arguments.read argv = .ok a) (h : prepare w a = .ok t) :
    t.settings.Valid ∧ (t.settings.Usable ↔ t.settings.http.concurrency ≤ maxPermits) := by
  obtain ⟨-, ⟨s, hs, htask⟩, -, -⟩ := of_prepare_eq_ok h
  have hvalid : t.settings.Valid := htask ▸ (valid_settings hs).override ha
  exact ⟨hvalid, hvalid.usable_iff⟩

end Run

end Requirements
