import Mathlib
import Requirements.Proofs.Fallible
import Requirements.Run

/-!
# Runs that need no registry

A run that tightens constraints, reads an index or ends early sends no request,
so it ends in the same way whatever the registry would have answered. Of the
files it depends on the settings file and, unless it tightens constraints, on the
index. The time of the run shows in JSON reports only, as the time they tell.
-/

namespace Requirements

/-- The runs end with one exit code, one output and one error. Only the time that
a JSON report tells may differ. -/
structure Ending.SameButTime (time time' : String) (e e' : Ending) : Prop where
  exitCode : e.exitCode = e'.exitCode
  output : e.output? = e'.output? ∨ ∃ r : Report,
    e.output? = some (r.jsonText time) ∧ e'.output? = some (r.jsonText time')
  usage : ∀ error, e = .usage error ↔ e' = .usage error
  failed : ∀ failure, e = .failed failure ↔ e' = .failed failure

namespace Run

/-- Nothing is wanted of a registry: the run has an index, only tightens
constraints, or cannot get as far as to need releases. -/
inductive IsLocal (w : Workspace) (a : Arguments) : Prop
  | index {path : String} (h : a.index = some path)
  | restrict (h : a.restrict = true)
  | conflict {reason : String} (h : a.conflict? = some reason)
  | settings {error : SettingsError} (h : settings w a = .error error)
  | ecosystem {error : UnknownEcosystem} (h : Ecosystem.ofIdentifier a.ecosystem = .error error)
  | specifier {e : Ecosystem} {s : String} {error : SpecifierError}
      (he : Ecosystem.ofIdentifier a.ecosystem = .ok e) (hs : s ∈ a.specifiers)
      (h : e.parse s = .error error)

/-- The settings file is the same in both workspaces, as a run finds it: what the
given path leads to or, without a path, the file with the standard name. -/
def SameSettingsFile (a : Arguments) (w w' : Workspace) : Prop :=
  match a.config with
  | some path => w.read path = w'.read path
  | none => w.isFile Settings.fileName = w'.isFile Settings.fileName ∧
      (w.isFile Settings.fileName = true →
        w.read ("./" ++ Settings.fileName) = w'.read ("./" ++ Settings.fileName))

/-- The workspaces are the same in the files that a run without a registry reads. -/
structure SameFiles (a : Arguments) (w w' : Workspace) : Prop where
  settings : SameSettingsFile a w w'
  index : a.restrict = false → ∀ path ∈ a.index, w.read path = w'.read path

theorem SameFiles.refl (a : Arguments) (w : Workspace) : SameFiles a w w where
  settings := by
    unfold SameSettingsFile
    split
    · rfl
    · exact ⟨rfl, fun _ => rfl⟩
  index := fun _ _ _ => rfl

variable {a : Arguments} {w w' : Workspace}

/-! ## Before releases are needed -/

theorem settings_congr (h : SameSettingsFile a w w') : settings w a = settings w' a := by
  unfold SameSettingsFile at h
  unfold settings settingsFile
  cases hconfig : a.config with
  | some path =>
      simp only [hconfig] at h
      simp only [h]
  | none =>
      simp only [hconfig] at h
      obtain ⟨hfile, htext⟩ := h
      dsimp only
      rw [← hfile]
      split
      · rename_i hw
        rw [htext hw]
      · rfl

theorem prepare_congr (h : SameSettingsFile a w w') : prepare w a = prepare w' a := by
  unfold prepare
  rw [settings_congr h]

/-- Where a run gets as far as to need releases, its arguments, its settings, its
ecosystem and all of its specifiers are in order. -/
theorem of_prepare_eq_ok {t : Task} (h : prepare w a = .ok t) :
    a.conflict? = none ∧ (∃ s, settings w a = .ok s ∧ t.settings = s.override a) ∧
      Ecosystem.ofIdentifier a.ecosystem = .ok t.ecosystem ∧
      t.ecosystem.parseAll a.specifiers = .ok t.requirements := by
  unfold prepare at h
  cases hconflict : a.conflict? with
  | some reason =>
      simp only [hconflict] at h
      cases h
  | none =>
      simp only [hconflict] at h
      obtain ⟨s, hs, h⟩ := bind_eq_ok.1 h
      split at h
      · obtain ⟨e, he, h⟩ := bind_eq_ok.1 h
        obtain ⟨rs, hrs, h⟩ := bind_eq_ok.1 h
        obtain rfl := pure_eq_ok.1 h
        exact ⟨rfl, ⟨s, mapError_eq_ok.1 hs, rfl⟩, mapError_eq_ok.1 he, mapError_eq_ok.1 hrs⟩
      · -- The user agent cannot be sent.
        cases h

/-- A run that is local and not over yet has an index or tightens constraints. -/
theorem IsLocal.restrict_or_index (h : IsLocal w a) {t : Task} (ht : prepare w a = .ok t) :
    a.restrict = true ∨ ∃ path, a.index = some path := by
  obtain ⟨hconflict, ⟨s, hs, -⟩, he, hrs⟩ := of_prepare_eq_ok ht
  cases h with
  | index h => exact .inr ⟨_, h⟩
  | restrict h => exact .inl h
  | conflict h =>
      rw [hconflict] at h
      cases h
  | settings h =>
      rw [hs] at h
      cases h
  | ecosystem h =>
      rw [he] at h
      cases h
  | specifier he' hmem h =>
      obtain rfl := Except.ok.inj (he.symm.trans he')
      obtain ⟨r, _, hr⟩ := exists_mem_of_mapM hrs hmem
      rw [hr] at h
      cases h

/-! ## The settings file among other files -/

end Run

namespace Workspace

/-- The text of the settings file with the standard name, if there is one. -/
def settingsText? (files : List (String × String)) : Option String :=
  (files.find? fun f => fileNames f.1 == [Settings.fileName.toList]).map (·.2)

theorem follow_settings (files : List (String × String)) {path : String}
    (hpath : path = Settings.fileName ∨ path = "./" ++ Settings.fileName) :
    follow files path = enter files (.directory []) Settings.fileName.toList := by
  rcases hpath with rfl | rfl
  · have hparts : parts Settings.fileName = [Settings.fileName.toList] := by decide
    rw [follow, hparts]
    exact bind_pure (enter files (.directory []) Settings.fileName.toList)
  · have hparts : parts ("./" ++ Settings.fileName) = [['.'], Settings.fileName.toList] := by decide
    rw [follow, hparts]
    exact bind_pure (enter files (.directory []) Settings.fileName.toList)

/-- No other file has a part in reading the settings file, not even one that makes
a directory of its name. -/
theorem toOption_readFrom_settings (files : List (String × String)) {path : String}
    (hpath : path = Settings.fileName ∨ path = "./" ++ Settings.fileName) :
    (readFrom files path).toOption = settingsText? files := by
  have hstays : stays Settings.fileName.toList = false := by decide
  have habove : (Settings.fileName.toList == ['.', '.']) = false := by decide
  rw [readFrom, follow_settings files hpath, enter, hstays, habove, settingsText?]
  simp only [Bool.false_eq_true, if_false, List.nil_append, lookUp?]
  cases files.find? fun f => fileNames f.1 == [Settings.fileName.toList] with
  | some f => rfl
  | none =>
      dsimp only
      cases files.any fun f => [Settings.fileName.toList].isPrefixOf (fileNames f.1) <;> rfl

end Workspace

namespace Run

/-- Without a path of settings on the command line, only the text of the settings
file counts. -/
theorem sameSettingsFile_ofFiles (hconfig : a.config = none) {files files' : List (String × String)}
    (h : Workspace.settingsText? files = Workspace.settingsText? files') :
    SameSettingsFile a (.ofFiles files) (.ofFiles files') := by
  have hstandard (fs : List (String × String)) :=
    Workspace.toOption_readFrom_settings fs (.inl rfl)
  have hpath (fs : List (String × String)) :=
    Workspace.toOption_readFrom_settings fs (.inr rfl)
  unfold SameSettingsFile
  simp only [hconfig, Workspace.ofFiles, toBool_eq_isSome, hstandard, h, true_and]
  intro hsome
  obtain ⟨text, htext⟩ := Option.isSome_iff_exists.1 hsome
  rw [toOption_eq_some.1 ((hpath files).trans (h.trans htext)),
    toOption_eq_some.1 ((hpath files').trans htext)]

/-! ## Reports without requests -/

/-- The report of a local run is made without a request, from its files alone. -/
theorem exists_report (h : IsLocal w a) :
    ∃ x, ∀ w', SameFiles a w w' → ∀ remote color time,
      report ⟨w', remote, color, time⟩ a = pure x := by
  cases ht : prepare w a with
  | error e =>
      refine ⟨.error e, fun w' hfiles remote color time => ?_⟩
      rw [prepare_congr hfiles.settings] at ht
      simp only [report, ht]
  | ok t =>
      by_cases hr : a.restrict = true
      · refine ⟨.ok ⟨t.ecosystem, t.ecosystem.registryName,
          .restricted (t.ecosystem.compose (t.ecosystem.restrict t.requirements))⟩,
          fun w' hfiles remote color time => ?_⟩
        rw [prepare_congr hfiles.settings] at ht
        simp only [report, ht, hr, if_true]
      · obtain ⟨path, hpath⟩ := (h.restrict_or_index ht).resolve_left hr
        refine ⟨(indexFile w t.ecosystem.registryName path).mapError .settings >>= solve a t path,
          fun w' hfiles remote color time => ?_⟩
        have hindex := hfiles.index (by simpa using hr) path (by simp [hpath])
        rw [prepare_congr hfiles.settings] at ht
        simp only [report, ht, hpath, indexFile, hindex, if_neg hr]

theorem sameButTime_refl (time time' : String) (e : Ending) : e.SameButTime time time' e where
  exitCode := rfl
  output := .inl rfl
  usage := fun _ => Iff.rfl
  failed := fun _ => Iff.rfl

theorem sameButTime_printed {time time' text text' : String}
    (h : text = text' ∨ ∃ r : Report, text = r.jsonText time ∧ text' = r.jsonText time') :
    (Ending.printed text).SameButTime time time' (.printed text') where
  exitCode := rfl
  output := h.imp (congrArg some) fun ⟨r, ht, ht'⟩ => ⟨r, congrArg some ht, congrArg some ht'⟩
  usage := fun _ => ⟨nofun, nofun⟩
  failed := fun _ => ⟨nofun, nofun⟩

/-- The time of a run shows in a JSON report only. -/
theorem sameButTime_print (w w' : Workspace) (remote remote' : Remote) (color : Bool)
    (time time' : String) (a : Arguments) (r : Report) :
    (Ending.printed (print ⟨w, remote, color, time⟩ a r)).SameButTime time time'
      (.printed (print ⟨w', remote', color, time'⟩ a r)) := by
  refine sameButTime_printed ?_
  unfold print
  split
  · exact .inr ⟨r, rfl, rfl⟩
  · exact .inl rfl

/-! ## Whole runs -/

/-- Local runs over the same files send no request and end the same, but for the
time in a JSON report. -/
theorem commandLine_congr {argv : List String}
    (h : ∀ a, Arguments.read argv = .ok a → IsLocal w a ∧ SameFiles a w w')
    (remote remote' : Remote) (color : Bool) (time time' : String) (log : List Request) :
    ∃ e e', (commandLine ⟨w, remote, color, time⟩ argv).run log = (e, log) ∧
      (commandLine ⟨w', remote', color, time'⟩ argv).run log = (e', log) ∧
      e.SameButTime time time' e' := by
  unfold commandLine
  cases hread : Arguments.read argv with
  | error error => exact ⟨_, _, rfl, rfl, sameButTime_refl time time' _⟩
  | ok a =>
      obtain ⟨hlocal, hfiles⟩ := h a hread
      obtain ⟨x, hx⟩ := exists_report hlocal
      simp only [hx w (.refl a w), hx w' hfiles, pure_bind]
      cases x with
      | error failure => exact ⟨_, _, rfl, rfl, sameButTime_refl time time' _⟩
      | ok r => exact ⟨_, _, rfl, rfl, sameButTime_print w w' remote remote' color time time' a r⟩

/-- A run that has an index, tightens constraints or ends before releases are
needed sends no request, and any other registry gives it the same exit code, the
same output, but for the time that a JSON report tells, and the same error. A run
that tightens constraints ends the same in every workspace with the same settings
file, whatever other files there are. -/
theorem local_run_ignores_registry (w : Workspace) (argv : List String)
    (h : ∀ a, Arguments.read argv = .ok a → IsLocal w a) (remote remote' : Remote) (color : Bool)
    (time time' : String) (log : List Request) :
    let run (w : Workspace) (remote : Remote) (time : String) : Ending × List Request :=
      (commandLine ⟨w, remote, color, time⟩ argv).run log
    (run w remote time).2 = log ∧ (run w remote' time').2 = log ∧
    (run w remote time).1.SameButTime time time' (run w remote' time').1 ∧
    ∀ a w', Arguments.read argv = .ok a → a.restrict = true → SameSettingsFile a w w' →
      (run w' remote' time').2 = log ∧
        (run w remote time).1.SameButTime time time' (run w' remote' time').1 := by
  intro run
  have hself : ∀ a, Arguments.read argv = .ok a → IsLocal w a ∧ SameFiles a w w :=
    fun a ha => ⟨h a ha, .refl a w⟩
  obtain ⟨e, e', hrun, hrun', hsame⟩ := commandLine_congr hself remote remote' color time time' log
  refine ⟨congrArg Prod.snd hrun, congrArg Prod.snd hrun', ?_, fun a w' ha hr hfile => ?_⟩
  · simpa only [run, hrun, hrun'] using hsame
  · have hfiles : ∀ b, Arguments.read argv = .ok b → IsLocal w b ∧ SameFiles b w w' := by
      intro b hb
      obtain rfl := Except.ok.inj (ha.symm.trans hb)
      exact ⟨.restrict hr, hfile, fun hnot => absurd hr (by simp [hnot])⟩
    obtain ⟨f, f', hf, hf', hsame⟩ := commandLine_congr hfiles remote remote' color time time' log
    exact ⟨congrArg Prod.snd hf', by simpa only [run, hf, hf'] using hsame⟩

/-- Constraints are tightened with a proxy and an index at hand, and again without
them and with a registry that cannot be reached. -/
theorem local_run_ignores_registry_restrict :
    let argv := ["npm", "foo >=1.0.0", "foo >=1.2.0 <2.0.0", "--restrict", "--json"]
    let settings := ("depsolve.toml", "[registries]\nnpm = 'http://proxy/npm'\n")
    let w := Workspace.ofFiles [settings, ("index.json", "\x7b\x7d")]
    let w' := Workspace.ofFiles [("notes/depsolve.toml", "[http"), settings]
    let remote : Remote := fun _ _ => .reply 200 "\x7b\x7d"
    let remote' : Remote := fun _ _ => .unreachable
    let run (w : Workspace) (remote : Remote) (time : String) : Ending × List Request :=
      (commandLine ⟨w, remote, false, time⟩ argv).run []
    ∃ a, Arguments.read argv = .ok a ∧ a.restrict = true ∧ IsLocal w a ∧ SameSettingsFile a w w' ∧
    (run w remote "now").2 = [] ∧ (run w' remote' "later").2 = [] ∧
    (run w remote "now").1.SameButTime "now" "later" (run w' remote' "later").1 ∧
    (run w remote "now").1.exitCode = 0 := by
  intro argv settings w w' remote remote' run
  have hread : Arguments.read argv = .ok {
      ecosystem := "npm", specifiers := ["foo >=1.0.0", "foo >=1.2.0 <2.0.0"]
      allVersions := false, graceful := false, restrict := true, index := none, config := none
      concurrency := none, timeout := none, json := true, verbose := false, quiet := false } := by
    decide +kernel
  have hsame : ∀ a : Arguments, a.config = none → SameSettingsFile a w w' := fun _ hconfig =>
    sameSettingsFile_ofFiles hconfig (by decide +kernel)
  obtain ⟨hlog, -, -, hother⟩ := local_run_ignores_registry w argv
    (fun a ha => .restrict (Except.ok.inj (hread.symm.trans ha) ▸ rfl)) remote remote' false "now"
    "later" []
  obtain ⟨hlog', hending⟩ := hother _ w' hread rfl (hsame _ rfl)
  exact ⟨_, hread, rfl, .restrict rfl, hsame _ rfl, hlog, hlog', hending, by decide +kernel⟩

end Run

end Requirements
