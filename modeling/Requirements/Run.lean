import Requirements.Registry.Fetch
import Requirements.Report.Data
import Requirements.Report.Text
import Requirements.Resolution.Solve
import Requirements.Settings
import Requirements.Workspace

/-!
# Runs

A run reads its arguments and settings, parses the specifiers and then tightens
them, or solves them from an index file or from the registry. The working
directory and the registry are parameters; a run that needs neither does not
depend on them.
-/

namespace Requirements

structure Environment where
  workspace : Workspace
  remote : Remote
  /-- Whether reports are in colour. -/
  color : Bool
  /-- The time for reports that tell it. -/
  time : String

/-- Why a run that was asked for properly ends without a report. -/
inductive Failure where
  | settings (error : SettingsError)
  | registry (error : RegistryError)
  | resolution (error : ResolutionError)
  deriving DecidableEq, Repr

/-- The text of a failure with the reasons behind it. -/
def Failure.message : Failure → String
  | .settings e => e.message ++ (e.reason?.map (": " ++ ·)).getD ""
  | .registry e => e.message
  | .resolution e => e.message ++ (e.reason?.map (": " ++ ·.message)).getD ""

inductive Ending where
  /-- The arguments cannot be read, or ask for help or the version. -/
  | usage (error : UsageError)
  | failed (failure : Failure)
  /-- The text of the report. -/
  | printed (text : String)
  deriving DecidableEq, Repr

namespace Ending

def exitCode : Ending → Nat
  | .usage e => e.exitCode
  | .failed _ => 1
  | .printed _ => 0

/-- What a run writes to its output. The texts on usage are not part of it. -/
def output? : Ending → Option String
  | .usage .versionRequested => some ("depsolve " ++ programVersion ++ "\n")
  | .usage _ | .failed _ => none
  | .printed text => some text

end Ending

namespace Arguments

def verbosity (a : Arguments) : Verbosity :=
  if a.quiet then .quiet else if a.verbose then .verbose else .normal

def solveOptions (a : Arguments) : SolveOptions :=
  ⟨a.graceful, a.allVersions⟩

end Arguments

namespace Run

def settingsFile (w : Workspace) (path : String) : Except SettingsError Settings :=
  match w.read path with
  | .error reason => .error (.unreadable path reason)
  | .ok text => Settings.read path text

/-- The settings of a run: those of the given file, or of the file with the
standard name if there is one. -/
def settings (w : Workspace) (a : Arguments) : Except SettingsError Settings :=
  match a.config with
  | some path => settingsFile w path
  | none =>
      if w.isFile Settings.fileName then settingsFile w ("./" ++ Settings.fileName)
      else .ok .standard

def indexFile (w : Workspace) (registry path : String) : Except SettingsError ReleaseIndex :=
  match (w.read path).toOption.bind (ReleaseIndex.ofJson? registry) with
  | some index => .ok index
  | none => .error (.invalidIndex path)

/-- A request library that does not accept the user agent cannot be set up. -/
def unusableAgent : RegistryError :=
  .network "" "HTTP client" "failed to create HTTP client: builder error"

/-- What is known before releases are needed: the settings, the ecosystem and
the requirements. -/
structure Task where
  settings : Settings
  ecosystem : Ecosystem
  requirements : List Requirement

/-- Check the arguments, load the settings and parse the specifiers. -/
def prepare (w : Workspace) (a : Arguments) : Except Failure Task := do
  match a.conflict? with
  | some reason => throw (.settings (.conflictingOptions reason))
  | none =>
      let settings ← (settings w a).mapError .settings
      let settings := settings.override a
      unless settings.canSendAgent do throw (.registry unusableAgent)
      let ecosystem ← (Ecosystem.ofIdentifier a.ecosystem).mapError
        (.resolution ∘ .unknownEcosystem)
      let requirements ← (ecosystem.parseAll a.specifiers).mapError (.resolution ∘ .specifier)
      return ⟨settings, ecosystem, requirements⟩

def prefetch (remote : Remote) (t : Task) : Asking ReleaseIndex := do
  let e := t.ecosystem
  let base := (t.settings.urlFor e).getD (Address.publicBase e)
  let client : Client := ⟨remote, t.settings.http.maxRetries⟩
  let fetch := fetchWithFallback e.registryName (client.fetchReleases e base)
  return (← Prefetch.run e.registryName fetch (t.requirements.map (·.name))).1

def solve (a : Arguments) (t : Task) (source : String) (index : ReleaseIndex) :
    Except Failure Report := do
  let outcome := Solve.requirements index.fetch a.solveOptions t.requirements
  let resolution ← outcome.result.mapError .resolution
  return ⟨t.ecosystem, source, .resolved resolution⟩

def report (env : Environment) (a : Arguments) : Asking (Except Failure Report) :=
  match prepare env.workspace a with
  | .error e => return .error e
  | .ok t =>
      let registry := t.ecosystem.registryName
      if a.restrict then
        let constraints := t.ecosystem.compose (t.ecosystem.restrict t.requirements)
        return .ok ⟨t.ecosystem, registry, .restricted constraints⟩
      else
        match a.index with
        | some path =>
            return (indexFile env.workspace registry path).mapError .settings >>= solve a t path
        | none => do
            let index ← prefetch env.remote t
            return solve a t registry index

def print (env : Environment) (a : Arguments) (r : Report) : String :=
  if a.json then r.jsonText env.time else r.text a.verbosity env.color

/-- Run a command line, and log the requests it sends. -/
def commandLine (env : Environment) (argv : List String) : Asking Ending :=
  match Arguments.read argv with
  | .error e => return .usage e
  | .ok a => do
      match ← report env a with
      | .error e => return .failed e
      | .ok r => return .printed (print env a r)

end Run

end Requirements
