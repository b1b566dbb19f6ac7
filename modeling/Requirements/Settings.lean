import Requirements.CommandLine
import Requirements.Ecosystem
import Requirements.Toml.Reader

/-!
# Settings

Settings come from a file and may be overridden on the command line. A file with
an unknown key or a value of the wrong kind is refused as a whole; values that
have the right kind but make no sense are named.
-/

namespace Requirements

structure HttpSettings where
  timeoutSecs : Nat
  maxRetries : Nat
  userAgent : String
  /-- How many packages are fetched at once. -/
  concurrency : Nat
  deriving DecidableEq, Repr

structure Settings where
  http : HttpSettings
  /-- The registry addresses that replace the public ones. -/
  registries : Ecosystem → Option String

inductive SettingsError where
  /-- The file cannot be read, for a reason that the system gives. -/
  | unreadable (path reason : String)
  /-- The file is not a document of settings. -/
  | malformed (path : String)
  | invalidValue (key reason : String)
  /-- The release index cannot be read or is not an index. -/
  | invalidIndex (path : String)
  | conflictingOptions (reason : String)
  deriving DecidableEq, Repr

namespace SettingsError

def message : SettingsError → String
  | .unreadable path reason => s!"failed to read config file {path}: {reason}"
  | .malformed path => s!"failed to parse config file {path}: not a document of settings"
  | .invalidValue key reason => s!"invalid value for '{key}': {reason}"
  | .invalidIndex path => s!"failed to load release index {path}: not an index of releases"
  | .conflictingOptions reason => s!"conflicting options: {reason}"

/-- The reason behind an error, where it is an error of its own. -/
def reason? : SettingsError → Option String
  | .unreadable _ reason => some reason
  | _ => none

end SettingsError

def programVersion : String :=
  "0.3.0"

namespace HttpSettings

def standard : HttpSettings :=
  ⟨30, 3, "depsolve/" ++ programVersion, 10⟩

end HttpSettings

namespace Settings

def fileName : String :=
  "depsolve.toml"

/-- The settings in the absence of a file. -/
def standard : Settings :=
  ⟨.standard, fun _ => none⟩

/-- The address that replaces the public registry of an ecosystem, without the
slashes it ends in. -/
def urlFor (s : Settings) (e : Ecosystem) : Option String :=
  (s.registries e).map fun url =>
    String.ofList (url.toList.reverse.dropWhile (· == '/')).reverse

/-- The values of the named fields of a table, in the order of the names. No
other key may occur. An array gives the fields by position, and what goes beyond
them is ignored. -/
def fields? (names : List String) : Toml → Option (List (Option Toml))
  | .table _ ms =>
      if ms.all fun m => names.contains m.1 then some (names.map fun name => ms.lookup name)
      else none
  | .array items =>
      some ((items.take names.length).map some ++
        List.replicate (names.length - items.length) none)
  | _ => none

/-- A number from zero up to a limit; `standard` if there is none. -/
def number? (limit standard : Nat) : Option Toml → Option Nat
  | none => some standard
  | some (.integer (.ofNat n)) => if n ≤ limit then some n else none
  | some _ => none

/-- A text; `standard` if there is none. -/
def text? (standard : String) : Option Toml → Option String
  | none => some standard
  | some (.text s) => some s
  | some _ => none

def optionalText? : Option Toml → Option (Option String)
  | none => some none
  | some (.text s) => some (some s)
  | some _ => none

/-- Read how requests are made. The number of retries is a 32-bit word. -/
def http? : Option Toml → Option HttpSettings
  | none => some .standard
  | some t =>
      match fields? ["timeout_secs", "max_retries", "user_agent", "concurrency"] t with
      | some [timeout, retries, agent, concurrency] => do
          return {
            timeoutSecs := ← number? Text.wordMax HttpSettings.standard.timeoutSecs timeout
            maxRetries := ← number? 0xFFFFFFFF HttpSettings.standard.maxRetries retries
            userAgent := ← text? HttpSettings.standard.userAgent agent
            concurrency := ← number? Text.wordMax HttpSettings.standard.concurrency concurrency }
      | _ => none

def registries? : Option Toml → Option (Ecosystem → Option String)
  | none => some fun _ => none
  | some t => do
      let urls ← (← fields? (Ecosystem.all.map (·.identifier)) t).mapM optionalText?
      return fun e => ((Ecosystem.all.zip urls).lookup e).join

def ofDocument? (ms : Toml.Members) : Option Settings :=
  match fields? ["http", "registries"] (.table .header ms) with
  | some [http, registries] => do return ⟨← http? http, ← registries? registries⟩
  | _ => none

/-- Whether an address names a scheme that requests can be made by. -/
def isHttpUrl (url : String) : Bool :=
  url.startsWith "http://" || url.startsWith "https://"

/-- The first registry address that no request can be made to. -/
def badUrl? (s : Settings) : Option (Ecosystem × String) :=
  Ecosystem.all.findSome? fun e =>
    (s.urlFor e).bind fun url => if isHttpUrl url then none else some (e, url)

def validate (s : Settings) : Except SettingsError Settings :=
  if s.http.timeoutSecs = 0 then .error (.invalidValue "http.timeout_secs" "must be at least 1")
  else if s.http.concurrency = 0 then
    .error (.invalidValue "http.concurrency" "must be at least 1")
  else if Text.isBlankText s.http.userAgent then
    .error (.invalidValue "http.user_agent" "must not be empty")
  else
    match s.badUrl? with
    | some (e, url) =>
        .error (.invalidValue s!"registries.{e.identifier}" s!"'{url}' is not an http(s) URL")
    | none => .ok s

def read (path text : String) : Except SettingsError Settings :=
  match (Toml.read? text).bind ofDocument? with
  | some s => s.validate
  | none => .error (.malformed path)

/-- The settings with the options of a command line on top. -/
def override (s : Settings) (a : Arguments) : Settings :=
  { s with
    http.concurrency := a.concurrency.getD s.http.concurrency
    http.timeoutSecs := a.timeout.getD s.http.timeoutSecs }

/-- Whether the user agent can be sent: a header has no control characters but
the tab. -/
def canSendAgent (s : Settings) : Bool :=
  s.http.userAgent.toList.all fun c => c == '\t' || (0x20 ≤ c.toNat && c.toNat != 0x7F)

end Settings

end Requirements
