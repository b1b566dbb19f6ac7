import Requirements.Text.Blank
import Requirements.Text.Digit

/-!
# The command line

Arguments are read from left to right, and the first problem is reported. Flags
and options may stand anywhere before `--`; an option takes the next argument,
whose value is judged when the next known argument or the end is reached.
-/

namespace Requirements

/-- The switches of the command line. -/
inductive Flag where
  | allVersions
  | graceful
  | restrict
  | json
  | verbose
  | quiet
  | help
  | version
  deriving DecidableEq, Repr

inductive ValueOption where
  | index
  | config
  | concurrency
  | timeout
  deriving DecidableEq, Repr

/-- What is wrong with a command line, or what it asks for instead of a run. -/
inductive UsageError where
  | unknownArgument
  | repeatedArgument
  | missingValue
  | unneededValue
  | invalidNumber
  | missingArgument
  | helpRequested
  | versionRequested
  deriving DecidableEq, Repr

def UsageError.kind : UsageError → String
  | .unknownArgument => "UnknownArgument"
  | .repeatedArgument => "ArgumentConflict"
  | .missingValue => "InvalidValue"
  | .unneededValue => "TooManyValues"
  | .invalidNumber => "ValueValidation"
  | .missingArgument => "MissingRequiredArgument"
  | .helpRequested => "DisplayHelp"
  | .versionRequested => "DisplayVersion"

/-- Help and version are no failures. -/
def UsageError.exitCode : UsageError → Nat
  | .helpRequested | .versionRequested => 0
  | _ => 2

structure Arguments where
  ecosystem : String
  specifiers : List String
  allVersions : Bool
  graceful : Bool
  restrict : Bool
  index : Option String
  config : Option String
  concurrency : Option Nat
  timeout : Option Nat
  json : Bool
  verbose : Bool
  quiet : Bool
  deriving DecidableEq, Repr

def Flag.ofName? (name : String) : Option Flag :=
  match name with
  | "all-versions" => some .allVersions
  | "graceful" => some .graceful
  | "restrict" => some .restrict
  | "json" => some .json
  | "verbose" => some .verbose
  | "quiet" => some .quiet
  | "help" => some .help
  | "version" => some .version
  | _ => none

def Flag.ofLetter? (letter : Char) : Option Flag :=
  match letter with
  | 'a' => some .allVersions
  | 'g' => some .graceful
  | 'v' => some .verbose
  | 'q' => some .quiet
  | 'h' => some .help
  | 'V' => some .version
  | _ => none

def ValueOption.ofName? (name : String) : Option ValueOption :=
  match name with
  | "index" => some .index
  | "config" => some .config
  | "concurrency" => some .concurrency
  | "timeout" => some .timeout
  | _ => none

/-- A number above zero that fits a word. White space around it and one plus
sign are allowed. -/
def positive? (text : String) : Option Nat :=
  match Text.signedNumeral? (Text.trim text.toList) with
  | some 0 | none => none
  | some n => some n

namespace CommandLine

inductive Value where
  | path (text : String)
  | number (n : Nat)
  deriving DecidableEq, Repr

/-- Judge the text of a value: a path has characters, a number is positive. -/
def readValue (o : ValueOption) (text : String) : Except UsageError Value :=
  match o with
  | .index | .config => if text.isEmpty then .error .missingValue else .ok (.path text)
  | .concurrency | .timeout =>
      match positive? text with
      | some n => .ok (.number n)
      | none => .error .invalidNumber

structure Reading where
  /-- The arguments that are neither flags nor options, in order. -/
  positionals : List String
  flags : List Flag
  values : List (ValueOption × Value)
  /-- The option that was read last, with its text if it has come. -/
  pending : Option (ValueOption × Option String)
  /-- Whether all further arguments are positional. -/
  ended : Bool

def Reading.start : Reading :=
  ⟨[], [], [], none, false⟩

def Reading.give (r : Reading) (o : ValueOption) (text : String) : Except UsageError Reading :=
  if r.values.any (·.1 = o) then .error .repeatedArgument
  else do
    let value ← readValue o text
    return { r with values := r.values ++ [(o, value)] }

/-- Judge the option that was read last. -/
def Reading.settle (r : Reading) : Except UsageError Reading :=
  match r.pending with
  | none => .ok r
  | some (_, none) => .error .missingValue
  | some (o, some text) => { r with pending := none }.give o text

def Reading.raise (r : Reading) (f : Flag) : Except UsageError Reading := do
  let r ← r.settle
  match f with
  | .help => .error .helpRequested
  | .version => .error .versionRequested
  | f =>
      if r.flags.contains f then .error .repeatedArgument
      else return { r with flags := r.flags ++ [f] }

/-- Read a long argument, which may carry a value after an equals sign. -/
def Reading.long (r : Reading) (cs : List Char) : Except UsageError Reading :=
  let name := String.ofList (cs.takeWhile (· != '='))
  let value? := match cs.dropWhile (· != '=') with
    | _ :: text => some (String.ofList text)
    | [] => none
  match ValueOption.ofName? name, Flag.ofName? name, value? with
  | some o, _, some text => do (← r.settle).give o text
  | some o, _, none => do return { ← r.settle with pending := some (o, none) }
  | none, some f, none => r.raise f
  | none, some _, some _ => .error .unneededValue
  | none, none, _ => .error .unknownArgument

/-- Read a cluster of letters, each one a flag. -/
def Reading.short (r : Reading) : List Char → Except UsageError Reading
  | [] => .ok r
  | c :: cs =>
      match Flag.ofLetter? c with
      | some f => do (← r.raise f).short cs
      | none => .error .unknownArgument

/-- Read an argument that does not look like a flag: the text of the option
before it, or a positional argument. -/
def Reading.plain (r : Reading) (text : String) : Except UsageError Reading :=
  match r.pending, r.ended with
  | some (o, none), false => .ok { r with pending := some (o, some text) }
  | _, _ => do
      let r ← r.settle
      return { r with positionals := r.positionals ++ [text] }

/-- Read one argument. A lone hyphen does not look like a flag. -/
def Reading.argument (r : Reading) (text : String) : Except UsageError Reading :=
  if r.ended then r.plain text
  else
    match text.toList with
    | ['-', '-'] => .ok { r with ended := true }
    | '-' :: '-' :: cs => r.long cs
    | '-' :: c :: cs => r.short (c :: cs)
    | _ => r.plain text

def Reading.path? (r : Reading) (o : ValueOption) : Option String :=
  match r.values.lookup o with
  | some (.path text) => some text
  | _ => none

def Reading.number? (r : Reading) (o : ValueOption) : Option Nat :=
  match r.values.lookup o with
  | some (.number n) => some n
  | _ => none

/-- The arguments of what has been read: an ecosystem and at least one specifier. -/
def Reading.finish (r : Reading) : Except UsageError Arguments := do
  let r ← r.settle
  match r.positionals with
  | ecosystem :: specifier :: specifiers =>
      return {
        ecosystem
        specifiers := specifier :: specifiers
        allVersions := r.flags.contains .allVersions
        graceful := r.flags.contains .graceful
        restrict := r.flags.contains .restrict
        index := r.path? .index
        config := r.path? .config
        concurrency := r.number? .concurrency
        timeout := r.number? .timeout
        json := r.flags.contains .json
        verbose := r.flags.contains .verbose
        quiet := r.flags.contains .quiet }
  | _ => .error .missingArgument

end CommandLine

namespace Arguments

/-- Read the arguments of a command line, the program name left out. -/
def read (argv : List String) : Except UsageError Arguments := do
  (← argv.foldlM CommandLine.Reading.argument .start).finish

/-- Why arguments that can be read cannot be honoured together. -/
def conflict? (a : Arguments) : Option String :=
  if a.verbose && a.quiet then some "--verbose and --quiet cannot be used together"
  else if a.restrict && (a.allVersions || a.graceful || a.index.isSome) then
    some "--restrict does not resolve releases; drop --all-versions, --graceful and --index"
  else none

/-- The least severe log messages that are shown. -/
def logLevel (a : Arguments) : String :=
  if a.verbose then "debug" else if a.quiet then "error" else "warn"

end Arguments

end Requirements
