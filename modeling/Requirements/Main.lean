import Requirements.Run
import Std.Time.Format

/-!
# The program

The program reads its files, has no way to reach a registry over the network and
prints what the run says. All decisions are made in `Run`.
-/

namespace Requirements.Main

/-- A network on which no connection can be made. -/
def offline : Remote :=
  fun _ _ => .unreachable

/-- The reason that the system gives for a failure. -/
def reason : IO.Error → String
  | .noFileOrDirectory .. => "No such file or directory (os error 2)"
  | .permissionDenied .. => "Permission denied (os error 13)"
  | .inappropriateType _ code _ =>
      if code = 21 then "Is a directory (os error 21)" else "Not a directory (os error 20)"
  | .userError _ => "stream did not contain valid UTF-8"
  | e => toString e

def readFile (path : String) : IO (Except String String) := do
  try
    return .ok (← IO.FS.readFile path)
  catch e =>
    return .error (reason e)

/-- The files that a command line may name, as far as they can be read. -/
def workspace (argv : List String) : IO Workspace := do
  let named := match Arguments.read argv with
    | .ok a => [a.config, a.index].filterMap id
    | .error _ => []
  let standard := "./" ++ Settings.fileName
  let files ← (standard :: named).mapM fun path => do return (path, ← readFile path)
  let missing : Except String String := .error "No such file or directory (os error 2)"
  let read (path : String) : Except String String := (files.lookup path).getD missing
  return ⟨fun path => (read ("./" ++ path)).toBool, read⟩

/-- The present time in the notation of reports. -/
def now : IO String := do
  let time := Std.Time.DateTime.ofTimestamp (← Std.Time.Timestamp.now) Std.Time.TimeZone.ZoneRules.UTC
  return time.format "uuuu-MM-dd'T'HH:mm:ss.SSSSSSSSS'Z'"

def run (argv : List String) : IO UInt32 := do
  let environment : Environment :=
    { workspace := ← workspace argv, remote := offline, color := false, time := ← now }
  let (ending, _) := (Run.commandLine environment argv).run []
  match ending with
  | .failed failure => IO.eprintln ("Error: " ++ failure.message)
  | ending => (ending.output?).forM IO.print
  return UInt32.ofNat ending.exitCode

end Requirements.Main

def main (argv : List String) : IO UInt32 :=
  Requirements.Main.run argv
