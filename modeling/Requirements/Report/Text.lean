import Requirements.Report
import Requirements.Text.Blank

/-!
# Reports as text

A report is printed as a heading and a line for each package, whose names are
padded to a common width. Each line is laid out twice, with control sequences for
colours and without.
-/

namespace Requirements

inductive Style where
  | bold
  | dimmed
  | yellow
  | cyan
  | brightWhiteBold
  deriving DecidableEq, Repr

def Style.code : Style → String
  | .bold => "1"
  | .dimmed => "2"
  | .yellow => "33"
  | .cyan => "36"
  | .brightWhiteBold => "1;97"

/-- The control sequence that turns a colour on. -/
def Style.sequence (s : Style) : List Char :=
  ['\x1b', '['] ++ s.code.toList ++ ['m']

/-- The text with the given sequence after every sequence in it that turns
colours off. -/
def afterResets (sequence : List Char) : List Char → List Char
  | '\x1b' :: '[' :: '0' :: 'm' :: cs =>
      '\x1b' :: '[' :: '0' :: 'm' :: (sequence ++ afterResets sequence cs)
  | c :: cs => c :: afterResets sequence cs
  | [] => []

/-- A text in a colour. If the text itself turns the colour off, it is turned on
again. -/
def Style.paint (s : Style) (text : String) : String :=
  String.ofList (s.sequence ++ afterResets s.sequence text.toList) ++ "\x1b[0m"

namespace Report

/-- The width of the column of names: twenty, or the number of bytes of the
longest name. -/
def columnWidth (names : List String) : Nat :=
  (names.map String.utf8ByteSize).foldl max 20

/-- A name with spaces after it, up to a number of characters. -/
def padded (width : Nat) (name : String) : String :=
  name ++ String.ofList (List.replicate (width - name.length) ' ')

def heading (r : Report) (color : Bool) (counts : String) : String :=
  let name := r.ecosystem.displayName
  if color then
    Style.bold.paint name ++ " " ++ Style.dimmed.paint ("(" ++ r.source ++ ")") ++ ": " ++
      counts ++ "\n"
  else name ++ " (" ++ r.source ++ "): " ++ counts ++ "\n"

/-- The releases picked for a package on one line, if it has a match. -/
def pickedText? : Picked → Option String
  | .unmatched => none
  | p => some (", ".intercalate p.versions)

def quietLine (name text : String) : String :=
  name ++ " " ++ text ++ "\n"

def pickedLine (color : Bool) (width : Nat) (name : String) (p : Picked) : String :=
  match pickedText? p, color with
  | some text, true =>
      "  " ++ padded width name ++ " " ++ Style.brightWhiteBold.paint text ++ "\n"
  | some text, false => "  " ++ padded width name ++ " " ++ text ++ "\n"
  | none, true =>
      "  " ++ padded width name ++ " " ++ Style.yellow.paint "no matching release" ++ "\n"
  | none, false => "  " ++ padded width name ++ " no matching release\n"

/-- The line of a skipped package, with the reason in a verbose report. -/
def skippedLine (verbosity : Verbosity) (color : Bool) (width : Nat) (s : Skipped) : String :=
  let reason := if verbosity = .verbose then "(" ++ s.reason ++ ")" else ""
  let line := padded width s.name ++ " " ++ reason
  let line := String.ofList (Text.trimEnd line.toList)
  if color then "  " ++ Style.dimmed.paint line ++ "\n" else "  " ++ line ++ "\n"

def skippedPart (verbosity : Verbosity) (color : Bool) (width : Nat) (skipped : List Skipped) :
    String :=
  if skipped.isEmpty then ""
  else
    "\n" ++ (if color then "  " ++ Style.dimmed.paint "Skipped:" ++ "\n" else "  Skipped:\n") ++
      String.join (skipped.map (skippedLine verbosity color width))

def restrictedLine (color : Bool) (width : Nat) (name specifier : String) : String :=
  if color then "  " ++ padded width name ++ " " ++ Style.cyan.paint specifier ++ "\n"
  else "  " ++ padded width name ++ " " ++ specifier ++ "\n"

def resolvedCounts (r : Resolution) : String :=
  let matched := r.matchedCount
  let unmatched := r.entries.size - matched
  s!"{matched} resolved, {unmatched} unmatched" ++
    if r.skipped.isEmpty then "" else s!", {r.skipped.length} skipped"

def constraintCounts (t : Table String) : String :=
  s!"{t.size} " ++ if t.size = 1 then "constraint" else "constraints"

def resolvedText (report : Report) (verbosity : Verbosity) (color : Bool) (r : Resolution) :
    String :=
  if verbosity = .quiet then
    String.join (r.entries.entries.map fun e => quietLine e.1 ((pickedText? e.2).getD "-"))
  else
    let width := columnWidth (r.entries.keys ++ r.skipped.map (·.name))
    report.heading color (resolvedCounts r) ++
      String.join (r.entries.entries.map fun e => pickedLine color width e.1 e.2) ++
      skippedPart verbosity color width r.skipped

def restrictedText (report : Report) (verbosity : Verbosity) (color : Bool) (t : Table String) :
    String :=
  if verbosity = .quiet then String.join (t.entries.map fun e => quietLine e.1 e.2)
  else
    let width := columnWidth t.keys
    report.heading color (constraintCounts t) ++
      String.join (t.entries.map fun e => restrictedLine color width e.1 e.2)

def text (r : Report) (verbosity : Verbosity) (color : Bool) : String :=
  match r.finding with
  | .resolved resolution => r.resolvedText verbosity color resolution
  | .restricted constraints => r.restrictedText verbosity color constraints

end Report

end Requirements
