import Requirements.Toml
import Requirements.Toml.Moment
import Requirements.Toml.Text

/-!
# Reading TOML

A document is a sequence of lines. A line is empty, opens the table of a header,
or gives a value to a key in the table opened last. Arrays and tables in braces
lie at most eighty deep in each other. A document with headers for the tables of
an array is refused.
-/

namespace Requirements.Toml

/-- The text without white space in front, within the line. -/
def skipSpace (cs : List Char) : List Char :=
  cs.dropWhile isSpace

/-- The text from the end of the line on, if nothing but a comment is left of it. -/
def lineEnd? (cs : List Char) : Option (List Char) :=
  match skipSpace cs with
  | [] => some []
  | '#' :: cs =>
      match cs.dropWhile isTextChar with
      | [] => some []
      | rest => lineBreak? rest
  | cs => lineBreak? cs

/-- The text without white space, line breaks and comments in front; `fuel`
bounds the number of lines. -/
def skipLines : (fuel : Nat) → List Char → Option (List Char)
  | 0, cs => some cs
  | fuel + 1, cs =>
      match skipSpace cs with
      | [] => some []
      | c :: rest =>
          if c == '#' || c == '\n' || c == '\r' then do
            skipLines fuel (← lineEnd? (c :: rest))
          else some (c :: rest)

/-- The text without white space, line breaks and comments in front. -/
def skipBetween (cs : List Char) : Option (List Char) :=
  skipLines cs.length cs

/-- The characters of keys without quotes. -/
def isBareKeyChar (c : Char) : Bool :=
  c.isAlphanum || c == '_' || c == '-'

def key? (cs : List Char) : Option (String × List Char) :=
  match cs with
  | '"' :: cs => shortText? '"' cs
  | '\'' :: cs => shortText? '\'' cs
  | _ =>
      match cs.takeWhile isBareKeyChar with
      | [] => none
      | bare => some (String.ofList bare, cs.dropWhile isBareKeyChar)

/-- Keys with points between them, and what follows them; `fuel` bounds their
number. -/
def keyPath? : (fuel : Nat) → List Char → Option (List String × List Char)
  | 0, _ => none
  | fuel + 1, cs => do
      let (key, rest) ← key? (skipSpace cs)
      match skipSpace rest with
      | '.' :: rest => do
          let (keys, rest) ← keyPath? fuel rest
          return (key :: keys, rest)
      | rest => return ([key], rest)

/-- Keys with points between them and an equals sign, and what follows it. -/
def keyAndSign? (cs : List Char) : Option (List String × List Char) := do
  let (keys, rest) ← keyPath? cs.length cs
  match rest with
  | '=' :: rest => return (keys, skipSpace rest)
  | _ => none

/-- The characters that end a value without quotes. -/
def isSeparator (c : Char) : Bool :=
  isSpace c || c == '\n' || c == '\r' || c == '#' || c == ',' || c == '=' ||
    c == '[' || c == ']' || c == '\x7b' || c == '\x7d'

/-- The text up to the next separator, and what follows it. -/
def word (cs : List Char) : List Char × List Char :=
  (cs.takeWhile fun c => !isSeparator c, cs.dropWhile fun c => !isSeparator c)

/-- What is written of a value without quotes, and what follows it. One space may
stand between a date and a time. -/
def bareValue (cs : List Char) : List Char × List Char :=
  let (first, rest) := word cs
  match rest with
  | ' ' :: c :: cs =>
      if isDate first && c.isDigit then
        let (second, rest) := word (c :: cs)
        (first ++ ' ' :: second, rest)
      else (first, rest)
  | _ => (first, rest)

/-- The value that is written without quotes. -/
def ofBare? (cs : List Char) : Option Toml :=
  match integer? cs with
  | some n => some (.integer n)
  | none =>
      let written := String.ofList cs
      if written = "true" then some (.boolean true)
      else if written = "false" then some (.boolean false)
      else if isMalformedInteger cs then some (.malformedInteger written)
      else if isFloat cs then some (.float written)
      else if isMoment cs then some (.moment written)
      else none

/-- How many arrays and tables in braces may lie in each other. -/
def nestingLimit : Nat := 80

mutual

/-- A value in which at most `room` brackets may be open at once, and what
follows it. Every call spends one unit of fuel. -/
def value? : (fuel room : Nat) → List Char → Option (Toml × List Char)
  | 0, _, _ => none
  | fuel + 1, room, cs =>
      match cs with
      | '"' :: cs => (text? '"' cs).map fun (s, rest) => (.text s, rest)
      | '\'' :: cs => (text? '\'' cs).map fun (s, rest) => (.text s, rest)
      | '[' :: cs =>
          match room with
          | 0 => none
          | room + 1 => (items? fuel room cs).map fun (items, rest) => (.array items, rest)
      | '\x7b' :: cs =>
          match room with
          | 0 => none
          | room + 1 =>
              (members? fuel room [] cs).map fun (ms, rest) => (.table .inline ms, rest)
      | cs => do
          let (written, rest) := bareValue cs
          return (← ofBare? written, rest)

/-- The items of an array up to its closing bracket, and what follows it. -/
def items? : (fuel room : Nat) → List Char → Option (List Toml × List Char)
  | 0, _, _ => none
  | fuel + 1, room, cs => do
      match ← skipBetween cs with
      | ']' :: rest => return ([], rest)
      | cs => do
          let (item, rest) ← value? fuel room cs
          match ← skipBetween rest with
          | ',' :: rest => do
              let (items, rest) ← items? fuel room rest
              return (item :: items, rest)
          | ']' :: rest => return ([item], rest)
          | _ => none

/-- The members of a table up to its closing brace, added to those before them,
and what follows it. -/
def members? : (fuel room : Nat) → Members → List Char → Option (Members × List Char)
  | 0, _, _, _ => none
  | fuel + 1, room, ms, cs => do
      match ← skipBetween cs with
      | '\x7d' :: rest => return (ms, rest)
      | cs => do
          let (keys, rest) ← keyPath? cs.length cs
          match ← skipBetween rest with
          | '=' :: rest => do
              let (value, rest) ← value? fuel room (← skipBetween rest)
              let ms ← assign keys value ms
              match ← skipBetween rest with
              | ',' :: rest => members? fuel room ms rest
              | '\x7d' :: rest => return (ms, rest)
              | _ => none
          | _ => none

end

/-- The lines of a document, added to the tables before them. `header` is the
table opened last; `fuel` bounds the number of lines. -/
def lines? : (fuel : Nat) → (header : List String) → Members → List Char → Option Members
  | 0, _, _, _ => none
  | fuel + 1, header, ms, cs =>
      match skipSpace cs with
      | [] => some ms
      | '[' :: cs => do
          let (keys, rest) ← keyPath? cs.length cs
          match rest with
          | ']' :: rest => do
              let ms ← openTable keys ms
              lines? fuel keys ms (← lineEnd? rest)
          | _ => none
      | c :: cs =>
          if c == '#' || c == '\n' || c == '\r' then do
            lines? fuel header ms (← lineEnd? (c :: cs))
          else do
            let (keys, rest) ← keyAndSign? (c :: cs)
            let (value, rest) ← value? (2 * rest.length + 1) nestingLimit rest
            let ms ← assignIn header keys value ms
            lines? fuel header ms (← lineEnd? rest)

/-- Read a document into the members of its outermost table. A byte order mark
in front is skipped. -/
def read? (text : String) : Option Members :=
  let cs := match text.toList with
    | '\uFEFF' :: cs => cs
    | cs => cs
  lines? (cs.length + 1) [] [] cs

end Requirements.Toml
