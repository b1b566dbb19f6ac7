import Requirements.Text.Digit

/-!
# Texts of TOML

Texts stand in double quotes, with escapes, or in single quotes, without. Three
quotes open a text of several lines, whose line breaks stay as they are written.
-/

namespace Requirements.Toml

/-- White space within a line. -/
def isSpace (c : Char) : Bool :=
  c == ' ' || c == '\t'

/-- The characters of texts and comments: all but the control characters, of
which the tab is allowed. -/
def isTextChar (c : Char) : Bool :=
  c == '\t' || (0x20 ≤ c.toNat && c.toNat != 0x7F)

def lineBreak? : List Char → Option (List Char)
  | '\n' :: cs => some cs
  | '\r' :: '\n' :: cs => some cs
  | _ => none

def unescape? (c : Char) : Option Char :=
  if c == '"' || c == '\\' then some c
  else if c == 'b' then some '\x08'
  else if c == 'e' then some '\x1b'
  else if c == 'f' then some '\x0c'
  else if c == 'n' then some '\n'
  else if c == 'r' then some '\r'
  else if c == 't' then some '\t'
  else none

/-- The character of a code point in hexadecimal digits. -/
def codePoint? (digits : List Char) : Option Char := do
  let n ← Text.hexValue? digits
  if h : n.isValidChar then return Char.ofNatAux n h else none

/-- The characters of a text as written between its quotes. Line breaks occur in
`long` texts only and are kept, with a carriage return if they have one. A
backslash at the end of a line drops the white space up to the next character,
which is what `skipping` does. -/
def decode (escapes long : Bool) : (skipping : Bool) → List Char → Option (List Char)
  | _, [] => some []
  | skipping, '\r' :: '\n' :: cs =>
      if skipping then decode escapes long true cs
      else if long then (decode escapes long false cs).map ('\r' :: '\n' :: ·)
      else none
  | skipping, '\n' :: cs =>
      if skipping then decode escapes long true cs
      else if long then (decode escapes long false cs).map ('\n' :: ·)
      else none
  | skipping, c :: cs =>
      if skipping && isSpace c then decode escapes long true cs
      else if escapes && c == '\\' then
        match cs with
        | 'x' :: a :: b :: cs => do
            let c ← codePoint? [a, b]
            (decode escapes long false cs).map (c :: ·)
        | 'u' :: a :: b :: c :: d :: cs => do
            let c ← codePoint? [a, b, c, d]
            (decode escapes long false cs).map (c :: ·)
        | 'U' :: a :: b :: c :: d :: e :: f :: g :: h :: cs => do
            let c ← codePoint? [a, b, c, d, e, f, g, h]
            (decode escapes long false cs).map (c :: ·)
        | [] => none
        | c :: cs' =>
            match unescape? c with
            | some c => (decode escapes long false cs').map (c :: ·)
            | none =>
                if long && (lineBreak? ((c :: cs').dropWhile isSpace)).isSome then
                  decode escapes long true (c :: cs')
                else none
      else if isTextChar c then (decode escapes long false cs).map (c :: ·)
      else none

/-- What is written up to the closing quote, and the text after it. With
`escapes`, a backslash keeps the next character from closing. -/
def shortBody? (quote : Char) (escapes : Bool) : List Char → Option (List Char × List Char)
  | [] => none
  | [c] => if c == quote then some ([], []) else none
  | c :: d :: cs =>
      if c == quote then some ([], d :: cs)
      else if escapes && c == '\\' then
        (shortBody? quote escapes cs).map fun (body, rest) => (c :: d :: body, rest)
      else (shortBody? quote escapes (d :: cs)).map fun (body, rest) => (c :: body, rest)

/-- What is written up to the three closing quotes, and the text after them. One
or two quotes may stand right before the closing ones. -/
def longBody? (quote : Char) (escapes : Bool) : List Char → Option (List Char × List Char)
  | [] => none
  | [_] => none
  | c :: d :: cs =>
      if c == quote then
        let count := 1 + ((d :: cs).takeWhile (· == quote)).length
        if count < 3 then
          (longBody? quote escapes (d :: cs)).map fun (body, rest) => (c :: body, rest)
        else if count ≤ 5 then
          some (List.replicate (count - 3) quote, (c :: d :: cs).drop count)
        else none
      else if escapes && c == '\\' then
        (longBody? quote escapes cs).map fun (body, rest) => (c :: d :: body, rest)
      else (longBody? quote escapes (d :: cs)).map fun (body, rest) => (c :: body, rest)

/-- A text on one line that opened with the given quote, and what follows it. -/
def shortText? (quote : Char) (cs : List Char) : Option (String × List Char) := do
  let escapes := quote == '"'
  let (body, rest) ← shortBody? quote escapes cs
  return (String.ofList (← decode escapes false false body), rest)

/-- A text that opened with the given quote, and what follows it. A line break
right after three quotes does not belong to the text. -/
def text? (quote : Char) (cs : List Char) : Option (String × List Char) :=
  match cs with
  | c :: d :: rest =>
      if c == quote && d == quote then do
        let escapes := quote == '"'
        let (body, rest) ← longBody? quote escapes ((lineBreak? rest).getD rest)
        return (String.ofList (← decode escapes true false body), rest)
      else shortText? quote cs
  | _ => shortText? quote cs

end Requirements.Toml
