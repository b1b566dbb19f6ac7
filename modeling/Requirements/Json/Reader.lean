import Requirements.Json
import Requirements.Text.Digit

/-!
# Reading JSON

The reader is strict: no comma before a closing bracket, no byte order mark, no
control character in a string, no surrogate without its partner, and only
white space after the value.
-/

namespace Requirements.Json

def isSpace (c : Char) : Bool :=
  c == ' ' || c == '\t' || c == '\n' || c == '\r'

def skipSpace (cs : List Char) : List Char :=
  cs.dropWhile isSpace

/-- The character of a one-letter escape. -/
def unescape? (c : Char) : Option Char :=
  if c == '"' || c == '\\' || c == '/' then some c
  else if c == 'b' then some '\x08'
  else if c == 'f' then some '\x0c'
  else if c == 'n' then some '\n'
  else if c == 'r' then some '\r'
  else if c == 't' then some '\t'
  else none

def isHighSurrogate (n : Nat) : Bool :=
  0xD800 ≤ n && n < 0xDC00

def isLowSurrogate (n : Nat) : Bool :=
  0xDC00 ≤ n && n < 0xE000

def joinSurrogates (high low : Nat) : Char :=
  Char.ofNat (0x10000 + (high - 0xD800) * 0x400 + (low - 0xDC00))

/-- The characters of a string up to its closing quote, and the text after it. -/
def readString : List Char → Option (List Char × List Char)
  | [] => none
  | '"' :: cs => some ([], cs)
  | '\\' :: 'u' :: a :: b :: c :: d :: cs => do
      let n ← Text.hexValue? [a, b, c, d]
      if isHighSurrogate n then
        match cs with
        | '\\' :: 'u' :: e :: f :: g :: h :: cs => do
            let low ← Text.hexValue? [e, f, g, h]
            if isLowSurrogate low then
              let (s, rest) ← readString cs
              return (joinSurrogates n low :: s, rest)
            else none
        | _ => none
      else if isLowSurrogate n then none
      else
        let (s, rest) ← readString cs
        return (Char.ofNat n :: s, rest)
  | '\\' :: c :: cs => do
      let c ← unescape? c
      let (s, rest) ← readString cs
      return (c :: s, rest)
  | c :: cs =>
      if c.toNat < 0x20 || c == '\\' then none
      else do
        let (s, rest) ← readString cs
        return (c :: s, rest)

/-- A run of one or more digits and the text after it. -/
def digits? (cs : List Char) : Option (List Char × List Char) :=
  match cs.takeWhile Char.isDigit with
  | [] => none
  | ds => some (ds, cs.dropWhile Char.isDigit)

/-- The digits of a whole number: a zero starts no other number. -/
def wholeDigits? (cs : List Char) : Option (List Char × List Char) :=
  match cs with
  | '0' :: rest => some (['0'], rest)
  | _ => digits? cs

/-- A fraction part with its point, or nothing. -/
def fractionPart? : List Char → Option (List Char × List Char)
  | '.' :: cs => do
      let (ds, rest) ← digits? cs
      return ('.' :: ds, rest)
  | cs => some ([], cs)

/-- An exponent with its letter and sign, or nothing. -/
def exponentPart? (cs : List Char) : Option (List Char × List Char) :=
  match cs with
  | e :: rest =>
      if e == 'e' || e == 'E' then
        match rest with
        | s :: rest' =>
            if s == '+' || s == '-' then do
              let (ds, rest) ← digits? rest'
              return (e :: s :: ds, rest)
            else do
              let (ds, rest) ← digits? rest
              return (e :: ds, rest)
        | [] => none
      else some ([], cs)
  | [] => some ([], [])

/-- A number. Negative zero is no integer. -/
def readNumber (cs : List Char) : Option (Json × List Char) := do
  let (negative, cs) := match cs with
    | '-' :: rest => (true, rest)
    | _ => (false, cs)
  let (whole, cs) ← wholeDigits? cs
  let (places, cs) ← fractionPart? cs
  let (power, cs) ← exponentPart? cs
  let sign := if negative then ['-'] else []
  let n := Text.decimalValue whole
  if places.isEmpty && power.isEmpty && !(negative && n == 0) then
    return (.integer (if negative then -n else n), cs)
  else
    return (.fraction (String.ofList (sign ++ whole ++ places ++ power)), cs)

/-- The text after a given word. -/
def after? (word : String) (cs : List Char) : Option (List Char) :=
  if word.toList.isPrefixOf cs then some (cs.drop word.length) else none

mutual

/-- A value and the text after it. Every call spends one unit of fuel. -/
def readValue : Nat → List Char → Option (Json × List Char)
  | 0, _ => none
  | fuel + 1, cs =>
      match skipSpace cs with
      | [] => none
      | c :: cs =>
          if c == '"' then do
            let (s, rest) ← readString cs
            return (.string (String.ofList s), rest)
          else if c == '[' then
            match skipSpace cs with
            | ']' :: rest => some (.array [], rest)
            | cs => do
                let (items, rest) ← readItems fuel cs
                return (.array items, rest)
          else if c == '\x7b' then
            match skipSpace cs with
            | '\x7d' :: rest => some (.object [], rest)
            | cs => do
                let (members, rest) ← readMembers fuel cs
                return (.object members, rest)
          else if c == 'n' then (after? "ull" cs).map (.null, ·)
          else if c == 't' then (after? "rue" cs).map (.bool true, ·)
          else if c == 'f' then (after? "alse" cs).map (.bool false, ·)
          else readNumber (c :: cs)

/-- One or more items up to the closing bracket, and the text after it. -/
def readItems : Nat → List Char → Option (List Json × List Char)
  | 0, _ => none
  | fuel + 1, cs => do
      let (item, rest) ← readValue fuel cs
      match skipSpace rest with
      | ',' :: rest => do
          let (items, rest) ← readItems fuel rest
          return (item :: items, rest)
      | ']' :: rest => return ([item], rest)
      | _ => none

/-- One or more members up to the closing brace, and the text after it. -/
def readMembers : Nat → List Char → Option (List (String × Json) × List Char)
  | 0, _ => none
  | fuel + 1, cs =>
      match skipSpace cs with
      | '"' :: cs => do
          let (name, rest) ← readString cs
          match skipSpace rest with
          | ':' :: rest => do
              let (value, rest) ← readValue fuel rest
              match skipSpace rest with
              | ',' :: rest => do
                  let (members, rest) ← readMembers fuel rest
                  return ((String.ofList name, value) :: members, rest)
              | '\x7d' :: rest => return ([(String.ofList name, value)], rest)
              | _ => none
          | _ => none
      | _ => none

end

/-- Read a text that is one JSON value. No value needs more fuel than twice its
length, since of two nested calls at least one consumes a character. -/
def read? (text : String) : Option Json :=
  let cs := text.toList
  match readValue (2 * cs.length + 1) cs with
  | some (j, rest) => if (skipSpace rest).isEmpty then some j else none
  | none => none

end Requirements.Json
