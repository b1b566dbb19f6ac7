import Requirements.Text.Digit

/-!
# Numbers of TOML

An integer is in base ten, or in base two, eight or sixteen after a prefix that
tells so. A float has a fraction, an exponent or both, or is infinite or no
number. Single underscores may stand between the digits of either. Some texts
count as integers by how they begin and have no value.
-/

namespace Requirements.Toml

/-- The text before the first character that passes a test, and the text after
that character, if there is one. -/
def cut (test : Char → Bool) (cs : List Char) : List Char × Option (List Char) :=
  match cs.dropWhile fun c => !test c with
  | [] => (cs, none)
  | _ :: rest => (cs.takeWhile fun c => !test c, some rest)

/-- The digits of a number: groups of one or more of them, with single
underscores between the groups. -/
def digits? (isDigit : Char → Bool) (cs : List Char) : Option (List Char) :=
  let groups := cs.splitOnP (· == '_')
  if groups.all fun g => !g.isEmpty && g.all isDigit then some groups.flatten else none

/-- The value of a digit in a base up to sixteen. -/
def digitIn? (base : Nat) (c : Char) : Option Nat := do
  let n ← Text.hexDigit? c
  if n < base then some n else none

def number? (base : Nat) (cs : List Char) : Option Nat := do
  let ds ← digits? (fun c => (digitIn? base c).isSome) cs
  ds.foldlM (fun n c => (digitIn? base c).map (base * n + ·)) 0

/-- A number in base ten. A zero starts no other number. -/
def decimal? (cs : List Char) : Option Nat := do
  match ← digits? Char.isDigit cs with
  | '0' :: _ :: _ => none
  | ds => return Text.decimalValue ds

/-- A text without the sign it may start with, and whether that is a minus. -/
def unsigned : List Char → Bool × List Char
  | '-' :: cs => (true, cs)
  | '+' :: cs => (false, cs)
  | cs => (false, cs)

/-- An integer. Only numbers in base ten carry a sign. -/
def integer? : List Char → Option Int
  | '0' :: 'x' :: cs => (number? 16 cs).map Int.ofNat
  | '0' :: 'o' :: cs => (number? 8 cs).map Int.ofNat
  | '0' :: 'b' :: cs => (number? 2 cs).map Int.ofNat
  | cs => do
      let (negative, cs) := unsigned cs
      let n ← decimal? cs
      return if negative then -(n : Int) else n

def isBasePrefix (cs : List Char) : Bool :=
  cs == ['0', 'x'] || cs == ['0', 'o'] || cs == ['0', 'b']

/-- Whether a text without a sign begins like an integer in base ten with groups
of digits. The first group has decimal digits only. The others may hold anything
but a point or an exponent, as long as the characters next to underscores are
digits, for which the hexadecimal ones pass. -/
def beginsGrouped (cs : List Char) : Bool :=
  let isHex (c : Char) : Bool := (Text.hexDigit? c).isSome
  match cs.splitOnP (· == '_') with
  | first :: second :: more =>
      let groups := second :: more
      !first.isEmpty && first.all Char.isDigit && first.head? != some '0' &&
        groups.all (fun g => g.head?.any isHex) &&
        groups.dropLast.all (fun g => g.getLast?.any isHex) &&
        cs.all fun c => c != '.' && c != 'e' && c != 'E'
  | _ => false

/-- Whether a text counts as an integer without being one: the prefix of a base
without digits, or groups with other characters among the digits. -/
def isMalformedInteger (cs : List Char) : Bool :=
  (integer? cs).isNone && (isBasePrefix cs || beginsGrouped (unsigned cs).2)

/-- Whether a text is a run of digits, which may start with zeros. -/
def isDigits (cs : List Char) : Bool :=
  (digits? Char.isDigit cs).isSome

/-- Whether a text is a float without a sign. -/
def isUnsignedFloat (cs : List Char) : Bool :=
  let (mantissa, exponent) := cut (fun c => c == 'e' || c == 'E') cs
  let (whole, fraction) := cut (· == '.') mantissa
  (decimal? whole).isSome && (fraction.isSome || exponent.isSome) &&
    fraction.all isDigits && exponent.all fun e => isDigits (unsigned e).2

def isFloat (cs : List Char) : Bool :=
  let (_, cs) := unsigned cs
  cs == ['i', 'n', 'f'] || cs == ['n', 'a', 'n'] || isUnsignedFloat cs

end Requirements.Toml
