/-!
# Decimal digits and bounded numerals

Two classes of digit occur. A version component may be written with decimal
digits of any script, but only ASCII digits have a value here. A numeral has
to fit an unsigned 64-bit word.
-/

namespace Requirements.Text

/-- The zeros of the Unicode category Nd; each starts a run of ten digits. -/
def digitZeros : List Nat := [
  0x30, 0x660, 0x6F0, 0x7C0, 0x966, 0x9E6, 0xA66, 0xAE6, 0xB66, 0xBE6, 0xC66, 0xCE6, 0xD66,
  0xDE6, 0xE50, 0xED0, 0xF20, 0x1040, 0x1090, 0x17E0, 0x1810, 0x1946, 0x19D0, 0x1A80, 0x1A90,
  0x1B50, 0x1BB0, 0x1C40, 0x1C50, 0xA620, 0xA8D0, 0xA900, 0xA9D0, 0xA9F0, 0xAA50, 0xABF0, 0xFF10,
  0x104A0, 0x10D30, 0x10D40, 0x11066, 0x110F0, 0x11136, 0x111D0, 0x112F0, 0x11450, 0x114D0,
  0x11650, 0x116C0, 0x116D0, 0x116DA, 0x11730, 0x118E0, 0x11950, 0x11BF0, 0x11C50, 0x11D50,
  0x11DA0, 0x11F50, 0x16130, 0x16A60, 0x16AC0, 0x16B50, 0x16D70, 0x1CCF0, 0x1D7CE, 0x1D7D8,
  0x1D7E2, 0x1D7EC, 0x1D7F6, 0x1E140, 0x1E2F0, 0x1E4F0, 0x1E5F1, 0x1E950, 0x1FBF0]

/-- The runs are in order and do not overlap. -/
theorem digitZeros_pairwise : digitZeros.Pairwise (· + 10 ≤ ·) := by
  decide

/-- The characters of the Unicode category Nd. -/
def isDecimalDigit (c : Char) : Bool :=
  digitZeros.any fun start => start ≤ c.toNat && c.toNat < start + 10

/-- The largest value of a numeral: an unsigned 64-bit word of ones. -/
def wordMax : Nat := 0xFFFFFFFFFFFFFFFF

def decimalValue (ds : List Char) : Nat :=
  Nat.ofDigitChars 10 ds 0

/-- The value of a numeral: one or more ASCII digits that fit a word. -/
def numeral? (ds : List Char) : Option Nat :=
  if !ds.isEmpty && ds.all Char.isDigit && decimalValue ds ≤ wordMax then
    some (decimalValue ds)
  else
    none

/-- A numeral that may carry one plus sign. -/
def signedNumeral? : List Char → Option Nat
  | '+' :: ds => numeral? ds
  | ds => numeral? ds

/-- The value of a hexadecimal digit of either case. -/
def hexDigit? (c : Char) : Option Nat :=
  if c.isDigit then some (c.toNat - '0'.toNat)
  else if 'a' ≤ c && c ≤ 'f' then some (c.toNat - 'a'.toNat + 10)
  else if 'A' ≤ c && c ≤ 'F' then some (c.toNat - 'A'.toNat + 10)
  else none

def hexValue? (cs : List Char) : Option Nat :=
  cs.foldlM (fun n c => (hexDigit? c).map (16 * n + ·)) 0

def hexChar (n : Nat) : Char :=
  Nat.digitChar n

/-- A number in decimal notation, without leading zeros. -/
def decimal (n : Nat) : List Char :=
  Nat.toDigits 10 n

theorem decimalValue_decimal (n : Nat) : decimalValue (decimal n) = n :=
  Nat.ofDigitChars_toDigits (by decide) (by decide)

end Requirements.Text
