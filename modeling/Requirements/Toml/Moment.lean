import Requirements.Toml.Number

/-!
# Dates and times of TOML

A date has a year of four digits and a month and a day of two, and exists in the
Gregorian calendar. A time of day has an hour and a minute, and may have a second
with a fraction. Both together may tell how far the clock is from universal time.
-/

namespace Requirements.Toml

/-- The value of a run of exactly `width` digits. -/
def fixed? (width : Nat) (cs : List Char) : Option Nat :=
  if cs.length = width && cs.all Char.isDigit then some (Text.decimalValue cs) else none

/-- Whether a text is a number of two digits up to a limit. -/
def isUpTo (limit : Nat) (cs : List Char) : Bool :=
  (fixed? 2 cs).any (· ≤ limit)

def isLeapYear (year : Nat) : Bool :=
  year % 4 == 0 && (year % 100 != 0 || year % 400 == 0)

def monthLength (year month : Nat) : Nat :=
  if month = 2 then if isLeapYear year then 29 else 28
  else if month = 4 || month = 6 || month = 9 || month = 11 then 30
  else 31

def isDate (cs : List Char) : Bool :=
  match cs.splitOnP (· == '-') with
  | [year, month, day] =>
      match fixed? 4 year, fixed? 2 month, fixed? 2 day with
      | some y, some m, some d => 1 ≤ m && m ≤ 12 && 1 ≤ d && d ≤ monthLength y m
      | _, _, _ => false
  | _ => false

/-- Whether a text is a second, with a fraction or without. A leap second is the
sixtieth. -/
def isSecond (cs : List Char) : Bool :=
  let (second, fraction) := cut (· == '.') cs
  isUpTo 60 second && fraction.all fun f => !f.isEmpty && f.all Char.isDigit

def isTime (cs : List Char) : Bool :=
  match cs.splitOnP (· == ':') with
  | [hour, minute] => isUpTo 23 hour && isUpTo 59 minute
  | [hour, minute, second] => isUpTo 23 hour && isUpTo 59 minute && isSecond second
  | _ => false

/-- Whether a text tells how far a clock is from universal time: not at all, or
some hours and minutes ahead or behind. -/
def isOffset : List Char → Bool
  | [] => false
  | c :: cs =>
      if c == 'Z' || c == 'z' then cs.isEmpty
      else
        match cs.splitOnP (· == ':') with
        | [hour, minute] => (c == '+' || c == '-') && isUpTo 23 hour && isUpTo 59 minute
        | _ => false

/-- Whether a text is a date, a time of day, or both with a letter or a space
between them and perhaps an offset. -/
def isMoment (cs : List Char) : Bool :=
  let inTime (c : Char) : Bool := c.isDigit || c == ':' || c == '.'
  isDate cs || isTime cs ||
    match cs.drop 10 with
    | [] => false
    | c :: rest =>
        let offset := rest.dropWhile inTime
        isDate (cs.take 10) && (c == 'T' || c == 't' || c == ' ') &&
          isTime (rest.takeWhile inTime) && (offset.isEmpty || isOffset offset)

end Requirements.Toml
