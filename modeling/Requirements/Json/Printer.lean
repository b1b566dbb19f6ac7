import Requirements.Json
import Requirements.Text.Digit

/-!
# Printing JSON

The compact form has no white space. The indented form puts every item and
member on a line of its own, two spaces further in than its container, and
writes empty containers as bare brackets.
-/

namespace Requirements.Json

/-- A character inside a string. Quotes, backslashes and control characters are
escaped; all others stand for themselves. -/
def escape (c : Char) : List Char :=
  if c == '"' then ['\\', '"']
  else if c == '\\' then ['\\', '\\']
  else if c == '\n' then ['\\', 'n']
  else if c == '\r' then ['\\', 'r']
  else if c == '\t' then ['\\', 't']
  else if c == '\x08' then ['\\', 'b']
  else if c == '\x0c' then ['\\', 'f']
  else if c.toNat < 0x20 then
    ['\\', 'u', '0', '0', Text.hexChar (c.toNat / 16), Text.hexChar (c.toNat % 16)]
  else [c]

def quote (s : String) : String :=
  "\"" ++ String.ofList (s.toList.flatMap escape) ++ "\""

/-- Lines one level further in than `depth`. -/
def newline (depth : Nat) : String :=
  "\n" ++ String.ofList (List.replicate (2 * depth) ' ')

mutual

def compact : Json → String
  | .null => "null"
  | .bool true => "true"
  | .bool false => "false"
  | .integer n => toString n
  | .fraction text => text
  | .string s => quote s
  | .array items => "[" ++ ",".intercalate (compactItems items) ++ "]"
  | .object members => "\x7b" ++ ",".intercalate (compactMembers members) ++ "\x7d"

def compactItems : List Json → List String
  | [] => []
  | j :: js => compact j :: compactItems js

def compactMembers : List (String × Json) → List String
  | [] => []
  | (name, j) :: ms => (quote name ++ ":" ++ compact j) :: compactMembers ms

end

mutual

/-- The indented form of a value that stands at the given depth. -/
def indented (depth : Nat) : Json → String
  | .null => "null"
  | .bool true => "true"
  | .bool false => "false"
  | .integer n => toString n
  | .fraction text => text
  | .string s => quote s
  | .array [] => "[]"
  | .array (j :: js) => "[" ++ indentedItems (depth + 1) (j :: js) ++ newline depth ++ "]"
  | .object [] => "\x7b\x7d"
  | .object (m :: ms) =>
      "\x7b" ++ indentedMembers (depth + 1) (m :: ms) ++ newline depth ++ "\x7d"

/-- The items of an array, each on its own line. -/
def indentedItems (depth : Nat) : List Json → String
  | [] => ""
  | [j] => newline depth ++ indented depth j
  | j :: js => newline depth ++ indented depth j ++ "," ++ indentedItems depth js

/-- The members of an object, each on its own line. -/
def indentedMembers (depth : Nat) : List (String × Json) → String
  | [] => ""
  | [(name, j)] => newline depth ++ quote name ++ ": " ++ indented depth j
  | (name, j) :: ms =>
      newline depth ++ quote name ++ ": " ++ indented depth j ++ "," ++ indentedMembers depth ms

end

def pretty (j : Json) : String :=
  indented 0 j

end Requirements.Json
