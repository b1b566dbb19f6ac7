/-!
# TOML documents

A document is a tree of tables and arrays with texts, numbers, Booleans and dates
at its leaves. Floats and dates are kept as text: nothing here computes with them.
Each table remembers how it came about, because that decides which later lines
may add to it: a table is complete once its header or its braces are closed, and
no key is given twice.
-/

namespace Requirements

/-- How a table came about. -/
inductive TableOrigin where
  /-- By its own header. -/
  | header
  /-- By the header of a table inside it. -/
  | implied
  /-- By a key with points. -/
  | dotted
  /-- In braces. -/
  | inline
  deriving DecidableEq, Repr

inductive Toml where
  | text (value : String)
  | integer (value : Int)
  /-- What counts as an integer and has no value, as it is written. It is refused
  only where a value is needed. -/
  | malformedInteger (written : String)
  | boolean (value : Bool)
  /-- A float, as it is written. -/
  | float (written : String)
  /-- A date, a time of day or both, as they are written. -/
  | moment (written : String)
  | array (items : List Toml)
  | table (origin : TableOrigin) (members : List (String × Toml))
  deriving Repr, Inhabited

namespace Toml

abbrev Members := List (String × Toml)

def replace (key : String) (value : Toml) : Members → Members
  | [] => []
  | m :: ms => if m.1 = key then (key, value) :: ms else m :: replace key value ms

/-- Put a value under a key path. Tables on the way are made, or are tables that
earlier key paths made; the last key has to be new. -/
def assign : List String → Toml → Members → Option Members
  | [], _, _ => none
  | [key], value, ms => if (ms.lookup key).isSome then none else some (ms ++ [(key, value)])
  | key :: keys, value, ms =>
      match ms.lookup key with
      | none => do
          let sub ← assign keys value []
          return ms ++ [(key, .table .dotted sub)]
      | some (.table .dotted sub) => do
          let sub ← assign keys value sub
          return replace key (.table .dotted sub) ms
      | some _ => none

/-- Open the table of a header. The tables on the way may be of any origin but
braces; the last one is new, or was only implied so far. -/
def openTable : List String → Members → Option Members
  | [], ms => some ms
  | [key], ms =>
      match ms.lookup key with
      | none => some (ms ++ [(key, .table .header [])])
      | some (.table .implied sub) => some (replace key (.table .header sub) ms)
      | some _ => none
  | key :: keys, ms =>
      match ms.lookup key with
      | none => do
          let sub ← openTable keys []
          return ms ++ [(key, .table .implied sub)]
      | some (.table .inline _) => none
      | some (.table origin sub) => do
          let sub ← openTable keys sub
          return replace key (.table origin sub) ms
      | some _ => none

/-- Put a value under a key path inside the table of a header. -/
def assignIn : List String → List String → Toml → Members → Option Members
  | [], keys, value, ms => assign keys value ms
  | name :: names, keys, value, ms =>
      match ms.lookup name with
      | some (.table origin sub) => do
          let sub ← assignIn names keys value sub
          return replace name (.table origin sub) ms
      | _ => none

end Toml

end Requirements
