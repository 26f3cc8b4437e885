/-!
Values of a TOML document. A table remembers how it came about, since that decides what may still
be added to it.
-/
namespace ReadonlyLint.Toml

/-- How a table came about. -/
inductive Origin where
  /-- Written in braces: nothing can be added. -/
  | inline
  /-- Named only on the way to a table with a header of its own. -/
  | implied
  /-- Made by the dots of a key. -/
  | dotted
  /-- Opened by a header of its own. -/
  | header
  deriving DecidableEq, Inhabited

/-- A value. Dates and floating point numbers are accepted wherever a value may stand, but nothing
reads them; of a floating point number it is only known whether it is in range. -/
inductive Value where
  | string (text : String)
  | integer (n : Int)
  | bool (b : Bool)
  | float (inRange : Bool)
  | date
  | array (items : List Value)
  | table (origin : Origin) (entries : List (String × Value))
  /-- The tables under one repeated `[[…]]` header. -/
  | tables (earlier : List (List (String × Value))) (last : List (String × Value))
  deriving Inhabited

/-- The entries of a table, in the order in which their keys first occur. -/
abbrev Entries := List (String × Value)

namespace Entries

/-- Gives a key a value, in its old place if it has one. -/
def put (key : String) (value : Value) : Entries → Entries
  | [] => [(key, value)]
  | (k, v) :: rest => if k = key then (key, value) :: rest else (k, v) :: put key value rest

end Entries

namespace Value

def bool? : Value → Option Bool
  | .bool b => some b
  | _ => none

def string? : Value → Option String
  | .string text => some text
  | _ => none

/-- A whole number below a bound. -/
def below? (bound : Nat) : Value → Option Nat
  | .integer (.ofNat n) => if n < bound then some n else none
  | _ => none

/-- The items of an array, written in brackets or as repeated tables. -/
def items? : Value → Option (List Value)
  | .array items => some items
  | .tables earlier last => some ((earlier ++ [last]).map (.table .header))
  | _ => none

def strings? (v : Value) : Option (List String) := do (← v.items?).mapM string?

/-! ## Numbers in range -/

mutual

/-- Whether every number in a value is in range: a whole number fits in 128 bits, and any other is
not too large for a double. -/
def inRange : Value → Bool
  | .integer n =>
    -0x80000000000000000000000000000000 ≤ n && n < 0x100000000000000000000000000000000
  | .float inRange => inRange
  | .array items => itemsInRange items
  | .table _ entries => entriesInRange entries
  | .tables earlier last => tablesInRange earlier && entriesInRange last
  | .string _ | .bool _ | .date => true

def itemsInRange : List Value → Bool
  | [] => true
  | item :: items => item.inRange && itemsInRange items

def entriesInRange : List (String × Value) → Bool
  | [] => true
  | (_, value) :: entries => value.inRange && entriesInRange entries

def tablesInRange : List (List (String × Value)) → Bool
  | [] => true
  | entries :: others => entriesInRange entries && tablesInRange others

end

/-! ## Records -/

/-- The fields of a record, by their names. A record is a table with the names as keys, where other
keys are skipped if their numbers are in range, or an array with the fields in order, whatever comes
after them. A date is a record without any of the fields. -/
def fields? (names : List String) (v : Value) : Option (List (Option Value)) :=
  match v with
  | .table _ entries =>
    if (entries.filter (·.1 ∉ names)).all (·.2.inRange) then some (names.map fun name => entries.lookup name)
    else none
  | .date => some (names.map fun _ => none)
  | _ => v.items?.map fun items => names.mapIdx fun place _ => items[place]?

end Value

end ReadonlyLint.Toml
