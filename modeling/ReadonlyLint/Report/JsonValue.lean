/-!
JSON values with their members in order, and their text on several lines.
-/
namespace ReadonlyLint

/-- A JSON value. All numbers of the reports are natural. -/
inductive JsonValue where
  | null
  | bool (b : Bool)
  | nat (n : Nat)
  | str (s : String)
  | arr (elements : List JsonValue)
  | obj (members : List (String × JsonValue))
  deriving Inhabited

namespace JsonValue

/-! ## Strings -/

/-- The hexadecimal digit for a number below sixteen. -/
def hexDigit (n : Nat) : Char := if n < 10 then Char.ofNat (48 + n) else Char.ofNat (87 + n)

/-- A character inside of a string: quotes, backslashes and control characters are escaped, and
nothing else. -/
def escape (c : Char) : List Char :=
  if c = '"' then ['\\', '"']
  else if c = '\\' then ['\\', '\\']
  else if c = '\n' then ['\\', 'n']
  else if c = '\r' then ['\\', 'r']
  else if c = '\t' then ['\\', 't']
  else if c.toNat = 8 then ['\\', 'b']
  else if c.toNat = 12 then ['\\', 'f']
  else if c.toNat < 32 then ['\\', 'u', '0', '0', hexDigit (c.toNat / 16), hexDigit (c.toNat % 16)]
  else [c]

def quote (s : String) : String := "\"" ++ String.ofList (s.toList.flatMap escape) ++ "\""

/-! ## Layout -/

/-- A new line with the indentation of the given depth. -/
def newline (depth : Nat) : String := "\n" ++ "".pushn ' ' (2 * depth)

/-- Brackets around parts that stand on lines of their own. -/
def bracket (opening closing : String) (depth : Nat) (parts : List String) : String :=
  if parts.isEmpty then opening ++ closing
  else
    opening ++ newline (depth + 1) ++ String.intercalate ("," ++ newline (depth + 1)) parts ++
      newline depth ++ closing

mutual

/-- The text of a value, indented by two spaces for each level. -/
def pretty (depth : Nat) : JsonValue → String
  | .null => "null"
  | .bool b => if b then "true" else "false"
  | .nat n => toString n
  | .str s => quote s
  | .arr elements => bracket "[" "]" depth (prettyElements (depth + 1) elements)
  | .obj members => bracket "\x7b" "\x7d" depth (prettyMembers (depth + 1) members)

def prettyElements (depth : Nat) : List JsonValue → List String
  | [] => []
  | value :: rest => pretty depth value :: prettyElements depth rest

def prettyMembers (depth : Nat) : List (String × JsonValue) → List String
  | [] => []
  | (key, value) :: rest =>
    (quote key ++ ": " ++ pretty depth value) :: prettyMembers depth rest

end

/-- A member that is there only when there is a value. -/
def optional {α : Type} (key : String) (value : Option α) (f : α → JsonValue) :
    List (String × JsonValue) :=
  (value.map fun a => (key, f a)).toList

/-- A member that is there only when the list is not empty. -/
def nonEmpty {α : Type} (key : String) (values : List α) (f : α → JsonValue) :
    List (String × JsonValue) :=
  if values.isEmpty then [] else [(key, .arr (values.map f))]

end JsonValue

end ReadonlyLint
