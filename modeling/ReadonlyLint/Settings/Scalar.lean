import ReadonlyLint.Settings.Value
import ReadonlyLint.Settings.Text

/-!
The unquoted values of TOML: truth values, numbers and dates.
-/
namespace ReadonlyLint.Toml

/-! ## Numbers -/

/-- Goes on with the digits of a number. An underscore may stand between two digits. -/
def moreDigits? (base : Nat) (n : Nat) : List Char → Option Nat
  | [] => some n
  | '_' :: c :: cs => do moreDigits? base (n * base + (← digitValue? base c)) cs
  | c :: cs => do moreDigits? base (n * base + (← digitValue? base c)) cs

/-- The number that digits spell. -/
def digits? (base : Nat) : List Char → Option Nat
  | [] => none
  | c :: cs => do moreDigits? base (← digitValue? base c) cs

/-- A decimal number without needless zeros in front. -/
def decimal? : List Char → Option Nat
  | '0' :: _ :: _ => none
  | cs => digits? 10 cs

/-- A sign, if there is one, and what stands after it. -/
def unsigned : List Char → Bool × List Char
  | '+' :: cs => (false, cs)
  | '-' :: cs => (true, cs)
  | cs => (false, cs)

/-- A whole number; only decimal ones have a sign. -/
def integer? (cs : List Char) : Option Int :=
  match cs with
  | '0' :: 'x' :: cs => (digits? 16 cs).map Int.ofNat
  | '0' :: 'o' :: cs => (digits? 8 cs).map Int.ofNat
  | '0' :: 'b' :: cs => (digits? 2 cs).map Int.ofNat
  | cs =>
    let (negative, cs) := unsigned cs
    (decimal? cs).map fun n => if negative then -Int.ofNat n else Int.ofNat n

/-- Digits and underscores, and what stands after them. -/
def digitRun (cs : List Char) : List Char × List Char :=
  cs.span fun c => c.isDigit || c = '_'

/-- The least number that is nearer to the power of two after the largest double than to any
double. -/
def doubleLimit : Nat := (1 <<< 1024) - (1 <<< 970)

/-- Whether a whole number times a power of ten is below the limit of doubles. Between 10 ^ 308,
which is below it, and 10 ^ 309, which is not, the two are compared. -/
def isDouble (n : Nat) (exponent : Int) : Bool :=
  let digits := (Nat.toDigits 10 n).length
  let magnitude := exponent + digits
  n = 0 || magnitude < 309 ||
    (magnitude = 309 &&
      n * Nat.pow 10 exponent.toNat < doubleLimit * Nat.pow 10 (-exponent).toNat)

/-- The exponent that stands here; nothing means zero. -/
def exponent? : List Char → Option Int
  | [] => some 0
  | c :: cs =>
    if c = 'e' || c = 'E' then
      let (negative, cs) := unsigned cs
      (digits? 10 cs).map fun n => if negative then -Int.ofNat n else Int.ofNat n
    else none

/-- Whether a floating point number is in range: a whole number with a fraction, an exponent or both,
or one of the special values, which all are. -/
def float? (cs : List Char) : Option Bool := do
  let cs := (unsigned cs).2
  if cs = ['i', 'n', 'f'] || cs = ['n', 'a', 'n'] then return true
  let (whole, rest) := digitRun cs
  let n ← decimal? whole
  match rest with
  | [] => none
  | '.' :: rest =>
    let (fraction, rest) := digitRun rest
    let places := (fraction.filter (·.isDigit)).length
    let part ← digits? 10 fraction
    return isDouble (n * Nat.pow 10 places + part) ((← exponent? rest) - places)
  | rest => return isDouble n (← exponent? rest)

/-! ## Dates and times -/

/-- A number of exactly so many digits at the start, and what stands after it. -/
def fixedDigits? (width : Nat) (cs : List Char) : Option (Nat × List Char) :=
  let digits := cs.take width
  if digits.length = width && digits.all (·.isDigit) then
    (digits? 10 digits).map (·, cs.drop width)
  else none

/-- What stands after the given character. -/
def after? (c : Char) : List Char → Option (List Char)
  | d :: cs => if c = d then some cs else none
  | [] => none

def daysInMonth (year month : Nat) : Nat :=
  if month = 2 then
    if year % 4 = 0 && (year % 100 ≠ 0 || year % 400 = 0) then 29 else 28
  else if month ∈ [4, 6, 9, 11] then 30 else 31

/-- What stands after a date. -/
def afterDate? (cs : List Char) : Option (List Char) := do
  let (year, cs) ← fixedDigits? 4 cs
  let (month, cs) ← fixedDigits? 2 (← after? '-' cs)
  let (day, cs) ← fixedDigits? 2 (← after? '-' cs)
  if 1 ≤ month && month ≤ 12 && 1 ≤ day && day ≤ daysInMonth year month then some cs else none

/-- What stands after hours and minutes. -/
def afterMinutes? (cs : List Char) : Option (List Char) := do
  let (hour, cs) ← fixedDigits? 2 cs
  let (minute, cs) ← fixedDigits? 2 (← after? ':' cs)
  if hour ≤ 23 && minute ≤ 59 then some cs else none

/-- What stands after a time of day; the seconds may be left out. -/
def afterTime? (cs : List Char) : Option (List Char) := do
  match ← afterMinutes? cs with
  | ':' :: cs =>
    let (second, cs) ← fixedDigits? 2 cs
    if 60 < second then none
    match cs with
    | '.' :: cs =>
      if (cs.takeWhile (·.isDigit)).isEmpty then none else some (cs.dropWhile (·.isDigit))
    | cs => some cs
  | cs => some cs

/-- Whether this is nothing or an offset from universal time. -/
def isOffset : List Char → Bool
  | [] => true
  | ['Z'] | ['z'] => true
  | '+' :: cs | '-' :: cs => afterMinutes? cs = some []
  | _ => false

/-- Whether this is a date, a time of day or both; an offset needs both. -/
def isDate (cs : List Char) : Bool :=
  afterTime? cs = some [] || match afterDate? cs with
    | none => false
    | some [] => true
    | some (c :: cs) => (c = 'T' || c = 't' || c = ' ') && (afterTime? cs).any isOffset

/-! ## Values without quotes -/

def isScalarChar (c : Char) : Bool := c.isAlphanum || c ∈ ['_', '+', '-', '.', ':']

/-- The characters of an unquoted value and what stands after them. A blank may stand between a date
and a time of day. -/
def scalarText (cs : List Char) : List Char × List Char :=
  let (word, rest) := cs.span isScalarChar
  match rest with
  | ' ' :: c :: more =>
    if afterDate? word = some [] && c.isDigit then
      let (time, rest) := (c :: more).span isScalarChar
      (word ++ ' ' :: time, rest)
    else (word, rest)
  | _ => (word, rest)

/-- The value that unquoted characters stand for. -/
def scalar? (cs : List Char) : Option Value :=
  if cs = ['t', 'r', 'u', 'e'] then some (.bool true)
  else if cs = ['f', 'a', 'l', 's', 'e'] then some (.bool false)
  else if isDate cs then some .date
  else ((float? cs).map .float).or ((integer? cs).map .integer)

end ReadonlyLint.Toml
