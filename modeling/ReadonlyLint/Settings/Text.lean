/-!
The text level of TOML: blanks, line ends, comments and the four forms of quoted text. Readers take
the characters still to be read and give what they read with the characters after it.
-/
namespace ReadonlyLint.Toml

/-! ## Blanks, line ends and comments -/

def isBlank (c : Char) : Bool := c = ' ' || c = '\t'

/-- Whether a character may stand in a comment or between quotes: anything but control characters,
the tab aside. -/
def isPlain (c : Char) : Bool := c = '\t' || (32 ≤ c.toNat && c.toNat ≠ 127)

def skipBlanks (cs : List Char) : List Char := cs.dropWhile isBlank

/-- What stands after a comment, if one starts here. -/
def skipComment : List Char → List Char
  | '#' :: cs => cs.dropWhile isPlain
  | cs => cs

/-- What stands after a line end. -/
def newline? : List Char → Option (List Char)
  | '\n' :: cs => some cs
  | '\r' :: '\n' :: cs => some cs
  | _ => none

/-- What stands after the rest of a line that holds nothing more than a comment. -/
def lineEnd? (cs : List Char) : Option (List Char) :=
  match skipComment (skipBlanks cs) with
  | [] => some []
  | cs => newline? cs

theorem length_skipBlanks_le (cs : List Char) : (skipBlanks cs).length ≤ cs.length :=
  (List.dropWhile_sublist _).length_le

theorem length_skipComment_le (cs : List Char) : (skipComment cs).length ≤ cs.length := by
  unfold skipComment
  split
  · have := (List.dropWhile_sublist isPlain (l := ‹List Char›)).length_le
    simp only [List.length_cons]
    omega
  · exact Nat.le_refl _

theorem length_of_newline? {cs rest : List Char} (h : newline? cs = some rest) :
    rest.length < cs.length := by
  unfold newline? at h
  split at h
  · cases h
    exact Nat.lt_succ_self _
  · cases h
    exact Nat.lt_succ_of_lt (Nat.lt_succ_self _)
  · cases h

/-- What stands after blanks, line ends and comments. -/
def skipLayout (cs : List Char) : List Char :=
  match h : newline? (skipComment (skipBlanks cs)) with
  | some rest =>
    have := length_of_newline? h
    have := length_skipComment_le (skipBlanks cs)
    have := length_skipBlanks_le cs
    skipLayout rest
  | none => skipComment (skipBlanks cs)
termination_by cs.length

/-- What stands after blanks and line ends. -/
def skipBlankLines (cs : List Char) : List Char :=
  match h : newline? (skipBlanks cs) with
  | some rest =>
    have := length_of_newline? h
    have := length_skipBlanks_le cs
    skipBlankLines rest
  | none => skipBlanks cs
termination_by cs.length

theorem length_skipBlankLines_le (cs : List Char) : (skipBlankLines cs).length ≤ cs.length := by
  fun_induction skipBlankLines cs with
  | case1 cs rest h _ _ ih => omega
  | case2 cs h => exact length_skipBlanks_le cs

/-! ## Quoted text -/

/-- The value of a digit in bases up to sixteen. -/
def digitValue? (base : Nat) (c : Char) : Option Nat :=
  let value :=
    if c.isDigit then c.toNat - '0'.toNat
    else if 'a' ≤ c && c ≤ 'f' then c.toNat - 'a'.toNat + 10
    else if 'A' ≤ c && c ≤ 'F' then c.toNat - 'A'.toNat + 10
    else base
  if value < base then some value else none

/-- The character with the code point that the hexadecimal digits spell. -/
def codePoint? (digits : List Char) : Option Char := do
  let n ← digits.foldlM (fun n c => (digitValue? 16 c).map (n * 16 + ·)) 0
  if n.isValidChar then some (Char.ofNat n) else none

/-- The character that an escape stands for, read after its backslash. -/
def escaped? : List Char → Option (Char × List Char)
  | 'b' :: cs => some ('\x08', cs)
  | 't' :: cs => some ('\t', cs)
  | 'n' :: cs => some ('\n', cs)
  | 'f' :: cs => some ('\x0c', cs)
  | 'r' :: cs => some ('\r', cs)
  | 'e' :: cs => some ('\x1b', cs)
  | '"' :: cs => some ('"', cs)
  | '\\' :: cs => some ('\\', cs)
  | 'x' :: a :: b :: cs => (codePoint? [a, b]).map (·, cs)
  | 'u' :: a :: b :: c :: d :: cs => (codePoint? [a, b, c, d]).map (·, cs)
  | 'U' :: a :: b :: c :: d :: e :: f :: g :: h :: cs =>
    (codePoint? [a, b, c, d, e, f, g, h]).map (·, cs)
  | _ => none

theorem length_of_escaped? {cs rest : List Char} {c : Char} (h : escaped? cs = some (c, rest)) :
    rest.length < cs.length := by
  unfold escaped? at h
  split at h <;> simp at h <;> simp only [List.length_cons] <;> grind

/-- Puts characters in front of what was read. -/
def prepend (added : List Char) (read : List Char × List Char) : List Char × List Char :=
  (added ++ read.1, read.2)

/-- The rest of a text in double quotes on one line. -/
def basicText? (cs : List Char) : Option (List Char × List Char) :=
  match cs with
  | [] => none
  | '"' :: rest => some ([], rest)
  | '\\' :: rest =>
    match h : escaped? rest with
    | some (c, after) =>
      have := length_of_escaped? h
      (basicText? after).map (prepend [c])
    | none => none
  | c :: rest => if isPlain c then (basicText? rest).map (prepend [c]) else none
termination_by cs.length
decreasing_by all_goals simp_wf <;> omega

/-- The rest of a text in single quotes on one line. -/
def literalText? : List Char → Option (List Char × List Char)
  | [] => none
  | '\x27' :: rest => some ([], rest)
  | c :: rest => if isPlain c then (literalText? rest).map (prepend [c]) else none

/-- The rest of a text in three double quotes. Up to two quotes may stand before the closing ones; a
backslash at the end of a line joins it with what comes after the following blanks and line ends. -/
def basicLines? (cs : List Char) : Option (List Char × List Char) :=
  match cs with
  | [] => none
  | '"' :: '"' :: '"' :: '"' :: '"' :: rest => some (['"', '"'], rest)
  | '"' :: '"' :: '"' :: '"' :: rest => some (['"'], rest)
  | '"' :: '"' :: '"' :: rest => some ([], rest)
  | '\\' :: rest =>
    match h : newline? (skipBlanks rest) with
    | some after =>
      have := length_of_newline? h
      have := length_skipBlanks_le rest
      have := length_skipBlankLines_le after
      basicLines? (skipBlankLines after)
    | none =>
      match h : escaped? rest with
      | some (c, after) =>
        have := length_of_escaped? h
        (basicLines? after).map (prepend [c])
      | none => none
  | '\r' :: '\n' :: rest => (basicLines? rest).map (prepend ['\r', '\n'])
  | c :: rest =>
    if isPlain c || c = '\n' then (basicLines? rest).map (prepend [c]) else none
termination_by cs.length
decreasing_by all_goals simp_wf <;> omega

/-- The rest of a text in three single quotes. Up to two quotes may stand before the closing ones. -/
def literalLines? : List Char → Option (List Char × List Char)
  | [] => none
  | '\x27' :: '\x27' :: '\x27' :: '\x27' :: '\x27' :: rest => some (['\x27', '\x27'], rest)
  | '\x27' :: '\x27' :: '\x27' :: '\x27' :: rest => some (['\x27'], rest)
  | '\x27' :: '\x27' :: '\x27' :: rest => some ([], rest)
  | '\r' :: '\n' :: rest => (literalLines? rest).map (prepend ['\r', '\n'])
  | c :: rest => if isPlain c || c = '\n' then (literalLines? rest).map (prepend [c]) else none

/-- A line end right after three opening quotes is no part of the text. -/
def skipFirstNewline (cs : List Char) : List Char := (newline? cs).getD cs

/-- A quoted text on one line, as a key or a value. -/
def lineText? : List Char → Option (String × List Char)
  | '"' :: cs => (basicText? cs).map fun (text, rest) => (String.ofList text, rest)
  | '\x27' :: cs => (literalText? cs).map fun (text, rest) => (String.ofList text, rest)
  | _ => none

/-- A quoted text of any form. -/
def text? : List Char → Option (String × List Char)
  | '"' :: '"' :: '"' :: cs =>
    (basicLines? (skipFirstNewline cs)).map fun (text, rest) => (String.ofList text, rest)
  | '\x27' :: '\x27' :: '\x27' :: cs =>
    (literalLines? (skipFirstNewline cs)).map fun (text, rest) => (String.ofList text, rest)
  | cs => lineText? cs

end ReadonlyLint.Toml
