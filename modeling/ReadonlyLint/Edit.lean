/-!
Insertions into a source text. All offsets are bytes of the text before any insertion; equal
insertions count once, and of several at one place the one with the greatest text comes first.
-/
namespace ReadonlyLint

/-- Puts `text` at a byte offset of the source. -/
structure Edit where
  offset : Nat
  text : String
  deriving DecidableEq, Inhabited

/-- An offset that is no character boundary of a source of `length` bytes. -/
structure InvalidEdit where
  offset : Nat
  length : Nat
  deriving DecidableEq, Inhabited

namespace InvalidEdit

def message (e : InvalidEdit) : String :=
  s!"Invalid text edit: offset {e.offset} is not a character boundary of a {e.length}-byte source"

end InvalidEdit

/-! ## Byte offsets in a list of characters -/

/-- Whether a character starts at the offset, or the text ends there. -/
def isBoundary : Nat → List Char → Bool
  | 0, _ => true
  | _ + 1, [] => false
  | n + 1, c :: cs => c.utf8Size ≤ n + 1 && isBoundary (n + 1 - c.utf8Size) cs

/-- Puts `added` before the character at the offset, or at the end. -/
def insertAt (added : List Char) : Nat → List Char → List Char
  | 0, cs => added ++ cs
  | _ + 1, [] => added
  | n + 1, c :: cs => c :: insertAt added (n + 1 - c.utf8Size) cs

namespace Edit

/-- The order of application: from the end of the text to its start, and at one place from the
least text to the greatest. -/
def precedes (a b : Edit) : Bool :=
  b.offset < a.offset || (a.offset = b.offset && decide (a.text ≤ b.text))

/-- The distinct edits in the order of application. -/
def ordered (edits : List Edit) : List Edit := edits.eraseDups.mergeSort precedes

/-- Applies one edit to what the edits before it, all at the same or a later place, have made of
the source. -/
def apply (source : List Char) (length : Nat) (output : List Char) (e : Edit) :
    Except InvalidEdit (List Char) :=
  if isBoundary e.offset source then .ok (insertAt e.text.toList e.offset output)
  else .error { offset := e.offset, length }

/-- The source with every edit applied. -/
def applyAll (source : String) (edits : List Edit) : Except InvalidEdit String := do
  let chars := source.toList
  let output ← (ordered edits).foldlM (apply chars source.utf8ByteSize) chars
  pure (String.ofList output)

end Edit

end ReadonlyLint
