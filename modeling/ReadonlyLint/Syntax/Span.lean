/-!
Places in a source text. Offsets count bytes of the UTF-8 encoding; lines and columns start at
one, and a column counts bytes too.
-/
namespace ReadonlyLint

/-- A region of the source, with the line and column of its start. -/
structure Span where
  start : Nat
  stop : Nat
  line : Nat
  column : Nat
  deriving DecidableEq, Inhabited

namespace Span

/-- The start of the region, as `line:column`. -/
def place (s : Span) : String := s!"{s.line}:{s.column}"

end Span

/-- A source text in the form that byte offsets index. -/
structure Source where
  bytes : ByteArray
  /-- Line and column of each offset, from zero to the length. -/
  places : Array (Nat × Nat)

namespace Source

/-- The place after a byte that stands at `place`. -/
def nextPlace (place : Nat × Nat) (byte : UInt8) : Nat × Nat :=
  if byte = 10 then (place.1 + 1, 1) else (place.1, place.2 + 1)

def ofString (text : String) : Source :=
  let bytes := text.toUTF8
  let start : Array (Nat × Nat) × (Nat × Nat) := (#[(1, 1)], (1, 1))
  let (places, _) := bytes.foldl (fun (places, place) byte =>
    let next := nextPlace place byte
    (places.push next, next)) start
  { bytes, places }

/-- The text between two offsets; empty when it is not a text of its own. -/
def slice (s : Source) (start stop : Nat) : String :=
  (String.fromUTF8? (s.bytes.extract start stop)).getD ""

/-- The region between two offsets. -/
def span (s : Source) (start stop : Nat) : Span :=
  let (line, column) := (s.places[start]?).getD (1, 1)
  { start, stop, line, column }

end Source

end ReadonlyLint
