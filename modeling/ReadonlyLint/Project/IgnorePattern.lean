import ReadonlyLint.Glob

/-!
The patterns of lists that say what to leave out of a directory. `*` and `?` do not cross a slash,
`**` between slashes stands for any number of directories, and `{a,b}` for either of the two. A
pattern is written in characters and matched against bytes: `?` and a class stand for one byte.
-/
namespace ReadonlyLint

/-! ## Bytes of characters -/

/-- The bytes of a character in a path. -/
def charBytes (c : Char) : List UInt8 := String.utf8EncodeChar c

/-- The byte of a slash. -/
def slash : UInt8 := 47

/-- Whether a byte is in the range when a class lists it: the last byte of the first character up to
the first byte of the last one, and each of their other bytes. -/
def CharRange.hasByte (r : CharRange) (b : UInt8) : Bool :=
  if r.first = r.last then b ∈ charBytes r.first
  else
    let lower := charBytes r.first
    let upper := charBytes r.last
    b ∈ lower.dropLast || b ∈ upper.tail || (lower.getLastD 0 ≤ b && b ≤ upper.headD 0)

/-- A step of a pattern. -/
inductive IgnoreStep where
  /-- The character itself. -/
  | char (c : Char)
  /-- One byte other than a slash. -/
  | anyByte
  /-- Any run of bytes other than slashes. -/
  | anyRun
  /-- One byte in the ranges, or outside them. -/
  | oneOf (outside : Bool) (ranges : List CharRange)
  /-- `**` at the start and the slash after it: any number of directories. -/
  | leading
  /-- A slash, `**` and a slash: any number of directories between two others. -/
  | between
  /-- A slash and `**` at the end: everything below a directory. -/
  | underneath
  /-- One of several patterns. Without any it stands for nothing at all. -/
  | choice (alternatives : List (List IgnoreStep))
  deriving Inhabited

namespace IgnoreStep

/-! ## Matching -/

/-- The places that count, and those before a slash right before one of them. -/
def beforeDirectories (text : List UInt8) (places : Places) : Places :=
  .either places (.beforeAny (· = slash) text places)

mutual

/-- The places at which the step matches, followed by a place that counts. -/
def placesBefore (text : List UInt8) : IgnoreStep → Places → Places
  | .char c, places => (charBytes c).foldr (fun b => .before (· = b) text) places
  | .anyByte, places => .before (· ≠ slash) text places
  | .anyRun, places => .beforeRun (· ≠ slash) text places
  | .oneOf outside ranges, places =>
    .before (fun b => ranges.any (·.hasByte b) != outside) text places
  | .leading, places => beforeDirectories text places
  | .between, places => .before (· = slash) text (beforeDirectories text places)
  | .underneath, places =>
    .before (· = slash) text (.beforeRun (fun _ => true) text places)
  | .choice alternatives, places =>
    if alternatives.isEmpty then places else placesBeforeOne text alternatives places

/-- The places at which all the steps match, followed by a place that counts. -/
def placesBeforeAll (text : List UInt8) : List IgnoreStep → Places → Places
  | [], places => places
  | step :: steps, places => placesBefore text step (placesBeforeAll text steps places)

/-- The places at which one of the patterns matches, followed by a place that counts. -/
def placesBeforeOne (text : List UInt8) : List (List IgnoreStep) → Places → Places
  | [], places => places.map fun _ => false
  | steps :: others, places =>
    .either (placesBeforeAll text steps places) (placesBeforeOne text others places)

end

/-- Whether the steps match a whole path. -/
def matchesAll (steps : List IgnoreStep) (path : String) : Bool :=
  let text := path.toList.flatMap charBytes
  (placesBeforeAll text steps (.ending text)).atStart

/-! ## Reading a pattern -/

/-- The ranges of a class up to its `]`, and what stands after it. The ranges so far come last
first; `dash` says that a range waits for its end. -/
def classRanges? : (first dash : Bool) → List CharRange → List Char →
    Except Unit (Option (List CharRange × List Char))
  | _, _, _, [] => .ok none
  | first, dash, ranges, c :: cs =>
    if c = ']' && !first then .ok (some (if dash then ⟨'-', '-'⟩ :: ranges else ranges, cs))
    else if c = '-' && !first && !dash then classRanges? false true ranges cs
    else
      match dash, ranges with
      | true, range :: others =>
        if c < range.first then .error ()
        else classRanges? false false (⟨range.first, c⟩ :: others) cs
      | _, ranges => classRanges? false false (⟨c, c⟩ :: ranges) cs

/-- The class after a `[`, and what stands after it. A class that never ends is none; a range with its
ends the wrong way round spoils the pattern. -/
def charClass? (cs : List Char) : Except Unit (Option (IgnoreStep × List Char)) := do
  let (outside, listed) := match cs with
    | '!' :: listed | '^' :: listed => (true, listed)
    | listed => (false, listed)
  return (← classRanges? true false [] listed).map fun (ranges, rest) => (.oneOf outside ranges, rest)

/-- Whether the step stands for nothing at all. -/
def isVoid : IgnoreStep → Bool
  | .choice [] => true
  | _ => false

/-- A group in braces that is still open: the steps before it, and its alternatives so far. -/
structure Group where
  before : List IgnoreStep
  alternatives : List (List IgnoreStep)

namespace Group

/-- Ends an alternative of the group, given its steps, last first. -/
def addLast (g : Group) (steps : List IgnoreStep) : Group :=
  { g with alternatives := g.alternatives ++ [steps.reverse] }

/-- The steps before the group and the group itself, last first. Alternatives that stand for nothing
do not count. -/
def close (g : Group) : List IgnoreStep :=
  .choice (g.alternatives.filter (!·.all isVoid)) :: g.before

end Group

/-- Puts a `**` in the place of the step before it, which is the slash that divides the two. -/
def spread (step : IgnoreStep) : List IgnoreStep → List IgnoreStep
  | .leading :: steps => .leading :: steps
  | .underneath :: steps => .underneath :: steps
  | _ :: steps => step :: steps
  | [] => [step]

/-- Whether a `**` can stand for directories after a character: a slash or, inside a group, the
comma or brace in front of an alternative. -/
def dividesBefore (inGroup : Bool) (previous : Option Char) : Bool :=
  previous = some '/' || (inGroup && (previous = some ',' || previous = some '\x7b'))

/-- Whether a `**` ends the pattern, or its alternative inside a group. -/
def endsBefore (inGroup : Bool) : List Char → Bool
  | [] => true
  | c :: _ => inGroup && (c = ',' || c = '\x7d')

/-- Goes on reading a pattern, with the character before, the open groups, innermost first, and the
steps so far, last first. The first argument bounds the number of characters. -/
def stepsTo? : Nat → Option Char → List Group → List IgnoreStep → List Char → Option (List IgnoreStep)
  | _, _, groups, steps, [] => if groups.isEmpty then some steps.reverse else none
  | 0, _, _, _, _ => none
  | n + 1, previous, groups, steps, c :: cs =>
    match c, cs with
    | '?', cs => stepsTo? n '?' groups (.anyByte :: steps) cs
    | '*', '*' :: cs =>
      let inGroup := !groups.isEmpty
      match steps.isEmpty, cs with
      | true, [] => stepsTo? n '*' groups [.leading] []
      | true, '/' :: cs => stepsTo? n '/' groups [.leading] cs
      | true, cs => stepsTo? n '*' groups [.anyRun] cs
      | false, cs =>
        if !dividesBefore inGroup previous then stepsTo? n '*' groups (.anyRun :: steps) cs
        else if endsBefore inGroup cs then stepsTo? n '*' groups (spread .underneath steps) cs
        else
          match cs with
          | '/' :: cs => stepsTo? n '/' groups (spread .between steps) cs
          | cs => stepsTo? n '*' groups (.anyRun :: steps) cs
    | '*', cs => stepsTo? n '*' groups (.anyRun :: steps) cs
    | '[', cs =>
      match charClass? cs with
      | .error () => none
      | .ok (some (step, rest)) => stepsTo? n ']' groups (step :: steps) rest
      | .ok none => stepsTo? n '[' groups (.char '[' :: steps) cs
    | '\x7b', cs => stepsTo? n '\x7b' ({ before := steps, alternatives := [] } :: groups) [] cs
    | '\x7d', cs =>
      match groups with
      | [] => none
      | group :: groups => stepsTo? n '\x7d' groups (group.addLast steps).close cs
    | ',', cs =>
      match groups with
      | [] => stepsTo? n ',' [] (.char ',' :: steps) cs
      | group :: groups => stepsTo? n ',' (group.addLast steps :: groups) [] cs
    | '\\', d :: cs => stepsTo? n d groups (.char d :: steps) cs
    | '\\', [] => none
    | c, cs => stepsTo? n c groups (.char c :: steps) cs

/-- The steps of a pattern. Leading directories alone stand for everything in them. -/
def steps? (pattern : List Char) : Option (List IgnoreStep) :=
  (stepsTo? pattern.length none [] [] pattern).map fun
    | [.leading] => [.leading, .anyRun]
    | steps => steps

end IgnoreStep

end ReadonlyLint
