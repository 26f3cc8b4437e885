import ReadonlyLint.Places

/-!
Patterns for paths: `?` stands for one character, `*` for any run of characters, `[…]` and `[!…]`
for one character in a class or outside it, and `**`, alone between slashes, for any number of
directories.
-/
namespace ReadonlyLint

/-- A range of characters, both ends included. -/
structure CharRange where
  first : Char
  last : Char
  deriving DecidableEq, Inhabited

namespace CharRange

def contains (r : CharRange) (c : Char) : Bool := r.first ≤ c && c ≤ r.last

/-- The ranges that a class lists: `a-z` is a range, any other character a range of its own. -/
def ofClass : List Char → List CharRange
  | first :: '-' :: last :: rest => ⟨first, last⟩ :: ofClass rest
  | c :: rest => ⟨c, c⟩ :: ofClass rest
  | [] => []

end CharRange

/-- A step of a pattern. -/
inductive GlobToken where
  /-- The character itself. -/
  | char (c : Char)
  /-- Any one character. -/
  | anyChar
  /-- One character of the ranges. -/
  | within (ranges : List CharRange)
  /-- One character outside the ranges. -/
  | outside (ranges : List CharRange)
  /-- Any run of characters. -/
  | anyRun
  /-- Any number of directories, or all that is left. -/
  | anyDirectories
  deriving DecidableEq, Inhabited

/-- A pattern. -/
structure Glob where
  tokens : List GlobToken
  deriving DecidableEq, Inhabited

/-- What is wrong with a pattern. -/
inductive GlobProblem where
  | unclosedClass
  | tooManyStars
  | partialComponent
  deriving DecidableEq, Inhabited

/-- A problem of a pattern and the index of the character that it is reported at. -/
structure GlobError where
  position : Nat
  problem : GlobProblem
  deriving DecidableEq, Inhabited

def GlobProblem.message : GlobProblem → String
  | .unclosedClass => "invalid range pattern"
  | .tooManyStars => "wildcards are either regular `*` or recursive `**`"
  | .partialComponent => "recursive wildcards must form a single path component"

def GlobError.message (e : GlobError) : String :=
  let text := e.problem.message
  s!"Pattern syntax error near position {e.position}: {text}"

namespace Glob

/-! ## Reading a pattern -/

/-- What stands before the next `]`, and what stands after it. -/
def splitClass? : List Char → Option (List Char × List Char)
  | [] => none
  | ']' :: rest => some ([], rest)
  | c :: rest => (splitClass? rest).map fun (listed, after) => (c :: listed, after)

theorem length_of_splitClass? {cs listed after : List Char} (h : splitClass? cs = some (listed, after)) :
    listed.length + after.length + 1 = cs.length := by
  fun_induction splitClass? cs generalizing listed with
  | case1 => simp at h
  | case2 => simp at h; obtain ⟨rfl, rfl⟩ := h; simp
  | case3 c rest _ ih =>
    simp only [Option.map_eq_some_iff, Prod.mk.injEq, Prod.exists] at h
    obtain ⟨l, a, hl, rfl, rfl⟩ := h
    have := ih hl
    simp only [List.length_cons]
    omega

/-- The tokens of the characters from an index on; `fresh` says that a path component starts
there. A `]` right after `[` or `[!` is a listed character. -/
def tokens? (index : Nat) (fresh : Bool) (cs : List Char) : Except GlobError (List GlobToken) :=
  match cs with
  | [] => .ok []
  | '?' :: rest => (tokens? (index + 1) false rest).map (.anyChar :: ·)
  | '*' :: '*' :: '*' :: _ => .error ⟨index + 2, .tooManyStars⟩
  | '*' :: '*' :: rest =>
    if fresh then
      match rest with
      | [] => .ok [.anyDirectories]
      | '/' :: rest => (tokens? (index + 3) true rest).map (.anyDirectories :: ·)
      | _ :: _ => .error ⟨index + 2, .partialComponent⟩
    else .error ⟨index - 1, .partialComponent⟩
  | '*' :: rest => (tokens? (index + 1) false rest).map (.anyRun :: ·)
  | '[' :: '!' :: first :: rest =>
    match h : splitClass? rest with
    | some (listed, after) =>
      have := length_of_splitClass? h
      (tokens? (index + listed.length + 4) false after).map
        (.outside (CharRange.ofClass (first :: listed)) :: ·)
    | none => .error ⟨index, .unclosedClass⟩
  | '[' :: first :: rest =>
    match h : splitClass? rest with
    | some (listed, after) =>
      have := length_of_splitClass? h
      (tokens? (index + listed.length + 3) false after).map
        (.within (CharRange.ofClass (first :: listed)) :: ·)
    | none => .error ⟨index, .unclosedClass⟩
  | '[' :: [] => .error ⟨index, .unclosedClass⟩
  | c :: rest => (tokens? (index + 1) (c = '/') rest).map (.char c :: ·)
termination_by cs.length
decreasing_by all_goals simp_wf <;> omega

/-- Reads a pattern. -/
def parse (pattern : String) : Except GlobError Glob := (tokens? 0 true pattern.toList).map (⟨·⟩)

/-! ## Matching -/

/-- Whether a step stands for this one character. -/
def accepts : GlobToken → Char → Bool
  | .char c, d => c = d
  | .anyChar, _ => true
  | .within ranges, d => ranges.any (·.contains d)
  | .outside ranges, d => !ranges.any (·.contains d)
  | .anyRun, _ | .anyDirectories, _ => false

/-- The places at which a step matches, followed by a place that counts. Any number of directories
ends right there, after a slash, or at the end of the text. -/
def placesBefore (text : List Char) : GlobToken → Places → Places
  | .anyRun, places => .beforeRun (fun _ => true) text places
  | .anyDirectories, places =>
    let ends := places.getLastD false
    .either (places.map (· || ends)) (.beforeAny (· = '/') text places)
  | token, places => .before (accepts token) text places

/-- Whether the pattern matches a path. -/
def isMatch (g : Glob) (path : String) : Bool :=
  (g.tokens.foldr (placesBefore path.toList) (.ending path.toList)).atStart

end Glob

end ReadonlyLint
