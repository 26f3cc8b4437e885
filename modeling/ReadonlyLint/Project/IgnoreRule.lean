import ReadonlyLint.Project.IgnorePattern

/-!
Lists of what to leave out of a directory. Each line is a rule: `!` in front takes files back in, a
slash at the end means directories only, and a pattern with a slash elsewhere is matched from the
directory of the list on, any other at every depth.
-/
namespace ReadonlyLint

/-- A line that says what to leave out. -/
structure IgnoreRule where
  /-- Whether the rule takes files back in. -/
  keeps : Bool
  directoriesOnly : Bool
  steps : List IgnoreStep
  deriving Inhabited

/-- What a line of a list holds. -/
inductive IgnoreLine where
  /-- Nothing, or a comment. -/
  | blank
  | rule (r : IgnoreRule)
  /-- A pattern that cannot be read. -/
  | malformed
  deriving Inhabited

/-- A list of rules. -/
structure IgnoreList where
  rules : List IgnoreRule := []
  /-- Whether every pattern could be read. -/
  isSound : Bool := true
  deriving Inhabited

namespace IgnoreRule

def isMatch (r : IgnoreRule) (path : String) (isDirectory : Bool) : Bool :=
  (!r.directoriesOnly || isDirectory) && IgnoreStep.matchesAll r.steps path

/-- What to match of a pattern: one without a slash matches at every depth, one that ends in `/**`
only what lies below. -/
def widen (anchored : Bool) (pattern : List Char) : List Char :=
  let anywhere := !anchored && '/' ∉ pattern && pattern ≠ ['*', '*']
  let pattern := if anywhere then ['*', '*', '/'] ++ pattern else pattern
  if ['/', '*', '*'].isSuffixOf pattern then pattern ++ ['/', '*'] else pattern

/-- The rule that a line without blanks at its end stands for. -/
def ofLine? (line : List Char) : Option IgnoreRule := do
  let (keeps, anchored, line) := match line with
    | '\\' :: '!' :: rest => (false, false, '!' :: rest)
    | '\\' :: '#' :: rest => (false, false, '#' :: rest)
    | '!' :: '/' :: rest => (true, true, rest)
    | '!' :: rest => (true, false, rest)
    | '/' :: rest => (false, true, rest)
    | line => (false, false, line)
  let (directoriesOnly, line) := match line.reverse with
    | '/' :: '\\' :: rest => (true, rest.reverse)
    | '/' :: rest => (true, rest.reverse)
    | _ => (false, line)
  some { keeps, directoriesOnly, steps := ← IgnoreStep.steps? (widen anchored line) }

end IgnoreRule

namespace IgnoreLine

def isSpace (c : Char) : Bool :=
  c.toNat ∈ [32, 133, 160, 5760, 8232, 8233, 8239, 8287, 12288] ||
    (9 ≤ c.toNat && c.toNat ≤ 13) || (8192 ≤ c.toNat && c.toNat ≤ 8202)

/-- The line without blanks at its end, unless the last of them is escaped. -/
def trimEnd (line : List Char) : List Char :=
  match line.reverse with
  | ' ' :: '\\' :: _ => line
  | reversed => (reversed.dropWhile isSpace).reverse

def ofText (line : List Char) : IgnoreLine :=
  if line.head? = some '#' || (trimEnd line).isEmpty then .blank
  else ((IgnoreRule.ofLine? (trimEnd line)).map .rule).getD .malformed

def rule? : IgnoreLine → Option IgnoreRule
  | .rule r => some r
  | _ => none

def isSound : IgnoreLine → Bool
  | .malformed => false
  | _ => true

end IgnoreLine

namespace IgnoreList

/-! ## Lines of bytes -/

/-- The line that starts here, without its end, and what stands after it. -/
def firstLine (bytes : List UInt8) : List UInt8 × List UInt8 :=
  match bytes.span (· ≠ 10) with
  | (line, []) => (line, [])
  | (line, _ :: rest) => (if line.getLast? = some 13 then line.dropLast else line, rest)

/-- The lines of bytes, at most so many. -/
def linesTo : Nat → List UInt8 → List (List UInt8)
  | _, [] | 0, _ => []
  | n + 1, bytes => (firstLine bytes).1 :: linesTo n (firstLine bytes).2

/-- The lines of a file up to the first that is no text. -/
def textLines (content : ByteArray) : List String :=
  let bytes := content.data.toList
  let texts := (linesTo bytes.length bytes).map fun line => String.fromUTF8? ⟨line.toArray⟩
  (texts.takeWhile (·.isSome)).filterMap id

/-! ## Reading and asking -/

/-- Reads a list. Byte order marks in front of the first line do not count, nor do the lines from
the first that is no text. -/
def ofContent (content : ByteArray) : IgnoreList :=
  let texts := match (textLines content).map (·.toList) with
    | first :: rest => first.dropWhile (· = '\ufeff') :: rest
    | [] => []
  let lines := texts.map IgnoreLine.ofText
  { rules := lines.filterMap (·.rule?), isSound := lines.all (·.isSound) }

/-- Whether the list leaves out a path, if it says anything about it: the last rule that matches
decides. -/
def verdict? (list : IgnoreList) (path : String) (isDirectory : Bool) : Option Bool :=
  (list.rules.reverse.find? (·.isMatch path isDirectory)).map (!·.keeps)

end IgnoreList

end ReadonlyLint
