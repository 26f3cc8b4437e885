/-!
Paths as they are written: names divided by slashes. Empty parts and `.` say nothing about the
place, except for a `.` that the path starts with.
-/
namespace ReadonlyLint.Path

/-- The parts of a path between its slashes. -/
def parts (path : String) : List String := path.splitOn "/"

/-- Whether a part says nothing. -/
def isVoid (part : String) : Bool := part = "" || part = "."

/-- Whether a part has more bytes than a name can have. -/
def isLongName (part : String) : Bool := 255 < part.utf8ByteSize

/-- Whether a path has more bytes than a path can have. -/
def isTooLong (path : String) : Bool := 4095 < path.utf8ByteSize

/-- What a path starts with before its parts count: a slash, or a `.` on its own. -/
def start (path : String) : String :=
  match path.toList with
  | '/' :: _ => "/"
  | ['.'] | '.' :: '/' :: _ => "."
  | _ => ""

/-- The path of the directory that holds what the path names. Trailing parts that say nothing go with
the last part. -/
def parent? (path : String) : Option String :=
  let start := start path
  let body := parts (String.ofList (path.toList.drop start.length))
  match body.reverse.dropWhile isVoid with
  | [] => if start = "." then some "" else none
  | _ :: rest => some (start ++ "/".intercalate (rest.dropWhile isVoid).reverse)

/-- The path and the paths of the directories above it, at most so many of them. -/
def ancestors : Nat → String → List String
  | 0, _ => []
  | n + 1, path => path :: ((parent? path).map (ancestors n)).getD []

/-- The last part of a path that is a name. -/
def fileName? (path : String) : Option String :=
  ((parts path).reverse.dropWhile isVoid).head?.filter (· ≠ "..")

/-- What stands after the last dot of the file name, unless the dot starts the name. -/
def extension? (path : String) : Option String := do
  let name ← fileName? path
  match (name.splitOn ".").reverse with
  | last :: stem@(_ :: _) => if stem = [""] then none else some last
  | _ => none

/-- The path of a name in a directory. -/
def join (directory name : String) : String :=
  if directory = "" || directory.toList.getLast? = some '/' then directory ++ name
  else directory ++ "/" ++ name

/-- Whether a path means nothing but the directory that it starts from. -/
def isHere (path : String) : Bool := start path = "." && (parts path).all isVoid

/-- The path without a text in front of it. -/
def dropStart (text path : String) : String :=
  if text.toList.isPrefixOf path.toList then String.ofList (path.toList.drop text.length) else path

/-- A path as seen from a directory that it starts with. A `./` in front of either does not count,
and a lone name is left as it is. -/
def seenFrom (directory path : String) : String :=
  let directory := dropStart "./" directory
  let path := dropStart "./" path
  if isHere directory || '/' ∉ path.toList || !directory.toList.isPrefixOf path.toList then path
  else dropStart "/" (dropStart directory path)

end ReadonlyLint.Path
