import ReadonlyLint.Project.Directory
import ReadonlyLint.Project.IgnoreRule

/-!
What the lists in a directory leave out of a walk through it. A list `.ignore` counts everywhere and
before the lists of a repository, which count only inside it: `.gitignore` in each directory, and
`info/exclude` where the repository keeps its own files.
-/
namespace ReadonlyLint

/-- Where a walk starts: the path of the directory as it is given, and its place. -/
structure WalkRoot where
  path : String
  place : List String
  deriving DecidableEq, Inhabited

/-- The path of what the names lead to. -/
def WalkRoot.pathOf (root : WalkRoot) (names : List String) : String := names.foldl Path.join root.path

namespace Directory

/-! ## The lists of a directory -/

/-- The contents of the file that names lead to from a directory. -/
def contentBelow? (d : Directory) (place names : List String) : Option ByteArray :=
  (d.follow names place).toOption.bind d.content?

/-- The list in a file. -/
def listBelow (d : Directory) (place names : List String) : IgnoreList :=
  ((d.contentBelow? place names).map IgnoreList.ofContent).getD {}

/-- The first line of a file; an error if it is no text. -/
def firstLine? (content : ByteArray) : Except Unit (Option String) :=
  match content.data.toList with
  | [] => .ok none
  | bytes =>
    ((String.fromUTF8? ⟨(IgnoreList.firstLine bytes).1.toArray⟩).map (.ok ∘ some)).getD (.error ())

/-- Where a repository keeps its files, as a file `.git` says: it names a directory, and the file
`commondir` in that one the directory that is meant. -/
def repositoryFiles? (d : Directory) (content : ByteArray) : Except Unit (Option String) := do
  let some line ← firstLine? content | return none
  if !"gitdir: ".toList.isPrefixOf line.toList then return none
  let named := Path.dropStart "gitdir: " line
  match d.locate (Path.join named "commondir") with
  | .error _ => return none
  | .ok place =>
    let some content := d.content? place | throw ()
    let some line ← firstLine? content | return none
    return some (if line.toList.head? = some '.' then Path.join named line else line)

/-- The list `info/exclude` of the repository whose top is the directory. -/
def excludeList (d : Directory) (place : List String) : IgnoreList :=
  match d.contentBelow? place [".git"] with
  | none => d.listBelow place [".git", "info", "exclude"]
  | some content =>
    match d.repositoryFiles? content with
    | .error () => { isSound := false }
    | .ok none => {}
    | .ok (some directory) =>
      ((d.locate (Path.join directory "info/exclude")).toOption.map (d.listBelow · [])).getD {}

def ignoreList (d : Directory) (place : List String) : IgnoreList := d.listBelow place [".ignore"]

def gitIgnoreList (d : Directory) (place : List String) : IgnoreList :=
  d.listBelow place [".gitignore"]

/-- Whether every pattern in the lists of a directory can be read. -/
def hasSoundLists (d : Directory) (place : List String) : Bool :=
  (d.ignoreList place).isSound && (d.gitIgnoreList place).isSound && (d.excludeList place).isSound

/-! ## Directories above -/

/-- Whether a directory is the top of a repository. -/
def isRepository (d : Directory) (place : List String) : Bool :=
  [".git", ".jj"].any fun name => (d.follow [name] place).isOk

/-- The directories above a place, the nearest first. -/
def above : List String → List (List String)
  | [] => []
  | name :: names => (above names).map (name :: ·) ++ [[]]

/-- The directories whose lists count for what the names lead to, the nearest first, each with the
path that its lists are matched against. -/
def overseers (root : WalkRoot) (names : List String) : List (List String × String) :=
  let path := Path.dropStart "./" (root.pathOf names)
  (above names).map (fun walked => (root.place ++ walked, Path.seenFrom (root.pathOf walked) path)) ++
    (above root.place).map fun place =>
      (place, "/".intercalate ((root.place ++ names).drop place.length))

/-- Of the directories from the nearest on, those that belong to the nearest repository. -/
def inRepository (d : Directory) : List (List String × String) → List (List String × String)
  | [] => []
  | overseer :: overseers =>
    if d.isRepository overseer.1 then [overseer]
    else
      match d.inRepository overseers with
      | [] => []
      | rest => overseer :: rest

/-! ## Verdicts -/

/-- What lists of one kind say: the nearest that says anything decides. -/
def verdictOf? (list : List String → IgnoreList) (isDirectory : Bool)
    (overseers : List (List String × String)) : Option Bool :=
  overseers.findSome? fun (place, path) => (list place).verdict? path isDirectory

/-- Whether what the names lead to is left out. -/
def isIgnored (d : Directory) (root : WalkRoot) (names : List String) : Bool :=
  let isDirectory := d.isDirectory (root.place ++ names)
  let overseers := overseers root names
  let repository := d.inRepository overseers
  let verdict :=
    (verdictOf? d.ignoreList isDirectory overseers).or
      ((verdictOf? d.gitIgnoreList isDirectory repository).or
        (verdictOf? d.excludeList isDirectory repository))
  verdict = some true

end Directory

end ReadonlyLint
