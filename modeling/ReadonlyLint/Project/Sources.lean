import ReadonlyLint.Project.Ignored

/-!
The C# sources of a project: the files below a root, and the links to files, that no list of ignored
files and no pattern of the settings leaves out. A link to a directory is not followed.
-/
namespace ReadonlyLint

/-- How the sources of a project are listed: from the directory, the patterns of what is left out, and
the path of the root. None if they cannot be. -/
abbrev Walker := Directory → List String → String → Option (List String)

namespace Directory

/-- The order of files: by the first name that differs, a beginning before what it begins. -/
def precedes : List String → List String → Bool
  | [], _ => true
  | _ :: _, [] => false
  | a :: as, b :: bs => a < b || (a = b && precedes as bs)

/-- The names that lead from a root to each file below it and to each link to a file, in order,
without those that are left out or lie in a directory that is. -/
def filesBelow (d : Directory) (root : WalkRoot) : List (List String) :=
  let depth := root.place.length
  let below := d.entries.filterMap fun entry =>
    if depth < entry.length && root.place.isPrefixOf entry then some (entry.drop depth) else none
  let kept := below.filter fun names =>
    d.isFile (d.resolve (root.place ++ names)) &&
      (List.range names.length).all fun n => !d.isIgnored root (names.take (n + 1))
  kept.mergeSort precedes

/-- Whether a path is that of a C# source that no pattern matches. -/
def isSource (patterns : List Glob) (path : String) : Bool :=
  (Path.extension? path).any (·.toLower = "cs") && !patterns.any (·.isMatch path)

/-- The paths of the sources below a root, which may be a single file; none if there is no such root
or a directory above it has a list that cannot be read. Patterns that cannot be read do not count. -/
def sources? : Walker := fun d patterns root => do
  let patterns := patterns.filterMap fun p => (Glob.parse p).toOption
  let place ← (d.locate root).toOption
  let paths ←
    if d.isFile place then some [root]
    else if (above place).all d.hasSoundLists then
      let root : WalkRoot := { path := root, place }
      some ((d.filesBelow root).map root.pathOf)
    else none
  return paths.filter fun path => !Path.isTooLong path && isSource patterns path

end Directory

end ReadonlyLint
