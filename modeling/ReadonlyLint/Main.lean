import ReadonlyLint.CommandLine.Run
import ReadonlyLint.Syntax.Rows

/-!
The program. It runs in the working directory, whose files are listed on standard input, a path a
line. The syntax tree of a source stands beside it, under the same name with `.tree` added, in the
flat form with a row a line. What the program changes is written back.
-/
namespace ReadonlyLint.Program

/-- The lines of a stream, without their ends. -/
partial def readLines (input : IO.FS.Stream) (lines : List String) : IO (List String) := do
  let line ← input.getLine
  if line.isEmpty then return lines.reverse
  readLines input (String.ofList (line.toList.filter fun c => c ≠ '\n' && c ≠ '\r') :: lines)

/-- The names on a path. -/
def names (path : String) : List String := (Path.parts path).filter (!Path.isVoid ·)

/-- Adds the file that a path leads to. If that is another one of the working directory, which has
the given names, the path is a link. -/
def addFile (working : List String) (directory : Directory) (path : String) : IO Directory := do
  let content ← IO.FS.readBinFile path
  let place := names path
  let real := names (toString (← IO.FS.realPath path))
  let target := if working.isPrefixOf real then real.drop working.length else place
  let links := if target = place then [] else [(place, target)]
  return { directory.put target content with links := directory.links ++ links }

/-- The sources of a directory that have a tree, with their trees. -/
def trees (directory : Directory) : List (String × Node) :=
  directory.files.filterMap fun (place, content) => do
    let source ← String.fromUTF8? content
    let name ← place.getLast?
    let rows ← (directory.content? (place.dropLast ++ [name ++ ".tree"])).bind String.fromUTF8?
    let tree ← Node.ofRows? source ((rows.splitOn "\n").filterMap Row.ofLine?)
    some (source, tree)

/-- The first text among those of the files at the paths that can be read. -/
def readFirst : List String → IO (Option String)
  | [] => return none
  | path :: paths => do
    try return some (← IO.FS.readFile path)
    catch _ => readFirst paths

/-- The paths where settings are looked for above a directory. -/
def settingsAbove (directory : String) : List String :=
  ((Path.ancestors 10 directory).drop 1).map (Path.join · Settings.fileName)

/-- Writes back the files that a run has changed. -/
def writeChanges (before after : Directory) : IO Unit := do
  for (place, content) in after.files do
    if (before.content? place).map (·.data) != some content.data then
      IO.FS.writeBinFile ("/".intercalate place) content

def run (words : List String) : IO UInt32 := do
  let paths ← readLines (← IO.getStdin) []
  let working := names (toString (← IO.FS.realPath "."))
  let directory ← (paths.filter (· ≠ "")).foldlM (addFile working) {}
  let known := trees directory
  let outcome := CommandLine.Environment.run
    { directory
      readTree := fun source => (known.lookup source).getD default
      inherited := ← readFirst (settingsAbove (toString (← IO.currentDir)))
      timestamp := (← IO.getEnv "REPORT_TIME").getD "1970-01-01T00:00:00Z" }
    words
  IO.print outcome.output
  IO.eprint outcome.errorOutput
  writeChanges directory outcome.directory
  return outcome.ending.exitCode.toUInt32

end ReadonlyLint.Program

def main (words : List String) : IO UInt32 := ReadonlyLint.Program.run words
