import ReadonlyLint.Project.Failure
import ReadonlyLint.Project.Sources
import ReadonlyLint.Report.Results

/-!
The analysis of a project. A file that cannot be read is recorded as a failure and the run goes on; a
run that is told to stop has no results.
-/
namespace ReadonlyLint

/-- How a C# source is read as a syntax tree. -/
abbrev TreeReader := String → Node

namespace Directory

/-- The report on one file, or why it cannot be read. -/
def analyzeFile (d : Directory) (readTree : TreeReader) (options : AnalysisOptions) (path : String) :
    Cancellable (Except Failure FileReport) := do
  Cancellable.check
  match d.read path with
  | .error cause => pure (.error (.access path cause))
  | .ok source => return .ok (← FileReport.ofTree path (readTree source) options)

/-- The reports among the outcomes of the files, and the failures, both in the order of the files. -/
def collect (root : String) (outcomes : List (String × Except Failure FileReport)) : Results :=
  .ofFiles root
    (outcomes.filterMap fun (_, outcome) => outcome.toOption)
    (outcomes.filterMap fun (path, outcome) =>
      match outcome with
      | .ok _ => none
      | .error cause => some { path, message := cause.message })

/-- Analyzes files one after the other. -/
def analyzeFiles (d : Directory) (readTree : TreeReader) (options : AnalysisOptions) (root : String)
    (paths : List String) : Cancellable Results := do
  let outcomes ← paths.mapM fun path => do
    return (path, ← d.analyzeFile readTree options path)
  return collect root outcomes

/-- Analyzes the sources below a root under the settings. -/
def analyze (d : Directory) (readTree : TreeReader) (settings : Settings) (explain : Bool)
    (root : String) (walk : Walker := sources?) : Cancellable (Except Failure Results) := do
  match walk d settings.ignorePatterns root with
  | none => return .error (.noRoot root)
  | some paths => return .ok (← d.analyzeFiles readTree (settings.options explain) root paths)

end Directory

end ReadonlyLint
