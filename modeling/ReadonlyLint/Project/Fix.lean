import ReadonlyLint.Project.Analyze

/-!
Fixing a project: every finding of a file is followed by its edit, one file after the other. The run
ends at the first file that cannot be read, fixed or written. A dry run writes nothing.
-/
namespace ReadonlyLint

/-- A run that fixes files: the directory after it, the files with findings and how many each has,
and why the run ended early, if it did. -/
structure FixRun where
  directory : Directory
  fixed : List (String × Nat) := []
  failure : Option Failure := none
  deriving Inhabited

namespace FixRun

def filesChanged (run : FixRun) : Nat := run.fixed.length

def fixesApplied (run : FixRun) : Nat := run.fixed.foldl (fun n file => n + file.2) 0

end FixRun

namespace Directory

/-- The text of a file with its findings fixed, the number of findings, and the signal for what comes
after. -/
def fixFile (d : Directory) (readTree : TreeReader) (options : AnalysisOptions) (path : String)
    (signal : Signal) : Except Failure ((String × Nat) × Signal) :=
  match d.read path with
  | .error cause => .error (.access path cause)
  | .ok source =>
    match FileReport.ofTree path (readTree source) options signal with
    | none => .error (.fix path .cancelled)
    | some (report, signal) =>
      match report.fix source with
      | .error cause => .error (.fix path (.edit cause))
      | .ok text => .ok ((text, report.findings.length), signal)

/-- The directory with a new text of a file; a dry run leaves it as it is. -/
def save (d : Directory) (dryRun : Bool) (path text : String) : Except Failure Directory :=
  if dryRun then .ok d else (d.write path text).mapError (.access path)

/-- Fixes files one after the other. -/
def fixFiles (readTree : TreeReader) (options : AnalysisOptions) (dryRun : Bool) :
    List String → Directory → Signal → FixRun
  | [], d, _ => { directory := d }
  | path :: paths, d, signal =>
    match d.fixFile readTree options path signal with
    | .error cause => { directory := d, failure := some cause }
    | .ok ((text, count), signal) =>
      if count = 0 then fixFiles readTree options dryRun paths d signal
      else
        match d.save dryRun path text with
        | .error cause => { directory := d, failure := some cause }
        | .ok d =>
          let run := fixFiles readTree options dryRun paths d signal
          { run with fixed := (path, count) :: run.fixed }

/-- Fixes the sources below a root under the settings. -/
def fix (d : Directory) (readTree : TreeReader) (settings : Settings) (dryRun : Bool) (root : String)
    (signal : Signal) (walk : Walker := sources?) : FixRun :=
  match walk d settings.ignorePatterns root with
  | none => { directory := d, failure := some (.noRoot root) }
  | some paths => fixFiles readTree (settings.options false) dryRun paths d signal

end Directory

end ReadonlyLint
