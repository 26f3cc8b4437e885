import ReadonlyLint.Edit
import ReadonlyLint.Project.Directory
import ReadonlyLint.Settings.Basic

/-!
Why a command fails.
-/
namespace ReadonlyLint

/-- Why a file cannot be fixed: the run was cancelled, or a fix does not fit the file. -/
inductive FixError where
  | cancelled
  | edit (cause : InvalidEdit)
  deriving DecidableEq, Inhabited

/-- Why a command fails. -/
inductive Failure where
  /-- A file cannot be read or written. -/
  | access (path : String) (cause : AccessError)
  /-- The settings cannot be read. -/
  | settings (cause : SettingsError)
  /-- There is nothing under the path to analyse. -/
  | noRoot (path : String)
  /-- The report cannot be written to the path. -/
  | output (path : String)
  /-- A file cannot be fixed. -/
  | fix (path : String) (cause : FixError)
  /-- There are settings already. -/
  | settingsExist
  deriving DecidableEq, Inhabited

def Failure.message : Failure → String
  | .access path cause => "File system error: cannot access " ++ path ++ ": " ++ cause.message
  | .settings cause => "Configuration error: " ++ cause.message
  | .noRoot path => "Failed to collect files under " ++ path
  | .output path => "Failed to create output file " ++ path
  | .fix path _ => "Failed to fix " ++ path
  | .settingsExist => "Configuration file already exists. Use --force to overwrite."

end ReadonlyLint
