import ReadonlyLint.CommandLine.Options
import ReadonlyLint.Project.Fix
import ReadonlyLint.Report.Json
import ReadonlyLint.Report.Terminal

/-!
Running a command in a directory: what it prints, what it changes and how it ends.
-/
namespace ReadonlyLint.CommandLine

/-- How a run ends. -/
inductive Ending where
  | success
  /-- There is a finding that counts as an error. -/
  | errorsFound
  | failed (cause : Failure)
  | cancelled
  | usage (cause : UsageError)
  deriving DecidableEq, Inhabited

namespace Ending

def exitCode : Ending → Nat
  | .success => 0
  | .errorsFound | .failed _ | .cancelled => 1
  | .usage .displayHelp | .usage .displayVersion => 0
  | .usage _ => 2

/-- What is printed as the cause of a failure. -/
def failureText? : Ending → Option String
  | .failed cause => some ("Error: " ++ cause.message)
  | .cancelled => some "Error: Analysis cancelled"
  | .success | .errorsFound | .usage _ => none

end Ending

/-- What a run leaves behind. Warnings are lines that it prints beside its output. -/
structure Outcome where
  directory : Directory
  output : String := ""
  warnings : List String := []
  ending : Ending := .success
  deriving Inhabited

/-- What a run prints beside its output: the warnings, and the cause of a failure. -/
def Outcome.errorOutput (o : Outcome) : String :=
  String.join ((o.warnings ++ o.ending.failureText?.toList).map (· ++ "\n"))

/-- What a run has to work with: the directory it starts in, how sources are read, the settings from
above the directory, and the time that reports show. -/
structure Environment where
  directory : Directory
  readTree : TreeReader
  inherited : Option String := none
  timestamp : String
  signal : Signal := .never

namespace Environment

/-! ## Settings -/

/-- The settings of a text, or the default ones, with a warning, if it has none. -/
def settingsOrDefault (text : String) : Settings × List String :=
  match Settings.parse text with
  | .ok settings => (settings, [])
  | .error cause => ({}, ["Warning: " ++ cause.message ++ ". Using defaults."])

/-- The settings in force and the warnings about them: those of the given file, which has to have
some, or else those of the nearest file that can be read. -/
def settings (e : Environment) : Option String → Except Failure (Settings × List String)
  | some path => do
    let text ← (e.directory.read path).mapError (.access path)
    return (← (Settings.parse text).mapError .settings, [])
  | none =>
    let nearest := ((e.directory.read Settings.fileName).toOption).or e.inherited
    .ok ((nearest.map settingsOrDefault).getD ({}, []))

/-! ## Commands -/

/-- Ends a run that changes nothing. -/
def finish (e : Environment) (ending : Ending) : Outcome := { directory := e.directory, ending }

/-- The text of a report. Nothing is coloured. -/
def report (e : Environment) (format : Format) (results : Results) : String :=
  match format with
  | .json => results.jsonText e.timestamp
  | .terminal => results.terminalText false

/-- How an analysis ends that gave the results. -/
def endingOf (results : Results) : Ending := if results.hasErrors then .errorsFound else .success

def analyzeWith (e : Environment) (settings : Settings) (command : AnalyzeCommand) : Outcome :=
  match (e.directory.analyze e.readTree settings command.explain command.path).result? e.signal with
  | none => e.finish .cancelled
  | some (.error cause) => e.finish (.failed cause)
  | some (.ok results) =>
    let text := e.report command.format results
    match command.output with
    | none => { directory := e.directory, output := text, ending := endingOf results }
    | some path =>
      match e.directory.write path text with
      | .error _ => e.finish (.failed (.output path))
      | .ok directory => { directory, ending := endingOf results }

/-- The line on one fixed file. -/
def fixLine (dryRun : Bool) (path : String) (count : Nat) : String :=
  (if dryRun then "Would fix " else "Fixed ") ++ path ++ s!" ({count} changes)\n"

/-- The last line of a run that fixes files. -/
def fixSummary (dryRun : Bool) (run : FixRun) : String :=
  let verb := if dryRun then "Would insert" else "Inserted"
  let fixes := run.fixesApplied
  let files := run.filesChanged
  s!"{verb} {fixes} readonly modifiers in {files} files\n"

def fixWith (e : Environment) (settings : Settings) (command : FixCommand) : Outcome :=
  let run := e.directory.fix e.readTree settings command.dryRun command.path e.signal
  let lines := String.join (run.fixed.map fun (path, count) => fixLine command.dryRun path count)
  match run.failure with
  | some cause => { directory := run.directory, output := lines, ending := .failed cause }
  | none => { directory := run.directory, output := lines ++ fixSummary command.dryRun run }

/-- Runs a command under the settings in force. -/
def underSettings (e : Environment) (path : Option String) (command : Settings → Outcome) : Outcome :=
  match e.settings path with
  | .error cause => e.finish (.failed cause)
  | .ok (settings, warnings) => { command settings with warnings }

def init (e : Environment) (force : Bool) : Outcome :=
  let path := Path.join "." Settings.fileName
  if e.directory.has path && !force then e.finish (.failed .settingsExist)
  else
    match e.directory.write path Settings.defaultText with
    | .error cause => e.finish (.failed (.access path cause))
    | .ok directory => { directory, output := s!"Created {Settings.fileName} configuration file\n" }

/-- Runs the command that the words after the program's name describe. -/
def run (e : Environment) (words : List String) : Outcome :=
  match parse words with
  | .ok (.analyze command) => e.underSettings command.settings (e.analyzeWith · command)
  | .ok (.fix command) => e.underSettings command.settings (e.fixWith · command)
  | .ok (.init force) => e.init force
  | .error .displayVersion =>
    { directory := e.directory, output := "mutmap 0.1.0\n", ending := .usage .displayVersion }
  | .error cause => e.finish (.usage cause)

end Environment

end ReadonlyLint.CommandLine
