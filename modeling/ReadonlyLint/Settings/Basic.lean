import ReadonlyLint.Finding.Basic
import ReadonlyLint.Glob
import ReadonlyLint.Settings.Statement

/-!
The settings of a project: which rules are on and how severe their findings are, which files are
left out, and how many workers share the work.
-/
namespace ReadonlyLint

/-- The setting of one rule. -/
structure RuleSetting where
  enabled : Bool := true
  severity : Severity := .suggestion
  deriving DecidableEq, Inhabited

/-- The severity in force: that of a rule turned off is `none`. -/
def RuleSetting.effective (r : RuleSetting) : Severity := if r.enabled then r.severity else .none

/-- The settings of a project. No jobs means as many as there are processors. -/
structure Settings where
  members : RuleSetting := {}
  structs : RuleSetting := {}
  ignore : Option (List String) := none
  parallel : Bool := true
  jobs : Nat := 0
  deriving DecidableEq, Inhabited

/-- Why a text gives no settings. -/
inductive SettingsError where
  /-- It is no document, or its values do not fit. -/
  | malformed
  /-- A pattern of files to leave out cannot be read. -/
  | badPattern (pattern : String) (cause : GlobError)
  deriving DecidableEq, Inhabited

def SettingsError.message : SettingsError → String
  | .malformed => "Failed to parse .mutmap.toml"
  | .badPattern pattern cause => "Invalid ignore pattern '" ++ pattern ++ "': " ++ cause.message

/-! ## Reading -/

namespace Toml.Value

/-- A severity, written as its label or as a table with the label as its only key and nothing
under it. -/
def severity? : Value → Option Severity
  | .string label => Severity.ofLabel? label
  | .table _ [(label, .table _ [])] => Severity.ofLabel? label
  | .table _ [(label, .array [])] => Severity.ofLabel? label
  | _ => none

def ruleSetting? (v : Value) : Option RuleSetting := do
  let [enabled, severity] ← v.fields? ["enabled", "severity"] | none
  return {
    enabled := ← enabled.elim (some true) bool?
    severity := ← severity.elim (some .suggestion) severity? }

def patterns? (v : Value) : Option (List String) := do
  let [some patterns] ← v.fields? ["patterns"] | none
  patterns.strings?

/-- Whether files are analysed side by side, and by how many workers. -/
def performance? (v : Value) : Option (Bool × Nat) := do
  let [parallel, jobs] ← v.fields? ["parallel", "jobs"] | none
  return (← parallel.elim (some true) bool?, ← jobs.elim (some 0) (below? UInt64.size))

def settings? (v : Value) : Option Settings := do
  let [members, structs, ignore, performance] ←
    v.fields? ["readonly_members", "readonly_declarations", "ignore", "performance"] | none
  let (parallel, jobs) ← performance.elim (some (true, 0)) performance?
  return {
    members := ← members.elim (some {}) ruleSetting?
    structs := ← structs.elim (some {}) ruleSetting?
    ignore := ← ignore.elim (some none) fun v => (patterns? v).map some
    parallel, jobs }

end Toml.Value

namespace Settings

/-- The patterns of files to leave out. -/
def ignorePatterns (s : Settings) : List String := s.ignore.getD []

/-- The options of an analysis under the settings. -/
def options (s : Settings) (explain : Bool) : AnalysisOptions :=
  { memberSeverity := s.members.effective, structSeverity := s.structs.effective, explain }

/-- The first pattern that cannot be read, and why. -/
def badPattern? (s : Settings) : Option SettingsError :=
  s.ignorePatterns.findSome? fun pattern =>
    match Glob.parse pattern with
    | .ok _ => none
    | .error cause => some (.badPattern pattern cause)

/-- Reads settings and checks their patterns. -/
def parse (text : String) : Except SettingsError Settings :=
  match (Toml.document? text).bind Toml.Value.settings? with
  | none => .error .malformed
  | some s => s.badPattern?.elim (.ok s) .error

/-- The name of the file with the settings of a project. -/
def fileName : String := ".mutmap.toml"

/-- The settings that a new project starts with. -/
def defaultText : String :=
  String.join ([
    "# Mutmap Configuration",
    "",
    "[readonly_members]",
    "enabled = true",
    "# none | suggestion | warning | error",
    "severity = \"suggestion\"",
    "",
    "[readonly_declarations]",
    "enabled = true",
    "severity = \"suggestion\"",
    "",
    "[ignore]",
    "patterns = [",
    "    \"**/bin/**\",",
    "    \"**/obj/**\",",
    "    \"**/*.g.cs\",",
    "    \"**/*.Designer.cs\",",
    "]",
    "",
    "[performance]",
    "parallel = true",
    "jobs = 0"].map (· ++ "\n"))

end Settings

end ReadonlyLint
