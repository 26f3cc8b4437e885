import ReadonlyLint.FileReport

/-!
The results of a run over many files, with their totals.
-/
namespace ReadonlyLint

/-- A file that could not be analyzed. -/
structure FileFailure where
  path : String
  message : String
  deriving DecidableEq, Inhabited

/-- The totals of a run. -/
structure Summary where
  filesAnalyzed : Nat := 0
  filesFailed : Nat := 0
  structs : Nat := 0
  members : Nat := 0
  memberFindings : Nat := 0
  structFindings : Nat := 0
  deriving DecidableEq, Inhabited

namespace Summary

def addFinding (s : Summary) (f : Finding) : Summary :=
  match f.rule with
  | .readonlyMember => { s with memberFindings := s.memberFindings + 1 }
  | .readonlyStruct => { s with structFindings := s.structFindings + 1 }

def addFile (s : Summary) (file : FileReport) : Summary :=
  file.findings.foldl addFinding
    { s with structs := s.structs + file.structs, members := s.members + file.members }

/-- The totals over the reports and failures of a run. -/
def ofFiles (files : List FileReport) (failures : List FileFailure) : Summary :=
  files.foldl addFile { filesAnalyzed := files.length, filesFailed := failures.length }

end Summary

/-- The results of a run. -/
structure Results where
  /-- The file or directory that the run was asked for. -/
  root : String
  summary : Summary
  files : List FileReport
  failures : List FileFailure
  deriving DecidableEq, Inhabited

namespace Results

def ofFiles (root : String) (files : List FileReport) (failures : List FileFailure) : Results :=
  { root, summary := .ofFiles files failures, files, failures }

def findings (r : Results) : List Finding := r.files.flatMap (·.findings)

def findingCount (r : Results) : Nat := r.summary.memberFindings + r.summary.structFindings

/-- The greatest severity of a finding, if there is one. -/
def maxSeverity? (r : Results) : Option Severity :=
  match r.findings.map (·.severity) with
  | [] => none
  | s :: rest => some (rest.foldl Severity.max s)

def hasErrors (r : Results) : Bool := r.maxSeverity? = some .error

end Results

end ReadonlyLint
