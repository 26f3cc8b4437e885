import ReadonlyLint.Finding.Basic
import ReadonlyLint.Struct.Reader

/-!
The report on one file: its findings and, on request, the verdict of every member with what led
to it.
-/
namespace ReadonlyLint

/-- Why a member has its verdict. -/
structure MemberExplanation where
  name : String
  kind : String
  location : Option Span
  verdict : Verdict
  /-- A suggestion covers the member. -/
  suggested : Bool
  evidence : List Evidence
  /-- The callees through which the verdict came, the nearest first. -/
  escalatedThrough : List String
  deriving DecidableEq, Inhabited

/-- Why the members of a struct have their verdicts. -/
structure StructExplanation where
  name : String
  location : Span
  /-- The struct as a whole is suggested. -/
  suggested : Bool
  members : List MemberExplanation
  deriving DecidableEq, Inhabited

/-- The report on one file. -/
structure FileReport where
  path : String
  structs : Nat := 0
  /-- The members of its structs, fields aside. -/
  members : Nat := 0
  findings : List Finding := []
  explanations : List StructExplanation := []
  deriving DecidableEq, Inhabited

/-! ## Explanations -/

/-- Whether a suggestion covers a member. -/
def Suggestion.covers (s : Suggestion) (m : Member) : Bool :=
  match s.target with
  | .member id => m.id = id
  | .group id => m.kind.group? = some id
  | .struct => false

namespace StructDecl

/-- The names of the callees through which a member became mutating. -/
def escalation (d : StructDecl) (r : Resolution) (m : Member) : List String :=
  match r.cause m.id with
  | some (.calls _) => ((r.explain m.id).drop 1).filterMap fun id => (d.member? id).map (·.name)
  | _ => []

def explainMember (d : StructDecl) (a : StructAnalysis) (suggestions : List Suggestion)
    (m : Member) : MemberExplanation :=
  { name := m.name
    kind := m.kind.label
    location := d.anchorOf? m
    verdict := a.resolution.verdict m.id
    suggested := suggestions.any (·.covers m)
    evidence := (a.locals[m.id]?.getD {}).evidence
    escalatedThrough := d.escalation a.resolution m }

def explain (d : StructDecl) (a : StructAnalysis) (suggestions : List Suggestion) :
    StructExplanation :=
  { name := d.name
    location := d.anchor
    suggested := suggestions.any (·.target = .struct)
    members := (d.members.toList.filter (!·.isField)).map (d.explainMember a suggestions) }

end StructDecl

/-! ## Reports -/

namespace FileReport

/-- Adds what was found out about one struct. -/
def add (report : FileReport) (options : AnalysisOptions) (d : StructDecl) (a : StructAnalysis) :
    FileReport :=
  let found := d.suggestions a.resolution options.wanted
  { report with
    structs := report.structs + 1
    members := report.members + (d.members.toList.filter (!·.isField)).length
    findings := report.findings ++ found.map (·.toFinding report.path d.name options)
    explanations :=
      report.explanations ++ if options.explain then [d.explain a found] else [] }

/-- Analyzes structs one after the other, asking the signal before each. -/
def addAll (options : AnalysisOptions) : FileReport → List StructDecl → Cancellable FileReport
  | report, [] => pure report
  | report, d :: rest => do
    Cancellable.check
    let a ← d.analyze
    addAll options (report.add options d a) rest

/-- The report on a file, from its syntax tree. -/
def ofTree (path : String) (root : Node) (options : AnalysisOptions) : Cancellable FileReport :=
  addAll options { path } (StructDecl.ofTree root)

/-- The edits that follow the findings. -/
def edits (report : FileReport) : List Edit := report.findings.map (·.fix)

/-- The source of the file with every finding fixed. -/
def fix (report : FileReport) (source : String) : Except InvalidEdit String :=
  Edit.applyAll source report.edits

end FileReport

end ReadonlyLint
