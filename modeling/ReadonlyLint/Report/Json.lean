import ReadonlyLint.Report.JsonValue
import ReadonlyLint.Report.Results

/-!
Results as JSON.
-/
namespace ReadonlyLint

open JsonValue

def Span.toJson (s : Span) : JsonValue :=
  .obj
    [("start_byte", .nat s.start), ("end_byte", .nat s.stop), ("line", .nat s.line),
     ("column", .nat s.column)]

def Verdict.code : Verdict → String
  | .unknown => "unknown"
  | .notMutating => "not-mutating"
  | .mutating => "mutating"

/-- What a mutation says beyond its label. -/
def Mutation.detail : Mutation → List (String × JsonValue)
  | .fieldWrite field => [("field", .str field)]
  | .referenceEscape target => [("target", .str target)]
  | .unclassifiable construct => [("construct", .str construct)]
  | _ => []

def Evidence.toJson (e : Evidence) : JsonValue :=
  .obj ([("kind", .str e.mutation.label)] ++ e.mutation.detail ++ optional "span" e.span Span.toJson)

def Edit.toJson (e : Edit) : JsonValue := .obj [("offset", .nat e.offset), ("text", .str e.text)]

def Finding.toJson (f : Finding) : JsonValue :=
  .obj
    ([("rule", .str f.rule.code), ("severity", .str f.severity.label), ("message", .str f.message),
      ("file", .str f.file), ("span", f.span.toJson), ("declaration", .str f.declaration),
      ("name", .str f.name), ("kind", .str f.kind.code)] ++
     optional "explicit_interface" f.explicitInterface .str ++
     [("fix", f.fix.toJson)])

def MemberExplanation.toJson (m : MemberExplanation) : JsonValue :=
  .obj
    ([("name", .str m.name), ("kind", .str m.kind)] ++
     optional "location" m.location Span.toJson ++
     [("verdict", .str m.verdict.code), ("suggested", .bool m.suggested)] ++
     nonEmpty "evidence" m.evidence Evidence.toJson ++
     nonEmpty "escalated_through" m.escalatedThrough .str)

def StructExplanation.toJson (e : StructExplanation) : JsonValue :=
  .obj
    [("name", .str e.name), ("location", e.location.toJson),
     ("readonly_declaration_suggested", .bool e.suggested),
     ("members", .arr (e.members.map (·.toJson)))]

def FileReport.toJson (r : FileReport) : JsonValue :=
  .obj
    ([("path", .str r.path), ("declarations", .nat r.structs), ("members", .nat r.members),
      ("diagnostics", .arr (r.findings.map (·.toJson)))] ++
     nonEmpty "explanations" r.explanations StructExplanation.toJson)

def Summary.toJson (s : Summary) : JsonValue :=
  .obj
    [("files_analyzed", .nat s.filesAnalyzed), ("files_failed", .nat s.filesFailed),
     ("declarations", .nat s.structs), ("members", .nat s.members),
     ("member_findings", .nat s.memberFindings),
     ("declaration_findings", .nat s.structFindings)]

def FileFailure.toJson (f : FileFailure) : JsonValue :=
  .obj [("path", .str f.path), ("message", .str f.message)]

namespace Results

/-- What the results hold after the place and time of the run. -/
def outcome (r : Results) : List (String × JsonValue) :=
  [("summary", r.summary.toJson), ("files", .arr (r.files.map (·.toJson)))] ++
    nonEmpty "failures" r.failures FileFailure.toJson

/-- The results with the time of the run. -/
def toJson (r : Results) (timestamp : String) : JsonValue :=
  .obj ([("project_path", .str r.root), ("timestamp", .str timestamp)] ++ r.outcome)

/-- The results as a JSON text. -/
def jsonText (r : Results) (timestamp : String) : String :=
  JsonValue.pretty 0 (r.toJson timestamp) ++ "\n"

end Results

end ReadonlyLint
