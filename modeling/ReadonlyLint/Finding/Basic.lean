import ReadonlyLint.Edit
import ReadonlyLint.Finding.Suggestion

/-!
Findings: suggestions as they are reported, each with the edit that follows it.
-/
namespace ReadonlyLint

/-- A reported finding. -/
structure Finding where
  rule : Rule
  severity : Severity
  message : String
  file : String
  span : Span
  /-- The name of the struct. -/
  declaration : String
  name : String
  kind : FindingKind
  explicitInterface : Option String
  fix : Edit
  deriving DecidableEq, Inhabited

/-- The choices for one analysis. -/
structure AnalysisOptions where
  memberSeverity : Severity := .suggestion
  structSeverity : Severity := .suggestion
  /-- Whether to report why each member has its verdict. -/
  explain : Bool := false
  deriving DecidableEq, Inhabited

namespace AnalysisOptions

def wanted (o : AnalysisOptions) : SuggestionOptions :=
  { members := o.memberSeverity.isEnabled, structs := o.structSeverity.isEnabled }

def severity (o : AnalysisOptions) : Rule → Severity
  | .readonlyMember => o.memberSeverity
  | .readonlyStruct => o.structSeverity

end AnalysisOptions

namespace Suggestion

/-- The name with the interface that it implements. -/
def fullName (s : Suggestion) : String :=
  match s.explicitInterface with
  | some interface => interface ++ "." ++ s.name
  | none => s.name

/-- The suggestion in words, for a member of the named struct. -/
def message (s : Suggestion) (declaration : String) : String :=
  match s.rule with
  | .readonlyStruct => s!"Struct '{s.name}' has no mutable state and can be made readonly"
  | .readonlyMember =>
    s!"{s.kind.title} '{s.fullName}' does not modify the state of '{declaration}' " ++
      "and can be made readonly"

/-- The text that marks something as `readonly`. -/
def readonlyText : String := "readonly "

def fix (s : Suggestion) : Edit := { offset := s.fixOffset, text := readonlyText }

/-- The finding for a suggestion about a struct of a file. -/
def toFinding (s : Suggestion) (file declaration : String) (options : AnalysisOptions) : Finding :=
  { rule := s.rule
    severity := options.severity s.rule
    message := s.message declaration
    file
    span := s.span
    declaration
    name := s.name
    kind := s.kind
    explicitInterface := s.explicitInterface
    fix := s.fix }

end Suggestion

end ReadonlyLint
