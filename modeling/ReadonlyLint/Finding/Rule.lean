import ReadonlyLint.Struct.Decl

/-!
The two rules, how severe their findings are, and what a finding can point at.
-/
namespace ReadonlyLint

/-- How severe a finding is; `none` turns a rule off. -/
inductive Severity where
  | none
  | suggestion
  | warning
  | error
  deriving DecidableEq, Inhabited

namespace Severity

def label : Severity → String
  | .none => "none"
  | .suggestion => "suggestion"
  | .warning => "warning"
  | .error => "error"

def all : List Severity := [.none, .suggestion, .warning, .error]

def ofLabel? (label : String) : Option Severity := all.find? (·.label = label)

def rank : Severity → Nat
  | .none => 0
  | .suggestion => 1
  | .warning => 2
  | .error => 3

def isEnabled (s : Severity) : Bool := s ≠ .none

/-- The more severe of the two. -/
def max (a b : Severity) : Severity := if a.rank ≤ b.rank then b else a

end Severity

/-- A rule of the analysis. -/
inductive Rule where
  /-- A member can be marked `readonly`. -/
  | readonlyMember
  /-- A whole struct can be marked `readonly`. -/
  | readonlyStruct
  deriving DecidableEq, Inhabited

def Rule.code : Rule → String
  | .readonlyMember => "MUT001"
  | .readonlyStruct => "MUT002"

/-- What a finding points at. -/
inductive FindingKind where
  | struct
  | method
  | operator
  | group (kind : GroupKind)
  | getter (kind : GroupKind)
  | setter (kind : GroupKind)
  deriving DecidableEq, Inhabited

namespace FindingKind

/-- The kind in data. -/
def code : FindingKind → String
  | .struct => "declaration"
  | .method => "method"
  | .operator => "operator"
  | .group kind => kind.label
  | .getter kind => kind.label ++ "-getter"
  | .setter kind => kind.label ++ "-setter"

/-- The kind at the start of a sentence. -/
def title : FindingKind → String
  | .struct => "Struct"
  | .method => "Method"
  | .operator => "Operator"
  | .group .property => "Property"
  | .group .indexer => "Indexer"
  | .getter .property => "Property getter"
  | .getter .indexer => "Indexer getter"
  | .setter .property => "Property setter"
  | .setter .indexer => "Indexer setter"

/-- What a finding on a member of the given kind points at. Fields and accessors of events are
never reported. -/
def ofMember? : MemberKind → Option FindingKind
  | .field _ | .eventAccessor _ => none
  | .method => some .method
  | .operator => some .operator
  | .accessor kind _ .get => some (.getter kind)
  | .accessor kind _ _ => some (.setter kind)

end FindingKind

end ReadonlyLint
