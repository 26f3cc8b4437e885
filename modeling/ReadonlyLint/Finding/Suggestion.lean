import ReadonlyLint.Finding.Rule
import ReadonlyLint.Mutation.Analyze
import ReadonlyLint.Verdict

/-!
From verdicts to suggestions. A struct without mutable storage and without a mutating member gets
one suggestion for the whole of it; in any other, every eligible member is covered by one
suggestion, of its own or of its property or indexer.
-/
namespace ReadonlyLint

/-! ## The verdicts of a struct -/

/-- Everything that the analysis finds out about one struct. -/
structure StructAnalysis where
  /-- What each member shows when it is looked at alone. -/
  locals : List LocalAnalysis
  graph : CallGraph
  resolution : Resolution
  deriving Inhabited

namespace StructDecl

/-- What each member shows when it is looked at alone. A `readonly` struct cannot be changed, so
its bodies are not looked at. -/
def analyzeLocally (d : StructDecl) : List LocalAnalysis :=
  if d.isReadonly then List.replicate d.members.size {}
  else d.members.toList.map d.analyzeMember

/-- Analyzes one struct. -/
def analyze (d : StructDecl) : Cancellable StructAnalysis := do
  Cancellable.check
  let locals := d.analyzeLocally
  let graph := CallGraph.ofUses (locals.map (·.uses.toList))
  let resolution ← graph.resolve (locals.map (·.mutates))
  pure { locals, graph, resolution }

end StructDecl

/-! ## Eligibility -/

/-- What a suggestion asks to mark `readonly`. -/
inductive SuggestionTarget where
  | struct
  /-- Every accessor of a property or indexer. -/
  | group (id : Nat)
  | member (id : Nat)
  deriving DecidableEq, Inhabited

structure Suggestion where
  target : SuggestionTarget
  rule : Rule
  name : String
  kind : FindingKind
  span : Span
  explicitInterface : Option String := none
  /-- Where the word `readonly` goes. -/
  fixOffset : Nat
  deriving DecidableEq, Inhabited

/-- Which suggestions are wanted. -/
structure SuggestionOptions where
  members : Bool := true
  structs : Bool := true
  deriving DecidableEq, Inhabited

namespace StructDecl

/-- Whether nothing about the property or indexer of an accessor rules out marking it. -/
def groupAllows (d : StructDecl) (m : Member) : Bool :=
  match d.groupOf? m with
  | some g => !(g.isStatic || g.hasSynthesizedAccessor || g.malformed)
  | none => true

/-- Whether a member may be marked `readonly` on its own. -/
def isEligible (d : StructDecl) (r : Resolution) (m : Member) : Bool :=
  !(d.isReadonly || m.alreadyReadonly || m.isField || m.isStatic || !m.hasInspectableBody ||
    m.kind.isInitOnly) &&
  d.groupAllows m && r.verdict m.id = .notMutating

/-- Whether the whole struct can be marked instead of its members. -/
def canBeReadonly (d : StructDecl) (r : Resolution) : Bool :=
  !d.isReadonly && !d.isPartial && !d.hasBodyErrors && !d.hasMutableStorage &&
    r.mutatingCount = 0

/-! ## Suggestions -/

def structSuggestion (d : StructDecl) : Suggestion :=
  { target := .struct, rule := .readonlyStruct, name := d.name, kind := .struct, span := d.anchor,
    fixOffset := d.fixOffset }

/-- The suggestion for a member on its own, if it can be reported. -/
def memberSuggestion? (m : Member) : Option Suggestion :=
  match FindingKind.ofMember? m.kind, m.anchor with
  | some kind, some span =>
    some
      { target := .member m.id, rule := .readonlyMember, name := m.name, kind, span,
        explicitInterface := m.explicitInterface, fixOffset := m.fixOffset }
  | _, _ => none

def groupSuggestion (g : PropertyGroup) : Suggestion :=
  { target := .group g.id, rule := .readonlyMember, name := g.name, kind := .group g.kind,
    span := g.anchor, explicitInterface := g.explicitInterface, fixOffset := g.fixOffset }

/-- The suggestions for a property or indexer: one for all of it when all accessors are eligible,
else one for each accessor that is. -/
def groupSuggestions (d : StructDecl) (r : Resolution) (g : PropertyGroup) : List Suggestion :=
  let eligible := (g.accessors.filterMap d.member?).filter (d.isEligible r)
  if eligible.isEmpty then []
  else if eligible.length = g.accessors.length then [groupSuggestion g]
  else eligible.filterMap memberSuggestion?

/-- The suggestions for members, in the order of the source. -/
def memberSuggestions (d : StructDecl) (r : Resolution) : List Suggestion :=
  let single := d.members.toList.filter fun m => m.kind.group?.isNone && d.isEligible r m
  let found := single.filterMap memberSuggestion? ++
    d.groups.toList.flatMap (d.groupSuggestions r)
  found.mergeSort fun a b => a.span.start ≤ b.span.start

/-- All suggestions for a struct. -/
def suggestions (d : StructDecl) (r : Resolution) (options : SuggestionOptions) :
    List Suggestion :=
  if d.canBeReadonly r && options.structs then [d.structSuggestion]
  else if options.members then d.memberSuggestions r
  else []

end StructDecl

end ReadonlyLint
