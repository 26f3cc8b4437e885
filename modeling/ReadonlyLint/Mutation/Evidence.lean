import ReadonlyLint.MemberSet
import ReadonlyLint.Syntax.Span

/-!
What shows that a member changes its instance by itself.
-/
namespace ReadonlyLint

/-- A way in which a member may change its instance. -/
inductive Mutation where
  | fieldWrite (field : String)
  | instanceReassignment
  | referenceEscape (target : String)
  | mutableRefAlias
  | pointerWrite
  | synthesizedSetter
  | initAccessor
  | missingBody
  | malformedSyntax
  | unclassifiable (construct : String)
  deriving DecidableEq, Inhabited

namespace Mutation

def label : Mutation → String
  | .fieldWrite _ => "field-write"
  | .instanceReassignment => "instance-reassignment"
  | .referenceEscape _ => "reference-escape"
  | .mutableRefAlias => "mutable-ref-alias"
  | .pointerWrite => "pointer-write"
  | .synthesizedSetter => "synthesized-setter"
  | .initAccessor => "init-accessor"
  | .missingBody => "missing-body"
  | .malformedSyntax => "malformed-syntax"
  | .unclassifiable _ => "unclassifiable"

/-- The mutation in words. -/
def describe : Mutation → String
  | .fieldWrite field => s!"writes instance field `{field}`"
  | .instanceReassignment => "reassigns `this`"
  | .referenceEscape target => s!"passes `{target}` by writable reference"
  | .mutableRefAlias => "binds a mutable ref local to the instance"
  | .pointerWrite => "writes through a pointer"
  | .synthesizedSetter => "auto-implemented setter"
  | .initAccessor => "init accessor"
  | .missingBody => "body is not available"
  | .malformedSyntax => "contains syntax errors"
  | .unclassifiable construct => s!"cannot classify {construct}"

end Mutation

/-- A mutation with the place where it happens. -/
structure Evidence where
  mutation : Mutation
  span : Option Span
  deriving DecidableEq, Inhabited

/-- What one member shows when it is looked at alone. -/
structure LocalAnalysis where
  evidence : List Evidence := []
  /-- The members that it uses on the same instance. -/
  uses : MemberSet := .empty
  deriving DecidableEq, Inhabited

/-- Whether the member changes its instance by itself. -/
def LocalAnalysis.mutates (a : LocalAnalysis) : Bool := !a.evidence.isEmpty

end ReadonlyLint
