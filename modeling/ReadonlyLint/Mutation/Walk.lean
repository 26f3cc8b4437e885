import ReadonlyLint.Mutation.Evidence
import ReadonlyLint.Storage

/-!
The state of a walk over one body: the names in scope, the return modes of the functions around
the point reached, and what was found so far.
-/
namespace ReadonlyLint

/-- The state of a walk over a body. -/
structure Walk where
  scope : Scope
  /-- How the functions around this point return, the innermost first. -/
  returnModes : List ReturnMode
  evidence : List Evidence := []
  uses : MemberSet := .empty
  deriving DecidableEq, Inhabited

namespace Walk

/-- The state in which the body of a member is entered. -/
def start (m : Member) : Walk :=
  { scope := (Scope.ofParameters m.parameters).enter, returnModes := [m.returns] }

/-- What was found. -/
def analysis (w : Walk) : LocalAnalysis := { evidence := w.evidence, uses := w.uses }

/-- Notes a mutation at a node. -/
def record (w : Walk) (mutation : Mutation) (n : Node) : Walk :=
  { w with evidence := w.evidence ++ [{ mutation, span := some n.span }] }

/-- Notes the use of members. -/
def use (w : Walk) (members : List Nat) : Walk := { w with uses := w.uses.insertAll members }

/-- Binds the text of a node as a local. -/
def declare (w : Walk) (n : Node) (kind : LocalKind) : Walk :=
  { w with scope := w.scope.declare n.text kind }

/-- Binds the parameters of a local function or lambda. -/
def declareParameters (w : Walk) (params : List Parameter) : Walk :=
  { w with scope := params.foldl (fun s p => s.declare p.name (.ofParameter p)) w.scope }

/-- Runs a part of the walk in a block of its own. -/
def inBlock (f : Walk → Walk) (w : Walk) : Walk :=
  let w := f { w with scope := w.scope.enter }
  { w with scope := w.scope.exit }

/-- Runs a part of the walk inside a function with the given return mode. -/
def returning (mode : ReturnMode) (f : Walk → Walk) (w : Walk) : Walk :=
  let w := f { w with returnModes := mode :: w.returnModes }
  { w with returnModes := w.returnModes.tail }

/-! ## Uses of members -/

/-- Uses the accessors of a group that read or write it. -/
def useGroup (v : Viewpoint) (w : Walk) (group : Nat) (read write : Bool) : Walk :=
  let accessors := ((v.decl.group? group).map (·.accessors)).getD []
  w.use (accessors.filter fun id =>
    (v.decl.member? id).any fun m => (read && m.kind.isGetter) || (write && m.kind.isSetter))

/-- Uses the accessors of every indexer of the instance: which one is meant is not decided. -/
def useIndexers (v : Viewpoint) (w : Walk) (read write : Bool) : Walk :=
  (v.decl.indexers.filter (!·.isStatic)).foldl (fun w g => useGroup v w g.id read write) w

/-- Uses what a name means on the instance: its methods, or the getter of the property. -/
def useName (v : Viewpoint) (w : Walk) (name : String) : Walk :=
  match v.decl.resolve name with
  | some (.methods ms) => w.use ((ms.filter (!·.isStatic)).map (·.id))
  | some (.property g) => if g.isStatic then w else useGroup v w g.id true false
  | _ => w

/-! ## Pointers -/

/-- Whether an expression is a pointer derived from one that points into the instance. -/
def isInstancePointer (scope : Scope) (n : Node) : Bool :=
  match n.unparenthesize.kind with
  | .identifier => scope.lookup n.unparenthesize.text = some (.pointer true)
  | .binaryExpression =>
    (match _hl : n.unparenthesize.child? .left with
      | some side => isInstancePointer scope side
      | none => false) ||
    (match _hr : n.unparenthesize.child? .right with
      | some side => isInstancePointer scope side
      | none => false)
  | .castExpression =>
    match _hv : n.unparenthesize.child? .value with
    | some value => isInstancePointer scope value
    | none => false
  | _ => false
termination_by sizeOf n
decreasing_by
  · exact Node.sizeOf_child?_unparenthesize_lt _hl
  · exact Node.sizeOf_child?_unparenthesize_lt _hr
  · exact Node.sizeOf_child?_unparenthesize_lt _hv

/-- Whether a pointer to the target points into the instance. -/
def pointsIntoInstance (v : Viewpoint) (scope : Scope) (target : Node) : Bool :=
  match v.storage scope target with
  | .self | .inner _ | .unknown _ => true
  | .field name => (v.throughField name).isInstance
  | .pointerVariable intoInstance => intoInstance
  | _ => isInstancePointer scope target

end Walk

end ReadonlyLint
