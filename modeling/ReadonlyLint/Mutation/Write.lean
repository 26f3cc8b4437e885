import ReadonlyLint.Mutation.Walk

/-!
Writes. A target of an assignment is looked at for the storage that it denotes; the parts of it
that are evaluated, such as an index, are then visited like any other expression.
-/
namespace ReadonlyLint

/-- Visits a node. The list has the nodes around it, the innermost first and without parentheses,
which say where a reference made at the node goes. -/
abbrev Visit := List Node → Node → Walk → Walk

/-- How a target is written. -/
inductive Access where
  | assign
  | compound
  /-- `+=`, which on an event calls `add`. -/
  | subscribe
  /-- `-=`, which on an event calls `remove`. -/
  | unsubscribe
  /-- Passed by `ref` or `out`. -/
  | reference
  deriving DecidableEq, Inhabited

namespace Access

/-- Whether the old value may be read as well. -/
def reads (a : Access) : Bool := a ≠ .assign

/-- The accessors of an event that the write may call. -/
def eventAccessors (a : Access) (add remove : Option Nat) : List Nat :=
  match a with
  | .subscribe => add.toList
  | .unsubscribe => remove.toList
  | _ => add.toList ++ remove.toList

/-- The access of an assignment with the given operator. -/
def ofOperator : Option Kind → Access
  | some .assign => .assign
  | some .addAssign => .subscribe
  | some .subAssign => .unsubscribe
  | _ => .compound

end Access

namespace Node

/-- The nodes around a child. -/
def around (n : Node) (outer : List Node) : List Node :=
  if n.kind = .parenthesizedExpression then outer else n :: outer

/-- The single targets of a target, each with the nodes around it: the elements of a tuple are
targets of their own. -/
def targets (outer : List Node) (n : Node) : List (List Node × Node) :=
  if n.unparenthesize.kind = .tupleExpression then
    (n.unparenthesize.namedOfKind .argument).attach.flatMap fun ⟨a, _ha⟩ =>
      match _he : a.lastChild? with
      | some e => e.targets (a :: n.unparenthesize :: outer)
      | none => []
  else [(outer, n.unparenthesize)]
termination_by sizeOf n
decreasing_by
  have h1 := sizeOf_lt (mem_children_of_lastChild? _he)
  have h2 := sizeOf_lt (mem_children_of_namedOfKind _ha)
  have h3 := sizeOf_unparenthesize_le n
  omega

end Node

namespace Walk

/-- What a write to the storage of a target shows. -/
def writeStorage (v : Viewpoint) (w : Walk) (access : Access) (storage : Storage) (t : Node) :
    Walk :=
  match storage with
  | .self =>
    w.record (if access = .reference then .referenceEscape "this" else .instanceReassignment) t
  | .field name | .inner name =>
    w.record (if access = .reference then .referenceEscape name else .fieldWrite name) t
  | .pointer => w.record .pointerWrite t
  | .unknown construct => w.record (.unclassifiable construct) t
  | .property group => useGroup v w group access.reads true
  | .indexer => useIndexers v w access.reads true
  | .event add remove => w.use (access.eventAccessors add remove)
  | .pointerVariable _ | .outside => w

/-- Visits a part of a node that may be absent. -/
def visitPart (go : Visit) (outer : List Node) (part : Option Node) (w : Walk) : Walk :=
  match part with
  | some n => go outer n w
  | none => w

/-- Visits the base of an access, unless it is the instance itself. -/
def visitBase (go : Visit) (outer : List Node) (base : Option Node) (w : Walk) : Walk :=
  visitPart go outer (base.filter (!·.isThis)) w

/-- Visits the parts of a target that are evaluated. -/
def visitOperands (go : Visit) (outer : List Node) (target : Node) (w : Walk) : Walk :=
  let t := target.unparenthesize
  match t.kind with
  | .identifier | .thisToken | .genericName => w
  | .memberAccessExpression => visitBase go (t.around outer) (t.child? .expression) w
  | .elementAccessExpression =>
    visitPart go (t.around outer) (t.child? .subscript)
      (visitBase go (t.around outer) (t.child? .expression) w)
  | .prefixUnaryExpression => visitPart go (t.around outer) t.lastChild? w
  | _ => go outer t w

/-- Writes a single target. The name `_` is a discard unless something is called so. -/
def writeTarget (v : Viewpoint) (go : Visit) (access : Access) (outer : List Node) (t : Node)
    (w : Walk) : Walk :=
  if t.kind = .declarationExpression then go outer t w
  else if t.kind = .identifier && t.text = "_" && !w.scope.binds "_" then w
  else visitOperands go outer t (writeStorage v w access (v.storage w.scope t) t)

/-- A target that is neither a declaration nor a discard is written as its storage says. -/
theorem writeTarget_of_kept {t : Node} {w : Walk} (hdeclaration : t.kind ≠ .declarationExpression)
    (hkept : t.kind = .identifier → t.text = "_" → w.scope.binds "_" = true) (v : Viewpoint)
    (go : Visit) (access : Access) (outer : List Node) :
    writeTarget v go access outer t w =
      visitOperands go outer t (writeStorage v w access (v.storage w.scope t) t) := by
  have hdiscard : ¬ (t.kind = .identifier && t.text = "_" && !w.scope.binds "_") = true := by
    intro h
    simp only [Bool.and_eq_true, decide_eq_true_eq, Bool.not_eq_true'] at h
    simp [hkept h.1.1 h.1.2] at h
  unfold writeTarget
  rw [if_neg hdeclaration, if_neg hdiscard]

/-- Writes every single target of a target. -/
def write (v : Viewpoint) (go : Visit) (access : Access) (outer : List Node) (target : Node)
    (w : Walk) : Walk :=
  (target.targets outer).foldl (fun w (outer, t) => writeTarget v go access outer t w) w

end Walk

end ReadonlyLint
