import ReadonlyLint.Scope
import ReadonlyLint.Struct.Decl

/-!
Where the storage that an expression denotes lives, seen from the instance whose member is
looked at. A path of member and element accesses keeps the answer of its root, except that it
leaves the instance where a field holds a reference.
-/
namespace ReadonlyLint

/-- The storage that an expression denotes. -/
inductive Storage where
  /-- The instance: `this`. -/
  | self
  /-- A field of the instance. -/
  | field (name : String)
  /-- Storage inside the named field, or reached through the named `ref` local. -/
  | inner (root : String)
  /-- Memory reached through a pointer. -/
  | pointer
  /-- A pointer variable, not what it points at. -/
  | pointerVariable (intoInstance : Bool)
  | property (group : Nat)
  | indexer
  /-- An event with accessors of its own. -/
  | event (add remove : Option Nat)
  /-- Locals, parameters, static storage and what references lead to. -/
  | outside
  /-- Not known; names the construct. -/
  | unknown (construct : String)
  deriving DecidableEq, Inhabited

namespace Storage

/-- Whether a write to the storage may change the instance. -/
def isInstance : Storage → Bool
  | .self | .field _ | .inner _ | .unknown _ => true
  | _ => false

/-- Whether the storage is certain to be a part of the instance. -/
def isCertainlyInstance : Storage → Bool
  | .self | .field _ | .inner _ => true
  | _ => false

end Storage

namespace Node

/-- The operator of a unary expression. -/
def operatorToken? (n : Node) : Option Kind :=
  (n.children.map (·.kind)).find? fun
    | .increment | .decrement | .ampersand | .star | .bang | .tilde | .minus | .plus | .caret => true
    | _ => false

/-- The values of the arguments of a call. -/
def callArguments (n : Node) : List Node :=
  match n.child? .arguments with
  | some list => (list.namedOfKind .argument).filterMap (·.lastChild?)
  | none => []

theorem sizeOf_lt_of_mem_callArguments {n v : Node} (h : v ∈ n.callArguments) :
    sizeOf v < sizeOf n := by
  unfold callArguments at h
  split at h
  · rename_i list hl
    obtain ⟨a, ha, hv⟩ := List.mem_filterMap.mp h
    have h1 := sizeOf_lt (mem_children_of_lastChild? hv)
    have h2 := sizeOf_lt (mem_children_of_namedOfKind ha)
    have h3 := sizeOf_lt (mem_children_of_child? hl)
    omega
  · cases h

theorem sizeOf_child?_unparenthesize_lt {n c : Node} {f : Field}
    (h : n.unparenthesize.child? f = some c) : sizeOf c < sizeOf n :=
  Nat.lt_of_lt_of_le (sizeOf_lt (mem_children_of_child? h)) (sizeOf_unparenthesize_le n)

end Node

/-- The place from which an expression is looked at. -/
structure Viewpoint where
  decl : StructDecl
  /-- The property or indexer whose accessor is looked at; it owns the word `field`. -/
  accessorOf : Option Nat

namespace Viewpoint

/-- What a field leads to: a field with inline storage leads into the instance. -/
def throughField (v : Viewpoint) (name : String) : Storage :=
  let inline : Bool := match v.decl.resolve name with
    | some (.field m) => m.field?.any fun info => info.isFixedBuffer || info.category.mayBeInline
    | _ => true
  if inline then .inner name else .outside

/-- What a member or element access on the given storage denotes; `onSelf` is the answer for an
access on the instance itself. -/
def select (v : Viewpoint) (base onSelf : Storage) : Storage :=
  match base with
  | .self => onSelf
  | .field name => v.throughField name
  | .inner root => .inner root
  | .pointer | .pointerVariable _ => .pointer
  | .property _ | .indexer | .event _ _ | .outside => .outside
  | .unknown construct => .unknown construct

/-- The storage of a name that no member of the struct has. -/
def foreignName (v : Viewpoint) (name : String) : Storage :=
  match v.accessorOf with
  | some group =>
    if name = backingFieldName then
      .field (((v.decl.group? group).map (·.name)).getD "" ++ "." ++ backingFieldName)
    else unresolved
  | none => unresolved
where
  /-- In a partial struct another part may declare the name. -/
  unresolved : Storage :=
    if name = v.decl.name then .outside
    else if v.decl.isPartial then .unknown "name declared in another part"
    else .outside

/-- The storage of a member reached through the instance. -/
def memberStorage (v : Viewpoint) (name : String) : Storage :=
  match v.decl.resolve name with
  | some (.field m) => if m.isStatic then .outside else .field name
  | some (.property g) => if g.isStatic then .outside else .property g.id
  | some (.methods _) => .outside
  | some (.event e) => if e.isStatic then .outside else .event e.add e.remove
  | none => v.foreignName name

/-- The storage of a simple name: local bindings first, then members. -/
def nameStorage (v : Viewpoint) (scope : Scope) (name : String) : Storage :=
  match scope.lookup name with
  | some (.pointer intoInstance) => .pointerVariable intoInstance
  | some (.ref true) => .inner name
  | some _ => .outside
  | none => v.memberStorage name

/-- The storage that an expression denotes. -/
def storage (v : Viewpoint) (scope : Scope) (n : Node) : Storage :=
  match n.unparenthesize.kind with
  | .thisToken => .self
  | .baseToken | .genericName | .declarationExpression => .outside
  | .elementBindingExpression | .memberBindingExpression => .outside
  | .invocationExpression =>
    -- a call that is given the instance may return a reference into it
    if n.unparenthesize.callArguments.attach.any fun ⟨a, _ha⟩ =>
        (v.storage scope a).isCertainlyInstance then
      .unknown "result of a call given the instance"
    else .outside
  | .identifier => v.nameStorage scope n.unparenthesize.text
  | .memberAccessExpression =>
    if n.unparenthesize.hasChildOfKind .pointerArrow then .pointer
    else
      match _h : n.unparenthesize.child? .expression with
      | none => .unknown "member access"
      | some base =>
        let member := match (n.unparenthesize.child? .name).bind (·.simpleName?) with
          | some name => v.memberStorage name
          | none => .unknown "member access"
        v.select (v.storage scope base) member
  | .elementAccessExpression =>
    match _h : n.unparenthesize.child? .expression with
    | none => .unknown "element access"
    | some base => v.select (v.storage scope base) .indexer
  | .prefixUnaryExpression =>
    if n.unparenthesize.operatorToken? = some .star then .pointer
    else .unknown (Kind.name .prefixUnaryExpression)
  | .conditionalExpression => .unknown "conditional reference"
  | .castExpression => .unknown "cast"
  | kind => .unknown kind.name
termination_by sizeOf n
decreasing_by
  · exact Nat.lt_of_lt_of_le (Node.sizeOf_lt_of_mem_callArguments _ha)
      (Node.sizeOf_unparenthesize_le n)
  · exact Node.sizeOf_child?_unparenthesize_lt _h
  · exact Node.sizeOf_child?_unparenthesize_lt _h

/-- The storage of every expression in a body. -/
def survey (v : Viewpoint) (scope : Scope) (body : Node) : List (Node × Storage) :=
  (body.preorder.filter (·.kind.isExpression)).map fun n => (n, v.storage scope n)

end Viewpoint

end ReadonlyLint
