import ReadonlyLint.Syntax.Field
import ReadonlyLint.Syntax.Kind
import ReadonlyLint.Syntax.Span

/-!
Syntax trees. A node carries its kind, the field it fills in its parent, its place and its text,
so that no rule needs the source or a parent link. The functions here are the ways in which the
rules look at a node; each gives a child, or a node below one, which `Node.sizeOf_lt` and the
lemmas after it say in the form that recursion needs.
-/
namespace ReadonlyLint

/-- A node of the syntax tree with everything below it. -/
structure Node where
  kind : Kind
  /-- The field that the node fills in its parent. -/
  field : Option Field
  /-- Keywords and punctuation are not named. -/
  named : Bool
  /-- The parser supplied the node; the source does not have it. -/
  missing : Bool
  /-- There is a syntax error in the node or below it. -/
  hasError : Bool
  span : Span
  text : String
  /-- All children in source order, comments among them. -/
  children : List Node
  deriving Inhabited

namespace Node

/-! ## Children -/

def namedChildren (n : Node) : List Node := n.children.filter (·.named)

/-- The first child that fills the field. -/
def child? (n : Node) (field : Field) : Option Node := n.children.find? (·.field = some field)

/-- The first child of the kind. -/
def childOfKind? (n : Node) (kind : Kind) : Option Node := n.children.find? (·.kind = kind)

def hasChildOfKind (n : Node) (kind : Kind) : Bool := n.children.any (·.kind = kind)

/-- The last child, named or not: an operand such as `this` is a keyword. -/
def lastChild? (n : Node) : Option Node := n.children.getLast?

/-- The named children of the kind. -/
def namedOfKind (n : Node) (kind : Kind) : List Node := n.namedChildren.filter (·.kind = kind)

/-- The texts of the modifiers directly under the node. -/
def modifierTexts (n : Node) : List String :=
  (n.children.filter (·.kind = .modifier)).map (·.text)

/-! ## Every child is smaller -/

theorem sizeOf_lt {n c : Node} (h : c ∈ n.children) : sizeOf c < sizeOf n := by
  cases n with
  | mk kind field named missing hasError span text children =>
    have := List.sizeOf_lt_of_mem h
    simp only [mk.sizeOf_spec]
    simp only at this
    omega

theorem mem_children_of_namedChildren {n c : Node} (h : c ∈ n.namedChildren) : c ∈ n.children :=
  (List.mem_filter.mp h).1

theorem mem_children_of_namedOfKind {n c : Node} {k : Kind} (h : c ∈ n.namedOfKind k) :
    c ∈ n.children :=
  mem_children_of_namedChildren (List.mem_filter.mp h).1

theorem mem_children_of_child? {n c : Node} {f : Field} (h : n.child? f = some c) :
    c ∈ n.children :=
  List.mem_of_find?_eq_some h

theorem mem_children_of_childOfKind? {n c : Node} {k : Kind} (h : n.childOfKind? k = some c) :
    c ∈ n.children :=
  List.mem_of_find?_eq_some h

theorem mem_children_of_lastChild? {n c : Node} (h : n.lastChild? = some c) : c ∈ n.children :=
  List.mem_of_getLast? h

/-! ## Parentheses -/

/-- What stands between the parentheses: the first named child, or else the second child. -/
def inner? (n : Node) : Option Node :=
  match n.namedChildren.head? with
  | some c => some c
  | none => (n.children[1]?).filter (·.kind ≠ .closeParen)

theorem mem_children_of_inner? {n c : Node} (h : n.inner? = some c) : c ∈ n.children := by
  unfold inner? at h
  split at h
  · rename_i c' hc
    cases h
    exact mem_children_of_namedChildren (List.mem_of_head? hc)
  · exact List.mem_of_getElem? (Option.filter_eq_some_iff.mp h).1

/-- The node without the parentheses around it. -/
def unparenthesize (n : Node) : Node :=
  if n.kind = .parenthesizedExpression then
    match _h : n.inner? with
    | some c => c.unparenthesize
    | none => n
  else n
termination_by sizeOf n
decreasing_by exact sizeOf_lt (mem_children_of_inner? _h)

theorem sizeOf_unparenthesize_le (n : Node) : sizeOf n.unparenthesize ≤ sizeOf n := by
  fun_induction unparenthesize n with
  | case1 n hk c hc ih =>
    have := sizeOf_lt (mem_children_of_inner? hc)
    omega
  | case2 => exact Nat.le_refl _
  | case3 => exact Nat.le_refl _

/-- The keyword `this`, in any number of parentheses. -/
def isThis (n : Node) : Bool := n.unparenthesize.kind = .thisToken

/-! ## Names -/

/-- The simple name of `Foo`, `Foo<T>` or `A.B.Foo`. -/
def simpleName? (n : Node) : Option String :=
  match n.kind with
  | .identifier => some n.text
  | .genericName => (n.namedChildren.head?.filter (·.kind = .identifier)).map (·.text)
  | .qualifiedName | .aliasQualifiedName =>
    match _h : n.child? .name with
    | some c => c.simpleName?
    | none => none
  | _ => none
termination_by sizeOf n
decreasing_by exact sizeOf_lt (mem_children_of_child? _h)

/-! ## Walks over the tree -/

mutual

/-- The node and everything below it, each node before its children. -/
def preorder : Node → List Node
  | ⟨kind, field, named, missing, hasError, span, text, children⟩ =>
    ⟨kind, field, named, missing, hasError, span, text, children⟩ :: preorderAll children

/-- The nodes of a list of trees, tree after tree. -/
def preorderAll : List Node → List Node
  | [] => []
  | n :: rest => n.preorder ++ preorderAll rest

end

mutual

/-- The node and what is below it through named nodes, each node before its children. A node that
`enter` refuses is left out with everything below it. -/
def reach (enter : Node → Bool) : Node → List Node
  | ⟨kind, field, named, missing, hasError, span, text, children⟩ =>
    let n : Node := ⟨kind, field, named, missing, hasError, span, text, children⟩
    if enter n then n :: reachAll enter children else []

/-- What `reach` finds from the named trees of a list. -/
def reachAll (enter : Node → Bool) : List Node → List Node
  | [] => []
  | n :: rest => (if n.named then n.reach enter else []) ++ reachAll enter rest

end

/-- A body of a member or accessor. -/
def isBody (n : Node) : Bool := n.kind = .block || n.kind = .arrowExpressionClause

/-- The nodes outside of bodies, where types and members are declared. -/
def outline (n : Node) : List Node := n.reach (!·.isBody)

mutual

/-- The number of nodes on the longest way down from the node. -/
def height : Node → Nat
  | ⟨_, _, _, _, _, _, _, children⟩ => heightAll children + 1

/-- The greatest height in a list of trees. -/
def heightAll : List Node → Nat
  | [] => 0
  | n :: rest => max n.height (heightAll rest)

end

end Node

end ReadonlyLint
