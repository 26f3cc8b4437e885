import ReadonlyLint.Syntax.Node
import ReadonlyLint.Types.Category

/-!
The types that a file declares. `TypeTable.ofTree` joins all declarations of a name, and
`TypeTable.categorize` gives the category of a written type: type parameters first, then the
types of the file, then the well-known names of the framework.
-/
namespace ReadonlyLint

/-- Names with what they are bound to. A new binding goes in front, so that `List.lookup` gives the
newest one. -/
abbrev Bindings (α : Type) := List (String × α)

namespace Node

/-- A `record` whose header has the keyword `struct`. -/
def isRecordStruct (n : Node) : Bool :=
  n.kind = .recordDeclaration && n.hasChildOfKind .structToken

/-- A declaration of a struct or of a record struct. -/
def isStruct (n : Node) : Bool := n.kind = .structDeclaration || n.isRecordStruct

/-- The category of the type that a node declares, if it declares one. -/
def declaredCategory? (n : Node) : Option TypeCategory :=
  match n.kind with
  | .classDeclaration | .interfaceDeclaration | .delegateDeclaration => some .reference
  | .structDeclaration | .enumDeclaration => some .value
  | .recordDeclaration => some (if n.isRecordStruct then .value else .reference)
  | _ => none

/-- The name and category of the type that a node declares. -/
def declaredType? (n : Node) : Option (String × TypeCategory) :=
  match n.declaredCategory?, n.child? .name with
  | some category, some name => some (name.text, category)
  | _, _ => none

end Node

/-- Categories of declared type names. -/
structure TypeTable where
  declared : Bindings TypeCategory
  deriving DecidableEq, Inhabited

namespace TypeTable

def empty : TypeTable := ⟨[]⟩

/-- Sets the category of a name. -/
def insert (t : TypeTable) (name : String) (category : TypeCategory) : TypeTable :=
  ⟨(name, category) :: t.declared⟩

/-- Adds a declaration of a name. A second one with another category leaves it unknown. -/
def record (t : TypeTable) (name : String) (category : TypeCategory) : TypeTable :=
  match t.declared.lookup name with
  | some known => t.insert name (known.join category)
  | none => t.insert name category

/-- All types declared outside of bodies. -/
def ofTree (root : Node) : TypeTable :=
  (root.outline.filterMap (·.declaredType?)).foldl (fun t d => t.record d.1 d.2) empty

/-- The category of a name, given those of the type parameters in scope. -/
def categorizeName (t : TypeTable) (generics : Bindings TypeCategory) (name : String) :
    TypeCategory :=
  match generics.lookup name with
  | some category => category
  | none => (t.declared.lookup name).getD (.ofWellKnown name)

/-- The category of a written type, given those of the type parameters in scope. -/
def categorize (t : TypeTable) (generics : Bindings TypeCategory) (type : Node) : TypeCategory :=
  match type.kind with
  | .predefinedType =>
    if type.text ∈ ["string", "object", "dynamic"] then .reference else .value
  | .arrayType => .reference
  | .pointerType | .functionPointerType | .tupleType => .value
  | .nullableType | .refType | .scopedType =>
    match _h : type.child? .type with
    | some inner => t.categorize generics inner
    | none => .unknown
  | .identifier | .genericName | .qualifiedName | .aliasQualifiedName =>
    match type.simpleName? with
    | some name => t.categorizeName generics name
    | none => .unknown
  | _ => .unknown
termination_by sizeOf type
decreasing_by exact Node.sizeOf_lt (Node.mem_children_of_child? _h)

end TypeTable

/-! ## Type parameters -/

/-- What a constraint says about the storage of a type parameter. -/
def constraintCategory? (constraint : Node) : Option TypeCategory :=
  constraint.children.findSome? fun token =>
    match token.kind with
    | .classToken => some .reference
    | .structToken | .unmanagedToken => some .value
    | _ => none

/-- The type parameter that a `where` clause constrains, with the category it gives. -/
def clauseCategory? (clause : Node) : Option (String × TypeCategory) :=
  match clause.namedChildren.find? (·.kind = .identifier),
      (clause.namedOfKind .typeParameterConstraint).findSome? constraintCategory? with
  | some target, some category => some (target.text, category)
  | _, _ => none

/-- The categories of the type parameters of a declaration, from its `where` clauses. -/
def genericCategories (declaration : Node) : Bindings TypeCategory :=
  let lists := declaration.children.filter (·.kind = .typeParameterList)
  let names := (lists.flatMap (·.namedChildren)).filterMap fun param =>
    (param.child? .name).map (·.text)
  let clauses := declaration.children.filter (·.kind = .typeParameterConstraintsClause)
  let constrained := clauses.filterMap clauseCategory?
  constrained.reverse ++ (names.map (·, TypeCategory.unknown)).reverse

end ReadonlyLint
