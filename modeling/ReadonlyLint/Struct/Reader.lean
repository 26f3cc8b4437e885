import ReadonlyLint.Struct.Backing
import ReadonlyLint.Types.Table

/-!
Reads the structs of a file from its syntax tree. `StructDecl.ofTree` finds every struct and
record struct outside of bodies, nested ones included, in source order.
-/
namespace ReadonlyLint

/-! ## Where `readonly` goes -/

/-- For a member: before a `partial` that ends its modifiers, else before the type, else before
what follows attributes and modifiers. -/
def memberFixOffset (n : Node) (type : Option Node) : Nat :=
  match (n.children.reverse.find? (·.kind = .modifier)).filter (·.text = "partial"), type with
  | some modifier, _ => modifier.span.start
  | none, some type => type.span.start
  | none, none =>
    match n.children.find? fun c => c.kind ≠ .attributeList && c.kind ≠ .modifier with
    | some c => c.span.start
    | none => n.span.start

/-- For a struct: before `ref`, else before `partial`, else before `record` or `struct`. -/
def structFixOffset (n : Node) : Nat :=
  let isPartial (c : Node) : Bool := c.kind = .modifier && c.text = "partial"
  let isKeyword (c : Node) : Bool := c.kind = .recordToken || c.kind = .structToken
  let place := (n.childOfKind? .refToken).or
    ((n.children.find? isPartial).or (n.children.find? isKeyword))
  (place.getD n).span.start

/-- The interface of an explicit implementation. -/
def explicitInterface? (n : Node) : Option String := do
  let specifier ← n.childOfKind? .explicitInterfaceSpecifier
  let target ← specifier.namedChildren.head?
  some target.text

/-! ## Member nodes -/

mutual

/-- The members of a body, those inside of preprocessor regions included. -/
def memberNodes : Node → List Node
  | ⟨_, _, _, _, _, _, _, children⟩ => memberNodesAll children

def memberNodesAll : List Node → List Node
  | [] => []
  | n :: rest =>
    let here :=
      match n.kind with
      | .preprocessor _ => memberNodes n
      | _ => if n.named || n.missing then [n] else []
    here ++ memberNodesAll rest

end

namespace StructDecl

/-! ## Accessors -/

/-- An accessor about to become a member of its property or indexer. -/
structure AccessorSpec where
  role : AccessorRole
  modifiers : Modifiers := {}
  body : Option Node
  anchor : Option Span
  fixOffset : Nat
  malformed : Bool

namespace AccessorSpec

/-- An accessor without a body is supplied by the compiler. -/
def synthesized (s : AccessorSpec) : Bool := s.body.isNone

/-- Whether the accessor shows that the property has storage behind it that stays writable. -/
def writesBacking (s : AccessorSpec) : Bool :=
  match s.body with
  | none => s.role = .set
  | some body => s.role ≠ .init && body.writesBackingField

/-- The member for an accessor of a group. -/
def toMember (s : AccessorSpec) (id : Nat) (g : PropertyGroup) (parameters : List Parameter)
    (returns : ReturnMode) : Member :=
  let alreadyReadonly := s.modifiers.isReadonly || g.modifiers.isReadonly
  { name := g.name
    kind := .accessor g.kind id s.role
    modifiers :=
      { s.modifiers with
        isStatic := s.modifiers.isStatic || g.modifiers.isStatic
        isReadonly := alreadyReadonly }
    alreadyReadonly
    parameters := if s.role = .get then parameters else parameters ++ [{ name := "value" }]
    returns := if s.role = .get then returns else .value
    body := s.body
    explicitInterface := g.explicitInterface
    anchor := s.anchor
    fixOffset := s.fixOffset
    synthesized := s.synthesized
    malformed := s.malformed }

end AccessorSpec

/-- Adds a property or indexer with its accessors. -/
def addAccessors (d : StructDecl) (g : PropertyGroup) (parameters : List Parameter)
    (returns : ReturnMode) (specs : List AccessorSpec) : StructDecl :=
  let id := d.groups.size
  let g :=
    { g with
      accessors := List.range' d.members.size specs.length
      hasSynthesizedAccessor := specs.any (·.synthesized)
      hasMutableBacking := specs.any (·.writesBacking) }
  specs.foldl (fun d s => d.pushMember (s.toMember id g parameters returns)) (d.pushGroup g)

/-- The accessor written at a node, with its keyword; other keywords give none. -/
def accessorSpec? (n keyword : Node) : Option AccessorSpec := do
  let role ← AccessorRole.ofKind? keyword.kind
  some
    { role
      modifiers := .ofNode n
      body := n.child? .body
      anchor := some keyword.span
      fixOffset := keyword.span.start
      malformed := n.hasError }

/-- Adds the property or indexer that a node declares. -/
def addGroup (d : StructDecl) (n : Node) (kind : GroupKind) : StructDecl :=
  let type := n.child? .type
  let name := if kind = .indexer then n.childOfKind? .thisToken else n.child? .name
  let fixOffset := memberFixOffset n type
  let parameters := if kind = .indexer then Parameter.ofList? (n.child? .parameters) else []
  let g : PropertyGroup :=
    { name := if kind = .indexer then "this" else (name.map (·.text)).getD ""
      kind
      modifiers := .ofNode n
      explicitInterface := explicitInterface? n
      anchor := (name.getD n).span
      fixOffset
      malformed := n.hasError }
  let returns := ReturnMode.ofType? type
  match (n.child? .value).filter (·.kind = .arrowExpressionClause), n.child? .accessors with
  | some body, _ =>
    d.addAccessors g parameters returns
      [{ role := .get, body := some body, anchor := none, fixOffset, malformed := n.hasError }]
  | none, some list =>
    let written := list.namedOfKind .accessorDeclaration
    let specs := written.filterMap fun accessor =>
      (accessor.child? .name).bind (accessorSpec? accessor)
    let unreadable := written.any fun accessor => (accessor.child? .name).isNone
    d.addAccessors { g with malformed := g.malformed || unreadable } parameters returns specs
  | none, none => d.addAccessors { g with malformed := true } parameters returns []

/-! ## Fields, methods and events -/

/-- The name and category of a type that may be absent. -/
def typeInfo (types : TypeTable) (generics : Bindings TypeCategory) :
    Option Node → String × TypeCategory
  | some type => (type.text, types.categorize generics type)
  | none => ("", .unknown)

/-- Adds the fields, or the events stored as fields, that a node declares. -/
def addFields (types : TypeTable) (generics : Bindings TypeCategory) (d : StructDecl) (n : Node)
    (isEvent : Bool) : StructDecl :=
  match n.childOfKind? .variableDeclaration with
  | none => { d with hasBodyErrors := true }
  | some declaration =>
    let modifiers := Modifiers.ofNode n
    let (typeName, category) := typeInfo types generics (declaration.child? .type)
    let names := (declaration.namedOfKind .variableDeclarator).filterMap (·.child? .name)
    names.foldl (fun d name =>
      d.pushMember
        { name := name.text
          kind := .field { typeName, category, isFixedBuffer := modifiers.isFixed, isEvent }
          modifiers
          alreadyReadonly := modifiers.isReadonly
          anchor := some name.span
          fixOffset := n.span.start
          malformed := n.hasError }) d

/-- The member for a method or operator, with its name and the node to report. -/
def methodMember (n : Node) (kind : MemberKind) (type : Option Node) (name : String)
    (anchor : Node) : Member :=
  let modifiers := Modifiers.ofNode n
  { name
    kind
    modifiers
    alreadyReadonly := modifiers.isReadonly
    parameters := Parameter.ofList? (n.child? .parameters)
    returns := .ofType? type
    body := n.child? .body
    explicitInterface := explicitInterface? n
    anchor := some anchor.span
    fixOffset := memberFixOffset n type
    malformed := n.hasError }

def addMethod (d : StructDecl) (n : Node) : StructDecl :=
  let name := (n.child? .name).getD n
  d.pushMember (methodMember n .method (n.child? .returns) name.text name)

/-- Adds an operator. A conversion is known by its type. -/
def addOperator (d : StructDecl) (n : Node) : StructDecl :=
  let type := n.child? .type
  let token := ((n.child? .operator).or type).getD n
  d.pushMember (methodMember n .operator type ("operator " ++ token.text) token)

/-- Whether an accessor of an event is its `add`; other keywords give none. -/
def eventRole? : Kind → Option Bool
  | .addToken => some true
  | .removeToken => some false
  | _ => none

/-- Adds one accessor of an event, and notes its id in the event. -/
def addEventAccessor (modifiers : Modifiers) (explicitInterface : Option String) :
    StructDecl × CustomEvent → Node → StructDecl × CustomEvent
  | (d, event), accessor =>
    match accessor.child? .name with
    | none => (d, event)
    | some keyword =>
      match eventRole? keyword.kind with
      | none => (d, event)
      | some adds =>
        let own := Modifiers.ofNode accessor
        let id := d.members.size
        let d := d.pushMember
          { name := event.name
            kind := .eventAccessor adds
            modifiers := { own with isStatic := modifiers.isStatic }
            alreadyReadonly := modifiers.isReadonly || own.isReadonly
            parameters := [{ name := "value" }]
            body := accessor.child? .body
            explicitInterface
            anchor := some keyword.span
            fixOffset := keyword.span.start
            malformed := accessor.hasError }
        (d, if adds then { event with add := some id } else { event with remove := some id })

/-- Adds an event with accessors of its own. -/
def addEvent (d : StructDecl) (n : Node) : StructDecl :=
  match n.child? .name with
  | none => { d with hasBodyErrors := true }
  | some name =>
    let modifiers := Modifiers.ofNode n
    let explicitInterface := explicitInterface? n
    let accessors := match n.child? .accessors with
      | some list => list.namedOfKind .accessorDeclaration
      | none => []
    let start : CustomEvent := { name := name.text, isStatic := modifiers.isStatic }
    let (d, event) := accessors.foldl (addEventAccessor modifiers explicitInterface) (d, start)
    if explicitInterface.isNone then d.pushEvent event else d

/-! ## Primary constructors -/

/-- The parameters of a primary constructor that have a name. -/
def primaryParameters (list : Node) : List (Node × Node) :=
  (list.namedOfKind .parameter).filterMap fun param =>
    (param.child? .name).map (param, ·)

/-- Parameters of `struct S(int x)` are mutable storage of the instance. -/
def addConstructorStorage (types : TypeTable) (generics : Bindings TypeCategory) (d : StructDecl)
    (list : Node) : StructDecl :=
  (primaryParameters list).foldl (fun d (param, name) =>
    let (typeName, category) := typeInfo types generics (param.child? .type)
    d.pushMember
      { name := name.text
        kind := .field { typeName, category }
        anchor := some name.span
        fixOffset := param.span.start
        malformed := param.hasError }) d

/-- `record struct R(int A)` declares `A { get; set; }`, or `A { get; init; }` when the record
struct is `readonly`. -/
def addPositionalProperties (d : StructDecl) (list : Node) : StructDecl :=
  let setter : AccessorRole := if d.isReadonly then .init else .set
  (primaryParameters list).foldl (fun d (param, name) =>
    let spec (role : AccessorRole) : AccessorSpec :=
      { role, body := none, anchor := some name.span, fixOffset := param.span.start,
        malformed := false }
    d.addAccessors
      { name := name.text
        kind := .property
        anchor := name.span
        fixOffset := param.span.start
        malformed := param.hasError }
      [] (.ofType? (param.child? .type)) [spec .get, spec setter]) d

/-! ## Declarations -/

/-- Adds what a node of the body declares. -/
def addMember (types : TypeTable) (generics : Bindings TypeCategory) (d : StructDecl) (n : Node) :
    StructDecl :=
  match n.kind with
  | .fieldDeclaration => d.addFields types generics n false
  | .eventFieldDeclaration => d.addFields types generics n true
  | .eventDeclaration => d.addEvent n
  | .methodDeclaration => d.addMethod n
  | .operatorDeclaration | .conversionOperatorDeclaration => d.addOperator n
  | .propertyDeclaration => d.addGroup n .property
  | .indexerDeclaration => d.addGroup n .indexer
  | .error => { d with hasBodyErrors := true }
  | _ => if n.missing then { d with hasBodyErrors := true } else d

/-- The declaration with its header only. -/
def header (n : Node) : StructDecl :=
  let name := n.child? .name
  { name := (name.map (·.text)).getD "<unnamed>"
    anchor := (name.getD n).span
    modifiers := .ofNode n
    isRecord := n.kind = .recordDeclaration
    hasBodyErrors := n.children.any fun c => c.kind = .error || c.missing
    fixOffset := structFixOffset n }

/-- Reads the struct that a node declares. -/
def ofNode (types : TypeTable) (n : Node) : StructDecl :=
  let generics := genericCategories n
  let d := header n
  let d := match n.childOfKind? .parameterList with
    | some list =>
      if d.isRecord then d.addPositionalProperties list
      else d.addConstructorStorage types generics list
    | none => d
  match n.child? .body with
  | some body => (memberNodes body).foldl (addMember types generics) d
  | none => d

/-- Every struct and record struct of a file. -/
def ofTree (root : Node) : List StructDecl :=
  let types := TypeTable.ofTree root
  (root.outline.filter (·.isStruct)).map (ofNode types)

end StructDecl

end ReadonlyLint
