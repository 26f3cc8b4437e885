import ReadonlyLint.CallGraph
import ReadonlyLint.Syntax.Node
import ReadonlyLint.Types.Category

/-!
Members of a struct. Each accessor of a property, an indexer or an event is a member of its own,
so that each can earn its own verdict.
-/
namespace ReadonlyLint

/-- The modifiers of a declaration that the analysis looks at. -/
structure Modifiers where
  isReadonly : Bool := false
  isStatic : Bool := false
  isConst : Bool := false
  isPartial : Bool := false
  isFixed : Bool := false
  deriving DecidableEq, Inhabited

namespace Modifiers

/-- The modifiers among the given words. -/
def ofTexts (texts : List String) : Modifiers :=
  { isReadonly := "readonly" ∈ texts
    isStatic := "static" ∈ texts
    isConst := "const" ∈ texts
    isPartial := "partial" ∈ texts
    isFixed := "fixed" ∈ texts }

/-- The modifiers written directly under a node. -/
def ofNode (n : Node) : Modifiers := ofTexts n.modifierTexts

/-- The modifiers that are set, in a fixed order. -/
def labels (m : Modifiers) : List String :=
  [(m.isReadonly, "readonly"), (m.isStatic, "static"), (m.isConst, "const"),
   (m.isPartial, "partial"), (m.isFixed, "fixed")].filterMap fun (set, label) =>
    if set then some label else none

end Modifiers

/-! ## Signatures -/

/-- How an argument is passed. -/
inductive ParameterMode where
  | value
  | ref
  | out
  /-- `in` or `ref readonly`. -/
  | readonlyRef
  deriving DecidableEq, Inhabited

def ParameterMode.label : ParameterMode → String
  | .value => "value"
  | .ref => "ref"
  | .out => "out"
  | .readonlyRef => "readonly-ref"

structure Parameter where
  name : String
  mode : ParameterMode := .value
  isPointer : Bool := false
  deriving DecidableEq, Inhabited

/-- How a result is returned. -/
inductive ReturnMode where
  | value
  | ref
  | readonlyRef
  deriving DecidableEq, Inhabited

def ReturnMode.label : ReturnMode → String
  | .value => "value"
  | .ref => "ref"
  | .readonlyRef => "readonly-ref"

/-- The return mode that a written type stands for. -/
def ReturnMode.ofType (type : Node) : ReturnMode :=
  if type.kind ≠ .refType then .value
  else if type.hasChildOfKind .readonlyToken then .readonlyRef
  else .ref

/-- The return mode of a type that may be absent. -/
def ReturnMode.ofType? : Option Node → ReturnMode
  | some type => ofType type
  | none => .value

namespace Parameter

/-- Reads one parameter; there is none without a name. -/
def ofNode? (n : Node) : Option Parameter := do
  let name ← n.child? .name
  let modifiers := n.modifierTexts
  let mode :=
    if "out" ∈ modifiers then .out
    else if "in" ∈ modifiers || ("ref" ∈ modifiers && "readonly" ∈ modifiers) then .readonlyRef
    else if "ref" ∈ modifiers then .ref
    else .value
  let isPointer := (n.child? .type).any (·.kind = .pointerType)
  some { name := name.text, mode, isPointer }

/-- The parameters of a list. The last parameter `params T[] name` has no node of its own: its
parts stand in the list itself. -/
def ofList (list : Node) : List Parameter :=
  list.children.filterMap fun child =>
    match child.kind with
    | .parameter => ofNode? child
    | .identifier => if child.field = some .name then some { name := child.text } else none
    | _ => none

/-- The parameters of a list that may be absent. -/
def ofList? : Option Node → List Parameter
  | some list => ofList list
  | none => []

end Parameter

/-! ## Kinds of member -/

/-- What is known of a field. -/
structure FieldInfo where
  typeName : String
  category : TypeCategory
  isFixedBuffer : Bool := false
  isEvent : Bool := false
  deriving DecidableEq, Inhabited

/-- Accessors come in groups of two kinds. -/
inductive GroupKind where
  | property
  | indexer
  deriving DecidableEq, Inhabited

def GroupKind.label : GroupKind → String
  | .property => "property"
  | .indexer => "indexer"

/-- What an accessor of a property or indexer does. -/
inductive AccessorRole where
  | get
  | set
  | init
  deriving DecidableEq, Inhabited

namespace AccessorRole

/-- The role that a keyword stands for. -/
def ofKind? : Kind → Option AccessorRole
  | .getToken => some .get
  | .setToken => some .set
  | .initToken => some .init
  | _ => none

end AccessorRole

inductive MemberKind where
  | field (info : FieldInfo)
  | method
  | operator
  /-- An accessor of a property or indexer. -/
  | accessor (kind : GroupKind) (group : Nat) (role : AccessorRole)
  /-- An accessor of an event: `add`, or else `remove`. -/
  | eventAccessor (adds : Bool)
  deriving DecidableEq, Inhabited

namespace MemberKind

def label : MemberKind → String
  | .field info => if info.isEvent then "event" else "field"
  | .method => "method"
  | .operator => "operator"
  | .accessor .property _ .get => "property-getter"
  | .accessor .property _ _ => "property-setter"
  | .accessor .indexer _ .get => "indexer-getter"
  | .accessor .indexer _ _ => "indexer-setter"
  | .eventAccessor true => "event-add"
  | .eventAccessor false => "event-remove"

def field? : MemberKind → Option FieldInfo
  | .field info => some info
  | _ => none

/-- The property or indexer that the member belongs to. -/
def group? : MemberKind → Option Nat
  | .accessor _ group _ => some group
  | _ => none

def isGetter : MemberKind → Bool
  | .accessor _ _ .get => true
  | _ => false

/-- A `set` or `init` accessor. -/
def isSetter : MemberKind → Bool
  | .accessor _ _ .set | .accessor _ _ .init => true
  | _ => false

def isInitOnly : MemberKind → Bool
  | .accessor _ _ .init => true
  | _ => false

def isEventAccessor : MemberKind → Bool
  | .eventAccessor _ => true
  | _ => false

end MemberKind

/-! ## Members -/

/-- A member of a struct. -/
structure Member where
  /-- Its place among the members. -/
  id : Nat := 0
  name : String
  kind : MemberKind
  modifiers : Modifiers := {}
  /-- Carries `readonly` itself or through its property or indexer. -/
  alreadyReadonly : Bool := false
  parameters : List Parameter := []
  returns : ReturnMode := .value
  body : Option Node := none
  explicitInterface : Option String := none
  /-- Where the member is reported. The getter of `int X => …` has no place of its own and is
  reported through its property. -/
  anchor : Option Span
  /-- Where the word `readonly` goes. -/
  fixOffset : Nat
  /-- An accessor without a body, which the compiler supplies. -/
  synthesized : Bool := false
  /-- There is a syntax error in it. -/
  malformed : Bool := false
  deriving Inhabited

namespace Member

def hasInspectableBody (m : Member) : Bool := m.body.isSome && !m.malformed

def isStatic (m : Member) : Bool := m.modifiers.isStatic || m.modifiers.isConst

def field? (m : Member) : Option FieldInfo := m.kind.field?

def isField (m : Member) : Bool := m.field?.isSome

/-- Storage of the instance that is neither `readonly` nor `const`. -/
def isMutableField (m : Member) : Bool :=
  m.isField && !m.isStatic && !m.modifiers.isReadonly

/-- Whether a simple name can mean the member: accessors are reached through their property,
indexer or event, and explicit implementations not at all. -/
def isNamed (m : Member) : Bool :=
  m.explicitInterface.isNone && m.kind.group?.isNone && !m.kind.isEventAccessor

end Member

end ReadonlyLint
