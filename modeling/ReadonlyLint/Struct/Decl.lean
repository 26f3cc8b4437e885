import ReadonlyLint.Struct.Member

/-!
Declarations of structs. A declaration keeps its members, its properties and indexers, and its
events in the order in which they were added, with a log of the names they give; `resolve` says
what a simple name means inside the struct.
-/
namespace ReadonlyLint

/-- The name of the storage behind a property, as its accessors write it. -/
def backingFieldName : String := "field"

/-- The accessors of one property or indexer. -/
structure PropertyGroup where
  /-- Its place among the properties and indexers. -/
  id : Nat := 0
  name : String
  kind : GroupKind
  modifiers : Modifiers := {}
  explicitInterface : Option String := none
  accessors : List Nat := []
  /-- The name, or the word `this` of an indexer. -/
  anchor : Span
  fixOffset : Nat
  hasSynthesizedAccessor : Bool := false
  /-- There is storage behind it that an accessor other than `init` writes. -/
  hasMutableBacking : Bool := false
  malformed : Bool := false
  deriving DecidableEq, Inhabited

namespace PropertyGroup

def isStatic (g : PropertyGroup) : Bool := g.modifiers.isStatic

def isIndexer (g : PropertyGroup) : Bool := g.kind = .indexer

/-- Whether a simple name can mean the group. -/
def isNamed (g : PropertyGroup) : Bool := g.explicitInterface.isNone && !g.isIndexer

end PropertyGroup

/-- An event with accessors of its own. It has no storage; `E += h` and `E -= h` call the
accessors. -/
structure CustomEvent where
  name : String
  isStatic : Bool := false
  add : Option Nat := none
  remove : Option Nat := none
  deriving DecidableEq, Inhabited

/-- What a name was declared as. -/
inductive Symbol where
  | member (id : Nat)
  | group (id : Nat)
  | event (index : Nat)
  deriving DecidableEq, Inhabited

/-- What a simple name means inside a struct. -/
inductive Resolved where
  | field (field : Member)
  /-- All methods of the name. -/
  | methods (methods : List Member)
  | property (group : PropertyGroup)
  | event (event : CustomEvent)
  deriving Inhabited

/-- The declaration of a struct or record struct. -/
structure StructDecl where
  name : String
  anchor : Span
  modifiers : Modifiers := {}
  isRecord : Bool := false
  members : Array Member := #[]
  groups : Array PropertyGroup := #[]
  events : Array CustomEvent := #[]
  /-- There is a syntax error in the declaration outside of its members. -/
  hasBodyErrors : Bool := false
  fixOffset : Nat
  /-- The names of the declaration in the order in which they were added. -/
  symbols : List (String × Symbol) := []
  deriving Inhabited

namespace StructDecl

def isReadonly (d : StructDecl) : Bool := d.modifiers.isReadonly

def isPartial (d : StructDecl) : Bool := d.modifiers.isPartial

def member? (d : StructDecl) (id : Nat) : Option Member := d.members[id]?

def group? (d : StructDecl) (id : Nat) : Option PropertyGroup := d.groups[id]?

/-- The property or indexer of an accessor. -/
def groupOf? (d : StructDecl) (m : Member) : Option PropertyGroup := m.kind.group?.bind d.group?

def indexers (d : StructDecl) : List PropertyGroup := d.groups.toList.filter (·.isIndexer)

/-! ## Adding to a declaration -/

/-- Gives a name a meaning, unless it is hidden. -/
def addSymbol (d : StructDecl) (named : Bool) (name : String) (symbol : Symbol) : StructDecl :=
  if named then { d with symbols := d.symbols ++ [(name, symbol)] } else d

/-- Adds a member with the next free id. -/
def pushMember (d : StructDecl) (m : Member) : StructDecl :=
  let id := d.members.size
  { d.addSymbol m.isNamed m.name (.member id) with members := d.members.push { m with id } }

/-- Adds a property or indexer with the next free id. -/
def pushGroup (d : StructDecl) (g : PropertyGroup) : StructDecl :=
  let id := d.groups.size
  { d.addSymbol g.isNamed g.name (.group id) with groups := d.groups.push { g with id } }

def pushEvent (d : StructDecl) (e : CustomEvent) : StructDecl :=
  { d.addSymbol true e.name (.event d.events.size) with events := d.events.push e }

/-! ## Names -/

/-- Everything that a name was declared as, in order. -/
def symbolsOf (d : StructDecl) (name : String) : List Symbol :=
  d.symbols.filterMap fun (n, symbol) => if n = name then some symbol else none

/-- What a simple name means: a property before an event, an event before a field, a field before
the methods of the name. -/
def resolve (d : StructDecl) (name : String) : Option Resolved :=
  let symbols := d.symbolsOf name
  let group := symbols.findSome? fun
    | .group id => d.group? id
    | _ => none
  let event := symbols.findSome? fun
    | .event index => d.events[index]?
    | _ => none
  let members := symbols.filterMap fun
    | .member id => d.member? id
    | _ => none
  match group, event, members.find? (·.isField), members with
  | some g, _, _, _ => some (.property g)
  | none, some e, _, _ => some (.event e)
  | none, none, some m, _ => some (.field m)
  | none, none, none, [] => none
  | none, none, none, ms => some (.methods ms)

/-- The names of the storage of the instance that stays writable: fields, events stored as
fields, and properties with mutable storage behind them. -/
def mutableStorage (d : StructDecl) : List String :=
  (d.members.toList.filter (·.isMutableField)).map (·.name) ++
    (d.groups.toList.filter fun g => g.hasMutableBacking && !g.isStatic).map (·.name)

def hasMutableStorage (d : StructDecl) : Bool := !d.mutableStorage.isEmpty

end StructDecl

end ReadonlyLint
