import ReadonlyLint.Struct.Member
import ReadonlyLint.Types.Table

/-!
The names bound inside a member body. A scope keeps a stack of open blocks and the parameters of
the member; a name means its newest binding in the innermost open block that binds it, or else
the newest parameter of that name.
-/
namespace ReadonlyLint

/-- What a local binding is known to hold. -/
inductive LocalKind where
  | plain
  /-- A pointer; `intoInstance` when it points into the storage of the struct. -/
  | pointer (intoInstance : Bool)
  /-- A `ref` local; `toInstance` when it was bound to storage of the struct. -/
  | ref (toInstance : Bool)
  deriving DecidableEq, Inhabited

/-- What a parameter is bound as. -/
def LocalKind.ofParameter (p : Parameter) : LocalKind :=
  if p.isPointer then .pointer false else .plain

/-- The bindings in force at a point of a body. -/
structure Scope where
  /-- The open blocks, the innermost first. -/
  blocks : List (Bindings LocalKind)
  params : Bindings LocalKind
  deriving DecidableEq, Inhabited

namespace Scope

def empty : Scope := { blocks := [], params := [] }

/-- Binds a parameter of the member. -/
def addParam (s : Scope) (p : Parameter) : Scope :=
  { s with params := (p.name, LocalKind.ofParameter p) :: s.params }

/-- The scope with the parameters of a member and no open block. -/
def ofParameters (params : List Parameter) : Scope := params.foldl addParam empty

/-- Binds a local in the innermost block; there is one afterwards. -/
def declare (s : Scope) (name : String) (kind : LocalKind) : Scope :=
  match s.blocks with
  | [] => { s with blocks := [[(name, kind)]] }
  | block :: rest => { s with blocks := ((name, kind) :: block) :: rest }

def enter (s : Scope) : Scope := { s with blocks := [] :: s.blocks }

/-- Leaves the innermost block and drops what it bound. -/
def exit (s : Scope) : Scope := { s with blocks := s.blocks.tail }

def depth (s : Scope) : Nat := s.blocks.length

/-- What a name is bound to, innermost block first, then the parameters. -/
def lookup (s : Scope) (name : String) : Option LocalKind :=
  (s.blocks.findSome? (·.lookup name)).or (s.params.lookup name)

def binds (s : Scope) (name : String) : Bool := (s.lookup name).isSome

@[simp] theorem exit_enter (s : Scope) : s.enter.exit = s := rfl

@[simp] theorem depth_enter (s : Scope) : s.enter.depth = s.depth + 1 := rfl

@[simp] theorem lookup_enter (s : Scope) (name : String) : s.enter.lookup name = s.lookup name :=
  rfl

theorem lookup_declare_self (s : Scope) (name : String) (kind : LocalKind) :
    (s.declare name kind).lookup name = some kind := by
  unfold declare
  split <;> simp [lookup]

theorem lookup_declare_of_ne (s : Scope) {name other : String} (kind : LocalKind)
    (h : other ≠ name) : (s.declare name kind).lookup other = s.lookup other := by
  have hb : (other == name) = false := by simpa using h
  unfold declare
  split
  · rename_i hs
    simp [lookup, hs, List.lookup_cons, hb]
  · rename_i block rest hs
    simp [lookup, hs, List.findSome?_cons, List.lookup_cons, hb]

end Scope

end ReadonlyLint
