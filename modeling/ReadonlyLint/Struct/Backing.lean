import ReadonlyLint.Struct.Decl

/-!
Writes to the storage behind a property. Inside an accessor the word `field` names that storage;
the scan here finds its assignments without looking at scopes.
-/
namespace ReadonlyLint

namespace Node

theorem sizeOf_tuple_element_lt {n c e : Node} (hc : c ∈ n.unparenthesize.namedChildren)
    (he : c.lastChild? = some e) : sizeOf e < sizeOf n :=
  calc sizeOf e < sizeOf c := sizeOf_lt (mem_children_of_lastChild? he)
    _ < sizeOf n.unparenthesize := sizeOf_lt (mem_children_of_namedChildren hc)
    _ ≤ sizeOf n := sizeOf_unparenthesize_le n

/-- Whether a target of a write is the word `field`, or a tuple with it among its elements. -/
def namesBackingField (target : Node) : Bool :=
  match target.unparenthesize.kind with
  | .identifier => target.unparenthesize.text = backingFieldName
  | .tupleExpression =>
    target.unparenthesize.namedChildren.attach.any fun ⟨c, _hc⟩ =>
      match _he : c.lastChild? with
      | some e => e.namesBackingField
      | none => false
  | _ => false
termination_by sizeOf target
decreasing_by exact sizeOf_tuple_element_lt _hc _he

/-- The target that a node writes, as far as the scan tells. -/
def backingTarget? (n : Node) : Option Node :=
  match n.kind with
  | .assignmentExpression => n.child? .left
  | .postfixUnaryExpression => n.children.head?
  | .prefixUnaryExpression =>
    if n.hasChildOfKind .increment || n.hasChildOfKind .decrement then n.lastChild? else none
  | .argument =>
    if n.hasChildOfKind .refToken || n.hasChildOfKind .outToken then n.lastChild? else none
  | _ => none

/-- Whether a body assigns, increments or passes by reference the storage behind its property. -/
def writesBackingField (body : Node) : Bool :=
  (body.reach fun _ => true).any fun n => n.backingTarget?.any (·.namesBackingField)

end Node

end ReadonlyLint
