import ReadonlyLint.Mutation.Visit

/-!
What each member of a struct shows when it is looked at alone.
-/
namespace ReadonlyLint

namespace StructDecl

/-- Where a member is reported: at its own place, or at that of its property or indexer. -/
def anchorOf? (d : StructDecl) (m : Member) : Option Span :=
  m.anchor.or ((d.groupOf? m).map (·.anchor))

/-- The parts of a partial method that have a body. -/
def implementationsOf (d : StructDecl) (m : Member) : List Nat :=
  if m.modifiers.isPartial then
    match d.resolve m.name with
    | some (.methods ms) =>
      (ms.filter fun i => i.id ≠ m.id && i.modifiers.isPartial && i.body.isSome).map (·.id)
    | _ => []
  else []

/-- The place from which the body of a member is looked at. -/
def viewpoint (d : StructDecl) (m : Member) : Viewpoint :=
  { decl := d, accessorOf := m.kind.group? }

/-- A single piece of evidence that the body of a member need not be looked at for. -/
def unseen (d : StructDecl) (m : Member) (mutation : Mutation) : LocalAnalysis :=
  { evidence := [{ mutation, span := d.anchorOf? m }] }

/-- What a member without a body shows: a partial method behaves like its implementation. -/
def analyzeBodyless (d : StructDecl) (m : Member) : LocalAnalysis :=
  match d.implementationsOf m with
  | [] => d.unseen m .missingBody
  | implementations => { uses := MemberSet.empty.insertAll implementations }

/-- What a member shows when it is looked at alone. -/
def analyzeMember (d : StructDecl) (m : Member) : LocalAnalysis :=
  if m.isField || m.isStatic then {}
  else if m.malformed then d.unseen m .malformedSyntax
  else if m.kind.isInitOnly then d.unseen m .initAccessor
  else if m.synthesized then
    if m.kind.isSetter then d.unseen m .synthesizedSetter else {}
  else
    match m.body with
    | none => d.analyzeBodyless m
    | some body => (Walk.visit (d.viewpoint m) [] body (Walk.start m)).analysis

end StructDecl

end ReadonlyLint
