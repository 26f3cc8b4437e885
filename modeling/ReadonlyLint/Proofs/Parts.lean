import ReadonlyLint.Mutation.Analyze
import ReadonlyLint.Proofs.VisitMap

/-!
Structs whose members and groups differ one by one. The rules for code read only a few things of a
member or a group (`StructDecl.Unread`): which it is, what kind it is of, whether it is static, and
so on. A change that leaves these as they are leaves what every name means, and so what every member
shows.
-/
namespace ReadonlyLint

/-- The same struct with its members and groups changed one by one. -/
def StructDecl.mapParts (f : Member → Member) (g : PropertyGroup → PropertyGroup)
    (d : StructDecl) : StructDecl :=
  { d with members := d.members.map f, groups := d.groups.map g }

/-- What a name means, after such a change. -/
def Resolved.mapParts (f : Member → Member) (g : PropertyGroup → PropertyGroup) :
    Resolved → Resolved
  | .field m => .field (f m)
  | .methods ms => .methods (ms.map f)
  | .property group => .property (g group)
  | .event e => .event e

namespace StructDecl

/-- The change is to nothing that the rules for code read. -/
structure Unread (f : Member → Member) (g : PropertyGroup → PropertyGroup) : Prop where
  id : ∀ m, (f m).id = m.id
  kind : ∀ m, (f m).kind = m.kind
  isStatic : ∀ m, (f m).isStatic = m.isStatic
  isPartial : ∀ m, (f m).modifiers.isPartial = m.modifiers.isPartial
  hasBody : ∀ m, (f m).body.isSome = m.body.isSome
  groupId : ∀ group, (g group).id = group.id
  groupName : ∀ group, (g group).name = group.name
  groupKind : ∀ group, (g group).kind = group.kind
  groupIsStatic : ∀ group, (g group).isStatic = group.isStatic
  accessors : ∀ group, (g group).accessors = group.accessors
  anchor : ∀ group, (g group).anchor = group.anchor

theorem Unread.isField {f : Member → Member} {g : PropertyGroup → PropertyGroup} (h : Unread f g)
    (m : Member) : (f m).isField = m.isField := by
  simp [Member.isField, Member.field?, h.kind]

/-! ## Names -/

theorem member?_mapParts (f : Member → Member) (g : PropertyGroup → PropertyGroup) (d : StructDecl)
    (id : Nat) : (d.mapParts f g).member? id = (d.member? id).map f :=
  Array.getElem?_map

theorem group?_mapParts (f : Member → Member) (g : PropertyGroup → PropertyGroup) (d : StructDecl)
    (id : Nat) : (d.mapParts f g).group? id = (d.group? id).map g :=
  Array.getElem?_map

/-- The members that a name was declared as. -/
def membersNamed (d : StructDecl) (name : String) : List Member :=
  (d.symbolsOf name).filterMap fun
    | .member id => d.member? id
    | _ => none

/-- The property that a name was declared as first. -/
def groupNamed (d : StructDecl) (name : String) : Option PropertyGroup :=
  (d.symbolsOf name).findSome? fun
    | .group id => d.group? id
    | _ => none

theorem membersNamed_mapParts (f : Member → Member) (g : PropertyGroup → PropertyGroup)
    (d : StructDecl) (name : String) :
    (d.mapParts f g).membersNamed name = (d.membersNamed name).map f := by
  unfold membersNamed
  rw [List.map_filterMap]
  refine List.filterMap_congr fun symbol _ => ?_
  cases symbol with
  | member id => exact member?_mapParts f g d id
  | group id => rfl
  | event index => rfl

theorem groupNamed_mapParts (f : Member → Member) (g : PropertyGroup → PropertyGroup)
    (d : StructDecl) (name : String) :
    (d.mapParts f g).groupNamed name = (d.groupNamed name).map g := by
  unfold groupNamed
  rw [List.map_findSome?]
  refine congrArg (List.findSome? · _) (funext fun symbol => ?_)
  cases symbol with
  | member id => rfl
  | group id => exact group?_mapParts f g d id
  | event index => rfl

/-- What a name means, from what it was declared as. -/
def meaning (group : Option PropertyGroup) (event : Option CustomEvent) (members : List Member) :
    Option Resolved :=
  match group, event, members.find? (·.isField), members with
  | some g, _, _, _ => some (.property g)
  | none, some e, _, _ => some (.event e)
  | none, none, some m, _ => some (.field m)
  | none, none, none, [] => none
  | none, none, none, ms => some (.methods ms)

theorem resolve_eq (d : StructDecl) (name : String) :
    d.resolve name = meaning (d.groupNamed name)
      ((d.symbolsOf name).findSome? fun
        | .event index => d.events[index]?
        | _ => none) (d.membersNamed name) :=
  rfl

section Changed

variable {f : Member → Member} {g : PropertyGroup → PropertyGroup} (h : Unread f g)
include h

theorem meaning_map (group : Option PropertyGroup) (event : Option CustomEvent)
    (members : List Member) :
    meaning (group.map g) event (members.map f) =
      (meaning group event members).map (Resolved.mapParts f g) := by
  unfold meaning
  have hfield : (members.map f).find? (·.isField) = (members.find? (·.isField)).map f := by
    rw [List.find?_map]
    exact congrArg (fun p => (members.find? p).map f) (funext h.isField)
  rw [hfield]
  generalize members.find? (·.isField) = first
  rcases group with _ | g
  · rcases event with _ | e
    · rcases first with _ | m
      · cases members <;> rfl
      · rfl
    · rfl
  · rfl

theorem resolve_mapParts (d : StructDecl) (name : String) :
    (d.mapParts f g).resolve name = (d.resolve name).map (Resolved.mapParts f g) := by
  rw [resolve_eq, resolve_eq, groupNamed_mapParts, membersNamed_mapParts, meaning_map h]
  rfl

end Changed

end StructDecl

/-! ## The place of a walk -/

/-- Two places from which every name means the same. -/
structure Viewpoint.Agrees (v v' : Viewpoint) : Prop where
  throughField : v'.throughField = v.throughField
  memberStorage : v'.memberStorage = v.memberStorage
  useGroup : Walk.useGroup v' = Walk.useGroup v
  useIndexers : Walk.useIndexers v' = Walk.useIndexers v
  useName : Walk.useName v' = Walk.useName v
  declares : ∀ name, (v'.decl.resolve name).isSome = (v.decl.resolve name).isSome
  isPartial : v'.decl.isPartial = v.decl.isPartial

namespace Viewpoint.Agrees

variable {v v' : Viewpoint} (h : v.Agrees v')
include h

theorem storage : v'.storage = v.storage := by
  have hselect : v'.select = v.select := by
    unfold select
    rw [h.throughField]
  have hname : v'.nameStorage = v.nameStorage := by
    unfold nameStorage
    rw [h.memberStorage]
  have hrule : v'.storageOf = v.storageOf := by
    unfold storageOf accessedMember
    rw [hselect, hname, h.memberStorage]
  funext scope n
  induction n using Node.below_induction with
  | step n ih =>
    -- with the identity as the map, the rule asks only for the storage of what is below
    rw [storage_eq, storage_eq, hrule]
    refine Node.storageOf_map (f := id) (Walk.carries_id _) v scope fun c hc => ?_
    exact ih c (hc.of_within (Node.within_unparenthesize n))

theorem pointsIntoInstance : Walk.pointsIntoInstance v' = Walk.pointsIntoInstance v := by
  unfold Walk.pointsIntoInstance
  rw [h.storage, h.throughField]

theorem write : Walk.write v' = Walk.write v := by
  unfold Walk.write Walk.writeTarget Walk.writeStorage
  rw [h.storage, h.useGroup, h.useIndexers]

theorem checkCall : Walk.checkCall v' = Walk.checkCall v := by
  unfold Walk.checkCall
  simp only [h.declares, h.isPartial]

/-- Only these rules look at anything but the tree and the scope. -/
theorem step : Walk.step v' = Walk.step v := by
  unfold Walk.step Walk.visitForeach Walk.visitForeachPart Walk.visitFixed Walk.visitPin
    Walk.visitVariableDeclaration Walk.visitDeclarator Walk.declaredKind Walk.visitAssignment
    Walk.visitUnary Walk.visitArgument Walk.visitRef Walk.visitInvocation Walk.visitName
    Walk.visitMemberAccess Walk.visitElementAccess
  rw [h.write, h.storage, h.pointsIntoInstance, h.checkCall, h.useName, h.useGroup, h.useIndexers]

theorem visit : Walk.visit v' = Walk.visit v := by
  have hdepth : ∀ depth, Walk.visitTo v' depth = Walk.visitTo v depth := by
    intro depth
    induction depth with
    | zero => rfl
    | succ depth ih => rw [Walk.visitTo, Walk.visitTo, h.step, ih]
  funext outer n w
  rw [Walk.visit, Walk.visit, hdepth]

end Viewpoint.Agrees

/-- A member shows the same in two structs that agree on what its code reads, on the parts of the
member that have a body and on where it is reported. -/
theorem StructDecl.analyzeMember_congr {d d' : StructDecl} {m : Member}
    (hagrees : (d.viewpoint m).Agrees (d'.viewpoint m))
    (himplementations : d'.implementationsOf m = d.implementationsOf m)
    (hunseen : d'.unseen m = d.unseen m) : d'.analyzeMember m = d.analyzeMember m := by
  -- without a body a member uses its implementations, and with one it is visited
  unfold analyzeMember analyzeBodyless
  rw [himplementations, hunseen, hagrees.visit]

section Changed

variable {f : Member → Member} {g : PropertyGroup → PropertyGroup} (h : StructDecl.Unread f g)
include h

theorem useGroup_mapParts (d : StructDecl) (accessorOf : Option Nat) :
    Walk.useGroup { decl := d.mapParts f g, accessorOf } =
      Walk.useGroup { decl := d, accessorOf } := by
  funext w group read write
  unfold Walk.useGroup
  simp only [StructDecl.member?_mapParts, StructDecl.group?_mapParts, Option.any_map,
    Option.map_map, Function.comp_def, h.kind, h.accessors]

theorem useIndexers_mapParts (d : StructDecl) (accessorOf : Option Nat) :
    Walk.useIndexers { decl := d.mapParts f g, accessorOf } =
      Walk.useIndexers { decl := d, accessorOf } := by
  funext w read write
  unfold Walk.useIndexers StructDecl.indexers
  rw [useGroup_mapParts h]
  simp only [StructDecl.mapParts, Array.toList_map, List.filter_map, List.foldl_map,
    Function.comp_def, PropertyGroup.isIndexer, h.groupKind, h.groupIsStatic, h.groupId]

theorem agrees_mapParts (d : StructDecl) (accessorOf : Option Nat) :
    Viewpoint.Agrees { decl := d, accessorOf } { decl := d.mapParts f g, accessorOf } := by
  refine
    { throughField := funext fun name => ?_
      memberStorage := funext fun name => ?_
      useGroup := useGroup_mapParts h d accessorOf
      useIndexers := useIndexers_mapParts h d accessorOf
      useName := funext fun w => funext fun name => ?_
      declares := fun name => ?_
      isPartial := rfl }
  · unfold Viewpoint.throughField
    rw [StructDecl.resolve_mapParts h]
    rcases d.resolve name with _ | r
    · rfl
    · cases r with
      | field m =>
        have hfield : (f m).field? = m.field? := congrArg MemberKind.field? (h.kind m)
        dsimp only [Option.map_some, Resolved.mapParts]
        rw [hfield]
      | _ => rfl
  · unfold Viewpoint.memberStorage Viewpoint.foreignName
    rw [StructDecl.resolve_mapParts h]
    rcases d.resolve name with _ | r
    · simp only [Option.map_none, StructDecl.group?_mapParts, Option.map_map, Function.comp_def,
        h.groupName]
      rfl
    · cases r with
      | field m => simp [Resolved.mapParts, h.isStatic]
      | property group => simp [Resolved.mapParts, h.groupIsStatic, h.groupId]
      | _ => rfl
  · unfold Walk.useName
    rw [StructDecl.resolve_mapParts h, useGroup_mapParts h]
    rcases d.resolve name with _ | r
    · rfl
    · cases r with
      | methods ms =>
        simp only [Option.map_some, Resolved.mapParts, List.filter_map, List.map_map,
          Function.comp_def, h.isStatic, h.id]
      | property group => simp [Resolved.mapParts, h.groupIsStatic, h.groupId]
      | _ => rfl
  · rw [StructDecl.resolve_mapParts h, Option.isSome_map]

/-- What a member shows does not depend on what is not read of the others. -/
theorem StructDecl.analyzeMember_mapParts (d : StructDecl) (m : Member) :
    (d.mapParts f g).analyzeMember m = d.analyzeMember m := by
  have himplementations : (d.mapParts f g).implementationsOf m = d.implementationsOf m := by
    unfold implementationsOf
    rw [resolve_mapParts h]
    rcases d.resolve m.name with _ | r
    · rfl
    · cases r with
      | methods ms =>
        simp only [Option.map_some, Resolved.mapParts, List.filter_map, List.map_map,
          Function.comp_def, h.id, h.isPartial, h.hasBody]
      | _ => rfl
  have hunseen : (d.mapParts f g).unseen m = d.unseen m := by
    funext mutation
    unfold unseen anchorOf? groupOf?
    rcases m.kind.group? with _ | id
    · rfl
    · simp [group?_mapParts, Function.comp_def, h.anchor]
  exact analyzeMember_congr (agrees_mapParts h d m.kind.group?) himplementations hunseen

end Changed

end ReadonlyLint
