import Mathlib.Data.List.Basic
import ReadonlyLint.Mutation.Walk

/-!
The storage of an expression, unrolled once. `Viewpoint.storageOf` is the rule for one node without
parentheses, given the answers for its parts, so that a law about storage is one lemma about it.
-/
namespace ReadonlyLint

namespace Viewpoint

/-- The member of the instance that a member access names. -/
def accessedMember (v : Viewpoint) (t : Node) : Storage :=
  match (t.child? .name).bind (·.simpleName?) with
  | some name => v.memberStorage name
  | none => .unknown "member access"

/-- The storage of a node without parentheses, from the storage of its parts. -/
def storageOf (v : Viewpoint) (scope : Scope) (part : Node → Storage) (t : Node) : Storage :=
  match t.kind with
  | .thisToken => .self
  | .baseToken | .genericName | .declarationExpression => .outside
  | .elementBindingExpression | .memberBindingExpression => .outside
  | .invocationExpression =>
    if t.callArguments.any fun a => (part a).isCertainlyInstance then
      .unknown "result of a call given the instance"
    else .outside
  | .identifier => v.nameStorage scope t.text
  | .memberAccessExpression =>
    if t.hasChildOfKind .pointerArrow then .pointer
    else
      match t.child? .expression with
      | none => .unknown "member access"
      | some base => v.select (part base) (v.accessedMember t)
  | .elementAccessExpression =>
    match t.child? .expression with
    | none => .unknown "element access"
    | some base => v.select (part base) .indexer
  | .prefixUnaryExpression =>
    if t.operatorToken? = some .star then .pointer
    else .unknown (Kind.name .prefixUnaryExpression)
  | .conditionalExpression => .unknown "conditional reference"
  | .castExpression => .unknown "cast"
  | kind => .unknown kind.name

theorem storage_eq (v : Viewpoint) (scope : Scope) (n : Node) :
    v.storage scope n = v.storageOf scope (v.storage scope) n.unparenthesize := by
  rw [storage]
  split
  all_goals rename_i hk
  all_goals simp only [storageOf, hk]
  -- only a call, a member access and an element access ask for the storage of a part
  case h_7 =>
    rw [List.any_subtype, List.unattach_attach]
    exact fun _ _ => rfl
  case h_9 =>
    split
    · rfl
    · split
      · rename_i hb
        simp only [hb]
      · rename_i base hb
        simp only [hb]
        rfl
  case h_10 =>
    split
    · rename_i hb
      simp only [hb]
    · rename_i base hb
      simp only [hb]

theorem storage_of_isThis (v : Viewpoint) (scope : Scope) {n : Node} (h : n.isThis) :
    v.storage scope n = .self := by
  have hk : n.unparenthesize.kind = .thisToken := by simpa [Node.isThis] using h
  rw [storage_eq]
  simp only [storageOf, hk]

end Viewpoint

/-! ## Storage behind accessors -/

/-- A write of the storage calls accessors of a property or an event. -/
def Storage.isAccessed : Storage → Bool
  | .property _ | .event _ _ => true
  | _ => false

namespace Viewpoint

variable {v : Viewpoint}

theorem isAccessed_foreignName (name : String) : (v.foreignName name).isAccessed = false := by
  have hunresolved : (foreignName.unresolved v name).isAccessed = false := by
    unfold foreignName.unresolved
    split
    · rfl
    · split <;> rfl
  unfold foreignName
  split
  · split
    · rfl
    · exact hunresolved
  · exact hunresolved

theorem isAccessed_throughField (name : String) : (v.throughField name).isAccessed = false := by
  -- both answers have no accessors, whatever the field holds
  rw [throughField, apply_ite Storage.isAccessed]
  exact ite_self false

/-- An access on other storage than the instance itself has no accessors. -/
theorem select_of_isAccessed {base onSelf : Storage}
    (h : (v.select base onSelf).isAccessed = true) : v.select base onSelf = onSelf := by
  cases base with
  | self => rfl
  | field name =>
    rw [select, isAccessed_throughField] at h
    cases h
  | inner root => cases h
  | pointer => cases h
  | pointerVariable intoInstance => cases h
  | property group => cases h
  | indexer => cases h
  | event add remove => cases h
  | outside => cases h
  | unknown construct => cases h

/-- Storage behind accessors is that of a member with a name. -/
theorem exists_memberStorage_of_isAccessed (scope : Scope) (n : Node)
    (h : (v.storage scope n).isAccessed = true) :
    ∃ name, v.memberStorage name = v.storage scope n := by
  rw [storage_eq] at h ⊢
  generalize hstorage : v.storageOf scope (v.storage scope) n.unparenthesize = storage at h ⊢
  unfold storageOf at hstorage
  split at hstorage
  all_goals try (subst hstorage; cases h)
  · split at hstorage <;> (subst hstorage; cases h)
  · -- a simple name that is not local
    unfold nameStorage at hstorage
    split at hstorage
    all_goals try (subst hstorage; cases h)
    exact ⟨_, hstorage⟩
  · -- a member access, which has accessors on the instance only
    split at hstorage
    · subst hstorage
      cases h
    · split at hstorage
      · subst hstorage
        cases h
      · subst hstorage
        have honSelf := select_of_isAccessed h
        rw [honSelf] at h ⊢
        unfold accessedMember at h ⊢
        generalize (Node.child? _ .name).bind (·.simpleName?) = name? at h ⊢
        cases name? with
        | none => cases h
        | some name => exact ⟨name, rfl⟩
  · split at hstorage
    · subst hstorage
      cases h
    · subst hstorage
      rw [select_of_isAccessed h] at h
      cases h
  · split at hstorage <;> (subst hstorage; cases h)

theorem resolve_of_memberStorage_property {name : String} {id : Nat}
    (h : v.memberStorage name = .property id) :
    ∃ g, v.decl.resolve name = some (.property g) ∧ g.isStatic = false ∧ g.id = id := by
  unfold memberStorage at h
  split at h
  · split at h <;> cases h
  · rename_i g hresolved
    split at h
    · cases h
    · rename_i hstatic
      cases h
      exact ⟨g, hresolved, by simpa using hstatic, rfl⟩
  · cases h
  · split at h <;> cases h
  · have hforeign := v.isAccessed_foreignName name
    rw [h] at hforeign
    cases hforeign

theorem resolve_of_memberStorage_event {name : String} {add remove : Option Nat}
    (h : v.memberStorage name = .event add remove) :
    ∃ e, v.decl.resolve name = some (.event e) ∧ e.isStatic = false ∧
      e.add = add ∧ e.remove = remove := by
  unfold memberStorage at h
  split at h
  · split at h <;> cases h
  · split at h <;> cases h
  · cases h
  · rename_i e hresolved
    split at h
    · cases h
    · rename_i hstatic
      cases h
      exact ⟨e, hresolved, by simpa using hstatic, rfl, rfl⟩
  · have hforeign := v.isAccessed_foreignName name
    rw [h] at hforeign
    cases hforeign

end Viewpoint

namespace Walk

/-- Whether a node without parentheses is a pointer into the instance, from the answers for its
parts. -/
def instancePointerOf (scope : Scope) (part : Node → Bool) (t : Node) : Bool :=
  match t.kind with
  | .identifier => scope.lookup t.text = some (.pointer true)
  | .binaryExpression => (t.child? .left).any part || (t.child? .right).any part
  | .castExpression => (t.child? .value).any part
  | _ => false

theorem isInstancePointer_eq (scope : Scope) (n : Node) :
    isInstancePointer scope n =
      instancePointerOf scope (isInstancePointer scope) n.unparenthesize := by
  rw [isInstancePointer]
  split
  all_goals rename_i hk
  all_goals simp only [instancePointerOf, hk]
  case h_2 =>
    congr 1
    · split <;> simp_all
    · split <;> simp_all
  case h_3 => split <;> simp_all

end Walk

end ReadonlyLint
