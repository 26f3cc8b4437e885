import Mathlib.Data.List.Forall2
import ReadonlyLint.Proofs.Growth

/-!
What a visit does not look at. It never reads the evidence that was found before, and of the nodes
around a node only what `Node.FramesLike` compares. So from states that resemble each other, inside
of nodes that are alike, a visit goes on to states that resemble each other.
-/
namespace ReadonlyLint

namespace Node

/-- Whether the node has a type, and this is a `ref readonly` type. -/
def hasReadonlyRefType (n : Node) : Bool :=
  (n.child? .type).any fun t => ReturnMode.ofType t.stripScoped = .readonlyRef

/-- No rule for a node inside of them tells the two nodes apart. -/
def FramesLike (n n' : Node) : Prop :=
  n'.kind = n.kind ∧ n'.hasReadonlyRefType = n.hasReadonlyRefType

theorem framesLike_refl (n : Node) : n.FramesLike n := ⟨rfl, rfl⟩

/-- Pairwise, no rule tells the nodes around apart. -/
def AroundLike (outer outer' : List Node) : Prop := List.Forall₂ FramesLike outer outer'

theorem aroundLike_refl (outer : List Node) : AroundLike outer outer :=
  List.forall₂_same.mpr fun n _ => framesLike_refl n

theorem AroundLike.around {outer outer' : List Node} (h : AroundLike outer outer') (n : Node) :
    AroundLike (n.around outer) (n.around outer') := by
  unfold Node.around
  split
  · exact h
  · exact .cons (framesLike_refl n) h

/-- The same node, inside of nodes that are alike. -/
def PartLike (p p' : List Node × Node) : Prop := AroundLike p.1 p'.1 ∧ p'.2 = p.2

theorem partLike_addressed {outer outer' : List Node} (h : AroundLike outer outer') (n : Node) :
    PartLike (n.addressed outer) (n.addressed outer') := by
  unfold addressed
  dsimp only
  split
  · split
    · exact ⟨.cons (framesLike_refl _) h, rfl⟩
    · exact ⟨h, rfl⟩
  · exact ⟨h, rfl⟩

theorem forall₂_targets {outer outer' : List Node} (h : AroundLike outer outer') (n : Node) :
    List.Forall₂ PartLike (n.targets outer) (n.targets outer') := by
  induction n using below_induction generalizing outer outer' with
  | step n ih =>
    rw [targets_eq, targets_eq]
    split
    · refine List.rel_flatMap (R := fun a b => a = b ∧ a.Within n) ?_ ?_
      · refine List.forall₂_same.mpr fun a ha => ⟨rfl, ?_⟩
        exact (within_of_mem (mem_children_of_namedOfKind ha)).trans (within_unparenthesize n)
      · rintro a _ ⟨rfl, hin⟩
        dsimp only
        rcases he : a.lastChild? with _ | e
        · exact .nil
        · have hbelow : e.Below n := (below_of_lastChild? he).of_within hin
          have haround : AroundLike (a :: n.unparenthesize :: outer)
              (a :: n.unparenthesize :: outer') :=
            .cons (framesLike_refl _) (.cons (framesLike_refl _) h)
          simpa using ih e hbelow haround
    · exact .cons ⟨h, rfl⟩ .nil

theorem forall₂_initializerParts {outer outer' : List Node} (h : AroundLike outer outer')
    (n : Node) :
    List.Forall₂ PartLike (n.initializerParts outer) (n.initializerParts outer') := by
  induction n using below_induction generalizing outer outer' with
  | step n ih =>
    have hentry : ∀ {l : List Node}, AroundLike (l ++ outer) (l ++ outer') := fun {l} =>
      List.rel_append (aroundLike_refl l) h
    rw [initializerParts_eq, initializerParts_eq]
    refine List.rel_flatMap (R := fun a b => a = b ∧ a ∈ n.children) ?_ ?_
    · exact List.forall₂_same.mpr fun c hc => ⟨rfl, mem_children_of_namedChildren hc⟩
    · rintro c _ ⟨rfl, hc⟩
      unfold entryParts
      split
      · exact .cons ⟨hentry (l := [n]), rfl⟩ .nil
      · refine List.rel_append ?_ ?_
        · rcases c.child? .left with _ | left
          · exact .nil
          · simp only [Option.toList_some, List.flatMap_cons, List.flatMap_nil, List.append_nil]
            split
            · refine List.forall₂_map_left_iff.mpr (List.forall₂_map_right_iff.mpr ?_)
              exact List.forall₂_same.mpr fun i _ => ⟨hentry (l := [left, c, n]), rfl⟩
            · exact .nil
        · rcases hr : c.child? .right with _ | right
          · exact .nil
          · simp only [Option.toList_some, List.flatMap_cons, List.flatMap_nil, List.append_nil]
            split
            · have hbelow := (below_of_child? hr).of_within (within_of_mem hc)
              exact ih right hbelow (hentry (l := [c, n]))
            · exact .cons ⟨hentry (l := [c, n]), rfl⟩ .nil

end Node

namespace Walk

open Node

/-! ## States -/

/-- The states differ at most in the evidence, and there not in the kinds of mutation. -/
structure Resembles (w w' : Walk) : Prop where
  scope : w'.scope = w.scope
  returnModes : w'.returnModes = w.returnModes
  uses : w'.uses = w.uses
  labels : w'.evidence.map (·.mutation.label) = w.evidence.map (·.mutation.label)

theorem resembles_refl (w : Walk) : w.Resembles w := ⟨rfl, rfl, rfl, rfl⟩

section Steps

variable {w w' : Walk} (h : w.Resembles w')

theorem resembles_ite {c : Prop} [Decidable c] {a a' b b' : Walk} (ha : a.Resembles a')
    (hb : b.Resembles b') : (if c then a else b).Resembles (if c then a' else b') := by
  split
  · exact ha
  · exact hb

include h

theorem resembles_record {mutation mutation' : Mutation} (hm : mutation'.label = mutation.label)
    (n n' : Node) : (w.record mutation n).Resembles (w'.record mutation' n') := by
  refine ⟨h.scope, h.returnModes, h.uses, ?_⟩
  simp [record, h.labels, hm]

theorem resembles_use (members : List Nat) : (w.use members).Resembles (w'.use members) := by
  refine ⟨h.scope, h.returnModes, ?_, h.labels⟩
  simp [use, h.uses]

theorem resembles_withScope (f : Scope → Scope) :
    { w with scope := f w.scope }.Resembles { w' with scope := f w'.scope } :=
  ⟨congrArg f h.scope, h.returnModes, h.uses, h.labels⟩

theorem resembles_declare (n : Node) (kind : LocalKind) :
    (w.declare n kind).Resembles (w'.declare n kind) :=
  resembles_withScope h (·.declare n.text kind)

theorem resembles_declareParameters (params : List Parameter) :
    (w.declareParameters params).Resembles (w'.declareParameters params) :=
  resembles_withScope h fun scope =>
    params.foldl (fun (s : Scope) (p : Parameter) => s.declare p.name (.ofParameter p)) scope

theorem resembles_inBlock {f f' : Walk → Walk}
    (hf : ∀ a a' : Walk, a.Resembles a' → (f a).Resembles (f' a')) :
    (inBlock f w).Resembles (inBlock f' w') :=
  resembles_withScope (hf _ _ (resembles_withScope h (·.enter))) (·.exit)

theorem resembles_returning (mode : ReturnMode) {f f' : Walk → Walk}
    (hf : ∀ a a' : Walk, a.Resembles a' → (f a).Resembles (f' a')) :
    (returning mode f w).Resembles (returning mode f' w') := by
  have hinside := hf { w with returnModes := mode :: w.returnModes }
    { w' with returnModes := mode :: w'.returnModes }
    ⟨h.scope, congrArg (mode :: ·) h.returnModes, h.uses, h.labels⟩
  exact ⟨hinside.scope, congrArg List.tail hinside.returnModes, hinside.uses, hinside.labels⟩

theorem resembles_foldl {α : Type} {f f' : Walk → α → Walk} (l : List α)
    (hf : ∀ x : α, ∀ a a' : Walk, a.Resembles a' → (f a x).Resembles (f' a' x)) :
    (l.foldl f w).Resembles (l.foldl f' w') :=
  List.foldl_rel h fun x _ a a' ha => hf x a a' ha

/-- A fold over the same nodes, inside of nodes that are alike. -/
theorem resembles_foldl_parts {f f' : Walk → List Node × Node → Walk}
    {l l' : List (List Node × Node)} (hl : List.Forall₂ PartLike l l')
    (hf : ∀ p p' : List Node × Node, ∀ a a' : Walk, PartLike p p' → a.Resembles a' →
      (f a p).Resembles (f' a' p')) :
    (l.foldl f w).Resembles (l'.foldl f' w') := by
  induction hl generalizing w w' with
  | nil => exact h
  | cons hp _ ih => exact ih (hf _ _ _ _ hp h)

theorem resembles_useGroup (v : Viewpoint) (group : Nat) (read write : Bool) :
    (useGroup v w group read write).Resembles (useGroup v w' group read write) :=
  resembles_use h _

theorem resembles_useIndexers (v : Viewpoint) (read write : Bool) :
    (useIndexers v w read write).Resembles (useIndexers v w' read write) :=
  resembles_foldl h _ fun g _ _ ha => resembles_useGroup ha v g.id read write

theorem resembles_useName (v : Viewpoint) (name : String) :
    (useName v w name).Resembles (useName v w' name) := by
  unfold useName
  rcases v.decl.resolve name with _ | r
  · exact h
  · cases r with
    | methods ms => exact resembles_use h _
    | property g => exact resembles_ite h (resembles_useGroup h v g.id true false)
    | field m => exact h
    | event e => exact h

/-- What a write shows depends on the storage of its target, and not on the target itself. -/
theorem resembles_writeStorage (v : Viewpoint) (access : Access) (storage : Storage) (t t' : Node) :
    (writeStorage v w access storage t).Resembles (writeStorage v w' access storage t') := by
  cases storage with
  | self => exact resembles_record h rfl t t'
  | field name => exact resembles_record h rfl t t'
  | inner name => exact resembles_record h rfl t t'
  | pointer => exact resembles_record h rfl t t'
  | unknown construct => exact resembles_record h rfl t t'
  | property group => exact resembles_useGroup h v group _ true
  | indexer => exact resembles_useIndexers h v _ true
  | event add remove => exact resembles_use h _
  | pointerVariable intoInstance => exact h
  | outside => exact h

theorem resembles_declareName (name : Option Node) (kind : LocalKind) :
    (declareName name kind w).Resembles (declareName name kind w') := by
  rcases name with _ | n
  · exact h
  · exact resembles_declare h n kind

theorem resembles_declareNames (n : Node) :
    (declareNames n w).Resembles (declareNames n w') :=
  resembles_foldl h _ fun c _ _ ha => resembles_ite (resembles_declare ha c .plain) ha

theorem resembles_checkCall (v : Viewpoint) (function : Node) :
    (checkCall v function w).Resembles (checkCall v function w') := by
  unfold checkCall
  rw [h.scope]
  rcases calledName? function.unparenthesize with _ | ⟨name, throughThis⟩
  · exact h
  · refine resembles_ite h (resembles_ite h (resembles_ite ?_ (resembles_ite ?_ h)))
    · exact resembles_record h rfl _ _
    · exact resembles_record h rfl _ _

theorem resembles_visitName (v : Viewpoint) (name : String) :
    (visitName v name w).Resembles (visitName v name w') := by
  unfold visitName
  rw [h.scope]
  exact resembles_ite h (resembles_useName h v name)

end Steps

/-! ## The rules -/

/-- A visit that looks at no evidence, and at the nodes around only as `Node.FramesLike` does. -/
def Blind (go : Visit) : Prop :=
  ∀ ⦃outer outer' : List Node⦄, AroundLike outer outer' → ∀ (n : Node) ⦃w w' : Walk⦄,
    w.Resembles w' → (go outer n w).Resembles (go outer' n w')

section Rules

variable {v : Viewpoint} {go : Visit} (hgo : Blind go) {outer outer' : List Node}
  (hout : AroundLike outer outer') {w w' : Walk} (h : w.Resembles w')
include hgo hout h

theorem resembles_visitPart (part : Option Node) :
    (visitPart go outer part w).Resembles (visitPart go outer' part w') := by
  rcases part with _ | n
  · exact h
  · exact hgo hout n h

theorem resembles_visitOperands (target : Node) :
    (visitOperands go outer target w).Resembles (visitOperands go outer' target w') := by
  have hinner := hout.around target.unparenthesize
  unfold visitOperands
  dsimp only
  split
  · exact h
  · exact h
  · exact h
  · exact resembles_visitPart hgo hinner h _
  · exact resembles_visitPart hgo hinner (resembles_visitPart hgo hinner h _) _
  · exact resembles_visitPart hgo hinner h _
  · exact hgo hout _ h

theorem resembles_writeTarget (access : Access) (t : Node) :
    (writeTarget v go access outer t w).Resembles (writeTarget v go access outer' t w') := by
  unfold writeTarget
  rw [h.scope]
  refine resembles_ite (hgo hout t h) (resembles_ite h ?_)
  exact resembles_visitOperands hgo hout (resembles_writeStorage h v access _ t t) t

omit hout in
/-- The same writes, inside of nodes that are alike. -/
theorem resembles_writeTargets (access : Access) {l l' : List (List Node × Node)}
    (hl : List.Forall₂ PartLike l l') :
    (l.foldl (fun w p => writeTarget v go access p.1 p.2 w) w).Resembles
      (l'.foldl (fun w p => writeTarget v go access p.1 p.2 w) w') := by
  apply resembles_foldl_parts h hl
  intro p p' a a' hp ha
  rw [hp.2]
  exact resembles_writeTarget hgo hp.1 ha access p.2

theorem resembles_write (access : Access) (target : Node) :
    (write v go access outer target w).Resembles (write v go access outer' target w') :=
  resembles_writeTargets hgo h access (forall₂_targets hout target)

/-- Children are visited alike inside of nodes that are alike. -/
theorem resembles_visitChild (c : Node) :
    (if c.field.any (·.isDeclarative) then w else go outer c w).Resembles
      (if c.field.any (·.isDeclarative) then w' else go outer' c w') :=
  resembles_ite h (hgo hout c h)

theorem resembles_visitChildren (n : Node) :
    (visitChildren go outer n w).Resembles (visitChildren go outer' n w') :=
  resembles_foldl h _ fun c _ _ ha => resembles_visitChild hgo (hout.around n) ha c

theorem resembles_visitBlock (n : Node) :
    (visitBlock go outer n w).Resembles (visitBlock go outer' n w') := by
  apply resembles_inBlock h
  intro a a' ha
  apply resembles_visitChildren hgo hout
  exact resembles_foldl ha _ fun f _ _ hb => resembles_declareName hb _ .plain

theorem resembles_visitLocalFunction (n : Node) :
    (visitLocalFunction go outer n w).Resembles (visitLocalFunction go outer' n w') := by
  unfold visitLocalFunction
  apply resembles_inBlock (resembles_declareName h _ .plain)
  intro a a' ha
  apply resembles_returning (resembles_declareParameters ha _)
  intro b b' hb
  exact resembles_visitPart hgo (hout.around n) hb _

theorem resembles_visitLambda (n : Node) :
    (visitLambda go outer n w).Resembles (visitLambda go outer' n w') := by
  apply resembles_inBlock h
  intro a a' ha
  refine resembles_returning ?_ .ref fun _ _ hb => resembles_visitChildren hgo hout hb n
  rcases n.child? .parameters with _ | params
  · exact ha
  · exact resembles_ite (resembles_declare ha params .plain) (resembles_declareParameters ha _)

theorem resembles_visitDeclarator (type : Option Node) (declarator : Node) :
    (visitDeclarator v go outer type declarator w).Resembles
      (visitDeclarator v go outer' type declarator w') := by
  unfold visitDeclarator
  dsimp only
  rw [h.scope]
  have hvalue := resembles_visitPart hgo (hout.around declarator) h declarator.initializer?
  apply resembles_foldl (resembles_declareName hvalue _ _)
  intro pattern a a' ha
  exact hgo (hout.around declarator) pattern ha

theorem resembles_visitVariableDeclaration (n : Node) :
    (visitVariableDeclaration v go outer n w).Resembles
      (visitVariableDeclaration v go outer' n w') :=
  resembles_foldl h _ fun declarator _ _ ha =>
    resembles_visitDeclarator hgo (hout.around n) ha _ declarator

theorem resembles_visitForeachPart (declares : Bool) (c : Node) :
    (visitForeachPart v go outer declares c w).Resembles
      (visitForeachPart v go outer' declares c w') := by
  unfold visitForeachPart
  refine resembles_ite h (resembles_ite (resembles_ite ?_ ?_) (hgo hout c h))
  · exact resembles_ite (resembles_declare h c .plain) (hgo hout c h)
  · exact resembles_write hgo hout h .assign c

theorem resembles_visitForeach (n : Node) :
    (visitForeach v go outer n w).Resembles (visitForeach v go outer' n w') := by
  apply resembles_inBlock h
  intro a a' ha
  exact resembles_foldl ha _ fun c _ _ hb =>
    resembles_visitForeachPart hgo (hout.around n) hb _ c

theorem resembles_visitPin (declarator : Node) :
    (visitPin v go outer declarator w).Resembles (visitPin v go outer' declarator w') := by
  unfold visitPin
  rw [h.scope]
  rcases declarator.initializer? with _ | value
  · exact resembles_declareName h _ _
  · have hpart := partLike_addressed (hout.around declarator) value
    dsimp only
    rw [hpart.2]
    exact resembles_declareName (resembles_visitOperands hgo hpart.1 h _) _ _

theorem resembles_visitFixed (n : Node) :
    (visitFixed v go outer n w).Resembles (visitFixed v go outer' n w') := by
  apply resembles_inBlock h
  intro a a' ha
  apply resembles_foldl ha
  intro c b b' hb
  refine resembles_ite ?_ (resembles_ite (hgo (hout.around n) c hb) hb)
  exact resembles_foldl hb _ fun declarator _ _ hx =>
    resembles_visitPin hgo ((hout.around n).around c) hx declarator

theorem resembles_visitAssignment (n : Node) :
    (visitAssignment v go outer n w).Resembles (visitAssignment v go outer' n w') := by
  unfold visitAssignment
  apply resembles_visitPart hgo (hout.around n)
  rcases n.child? .left with _ | left
  · exact h
  · exact resembles_write hgo (hout.around n) h _ left

theorem resembles_visitUnary (n : Node) :
    (visitUnary v go outer n w).Resembles (visitUnary v go outer' n w') := by
  unfold visitUnary
  rcases unaryOperand? n with _ | operand
  · exact h
  · dsimp only
    rw [h.scope]
    refine resembles_ite ?_ (resembles_ite ?_ ?_)
    · exact resembles_write hgo (hout.around n) h .compound operand
    · apply resembles_visitOperands hgo (hout.around n)
      exact resembles_ite (resembles_record h rfl n n) h
    · exact resembles_visitChildren hgo hout h n

theorem resembles_visitArgument (n : Node) :
    (visitArgument v go outer n w).Resembles (visitArgument v go outer' n w') := by
  unfold visitArgument
  rcases n.lastChild? with _ | value
  · exact h
  · dsimp only
    rw [h.scope]
    refine resembles_ite ?_ ?_
    · exact resembles_write hgo (hout.around n) h .reference value
    · apply hgo (hout.around n)
      exact resembles_ite (resembles_record h rfl value value) h

omit hgo in
theorem bindsReadonly_eq : bindsReadonly outer' w' = bindsReadonly outer w := by
  unfold bindsReadonly
  cases hout with
  | nil => rfl
  | @cons parent parent' rest rest' hparent hrest =>
    dsimp only
    rw [hparent.1, h.returnModes]
    -- of the node around a declarator only the type is asked for
    cases hrest with
    | nil => rfl
    | @cons declaration declaration' _ _ hdeclaration _ =>
      have htype := hdeclaration.2
      unfold Node.hasReadonlyRefType at htype
      simp only [List.head?_cons, Option.bind_some, htype]

omit hgo in
theorem resembles_noteRef (n n' : Node) {operand operand' : Node}
    (hstorage : v.storage w.scope operand' = v.storage w.scope operand) :
    (noteRef v outer n operand w).Resembles (noteRef v outer' n' operand' w') := by
  have hlabel : (refMutation outer' operand').label = (refMutation outer operand).label := by
    unfold refMutation
    cases hout with
    | nil => rfl
    | @cons parent parent' _ _ hparent _ =>
      simp only [List.head?_cons, Option.any_some, hparent.1]
      by_cases hkind : parent.kind = .variableDeclarator
      · simp [hkind]
      · simp [hkind, Mutation.label]
  unfold noteRef
  rw [h.scope, hstorage, bindsReadonly_eq hout h]
  refine resembles_ite (resembles_ite h (resembles_record h hlabel n n')) ?_
  cases v.storage w.scope operand with
  | property group => exact resembles_useGroup h v group true false
  | indexer => exact resembles_useIndexers h v true false
  | _ => exact h

theorem resembles_visitRef (n : Node) :
    (visitRef v go outer n w).Resembles (visitRef v go outer' n w') := by
  unfold visitRef
  rcases n.lastChild? with _ | operand
  · exact h
  · exact resembles_visitOperands hgo (hout.around n) (resembles_noteRef hout h n n rfl) operand

theorem resembles_visitInvocation (n : Node) :
    (visitInvocation v go outer n w).Resembles (visitInvocation v go outer' n w') := by
  unfold visitInvocation
  apply resembles_visitChildren hgo hout
  rcases n.child? .function with _ | function
  · exact h
  · exact resembles_checkCall h v function

theorem resembles_visitMemberAccess (n : Node) :
    (visitMemberAccess v go outer n w).Resembles (visitMemberAccess v go outer' n w') := by
  unfold visitMemberAccess
  rcases n.child? .expression with _ | base
  · exact h
  · refine resembles_ite ?_ (hgo (hout.around n) base h)
    rcases (n.child? .name).bind (·.simpleName?) with _ | name
    · exact h
    · exact resembles_useName h v name

theorem resembles_visitElementAccess (n : Node) :
    (visitElementAccess v go outer n w).Resembles (visitElementAccess v go outer' n w') := by
  unfold visitElementAccess
  apply resembles_visitPart hgo (hout.around n)
  rcases n.child? .expression with _ | base
  · exact h
  · exact resembles_ite (resembles_useIndexers h v true false) (hgo (hout.around n) base h)

theorem resembles_visitObjectCreation (n : Node) :
    (visitObjectCreation go outer n w).Resembles (visitObjectCreation go outer' n w') := by
  apply resembles_foldl h
  intro c a a' ha
  refine resembles_ite ha (resembles_ite ?_ (hgo (hout.around n) c ha))
  apply resembles_foldl_parts ha (forall₂_initializerParts (hout.around n) c)
  intro p p' b b' hp hb
  dsimp only
  rw [hp.2]
  exact hgo hp.1 p.2 hb

theorem resembles_visitWith (n : Node) :
    (visitWith go outer n w).Resembles (visitWith go outer' n w') := by
  apply resembles_foldl h
  intro c a a' ha
  change (visitWithPart go (n.around outer) c a).Resembles
    (visitWithPart go (n.around outer') c a')
  unfold visitWithPart
  split
  · exact resembles_visitPart hgo ((hout.around n).around c) ha _
  all_goals first
    | exact ha
    | exact hgo (hout.around n) c ha

theorem resembles_visitAnonymousObject (n : Node) :
    (visitAnonymousObject go outer n w).Resembles (visitAnonymousObject go outer' n w') :=
  resembles_foldl h _ fun c _ _ ha => hgo (hout.around n) c ha

theorem resembles_step (n : Node) : (step v go outer n w).Resembles (step v go outer' n w') := by
  unfold step
  split
  -- the kind picks the rule; only a generic name has still to be taken apart
  all_goals first
    | exact h
    | exact resembles_visitChildren hgo hout h n
    | exact resembles_inBlock h fun _ _ ha => resembles_visitChildren hgo hout ha n
    | exact resembles_visitChildren hgo hout (resembles_declareNames h n) n
    | exact resembles_visitBlock hgo hout h n
    | exact resembles_visitLocalFunction hgo hout h n
    | exact resembles_visitLambda hgo hout h n
    | exact resembles_visitForeach hgo hout h n
    | exact resembles_visitFixed hgo hout h n
    | exact resembles_visitVariableDeclaration hgo hout h n
    | exact resembles_visitAssignment hgo hout h n
    | exact resembles_visitUnary hgo hout h n
    | exact resembles_visitArgument hgo hout h n
    | exact resembles_visitRef hgo hout h n
    | exact resembles_visitInvocation hgo hout h n
    | exact resembles_visitName h v _
    | exact resembles_visitMemberAccess hgo hout h n
    | exact resembles_visitElementAccess hgo hout h n
    | exact resembles_visitObjectCreation hgo hout h n
    | exact resembles_visitWith hgo hout h n
    | exact resembles_visitAnonymousObject hgo hout h n
    | (rcases n.simpleName? with _ | name
       · exact h
       · exact resembles_visitName h v name)

end Rules

/-! ## Whole visits -/

theorem blind_visitTo (v : Viewpoint) (depth : Nat) : Blind (visitTo v depth) := by
  induction depth with
  | zero => exact fun _ _ _ _ _ _ h => h
  | succ depth ih => exact fun _ _ hout n _ _ h => resembles_step ih hout h n

theorem blind_visit (v : Viewpoint) : Blind (visit v) :=
  fun _ _ hout n _ _ h => blind_visitTo v n.height hout n h

end Walk

end ReadonlyLint
