import Mathlib.Data.List.Infix
import ReadonlyLint.Proofs.Effects

/-!
What a visit may do to the state of a walk. It only adds: evidence goes to the end, members go
into the uses, names go into the innermost block. The blocks around, the parameters and the return
modes are as before. This holds of the single things that rules do, so it holds of every rule when
it holds of the visit of smaller nodes, and every visit is lexically neutral.
-/
namespace ReadonlyLint

namespace Walk

/-- The first state can become the second by a visit. -/
structure GrowsTo (w w' : Walk) : Prop where
  evidence : w.evidence <+: w'.evidence
  uses : ∀ m ∈ w.uses, m ∈ w'.uses
  returnModes : w'.returnModes = w.returnModes
  params : w'.scope.params = w.scope.params
  blocks : ∀ block rest, w.scope.blocks = block :: rest →
    ∃ new, w'.scope.blocks = (new ++ block) :: rest

namespace GrowsTo

theorem refl (w : Walk) : w.GrowsTo w :=
  ⟨List.prefix_rfl, fun _ h => h, rfl, rfl, fun _ _ h => ⟨[], h⟩⟩

theorem trans {a b c : Walk} (h1 : a.GrowsTo b) (h2 : b.GrowsTo c) : a.GrowsTo c := by
  refine ⟨h1.evidence.trans h2.evidence, fun m hm => h2.uses m (h1.uses m hm),
    h2.returnModes.trans h1.returnModes, h2.params.trans h1.params, ?_⟩
  intro block rest hblock
  obtain ⟨new, hnew⟩ := h1.blocks block rest hblock
  obtain ⟨more, hmore⟩ := h2.blocks (new ++ block) rest hnew
  exact ⟨more ++ new, by rw [hmore, List.append_assoc]⟩

end GrowsTo

/-! ## The single steps -/

theorem growsTo_record (w : Walk) (mutation : Mutation) (n : Node) :
    w.GrowsTo (w.record mutation n) :=
  ⟨List.prefix_append _ _, fun _ h => h, rfl, rfl, fun _ _ h => ⟨[], h⟩⟩

theorem growsTo_use (w : Walk) (members : List Nat) : w.GrowsTo (w.use members) :=
  ⟨List.prefix_rfl, fun _ h => MemberSet.mem_insertAll.mpr (Or.inr h), rfl, rfl,
    fun _ _ h => ⟨[], h⟩⟩

theorem growsTo_bind (w : Walk) (name : String) (kind : LocalKind) :
    w.GrowsTo { w with scope := w.scope.declare name kind } := by
  refine ⟨List.prefix_rfl, fun _ h => h, rfl, ?_, ?_⟩
  · dsimp only
    unfold Scope.declare
    split <;> rfl
  · intro block rest h
    exact ⟨[(name, kind)], by simp [Scope.declare, h]⟩

/-- A block of its own leaves every block as it was. -/
theorem growsTo_inBlock {f : Walk → Walk} (w : Walk)
    (h : GrowsTo { w with scope := w.scope.enter } (f { w with scope := w.scope.enter })) :
    w.GrowsTo (inBlock f w) := by
  -- the new names are all in the block that was entered, and go with it
  obtain ⟨new, hnew⟩ := h.blocks [] w.scope.blocks rfl
  refine ⟨h.evidence, h.uses, h.returnModes, h.params, ?_⟩
  intro block rest hblock
  refine ⟨[], ?_⟩
  simp only [inBlock, Scope.exit, hnew, List.tail_cons]
  exact hblock

theorem growsTo_returning {f : Walk → Walk} (mode : ReturnMode) (w : Walk)
    (h : GrowsTo { w with returnModes := mode :: w.returnModes }
      (f { w with returnModes := mode :: w.returnModes })) :
    w.GrowsTo (returning mode f w) := by
  refine ⟨h.evidence, h.uses, ?_, h.params, h.blocks⟩
  simp only [returning, h.returnModes, List.tail_cons]

theorem composes_growsTo : Composes fun _ => GrowsTo where
  refl := GrowsTo.refl
  trans := GrowsTo.trans
  bindLocal := fun w name _ _ => growsTo_bind w name _
  inBlock := by
    rintro f w ⟨_, h⟩
    exact growsTo_inBlock w h
  returning := growsTo_returning

theorem growsTo_foldl {α : Type} (f : Walk → α → Walk) (l : List α)
    (h : ∀ w : Walk, ∀ a ∈ l, w.GrowsTo (f w a)) (w : Walk) : w.GrowsTo (l.foldl f w) :=
  composes_growsTo.foldl (fun _ => ∅) l h w

theorem growsTo_useGroup (v : Viewpoint) (w : Walk) (group : Nat) (read write : Bool) :
    w.GrowsTo (useGroup v w group read write) :=
  growsTo_use w _

/-- Each single thing that a rule does only adds. -/
theorem effects_growsTo (v : Viewpoint) : Effects v fun _ => GrowsTo where
  toComposes := composes_growsTo
  record := growsTo_record
  bind := growsTo_bind
  useMethods := fun _ w => growsTo_use w _
  useProperty := fun _ _ w => growsTo_useGroup v w _
  useIndexer := fun _ _ w => growsTo_useGroup v w _
  useEvent := fun _ _ w _ => growsTo_use w _

theorem growsTo_useIndexers (v : Viewpoint) (w : Walk) (read write : Bool) :
    w.GrowsTo (useIndexers v w read write) :=
  (effects_growsTo v).useIndexers w read write

theorem growsTo_writeStorage (v : Viewpoint) (w : Walk) (access : Access) (scope : Scope)
    (n t : Node) : w.GrowsTo (writeStorage v w access (v.storage scope n) t) :=
  (effects_growsTo v).writeStorage (fun mutation _ => growsTo_record w mutation t) access

theorem growsTo_declareName (name : Option Node) (kind : LocalKind) (w : Walk) :
    w.GrowsTo (declareName name kind w) :=
  composes_growsTo.declareName (fun w name => growsTo_bind w name kind) name w

theorem growsTo_declareNames (n : Node) (w : Walk) : w.GrowsTo (declareNames n w) :=
  composes_growsTo.declareNames n w

theorem growsTo_checkCall (v : Viewpoint) (function : Node) (w : Walk) :
    w.GrowsTo (checkCall v function w) :=
  composes_growsTo.checkCall v fun mutation _ => growsTo_record w mutation _

theorem growsTo_noteRef {v : Viewpoint} (outer : List Node) (n operand : Node) (w : Walk) :
    w.GrowsTo (noteRef v outer n operand w) :=
  (effects_growsTo v).noteRef (fun mutation _ => growsTo_record w mutation n) outer operand

/-! ## The rules -/

/-- A visit that only adds to the state. -/
def Grows (go : Visit) : Prop := ∀ outer n (w : Walk), w.GrowsTo (go outer n w)

section Rules

variable {v : Viewpoint} {go : Visit} (hgo : Grows go)
include hgo

theorem Grows.follows (l : List Node) : Follows (fun _ => GrowsTo) (fun _ => ∅) go l :=
  fun c _ outer w => hgo outer c w

theorem growsTo_visitPart (outer : List Node) (part : Option Node) (w : Walk) :
    w.GrowsTo (visitPart go outer part w) :=
  composes_growsTo.visitPart (fun _ => ∅) outer part (hgo.follows _) w

theorem growsTo_visitOperands (outer : List Node) (target : Node) (w : Walk) :
    w.GrowsTo (visitOperands go outer target w) :=
  composes_growsTo.visitOperands (fun _ => ∅) outer target (hgo.follows _) w

theorem growsTo_writeTarget (access : Access) (outer : List Node) (t : Node) (w : Walk) :
    w.GrowsTo (writeTarget v go access outer t w) :=
  (effects_growsTo v).writeTarget (fun _ => ∅) ((effects_growsTo v).writes access t) (hgo.follows _)
    outer w

theorem growsTo_write (access : Access) (outer : List Node) (target : Node) (w : Walk) :
    w.GrowsTo (write v go access outer target w) :=
  (effects_growsTo v).write (fun _ => ∅) (fun t _ => (effects_growsTo v).writes access t)
    (hgo.follows _) outer w

theorem growsTo_visitDeclarator (outer : List Node) (type : Option Node) (declarator : Node)
    (w : Walk) : w.GrowsTo (visitDeclarator v go outer type declarator w) :=
  composes_growsTo.visitDeclarator (fun _ => ∅) v outer type declarator
    (composes_growsTo.bindsAfter growsTo_bind _ _) (hgo.follows _) w

theorem growsTo_visitForeachPart (outer : List Node) (declares : Bool) (c : Node) (w : Walk) :
    w.GrowsTo (visitForeachPart v go outer declares c w) :=
  ((effects_growsTo v).visitForeachPart (fun _ => ∅) outer
    (fun _ _ t _ => (effects_growsTo v).writes .assign t) (hgo.follows _) w).elim fun _ h => h

theorem growsTo_visitPin (outer : List Node) (declarator : Node) (w : Walk) :
    w.GrowsTo (visitPin v go outer declarator w) :=
  ((effects_growsTo v).visitPin (fun _ => ∅) outer declarator
    (fun _ _ => composes_growsTo.bindsAfter growsTo_bind _ _) (hgo.follows _) w).elim fun _ h => h

theorem growsTo_visitObjectPart (around : List Node) (c : Node) (w : Walk) :
    w.GrowsTo (visitObjectPart go around c w) :=
  composes_growsTo.visitObjectPart (fun _ => ∅) around c (hgo.follows _) w

theorem growsTo_visitWithPart (around : List Node) (c : Node) (w : Walk) :
    w.GrowsTo (visitWithPart go around c w) :=
  composes_growsTo.visitWithPart (fun _ => ∅) around c (hgo.follows _) w

end Rules

theorem grows_visit (v : Viewpoint) : Grows (visit v) := (effects_growsTo v).visit

/-! ## Lexical neutrality -/

/-- What surrounds a point of a body is the same in both states: as many blocks are open, all but
the innermost bind the same, and so do the parameters and the return modes. The innermost block has
lost no name, and of what was found nothing is lost either. -/
structure Neutral (w w' : Walk) : Prop where
  depth : w'.scope.depth = w.scope.depth
  outer : w'.scope.blocks.tail = w.scope.blocks.tail
  innermost : ∃ block ∈ w.scope.blocks.head?, ∃ block' ∈ w'.scope.blocks.head?,
    block.map (·.1) ⊆ block'.map (·.1)
  params : w'.scope.params = w.scope.params
  returnModes : w'.returnModes = w.returnModes
  evidence : w.evidence <+: w'.evidence
  uses : ∀ m ∈ w.uses, m ∈ w'.uses

/-- With a block open, all new names are in the innermost block. -/
theorem GrowsTo.neutral {w w' : Walk} (h : w.GrowsTo w') (hopen : w.scope.blocks ≠ []) :
    w.Neutral w' := by
  obtain ⟨block, rest, hblocks⟩ := List.exists_cons_of_ne_nil hopen
  obtain ⟨new, hnew⟩ := h.blocks block rest hblocks
  exact
    { depth := by rw [Scope.depth, Scope.depth, hblocks, hnew, List.length_cons, List.length_cons]
      outer := by rw [hblocks, hnew, List.tail_cons, List.tail_cons]
      innermost := by
        refine ⟨block, by rw [hblocks]; rfl, new ++ block, by rw [hnew]; rfl, ?_⟩
        rw [List.map_append]
        exact List.subset_append_right _ _
      params := h.params
      returnModes := h.returnModes
      evidence := h.evidence
      uses := h.uses }

end Walk

/-- With a block open, the visit of a node is lexically neutral, and so are a write of it, with
whatever access, and the visit of its operands as a target. -/
theorem a_visit_is_lexically_neutral (v : Viewpoint) (outer : List Node) (n : Node)
    (access : Access) (w : Walk) (hopen : w.scope.blocks ≠ []) :
    w.Neutral (Walk.visit v outer n w) ∧
      w.Neutral (Walk.write v (Walk.visit v) access outer n w) ∧
      w.Neutral (Walk.visitOperands (Walk.visit v) outer n w) := by
  have hgrows := Walk.grows_visit v
  refine ⟨?_, ?_, ?_⟩
  · exact (hgrows outer n w).neutral hopen
  · exact (Walk.growsTo_write hgrows access outer n w).neutral hopen
  · exact (Walk.growsTo_visitOperands hgrows outer n w).neutral hopen

/-- The local function `ref int L(int p) { this.f++; }`. -/
def countingFunction : Node :=
  .tree .localFunctionStatement "ref int L(int p) \x7b this.f++; \x7d" 0
    [.tree .refType "ref int" 0
      [.word .refToken "ref" 0, .tree .predefinedType "int" 4 [] (some .type)] (some .type),
     .tree .identifier "L" 8 [] (some .name),
     .tree .parameterList "(int p)" 9
      [.word .openParen "(" 9,
       .tree .parameter "int p" 10
        [.tree .predefinedType "int" 10 [] (some .type), .tree .identifier "p" 14 [] (some .name)],
       .word .closeParen ")" 15] (some .parameters),
     { Node.incrementBlock 17 with field := some .body }]

/-- The struct `struct S { int f; }`. -/
def oneField : StructDecl :=
  StructDecl.pushMember
    { name := "S", anchor := { start := 7, stop := 8, line := 1, column := 8 }, fixOffset := 0 }
    { name := "f", kind := .field { typeName := "int", category := .value }, anchor := none
      fixOffset := 11 }

/-- A point inside of two blocks, of which the inner binds `a` and the outer binds `b`. -/
def innerPoint : Walk :=
  { scope := { blocks := [[("a", .plain)], [("b", .pointer true)]], params := [("c", .plain)] }
    returnModes := [.readonlyRef] }

/-- The function binds its name, and inside of it a parameter and a return mode; it counts up a
field. Of all this the name and the evidence stay. -/
theorem a_local_function_is_lexically_neutral :
    let after := Walk.visit ⟨oneField, none⟩ [] countingFunction innerPoint
    innerPoint.scope.blocks ≠ [] ∧ innerPoint.Neutral after ∧
      after.scope.blocks = [[("L", .plain), ("a", .plain)], [("b", .pointer true)]] ∧
      after.evidence.map (·.mutation) = [.fieldWrite "f"] := by
  refine ⟨by decide, ?_, by decide +kernel, by decide +kernel⟩
  exact (a_visit_is_lexically_neutral _ [] countingFunction .assign innerPoint (by decide)).1

end ReadonlyLint
