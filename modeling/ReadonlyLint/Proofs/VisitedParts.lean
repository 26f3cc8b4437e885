import Mathlib.Data.List.Basic
import ReadonlyLint.Proofs.Subtree

/-!
What a visit reaches and binds. A node visits some parts in the block that it stands in and others
in a block of its own; all of them are below it. `Node.Leaves` says which names a visit binds: those
that the node binds by itself, and those that the parts bind which it visits in the same block.
-/
namespace ReadonlyLint

namespace Node

/-! ## Which parts are visited in the same block -/

/-- The parts that are visited with a target. -/
def operandParts (target : Node) : List Node :=
  let t := target.unparenthesize
  match t.kind with
  | .identifier | .thisToken | .genericName => []
  | .memberAccessExpression => ((t.child? .expression).filter (!·.isThis)).toList
  | .elementAccessExpression =>
    ((t.child? .expression).filter (!·.isThis)).toList ++ (t.child? .subscript).toList
  | .prefixUnaryExpression => t.lastChild?.toList
  | _ => [t]

/-- The parts that are visited when a single target is written. -/
def targetParts (t : Node) : List Node :=
  if t.kind = .declarationExpression then [t] else t.operandParts

/-- The parts that are visited when a target is written. -/
def writtenParts (target : Node) : List Node :=
  (target.targets []).flatMap (·.2.targetParts)

/-- The single targets that are written with a target. -/
def singleTargets (target : Node) : List Node :=
  (target.targets []).map (·.2)

/-- The children that are evaluated. -/
def evaluatedChildren (n : Node) : List Node :=
  n.children.filter fun c => !c.field.any (·.isDeclarative)

/-- The parts of a child of a new object. -/
def objectParts (c : Node) : List Node :=
  if c.field = some .type then []
  else if c.kind = .initializerExpression then (c.initializerParts []).map (·.2)
  else [c]

/-- The parts of a child of a `with` expression. -/
def withParts (c : Node) : List Node :=
  match c.kind with
  | .withInitializer => c.lastChild?.toList
  | .withToken | .openBrace | .closeBrace | .comma => []
  | _ => [c]

/-- The parts of a unary expression. -/
def unaryParts (n : Node) : List Node :=
  match Walk.unaryOperand? n with
  | none => []
  | some operand =>
    let operator := n.operatorToken?
    if operator = some .increment || operator = some .decrement then operand.writtenParts
    else if operator = some .ampersand && n.kind = .prefixUnaryExpression then operand.operandParts
    else n.evaluatedChildren

/-- The parts of an argument. -/
def argumentParts (n : Node) : List Node :=
  match n.lastChild? with
  | none => []
  | some value =>
    let passing := Walk.passing? n
    if passing = some .refToken || passing = some .outToken then value.writtenParts else [value]

/-- The parts of a declarator. -/
def declaratorParts (declarator : Node) : List Node :=
  declarator.initializer?.toList ++ declarator.namedOfKind .tuplePattern

/-- The parts that a node visits in the block that it stands in. A node with a block of its own has
none. -/
def looseParts (n : Node) : List Node :=
  match n.kind with
  | .comment | .attributeList | .typeArgumentList | .predefinedType | .typeofExpression
  | .sizeofExpression | .identifier | .genericName => []
  | .block | .localFunctionStatement | .lambdaExpression | .anonymousMethodExpression
  | .foreachStatement | .fixedStatement | .forStatement | .usingStatement | .catchClause
  | .switchSection | .switchExpressionArm | .queryExpression => []
  | .variableDeclaration => n.declarators.flatMap declaratorParts
  | .assignmentExpression =>
    (n.child? .left).toList.flatMap writtenParts ++ (n.child? .right).toList
  | .prefixUnaryExpression | .postfixUnaryExpression => n.unaryParts
  | .argument => n.argumentParts
  | .refExpression => n.lastChild?.toList.flatMap operandParts
  | .memberAccessExpression => ((n.child? .expression).filter (!·.isThis)).toList
  | .elementAccessExpression =>
    ((n.child? .expression).filter (!·.isThis)).toList ++ (n.child? .subscript).toList
  | .objectCreationExpression | .implicitObjectCreationExpression => n.children.flatMap objectParts
  | .withExpression => n.children.flatMap withParts
  | .anonymousObjectCreationExpression => anonymousParts n.children
  | _ => n.evaluatedChildren

/-! ## Which parts are visited in a block of their own -/

/-- The parts of a child of a `foreach`, which declares its variable or writes it. -/
def foreachParts (declares : Bool) (c : Node) : List Node :=
  if c.field = some .type then []
  else if c.field = some .left then
    if declares then if c.kind = .identifier then [] else [c]
    else c.writtenParts
  else [c]

/-- The parts of a declarator of a `fixed` statement. -/
def pinParts (declarator : Node) : List Node :=
  declarator.initializer?.toList.flatMap fun value => (value.addressed []).2.operandParts

/-- The parts of a child of a `fixed` statement. -/
def fixedParts (c : Node) : List Node :=
  if c.kind = .variableDeclaration then c.declarators.flatMap pinParts
  else if c.named then [c] else []

/-- The parts that a node visits in a block of its own. -/
def innerParts (n : Node) : List Node :=
  match n.kind with
  | .block | .lambdaExpression | .anonymousMethodExpression | .forStatement | .usingStatement
  | .catchClause | .switchSection | .switchExpressionArm | .queryExpression => n.evaluatedChildren
  | .localFunctionStatement => (n.child? .body).toList
  | .foreachStatement => n.children.flatMap (foreachParts (n.child? .type).isSome)
  | .fixedStatement => n.children.flatMap fixedParts
  | _ => []

/-- The parts that a node visits. -/
def visitedParts (n : Node) : List Node := n.looseParts ++ n.innerParts

/-- How a node writes, and its target: the left side of an assignment, the operand of `++` or `--`,
or the value of an argument that is passed by `ref` or `out`. -/
def writing? (n : Node) : Option (Access × Node) :=
  match n.kind with
  | .assignmentExpression =>
    (n.child? .left).map (.ofOperator ((n.child? .operator).map (·.kind)), ·)
  | .prefixUnaryExpression | .postfixUnaryExpression =>
    if n.operatorToken? = some .increment || n.operatorToken? = some .decrement then
      (Walk.unaryOperand? n).map (.compound, ·)
    else none
  | .argument =>
    if Walk.passing? n = some .refToken || Walk.passing? n = some .outToken then
      n.lastChild?.map (.reference, ·)
    else none
  | _ => none

/-! ## The parts are below the node -/

theorem below_of_base {n c : Node}
    (h : c ∈ ((n.child? .expression).filter (!·.isThis)).toList) : c.Below n :=
  below_of_child? (Option.filter_eq_some_iff.mp (Option.mem_toList.mp h)).1

theorem within_of_mem_operandParts {t c : Node} (h : c ∈ t.operandParts) : c.Within t := by
  refine Within.trans ?_ (within_unparenthesize t)
  unfold operandParts at h
  dsimp only at h
  split at h
  · cases h
  · cases h
  · cases h
  · exact (below_of_base h).within
  · rcases List.mem_append.mp h with h | h
    · exact (below_of_base h).within
    · exact (below_of_child? (Option.mem_toList.mp h)).within
  · exact (below_of_lastChild? (Option.mem_toList.mp h)).within
  · rw [List.mem_singleton.mp h]
    exact within_refl _

theorem within_of_mem_targetParts {t c : Node} (h : c ∈ t.targetParts) : c.Within t := by
  unfold targetParts at h
  split at h
  · rw [List.mem_singleton.mp h]
    exact within_refl _
  · exact within_of_mem_operandParts h

theorem within_of_mem_writtenParts {t c : Node} (h : c ∈ t.writtenParts) : c.Within t := by
  obtain ⟨p, hp, hc⟩ := List.mem_flatMap.mp h
  exact (within_of_mem_targetParts hc).trans (within_of_mem_targets hp)

theorem mem_children_of_evaluatedChildren {n c : Node} (h : c ∈ n.evaluatedChildren) :
    c ∈ n.children :=
  (List.mem_filter.mp h).1

theorem within_of_mem_objectParts {n c : Node} (h : c ∈ n.objectParts) : c.Within n := by
  unfold objectParts at h
  split at h
  · cases h
  · split at h
    · obtain ⟨p, hp, rfl⟩ := List.mem_map.mp h
      exact (below_of_mem_initializerParts hp).within
    · rw [List.mem_singleton.mp h]
      exact within_refl n

theorem within_of_mem_withParts {n c : Node} (h : c ∈ n.withParts) : c.Within n := by
  unfold withParts at h
  split at h
  · exact (below_of_lastChild? (Option.mem_toList.mp h)).within
  all_goals first
    | exact absurd h List.not_mem_nil
    | (rw [List.mem_singleton.mp h]
       exact within_refl n)

theorem below_of_unaryOperand? {n operand : Node} (h : Walk.unaryOperand? n = some operand) :
    operand.Below n := by
  unfold Walk.unaryOperand? at h
  split at h
  · exact below_of_lastChild? h
  · exact below_of_mem (List.mem_of_head? h)

theorem below_of_mem_unaryParts {n c : Node} (h : c ∈ n.unaryParts) : c.Below n := by
  unfold unaryParts at h
  split at h
  · cases h
  · rename_i operand hoperand
    have hbelow := below_of_unaryOperand? hoperand
    dsimp only at h
    split at h
    · exact (within_of_mem_writtenParts h).below hbelow
    · split at h
      · exact (within_of_mem_operandParts h).below hbelow
      · exact below_of_mem (mem_children_of_evaluatedChildren h)

theorem below_of_mem_argumentParts {n c : Node} (h : c ∈ n.argumentParts) : c.Below n := by
  unfold argumentParts at h
  split at h
  · cases h
  · rename_i value hvalue
    have hbelow := below_of_lastChild? hvalue
    dsimp only at h
    split at h
    · exact (within_of_mem_writtenParts h).below hbelow
    · rw [List.mem_singleton.mp h]
      exact hbelow

theorem below_of_mem_declaratorParts {n c : Node} (h : c ∈ n.declaratorParts) : c.Below n := by
  rcases List.mem_append.mp h with h | h
  · exact below_of_mem (mem_children_of_initializer? (Option.mem_toList.mp h))
  · exact below_of_mem (mem_children_of_namedOfKind h)

theorem below_of_mem_looseParts {n c : Node} (h : c ∈ n.looseParts) : c.Below n := by
  unfold looseParts at h
  split at h
  all_goals try exact absurd h List.not_mem_nil
  · obtain ⟨d, hd, hc⟩ := List.mem_flatMap.mp h
    exact (below_of_mem_declaratorParts hc).of_within
      (within_of_mem (mem_children_of_namedOfKind hd))
  · rcases List.mem_append.mp h with h | h
    · obtain ⟨left, hleft, hc⟩ := List.mem_flatMap.mp h
      exact (within_of_mem_writtenParts hc).below (below_of_child? (Option.mem_toList.mp hleft))
    · exact below_of_child? (Option.mem_toList.mp h)
  · exact below_of_mem_unaryParts h
  · exact below_of_mem_unaryParts h
  · exact below_of_mem_argumentParts h
  · obtain ⟨operand, hoperand, hc⟩ := List.mem_flatMap.mp h
    exact (within_of_mem_operandParts hc).below
      (below_of_lastChild? (Option.mem_toList.mp hoperand))
  · exact below_of_base h
  · rcases List.mem_append.mp h with h | h
    · exact below_of_base h
    · exact below_of_child? (Option.mem_toList.mp h)
  · obtain ⟨x, hx, hc⟩ := List.mem_flatMap.mp h
    exact (within_of_mem_objectParts hc).below (below_of_mem hx)
  · obtain ⟨x, hx, hc⟩ := List.mem_flatMap.mp h
    exact (within_of_mem_objectParts hc).below (below_of_mem hx)
  · obtain ⟨x, hx, hc⟩ := List.mem_flatMap.mp h
    exact (within_of_mem_withParts hc).below (below_of_mem hx)
  · exact below_of_mem (mem_of_mem_anonymousParts h)
  · exact below_of_mem (mem_children_of_evaluatedChildren h)

theorem within_of_mem_foreachParts {declares : Bool} {n c : Node} (h : c ∈ n.foreachParts declares) :
    c.Within n := by
  have hself : ∀ {c : Node}, c ∈ [n] → c.Within n := fun hc =>
    List.mem_singleton.mp hc ▸ within_refl n
  unfold foreachParts at h
  split at h
  · cases h
  · split at h
    · split at h
      · split at h
        · cases h
        · exact hself h
      · exact within_of_mem_writtenParts h
    · exact hself h

theorem within_addressed (outer : List Node) (n : Node) : (n.addressed outer).2.Within n := by
  unfold addressed
  dsimp only
  split
  · split
    · rename_i operand hoperand
      exact (below_of_lastChild? hoperand).within.trans (within_unparenthesize n)
    · exact within_refl n
  · exact within_refl n

theorem below_of_mem_pinParts {n c : Node} (h : c ∈ n.pinParts) : c.Below n := by
  obtain ⟨value, hvalue, hc⟩ := List.mem_flatMap.mp h
  have hbelow := below_of_mem (mem_children_of_initializer? (Option.mem_toList.mp hvalue))
  exact ((within_of_mem_operandParts hc).trans (within_addressed [] value)).below hbelow

theorem within_of_mem_fixedParts {n c : Node} (h : c ∈ n.fixedParts) : c.Within n := by
  unfold fixedParts at h
  split at h
  · obtain ⟨d, hd, hc⟩ := List.mem_flatMap.mp h
    exact (below_of_mem_pinParts hc).within.trans (within_of_mem (mem_children_of_namedOfKind hd))
  · split at h
    · rw [List.mem_singleton.mp h]
      exact within_refl n
    · cases h

theorem below_of_mem_innerParts {n c : Node} (h : c ∈ n.innerParts) : c.Below n := by
  unfold innerParts at h
  split at h
  all_goals try exact below_of_mem (mem_children_of_evaluatedChildren h)
  · exact below_of_child? (Option.mem_toList.mp h)
  · obtain ⟨x, hx, hc⟩ := List.mem_flatMap.mp h
    exact (within_of_mem_foreachParts hc).below (below_of_mem hx)
  · obtain ⟨x, hx, hc⟩ := List.mem_flatMap.mp h
    exact (within_of_mem_fixedParts hc).below (below_of_mem hx)
  · cases h

theorem below_of_mem_visitedParts {n c : Node} (h : c ∈ n.visitedParts) : c.Below n :=
  (List.mem_append.mp h).elim below_of_mem_looseParts below_of_mem_innerParts

theorem within_of_mem_singleTargets {target t : Node} (h : t ∈ target.singleTargets) :
    t.Within target := by
  obtain ⟨p, hp, rfl⟩ := List.mem_map.mp h
  exact within_of_mem_targets hp

theorem lastChild?_of_unaryOperand? {n operand : Node} (hn : n.kind = .prefixUnaryExpression)
    (h : Walk.unaryOperand? n = some operand) : n.lastChild? = some operand := by
  rwa [Walk.unaryOperand?, if_pos hn] at h

/-! ## Writes -/

theorem writing?_of_assignment {n left : Node} {access : Access}
    (hn : n.kind = .assignmentExpression) (hleft : n.child? .left = some left)
    (haccess : access = .ofOperator ((n.child? .operator).map (·.kind))) :
    n.writing? = some (access, left) := by
  simp [writing?, hn, hleft, haccess]

theorem writing?_of_unary {n operand : Node}
    (hn : n.kind = .prefixUnaryExpression ∨ n.kind = .postfixUnaryExpression)
    (hcounts : n.operatorToken? = some .increment ∨ n.operatorToken? = some .decrement)
    (hoperand : Walk.unaryOperand? n = some operand) : n.writing? = some (.compound, operand) := by
  rcases hn with hn | hn <;> simp [writing?, hn, hcounts, hoperand]

theorem writing?_of_argument {n value : Node} (hn : n.kind = .argument)
    (hword : Walk.passing? n = some .refToken ∨ Walk.passing? n = some .outToken)
    (hvalue : n.lastChild? = some value) : n.writing? = some (.reference, value) := by
  simp [writing?, hn, hword, hvalue]

theorem below_of_writing? {n target : Node} {access : Access}
    (h : n.writing? = some (access, target)) : target.Below n := by
  unfold writing? at h
  split at h
  · obtain ⟨left, hleft, hpair⟩ := Option.map_eq_some_iff.mp h
    cases hpair
    exact below_of_child? hleft
  · split at h
    · obtain ⟨operand, hoperand, hpair⟩ := Option.map_eq_some_iff.mp h
      cases hpair
      exact below_of_unaryOperand? hoperand
    · cases h
  · split at h
    · obtain ⟨operand, hoperand, hpair⟩ := Option.map_eq_some_iff.mp h
      cases hpair
      exact below_of_unaryOperand? hoperand
    · cases h
  · split at h
    · obtain ⟨value, hvalue, hpair⟩ := Option.map_eq_some_iff.mp h
      cases hpair
      exact below_of_lastChild? hvalue
    · cases h
  · cases h

/-! ## Which names are bound -/

/-- The names that a pattern or a clause introduces. -/
def introducedNames (n : Node) : List String :=
  (n.children.filter fun c => c.kind = .identifier &&
    (c.field = some .name || n.kind = .parenthesizedVariableDesignation)).map (·.text)

/-- The names that a node binds by itself in the block that it stands in. -/
def ownNames (n : Node) : List String :=
  match n.kind with
  | .localFunctionStatement => (n.child? .name).toList.map (·.text)
  | .variableDeclaration => n.declarators.flatMap fun d => (d.child? .name).toList.map (·.text)
  | .declarationExpression | .declarationPattern | .recursivePattern | .varPattern | .tuplePattern
  | .parenthesizedVariableDesignation | .catchDeclaration | .fromClause | .letClause | .joinClause
  | .joinIntoClause | .queryContinuation => n.introducedNames
  | _ => []

/-- The node leaves the name bound in the block that it stands in. -/
inductive Leaves : Node → String → Prop
  | own {n : Node} {name : String} : name ∈ n.ownNames → Leaves n name
  | part {n c : Node} {name : String} : c ∈ n.looseParts → Leaves c name → Leaves n name

theorem leaves_iff {n : Node} {name : String} :
    n.Leaves name ↔ name ∈ n.ownNames ∨ ∃ c ∈ n.looseParts, c.Leaves name := by
  constructor
  · rintro (hown | ⟨hc, hname⟩)
    · exact .inl hown
    · exact .inr ⟨_, hc, hname⟩
  · rintro (hown | ⟨c, hc, hname⟩)
    · exact .own hown
    · exact .part hc hname

/-- The names that are left bound by a visit down to the given depth. -/
def leftTo : Nat → Node → List String
  | 0, _ => []
  | depth + 1, n => n.ownNames ++ n.looseParts.flatMap (leftTo depth)

theorem mem_leftTo {n : Node} {depth : Nat} (h : n.height ≤ depth) {name : String} :
    name ∈ n.leftTo depth ↔ n.Leaves name := by
  induction depth generalizing n with
  | zero => exact absurd n.height_pos (by omega)
  | succ depth ih =>
    have hparts : ∀ c ∈ n.looseParts, (name ∈ c.leftTo depth ↔ c.Leaves name) := by
      intro c hc
      have hlt := (below_of_mem_looseParts hc).height_lt
      exact ih (by omega)
    rw [leftTo, List.mem_append, List.mem_flatMap, leaves_iff]
    exact or_congr_right (exists_congr fun c => and_congr_right (hparts c))

instance (n : Node) (name : String) : Decidable (n.Leaves name) :=
  decidable_of_iff (name ∈ n.leftTo n.height) (mem_leftTo (Nat.le_refl _))

/-! ## The nodes around do not matter -/

theorem map_snd_targets (outer outer' : List Node) (n : Node) :
    (n.targets outer).map (·.2) = (n.targets outer').map (·.2) := by
  induction n using below_induction generalizing outer outer' with
  | step n ih =>
    rw [targets_eq, targets_eq]
    split
    · simp only [List.map_flatMap]
      refine List.flatMap_congr fun a ha => List.flatMap_congr fun e he => ?_
      have hbelow : e.Below n :=
        (below_of_lastChild? (Option.mem_toList.mp he)).of_within
          ((within_of_mem (mem_children_of_namedOfKind ha)).trans (within_unparenthesize n))
      exact ih e hbelow _ _
    · rfl

theorem singleTargets_eq (outer : List Node) (target : Node) :
    target.singleTargets = (target.targets outer).map (·.2) :=
  map_snd_targets [] outer target

theorem writtenParts_eq (outer : List Node) (target : Node) :
    target.writtenParts = (target.targets outer).flatMap (·.2.targetParts) := by
  unfold writtenParts
  rw [← List.flatMap_map Prod.snd targetParts, ← List.flatMap_map Prod.snd targetParts,
    map_snd_targets [] outer]

theorem map_snd_initializerParts (outer outer' : List Node) (n : Node) :
    (n.initializerParts outer).map (·.2) = (n.initializerParts outer').map (·.2) := by
  induction n using below_induction generalizing outer outer' with
  | step n ih =>
    rw [initializerParts_eq, initializerParts_eq]
    simp only [List.map_flatMap]
    refine List.flatMap_congr fun c hc => ?_
    unfold entryParts
    split
    · rfl
    · simp only [List.map_append, List.map_flatMap]
      congr 1
      · refine List.flatMap_congr fun left _ => ?_
        split
        · simp
        · rfl
      · refine List.flatMap_congr fun right hr => ?_
        have hbelow : right.Below n :=
          (below_of_child? (Option.mem_toList.mp hr)).of_within
            (within_of_mem (mem_children_of_namedChildren hc))
        split
        · exact ih right hbelow _ _
        · rfl

theorem snd_addressed (outer : List Node) (n : Node) :
    (n.addressed outer).2 = (n.addressed []).2 := by
  unfold addressed
  dsimp only
  split
  · split <;> rfl
  · rfl

end Node

end ReadonlyLint
