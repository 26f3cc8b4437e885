import ReadonlyLint.Mutation.Write

/-!
The visit of a body. Each kind of node that binds names, writes storage or uses members has a rule
of its own, which says what it visits in which order; `Walk.step` picks the rule. A rule gets the
visit of smaller nodes as `go`, and `Walk.visit` ties the knot.
-/
namespace ReadonlyLint

namespace Node

/-! ## Parts of declarations -/

def declarators (n : Node) : List Node := n.namedOfKind .variableDeclarator

/-- The expression after `=` in a declarator. -/
def initializer? (declarator : Node) : Option Node :=
  (declarator.children.dropWhile (·.kind ≠ .assign))[1]?

/-- The type inside of a `scoped` type. -/
def stripScoped (type : Node) : Node :=
  if type.kind = .scopedType then (type.child? .type).getD type else type

/-- What a `&` expression takes the address of, with the nodes around it; any other expression is
itself. -/
def addressed (outer : List Node) (n : Node) : List Node × Node :=
  let inner := n.unparenthesize
  if inner.kind = .prefixUnaryExpression && inner.operatorToken? = some .ampersand then
    match inner.lastChild? with
    | some operand => (inner :: outer, operand)
    | none => (outer, n)
  else (outer, n)

/-- What a `ref` expression refers to. -/
def refTarget? (n : Node) : Option Node :=
  if n.unparenthesize.kind = .refExpression then n.unparenthesize.lastChild? else none

/-! ## Parts of object initializers -/

/-- The expressions that an object initializer evaluates, each with the nodes around it. The names
on the left belong to the new object; nested initializers are looked into. -/
def initializerParts (outer : List Node) (n : Node) : List (List Node × Node) :=
  n.namedChildren.attach.flatMap fun ⟨c, _hc⟩ =>
    if c.kind ≠ .assignmentExpression then [(n :: outer, c)]
    else
      let entry := c :: n :: outer
      let index := match c.child? .left with
        | some left =>
          if left.kind = .elementBindingExpression then
            (left.children.filter fun i => !i.field.any (·.isDeclarative)).map (left :: entry, ·)
          else []
        | none => []
      index ++
        match _hr : c.child? .right with
        | some right =>
          if right.kind = .initializerExpression then right.initializerParts entry
          else [(entry, right)]
        | none => []
termination_by sizeOf n
decreasing_by
  have h1 := sizeOf_lt (mem_children_of_child? _hr)
  have h2 := sizeOf_lt (mem_children_of_namedChildren _hc)
  omega

/-- The children of an anonymous object that are evaluated: a name before `=` is not. -/
def anonymousParts : List Node → List Node
  | [] => []
  | c :: rest =>
    let namesMember := c.kind = .identifier && rest.head?.any (·.kind = .assign)
    if c.named && !namesMember then c :: anonymousParts rest else anonymousParts rest

end Node

namespace Walk

/-- Visits the children of a node that are evaluated. -/
def visitChildren (go : Visit) (outer : List Node) (n : Node) (w : Walk) : Walk :=
  n.children.foldl (fun w c =>
    if c.field.any (·.isDeclarative) then w else go (n.around outer) c w) w

/-! ## Declarations -/

/-- Binds the names that a pattern or a clause introduces. -/
def declareNames (n : Node) (w : Walk) : Walk :=
  n.children.foldl (fun w c =>
    if c.kind = .identifier &&
        (c.field = some .name || n.kind = .parenthesizedVariableDesignation) then
      w.declare c .plain
    else w) w

/-- Binds a name that may be absent. -/
def declareName (name : Option Node) (kind : LocalKind) (w : Walk) : Walk :=
  match name with
  | some n => w.declare n kind
  | none => w

/-- A block. Its local functions can be called before they are declared. -/
def visitBlock (go : Visit) (outer : List Node) (n : Node) (w : Walk) : Walk :=
  inBlock (fun w =>
    let w := (n.namedOfKind .localFunctionStatement).foldl (fun w f =>
      declareName (f.child? .name) .plain w) w
    visitChildren go outer n w) w

def visitLocalFunction (go : Visit) (outer : List Node) (n : Node) (w : Walk) : Walk :=
  let mode := ReturnMode.ofType? (n.child? .type)
  inBlock (fun w =>
    let w := w.declareParameters (Parameter.ofList? (n.child? .parameters))
    returning mode (visitPart go (n.around outer) (n.child? .body)) w)
    (declareName (n.child? .name) .plain w)

/-- A lambda or an anonymous method. How it returns is not tracked. -/
def visitLambda (go : Visit) (outer : List Node) (n : Node) (w : Walk) : Walk :=
  inBlock (fun w =>
    let w := match n.child? .parameters with
      | some params =>
        if params.kind = .implicitParameter then w.declare params .plain
        else w.declareParameters (Parameter.ofList params)
      | none => w
    returning .ref (visitChildren go outer n) w) w

/-- What a declarator binds its name as. -/
def declaredKind (v : Viewpoint) (scope : Scope) (type : Option Node) (value : Option Node) :
    LocalKind :=
  let isRef := type.any fun t => ReturnMode.ofType t.stripScoped ≠ .value
  let isPointer := type.any (·.kind = .pointerType)
  match value with
  | some value =>
    if isRef then
      match value.refTarget? with
      | some target => .ref (v.storage scope target).isInstance
      | none => .plain
    else if isPointer then .pointer (isInstancePointer scope value)
    else .plain
  | none => if isPointer then .pointer false else .plain

/-- One declarator: the value is visited before the name is bound. -/
def visitDeclarator (v : Viewpoint) (go : Visit) (outer : List Node) (type : Option Node)
    (declarator : Node) (w : Walk) : Walk :=
  let value := declarator.initializer?
  let kind := declaredKind v w.scope type value
  let w := visitPart go (declarator.around outer) value w
  let w := declareName (declarator.child? .name) kind w
  (declarator.namedOfKind .tuplePattern).foldl (fun w pattern =>
    go (declarator.around outer) pattern w) w

def visitVariableDeclaration (v : Viewpoint) (go : Visit) (outer : List Node) (n : Node)
    (w : Walk) : Walk :=
  n.declarators.foldl (fun w declarator =>
    visitDeclarator v go (n.around outer) (n.child? .type) declarator w) w

/-! ## Statements with a header -/

/-- One child of a `foreach`. Without a type, `foreach ((a, b) in pairs)` assigns variables that
are there already. -/
def visitForeachPart (v : Viewpoint) (go : Visit) (outer : List Node) (declares : Bool) (c : Node)
    (w : Walk) : Walk :=
  if c.field = some .type then w
  else if c.field = some .left then
    if declares then
      if c.kind = .identifier then w.declare c .plain else go outer c w
    else write v go .assign outer c w
  else go outer c w

def visitForeach (v : Viewpoint) (go : Visit) (outer : List Node) (n : Node) (w : Walk) : Walk :=
  inBlock (fun w =>
    n.children.foldl (fun w c =>
      visitForeachPart v go (n.around outer) (n.child? .type).isSome c w) w) w

/-- One declarator of a `fixed` statement, which binds a pointer. -/
def visitPin (v : Viewpoint) (go : Visit) (outer : List Node) (declarator : Node) (w : Walk) :
    Walk :=
  match declarator.initializer? with
  | some value =>
    let (outer, target) := value.addressed (declarator.around outer)
    let intoInstance := pointsIntoInstance v w.scope target
    declareName (declarator.child? .name) (.pointer intoInstance) (visitOperands go outer target w)
  | none => declareName (declarator.child? .name) (.pointer false) w

def visitFixed (v : Viewpoint) (go : Visit) (outer : List Node) (n : Node) (w : Walk) : Walk :=
  inBlock (fun w =>
    n.children.foldl (fun w c =>
      if c.kind = .variableDeclaration then
        c.declarators.foldl (fun w declarator =>
          visitPin v go (c.around (n.around outer)) declarator w) w
      else if c.named then go (n.around outer) c w
      else w) w) w

/-! ## Expressions that write -/

def visitAssignment (v : Viewpoint) (go : Visit) (outer : List Node) (n : Node) (w : Walk) : Walk :=
  let access := Access.ofOperator ((n.child? .operator).map (·.kind))
  let w := match n.child? .left with
    | some left => write v go access (n.around outer) left w
    | none => w
  visitPart go (n.around outer) (n.child? .right) w

/-- The operand of a unary expression. -/
def unaryOperand? (n : Node) : Option Node :=
  if n.kind = .prefixUnaryExpression then n.lastChild? else n.children.head?

def visitUnary (v : Viewpoint) (go : Visit) (outer : List Node) (n : Node) (w : Walk) : Walk :=
  match unaryOperand? n with
  | none => w
  | some operand =>
    let operator := n.operatorToken?
    if operator = some .increment || operator = some .decrement then
      write v go .compound (n.around outer) operand w
    else if operator = some .ampersand && n.kind = .prefixUnaryExpression then
      let w :=
        if (v.storage w.scope operand).isInstance then
          w.record (.unclassifiable "address of instance storage") n
        else w
      visitOperands go (n.around outer) operand w
    else visitChildren go outer n w

/-- The word that says how an argument is passed. -/
def passing? (n : Node) : Option Kind :=
  (n.children.map (·.kind)).find? fun k => k = .refToken || k = .outToken || k = .inToken

/-- An argument. A pointer into the instance escapes through any call. -/
def visitArgument (v : Viewpoint) (go : Visit) (outer : List Node) (n : Node) (w : Walk) : Walk :=
  match n.lastChild? with
  | none => w
  | some value =>
    let passing := passing? n
    if passing = some .refToken || passing = some .outToken then
      write v go .reference (n.around outer) value w
    else
      let w :=
        if isInstancePointer w.scope value then w.record (.referenceEscape value.text) value
        else w
      go (n.around outer) value w

/-! ## References -/

/-- Whether the reference made inside of `outer` goes only where it cannot be written through: to
a `ref readonly` local, or out of a function that returns `ref readonly`. -/
def bindsReadonly (outer : List Node) (w : Walk) : Bool :=
  match outer with
  | [] => false
  | parent :: rest =>
    match parent.kind with
    | .variableDeclarator =>
      (rest.head?.bind (·.child? .type)).any fun t =>
        ReturnMode.ofType t.stripScoped = .readonlyRef
    | .arrowExpressionClause | .returnStatement => w.returnModes.head? = some .readonlyRef
    | _ => false

/-- What a reference to the instance shows when it can be written through. -/
def refMutation (outer : List Node) (operand : Node) : Mutation :=
  if outer.head?.any (·.kind = .variableDeclarator) then .mutableRefAlias
  else .referenceEscape operand.text

def visitRef (v : Viewpoint) (go : Visit) (outer : List Node) (n : Node) (w : Walk) : Walk :=
  match n.lastChild? with
  | none => w
  | some operand =>
    let storage := v.storage w.scope operand
    let w :=
      if storage.isInstance then
        if bindsReadonly outer w then w else w.record (refMutation outer operand) n
      else
        match storage with
        | .property group => useGroup v w group true false
        | .indexer => useIndexers v w true false
        | _ => w
    visitOperands go (n.around outer) operand w

/-! ## Uses -/

/-- Members that every struct inherits; a call of them through `this` never mutates. -/
def objectMembers : List String := ["ToString", "GetHashCode", "Equals", "GetType"]

/-- The name that a call means on the instance, and whether it is written with `this`. -/
def calledName? (function : Node) : Option (String × Bool) :=
  match function.kind with
  | .identifier | .genericName => function.simpleName?.map (·, false)
  | .memberAccessExpression =>
    if (function.child? .expression).any (·.isThis) then
      ((function.child? .name).bind (·.simpleName?)).map (·, true)
    else none
  | _ => none

/-- Notes a call on the instance of a name that the struct does not declare: it may be an
extension method that takes the instance by reference, or be declared in another part. -/
def checkCall (v : Viewpoint) (function : Node) (w : Walk) : Walk :=
  match calledName? function.unparenthesize with
  | none => w
  | some (name, throughThis) =>
    if !throughThis && (name = "nameof" || w.scope.binds name) then w
    else if (v.decl.resolve name).isSome then w
    else if throughThis && name ∉ objectMembers then
      w.record (.unclassifiable s!"call to `{name}` on the instance") function.unparenthesize
    else if !throughThis && v.decl.isPartial then
      w.record (.unclassifiable s!"call to `{name}` declared in another part")
        function.unparenthesize
    else w

def visitInvocation (v : Viewpoint) (go : Visit) (outer : List Node) (n : Node) (w : Walk) : Walk :=
  let w := match n.child? .function with
    | some function => checkCall v function w
    | none => w
  visitChildren go outer n w

/-- A simple name, which means a local before it means a member. -/
def visitName (v : Viewpoint) (name : String) (w : Walk) : Walk :=
  if w.scope.binds name then w else useName v w name

def visitMemberAccess (v : Viewpoint) (go : Visit) (outer : List Node) (n : Node) (w : Walk) :
    Walk :=
  match n.child? .expression with
  | none => w
  | some base =>
    if base.isThis then
      match (n.child? .name).bind (·.simpleName?) with
      | some name => useName v w name
      | none => w
    else go (n.around outer) base w

def visitElementAccess (v : Viewpoint) (go : Visit) (outer : List Node) (n : Node) (w : Walk) :
    Walk :=
  let w := match n.child? .expression with
    | none => w
    | some base => if base.isThis then useIndexers v w true false else go (n.around outer) base w
  visitPart go (n.around outer) (n.child? .subscript) w

/-! ## New objects -/

def visitObjectCreation (go : Visit) (outer : List Node) (n : Node) (w : Walk) : Walk :=
  n.children.foldl (fun w c =>
    if c.field = some .type then w
    else if c.kind = .initializerExpression then
      (c.initializerParts (n.around outer)).foldl (fun w (outer, part) => go outer part w) w
    else go (n.around outer) c w) w

/-- A `with` expression: of an entry only its value is evaluated. -/
def visitWith (go : Visit) (outer : List Node) (n : Node) (w : Walk) : Walk :=
  n.children.foldl (fun w c =>
    match c.kind with
    | .withInitializer => visitPart go (c.around (n.around outer)) c.lastChild? w
    | .withToken | .openBrace | .closeBrace | .comma => w
    | _ => go (n.around outer) c w) w

def visitAnonymousObject (go : Visit) (outer : List Node) (n : Node) (w : Walk) : Walk :=
  (Node.anonymousParts n.children).foldl (fun w c => go (n.around outer) c w) w

/-! ## Every kind of node -/

/-- Visits a node by the rule for its kind. -/
def step (v : Viewpoint) (go : Visit) : Visit := fun outer n w =>
  match n.kind with
  | .comment | .attributeList | .typeArgumentList | .predefinedType | .typeofExpression
  | .sizeofExpression => w
  | .block => visitBlock go outer n w
  | .localFunctionStatement => visitLocalFunction go outer n w
  | .lambdaExpression | .anonymousMethodExpression => visitLambda go outer n w
  | .foreachStatement => visitForeach v go outer n w
  | .fixedStatement => visitFixed v go outer n w
  | .forStatement | .usingStatement | .catchClause | .switchSection | .switchExpressionArm
  | .queryExpression => inBlock (visitChildren go outer n) w
  | .variableDeclaration => visitVariableDeclaration v go outer n w
  | .declarationExpression | .declarationPattern | .recursivePattern | .varPattern | .tuplePattern
  | .parenthesizedVariableDesignation | .catchDeclaration | .fromClause | .letClause | .joinClause
  | .joinIntoClause | .queryContinuation => visitChildren go outer n (declareNames n w)
  | .assignmentExpression => visitAssignment v go outer n w
  | .prefixUnaryExpression | .postfixUnaryExpression => visitUnary v go outer n w
  | .argument => visitArgument v go outer n w
  | .refExpression => visitRef v go outer n w
  | .invocationExpression => visitInvocation v go outer n w
  | .identifier => visitName v n.text w
  | .genericName =>
    match n.simpleName? with
    | some name => visitName v name w
    | none => w
  | .memberAccessExpression => visitMemberAccess v go outer n w
  | .elementAccessExpression => visitElementAccess v go outer n w
  | .objectCreationExpression | .implicitObjectCreationExpression =>
    visitObjectCreation go outer n w
  | .withExpression => visitWith go outer n w
  | .anonymousObjectCreationExpression => visitAnonymousObject go outer n w
  | _ => visitChildren go outer n w

/-- Visits a tree down to the given depth. -/
def visitTo (v : Viewpoint) : Nat → Visit
  | 0 => fun _ _ w => w
  | depth + 1 => step v (visitTo v depth)

/-- Visits a node with everything below it: a rule visits only what is below its node, so the
height of the node is deep enough. -/
def visit (v : Viewpoint) : Visit := fun outer n w => visitTo v n.height outer n w

end Walk

end ReadonlyLint
