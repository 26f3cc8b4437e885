import ReadonlyLint.Proofs.Evaluated
import ReadonlyLint.Proofs.Growth
import ReadonlyLint.Proofs.VisitMap

/-!
The ways in which an expression is used. `Use.fill` puts an expression into such a use, so that a
law about every use of an expression is one lemma for each way. An expression that names a member of
the instance is `N` where nothing binds `N`, or `this.N`; either way its storage and its visit are
those of the member.
-/
namespace ReadonlyLint

namespace Node

/-! ## Expressions that name members -/

/-- The node is the simple name. -/
def IsName (n : Node) (name : String) : Prop := n.kind = .identifier ∧ n.text = name

/-- The node is `this.name`, and not `this->name`. -/
def IsThisMember (n : Node) (name : String) : Prop :=
  n.IsThisAccess name ∧ n.hasChildOfKind .pointerArrow = false

/-- The node is `this[…]`. -/
def IsThisElement (n : Node) : Prop :=
  n.kind = .elementAccessExpression ∧ ∃ base, n.child? .expression = some base ∧ base.isThis

/-- The node is a name or an access to a member or an element. -/
def IsPath (n : Node) : Prop :=
  n.kind ∈ [.identifier, .memberAccessExpression, .elementAccessExpression]

/-- In the scope the node names the member of the instance. -/
def Names (n : Node) (scope : Scope) (name : String) : Prop :=
  (n.IsName name ∧ scope.binds name = false) ∨ n.IsThisMember name

/-- The node, filling the field of its parent. -/
def filling (n : Node) (field : Option Field) : Node := { n with field }

theorem IsPath.filling {n : Node} (h : n.IsPath) (field : Option Field) :
    (n.filling field).IsPath := h

theorem IsPath.kind_ne {n : Node} (h : n.IsPath) {kind : Kind}
    (hkind : kind ∉ [Kind.identifier, .memberAccessExpression, .elementAccessExpression]) :
    n.kind ≠ kind :=
  fun hk => hkind (hk ▸ h)

theorem Names.filling {n : Node} {scope : Scope} {name : String} (h : n.Names scope name)
    (field : Option Field) : (n.filling field).Names scope name := h

/-- The node, of the given kind and with an expression after its other children. -/
def endingIn (n : Node) (kind : Kind) (x : Node) : Node :=
  { n with kind, children := n.children ++ [x.filling none] }

/-- The node, of the given kind and with an expression before its other children. -/
def startingWith (n : Node) (kind : Kind) (x : Node) : Node :=
  { n with kind, children := x :: n.children }

@[simp] theorem kind_filling (n : Node) (field : Option Field) : (n.filling field).kind = n.kind :=
  rfl

@[simp] theorem field_filling (n : Node) (field : Option Field) : (n.filling field).field = field :=
  rfl

@[simp] theorem kind_endingIn (n : Node) (kind : Kind) (x : Node) :
    (n.endingIn kind x).kind = kind := rfl

@[simp] theorem kind_startingWith (n : Node) (kind : Kind) (x : Node) :
    (n.startingWith kind x).kind = kind := rfl

@[simp] theorem children_startingWith (n : Node) (kind : Kind) (x : Node) :
    (n.startingWith kind x).children = x :: n.children := rfl

@[simp] theorem lastChild?_endingIn (n : Node) (kind : Kind) (x : Node) :
    (n.endingIn kind x).lastChild? = some (x.filling none) := by
  simp [lastChild?, endingIn]

theorem operatorToken?_endingIn {n : Node} {operator : Kind}
    (h : n.operatorToken? = some operator) (kind : Kind) (x : Node) :
    (n.endingIn kind x).operatorToken? = some operator := by
  unfold operatorToken? at *
  rw [endingIn, List.map_append, List.find?_append, h, Option.some_or]

theorem operatorToken?_startingWith {n x : Node} (hx : x.IsPath) {operator : Kind}
    (h : n.operatorToken? = some operator) (kind : Kind) :
    (n.startingWith kind x).operatorToken? = some operator := by
  unfold operatorToken? at *
  simp only [IsPath, List.mem_cons, List.not_mem_nil, or_false] at hx
  rcases hx with hk | hk | hk <;> simpa [List.find?_cons, hk] using h

theorem passing?_endingIn (n : Node) {x : Node} (hx : x.IsPath) (kind : Kind) :
    Walk.passing? (n.endingIn kind x) = Walk.passing? n := by
  have hword : ∀ k ∈ [Kind.refToken, .outToken, .inToken], x.kind ≠ k := by
    intro k hk
    apply hx.kind_ne
    simp only [List.mem_cons, List.not_mem_nil, or_false] at hk
    rcases hk with rfl | rfl | rfl <;> decide
  unfold Walk.passing?
  simp [endingIn, hword]

theorem child?_startingWith (n : Node) (kind : Kind) {x : Node} {field : Field}
    (h : x.field = some field) : (n.startingWith kind x).child? field = some x := by
  simp [child?, h]

theorem child?_startingWith_of_ne (n : Node) (kind : Kind) {x : Node} {field : Field}
    (h : x.field ≠ some field) : (n.startingWith kind x).child? field = n.child? field := by
  simp [child?, h]

theorem around_of_ne {n : Node} (h : n.kind ≠ .parenthesizedExpression) (outer : List Node) :
    n.around outer = n :: outer :=
  if_neg h

theorem targets_of_isPath {n : Node} (hn : n.IsPath) (outer : List Node) :
    n.targets outer = [(outer, n)] := by
  rw [targets_eq, unparenthesize_of_ne (hn.kind_ne (by decide)), if_neg (hn.kind_ne (by decide))]

/-! ## Targets -/

/-- The single targets among the elements of a tuple. -/
def elementTargets (outer : List Node) (elements : List Node) : List (List Node × Node) :=
  ((elements.filter (·.named)).filter (·.kind = .argument)).flatMap fun a =>
    a.lastChild?.toList.flatMap fun e => e.targets (a :: outer)

/-- The node as an element of a tuple, with an expression after its other children. -/
def elementOf (argument x : Node) : Node :=
  { argument.endingIn .argument x with named := true, field := none }

theorem elementTargets_append (outer l l' : List Node) :
    elementTargets outer (l ++ l') = elementTargets outer l ++ elementTargets outer l' := by
  simp [elementTargets]

theorem elementTargets_cons_elementOf (outer : List Node) (argument x : Node) (l : List Node) :
    elementTargets outer (argument.elementOf x :: l) =
      (x.filling none).targets (argument.elementOf x :: outer) ++ elementTargets outer l := by
  have hlast : (argument.elementOf x).lastChild? = some (x.filling none) :=
    lastChild?_endingIn argument .argument x
  have hkind : (argument.elementOf x).kind = .argument := rfl
  have hnamed : (argument.elementOf x).named = true := rfl
  simp [elementTargets, hlast, hkind, hnamed]

end Node

/-- Where a target stands on the left side of an assignment. -/
inductive Slot where
  /-- It is the whole left side. -/
  | whole
  /-- It stands in an element of a tuple. The nodes have the other parts of the tuple and of the
  element, which come before; `rest` says where in the element the target stands, and `after` is
  what follows the element. -/
  | element (tuple argument : Node) (rest : Slot) (after : List Node)

namespace Slot

/-- The left side with the target in its place. -/
def fill : Slot → Option Field → Node → Node
  | .whole, field, x => x.filling field
  | .element tuple argument rest after, field, x =>
    { tuple with
      kind := .tupleExpression
      field
      children := tuple.children ++ argument.elementOf (rest.fill none x) :: after }

/-- The single targets of a left side, split at the target in question. -/
structure Split where
  before : List (List Node × Node)
  around : List Node
  target : Node
  after : List (List Node × Node)

def split : Slot → Option Field → List Node → Node → Split
  | .whole, field, outer, x =>
    { before := [], around := outer, target := x.filling field, after := [] }
  | .element tuple argument rest after, field, outer, x =>
    let outer := fill (.element tuple argument rest after) field x :: outer
    let inner := rest.split none (argument.elementOf (rest.fill none x) :: outer) x
    { inner with
      before := Node.elementTargets outer tuple.children ++ inner.before
      after := inner.after ++ Node.elementTargets outer after }

@[simp] theorem field_fill (slot : Slot) (field : Option Field) (x : Node) :
    (slot.fill field x).field = field := by
  cases slot with
  | whole => rfl
  | element tuple argument rest after => rfl

theorem filling_fill (slot : Slot) (field : Option Field) (x : Node) :
    (slot.fill field x).filling field = slot.fill field x := by
  cases slot with
  | whole => rfl
  | element tuple argument rest after => rfl

theorem target_split (slot : Slot) (field : Option Field) (outer : List Node) (x : Node) :
    ∃ own, (slot.split field outer x).target = x.filling own := by
  induction slot generalizing field outer with
  | whole => exact ⟨field, rfl⟩
  | element tuple argument rest after ih => exact ih none _

theorem targets_fill (slot : Slot) (field : Option Field) (outer : List Node) {x : Node}
    (hx : x.IsPath) :
    (slot.fill field x).targets outer =
      (slot.split field outer x).before ++
        ((slot.split field outer x).around, (slot.split field outer x).target) ::
          (slot.split field outer x).after := by
  induction slot generalizing field outer with
  | whole => exact Node.targets_of_isPath (hx.filling field) outer
  | element tuple argument rest after ih =>
    have hkind : (fill (.element tuple argument rest after) field x).kind = .tupleExpression := rfl
    have htargets : (fill (.element tuple argument rest after) field x).targets outer =
        Node.elementTargets (fill (.element tuple argument rest after) field x :: outer)
          (tuple.children ++ argument.elementOf (rest.fill none x) :: after) := by
      rw [Node.targets_eq, Node.unparenthesize_of_ne (by simp [hkind]), if_pos hkind]
      rfl
    -- the elements before, then the targets in this one, then the elements after
    rw [htargets, Node.elementTargets_append, Node.elementTargets_cons_elementOf, filling_fill, ih]
    simp [split]

end Slot

/-! ## Uses -/

/-- A way to use an expression; the node has the other parts of the expression around it. -/
inductive Use where
  | read
  | called (n : Node)
  | assigned (n : Node) (slot : Slot)
  /-- `++x` and `--x`. -/
  | countedFirst (n : Node)
  /-- `x++` and `x--`. -/
  | countedAfter (n : Node)
  /-- An argument, by value or by `ref`, `out` or `in`. -/
  | passed (n : Node)
  /-- `ref x`. -/
  | referred (n : Node)
  /-- `&x`. -/
  | addressed (n : Node)

namespace Use

/-- The use of the expression. -/
def fill : Use → Node → Node
  | .read, x => x
  | .called n, x => n.startingWith .invocationExpression (x.filling (some .function))
  | .assigned n slot, x => n.startingWith .assignmentExpression (slot.fill (some .left) x)
  | .countedFirst n, x => n.endingIn .prefixUnaryExpression x
  | .countedAfter n, x => n.startingWith .postfixUnaryExpression (x.filling none)
  | .passed n, x => n.endingIn .argument x
  | .referred n, x => n.endingIn .refExpression x
  | .addressed n, x => n.endingIn .prefixUnaryExpression x

/-- The operator is the one of the use. -/
def Fits : Use → Prop
  | .countedFirst n | .countedAfter n =>
    n.operatorToken? = some .increment ∨ n.operatorToken? = some .decrement
  | .addressed n => n.operatorToken? = some .ampersand
  | _ => True

/-- How an assignment with these other parts writes its left side. -/
def accessOf (n : Node) : Access := .ofOperator ((n.child? .operator).map (·.kind))

/-- How the use writes the expression, if it does. -/
def access? : Use → Option Access
  | .assigned n _ => some (accessOf n)
  | .countedFirst _ | .countedAfter _ => some .compound
  | .passed n =>
    if Walk.passing? n = some .refToken || Walk.passing? n = some .outToken then some .reference
    else none
  | _ => none

/-- The state in which the visit of the use comes to the expression: the elements of a tuple before
it are targets as well. -/
def reached (use : Use) (v : Viewpoint) (outer : List Node) (x : Node) (w : Walk) : Walk :=
  match use with
  | .assigned n slot =>
    (slot.split (some .left) (fill (.assigned n slot) x :: outer) x).before.foldl
      (fun w p => Walk.writeTarget v (Walk.visit v) (accessOf n) p.1 p.2 w) w
  | _ => w

end Use

/-! ## The visit of a use -/

namespace Use

open Walk

section Visits

variable (v : Viewpoint) (outer : List Node) (n x : Node) (w : Walk)

theorem visit_called :
    visit v outer (fill (.called n) x) w =
      n.children.foldl (fun w c =>
        if c.field.any (·.isDeclarative) then w else visit v (fill (.called n) x :: outer) c w)
        (visit v (fill (.called n) x :: outer) (x.filling (some .function))
          (checkCall v (x.filling (some .function)) w)) := by
  have haround := Node.around_of_ne (n := fill (.called n) x) (by simp [fill]) outer
  have hfunction : (fill (.called n) x).child? .function = some (x.filling (some .function)) :=
    Node.child?_startingWith n _ rfl
  have hchildren : (fill (.called n) x).children = x.filling (some .function) :: n.children := rfl
  have hkind : (fill (.called n) x).kind = .invocationExpression := rfl
  rw [visit_eq]
  simp only [step, hkind, visitInvocation, hfunction, visitChildren, haround, hchildren,
    List.foldl_cons]
  rfl

variable {x} (hx : x.IsPath)

include hx

theorem visit_assigned (slot : Slot) :
    visit v outer (fill (.assigned n slot) x) w =
      let around := fill (.assigned n slot) x :: outer
      let parts := slot.split (some .left) around x
      visitPart (visit v) around (n.child? .right)
        (parts.after.foldl (fun w p => writeTarget v (visit v) (accessOf n) p.1 p.2 w)
          (writeTarget v (visit v) (accessOf n) parts.around parts.target
            (reached (.assigned n slot) v outer x w))) := by
  have haround := Node.around_of_ne (n := fill (.assigned n slot) x) (by simp [fill]) outer
  have hleft : (fill (.assigned n slot) x).child? .left = some (slot.fill (some .left) x) :=
    Node.child?_startingWith n _ (by simp)
  have hright : (fill (.assigned n slot) x).child? .right = n.child? .right :=
    Node.child?_startingWith_of_ne n _ (by simp)
  have hoperator : (fill (.assigned n slot) x).child? .operator = n.child? .operator :=
    Node.child?_startingWith_of_ne n _ (by simp)
  have hkind : (fill (.assigned n slot) x).kind = .assignmentExpression := rfl
  rw [visit_eq]
  simp only [step, hkind, visitAssignment, hleft, hright, hoperator, haround, write,
    slot.targets_fill (some .left) _ hx, List.foldl_append, List.foldl_cons]
  rfl

theorem visit_countedFirst (hfits : Fits (.countedFirst n)) :
    visit v outer (fill (.countedFirst n) x) w =
      writeTarget v (visit v) .compound (fill (.countedFirst n) x :: outer) (x.filling none) w := by
  have haround := Node.around_of_ne (n := fill (.countedFirst n) x) (by simp [fill]) outer
  have hkind : (fill (.countedFirst n) x).kind = .prefixUnaryExpression := rfl
  have hoperator : (fill (.countedFirst n) x).operatorToken? = some .increment ∨
      (fill (.countedFirst n) x).operatorToken? = some .decrement :=
    hfits.imp (Node.operatorToken?_endingIn · _ x) (Node.operatorToken?_endingIn · _ x)
  have htargets := Node.targets_of_isPath (hx.filling none)
  have hlast : (fill (.countedFirst n) x).lastChild? = some (x.filling none) :=
    Node.lastChild?_endingIn n _ x
  rw [visit_eq]
  simp [step, hkind, visitUnary, unaryOperand?, hlast, hoperator, write, haround, htargets]

theorem visit_countedAfter (hfits : Fits (.countedAfter n)) :
    visit v outer (fill (.countedAfter n) x) w =
      writeTarget v (visit v) .compound (fill (.countedAfter n) x :: outer) (x.filling none) w := by
  have haround := Node.around_of_ne (n := fill (.countedAfter n) x) (by simp [fill]) outer
  have hkind : (fill (.countedAfter n) x).kind = .postfixUnaryExpression := rfl
  have hoperator : (fill (.countedAfter n) x).operatorToken? = some .increment ∨
      (fill (.countedAfter n) x).operatorToken? = some .decrement :=
    hfits.imp (Node.operatorToken?_startingWith (hx.filling none) · _)
      (Node.operatorToken?_startingWith (hx.filling none) · _)
  have htargets := Node.targets_of_isPath (hx.filling none)
  have hhead : (fill (.countedAfter n) x).children.head? = some (x.filling none) := rfl
  rw [visit_eq]
  simp [step, hkind, visitUnary, unaryOperand?, hhead, hoperator, write, haround, htargets]

theorem visit_passed_of_writes {access : Access} (hwrites : access? (.passed n) = some access) :
    visit v outer (fill (.passed n) x) w =
      writeTarget v (visit v) access (fill (.passed n) x :: outer) (x.filling none) w := by
  have haround := Node.around_of_ne (n := fill (.passed n) x) (by simp [fill]) outer
  have hkind : (fill (.passed n) x).kind = .argument := rfl
  have hlast : (fill (.passed n) x).lastChild? = some (x.filling none) :=
    Node.lastChild?_endingIn n _ x
  have hpassing : passing? (fill (.passed n) x) = passing? n := Node.passing?_endingIn n hx _
  have htargets := Node.targets_of_isPath (hx.filling none)
  simp only [access?] at hwrites
  split at hwrites
  · rename_i hword
    cases hwrites
    rw [visit_eq]
    simp only [step, hkind, visitArgument, hlast, hpassing, hword, write, haround, htargets,
      List.foldl_cons, List.foldl_nil, if_true]
  · cases hwrites

theorem visit_passed_of_reads (hreads : access? (.passed n) = none) :
    visit v outer (fill (.passed n) x) w =
      visit v (fill (.passed n) x :: outer) (x.filling none)
        (if isInstancePointer w.scope (x.filling none) then
          w.record (.referenceEscape x.text) (x.filling none)
        else w) := by
  have haround := Node.around_of_ne (n := fill (.passed n) x) (by simp [fill]) outer
  have hkind : (fill (.passed n) x).kind = .argument := rfl
  have hlast : (fill (.passed n) x).lastChild? = some (x.filling none) :=
    Node.lastChild?_endingIn n _ x
  have hpassing : passing? (fill (.passed n) x) = passing? n := Node.passing?_endingIn n hx _
  simp only [access?] at hreads
  split at hreads
  · cases hreads
  · rename_i hword
    rw [visit_eq]
    simp only [step, hkind, visitArgument, hlast, hpassing, hword, haround]
    rfl

omit hx

theorem visit_referred :
    visit v outer (fill (.referred n) x) w =
      visitOperands (visit v) (fill (.referred n) x :: outer) (x.filling none)
        (noteRef v outer (fill (.referred n) x) (x.filling none) w) := by
  have haround := Node.around_of_ne (n := fill (.referred n) x) (by simp [fill]) outer
  have hkind : (fill (.referred n) x).kind = .refExpression := rfl
  have hlast : (fill (.referred n) x).lastChild? = some (x.filling none) :=
    Node.lastChild?_endingIn n _ x
  rw [visit_eq]
  simp only [step, hkind, visitRef, hlast, haround]
  rfl

theorem visit_addressed (hfits : Fits (.addressed n)) :
    visit v outer (fill (.addressed n) x) w =
      visitOperands (visit v) (fill (.addressed n) x :: outer) (x.filling none)
        (if (v.storage w.scope (x.filling none)).isInstance then
          w.record (.unclassifiable "address of instance storage") (fill (.addressed n) x)
        else w) := by
  have haround := Node.around_of_ne (n := fill (.addressed n) x) (by simp [fill]) outer
  have hkind : (fill (.addressed n) x).kind = .prefixUnaryExpression := rfl
  have hoperator : (fill (.addressed n) x).operatorToken? = some .ampersand :=
    Node.operatorToken?_endingIn hfits _ x
  have hlast : (fill (.addressed n) x).lastChild? = some (x.filling none) :=
    Node.lastChild?_endingIn n _ x
  rw [visit_eq]
  simp [step, hkind, visitUnary, unaryOperand?, hlast, hoperator, haround]

end Visits

end Use

/-! ## What a name shows -/

namespace Node.Names

variable {v : Viewpoint} {x : Node} {scope : Scope} {name : String} (h : x.Names scope name)
include h

theorem isPath : x.IsPath := by
  rcases h with ⟨hname, -⟩ | hthis
  · simp [IsPath, hname.1]
  · simp [IsPath, hthis.1.1]

theorem storage_eq : v.storage scope x = v.memberStorage name := by
  rcases h with ⟨⟨hk, htext⟩, hfree⟩ | ⟨⟨hk, ⟨base, hbase, hthis⟩, hname⟩, harrow⟩
  · have hlookup : scope.lookup name = none := by simpa [Scope.binds] using hfree
    rw [Viewpoint.storage_eq, unparenthesize_of_ne (by simp [hk])]
    simp [Viewpoint.storageOf, hk, Viewpoint.nameStorage, htext, hlookup]
  · have hself := v.storage_of_isThis scope hthis
    rw [Viewpoint.storage_eq, unparenthesize_of_ne (by simp [hk])]
    simp [Viewpoint.storageOf, hk, harrow, hbase, Viewpoint.accessedMember, hname, hself,
      Viewpoint.select]

theorem visit_eq (outer : List Node) {w : Walk} (hw : w.scope = scope) :
    Walk.visit v outer x w = Walk.useName v w name := by
  rw [Walk.visit_eq]
  rcases h with ⟨⟨hk, htext⟩, hfree⟩ | ⟨⟨hk, ⟨base, hbase, hthis⟩, hname⟩, -⟩
  · simp [Walk.step, hk, Walk.visitName, htext, hw, hfree]
  · simp [Walk.step, hk, Walk.visitMemberAccess, hbase, hthis, hname]

/-- Nothing in the name is evaluated. -/
theorem visitOperands_eq (go : Visit) (outer : List Node) (w : Walk) :
    Walk.visitOperands go outer x w = w := by
  rcases h with ⟨⟨hk, -⟩, -⟩ | ⟨⟨hk, ⟨base, hbase, hthis⟩, -⟩, -⟩
  · simp [Walk.visitOperands, unparenthesize_of_ne, hk]
  · simp [Walk.visitOperands, unparenthesize_of_ne, hk, Walk.visitBase, hbase, Option.filter_some,
      hthis, Walk.visitPart]

theorem isInstancePointer_eq : Walk.isInstancePointer scope x = false := by
  rw [Walk.isInstancePointer_eq]
  rcases h with ⟨⟨hk, htext⟩, hfree⟩ | ⟨⟨hk, -⟩, -⟩
  · have hlookup : scope.lookup name = none := by simpa [Scope.binds] using hfree
    simp [Walk.instancePointerOf, unparenthesize_of_ne, hk, htext, hlookup]
  · simp [Walk.instancePointerOf, unparenthesize_of_ne, hk]

/-- A call of a member that the struct declares is not noted by itself. -/
theorem checkCall_eq (hresolved : (v.decl.resolve name).isSome) (w : Walk) :
    Walk.checkCall v x w = w := by
  have hcalled : ∃ throughThis, Walk.calledName? x.unparenthesize = some (name, throughThis) := by
    rcases h with ⟨⟨hk, htext⟩, -⟩ | ⟨⟨hk, ⟨base, hbase, hthis⟩, hname⟩, -⟩
    · refine ⟨false, ?_⟩
      simp [Walk.calledName?, unparenthesize_of_ne, hk, simpleName?_eq, htext]
    · refine ⟨true, ?_⟩
      simp [Walk.calledName?, unparenthesize_of_ne, hk, hbase, hthis, hname]
  obtain ⟨throughThis, hcalled⟩ := hcalled
  simp [Walk.checkCall, hcalled, hresolved]

/-- A write of the name is a write of the member. The name `_` is a discard, which shows nothing. -/
theorem writeTarget_eq (hdiscard : x.IsName "_" → v.memberStorage name = .outside) (go : Visit)
    (access : Access) (outer : List Node) {w : Walk} (hw : w.scope = scope) :
    Walk.writeTarget v go access outer x w =
      Walk.writeStorage v w access (v.memberStorage name) x := by
  have hdeclares : x.kind ≠ .declarationExpression := h.isPath.kind_ne (by decide)
  unfold Walk.writeTarget
  rw [if_neg hdeclares]
  by_cases hkept : (x.kind = .identifier && x.text = "_" && !w.scope.binds "_") = true
  · -- a discard, and the member has no storage on the instance
    rw [if_pos hkept]
    simp only [Bool.and_eq_true, decide_eq_true_eq] at hkept
    rw [hdiscard hkept.1, Walk.writeStorage]
  · rw [if_neg hkept, h.visitOperands_eq, hw, h.storage_eq]

end Node.Names

end ReadonlyLint
