import ReadonlyLint.Proofs.Subtree

/-!
Evaluated code. A position is a node with the nodes around it and the role in which it is looked at;
one position steps to another when the code of the one evaluates the other. What is reached from a
body by such steps is the code that runs when the member runs, and writes and calls on `this` are
told by their shape alone.
-/
namespace ReadonlyLint

/-- What a node is looked at as. -/
inductive Role where
  /-- A statement or an expression. -/
  | code
  /-- The braces of an object initializer. -/
  | initializer
  /-- An entry of an object initializer that has a value of its own. -/
  | entry
  /-- The index in brackets that such an entry is for. -/
  | index
  deriving DecidableEq, Inhabited

namespace Node

/-! ## Evaluated children -/

/-- The children that a statement or an expression may evaluate. -/
def codeParts (n : Node) : List Node :=
  match n.kind with
  | .attributeList | .typeArgumentList | .predefinedType | .typeofExpression | .sizeofExpression
  | .identifier | .genericName => []
  | .localFunctionStatement => (n.child? .body).toList
  | .variableDeclaration => n.children.filter (·.kind = .variableDeclarator)
  | .variableDeclarator => n.initializer?.toList
  | .assignmentExpression => (n.child? .left).toList ++ (n.child? .right).toList
  | .prefixUnaryExpression | .argument | .refExpression | .withInitializer => n.lastChild?.toList
  | .postfixUnaryExpression => n.children.head?.toList
  | .tupleExpression => n.children.filter (·.kind = .argument)
  | .memberAccessExpression => (n.child? .expression).toList
  | .elementAccessExpression => (n.child? .expression).toList ++ (n.child? .subscript).toList
  | _ => n.children

/-- A node that makes an object, whose initializer is about the new object. -/
def makesObject (n : Node) : Bool :=
  n.kind = .objectCreationExpression || n.kind = .implicitObjectCreationExpression

/-- The children that a node may evaluate in a role, each with its own role. -/
def parts (n : Node) : Role → List (Role × Node)
  | .code =>
    if n.makesObject then
      n.children.map fun c => (if c.kind = .initializerExpression then .initializer else .code, c)
    else n.codeParts.map (.code, ·)
  | .initializer =>
    n.namedChildren.map fun c => (if c.kind = .assignmentExpression then .entry else .code, c)
  | .entry =>
    ((n.child? .left).toList.filter (·.kind = .elementBindingExpression)).map (.index, ·) ++
      (n.child? .right).toList.map fun c =>
        (if c.kind = .initializerExpression then .initializer else .code, c)
  | .index => n.children.map (.code, ·)

/-- Whether the node fills a field of declared names and types, in which nothing is evaluated. -/
def isDeclared (n : Node) : Bool := n.field.any (·.isDeclarative)

/-- How the innermost function around a child returns. -/
def modeInside (n : Node) (mode : ReturnMode) : ReturnMode :=
  match n.kind with
  | .localFunctionStatement => .ofType? (n.child? .type)
  | .lambdaExpression | .anonymousMethodExpression => .ref
  | _ => mode

end Node

/-- A place in a body. -/
structure Position where
  /-- The nodes around it, the innermost first. -/
  path : List Node
  /-- How the innermost function around it returns. -/
  mode : ReturnMode
  role : Role
  node : Node

namespace Position

/-- The position of a child, in its role. -/
def inside (p : Position) (part : Role × Node) : Position :=
  { path := p.node :: p.path
    mode := p.node.modeInside p.mode
    role := part.1
    node := part.2 }

/-- The code at the one position evaluates the other directly. -/
def Evaluates (p q : Position) : Prop :=
  ∃ part ∈ p.node.parts p.role, part.2.isDeclared = false ∧ q = p.inside part

/-- The code at the one position evaluates the other, directly or not. -/
def Reaches (p q : Position) : Prop := Relation.ReflTransGen Evaluates p q

/-- The position of a whole body. -/
def ofBody (mode : ReturnMode) (body : Node) : Position :=
  { path := [], mode, role := .code, node := body }

end Position

/-! ## Writes and calls on the instance -/

namespace Node

/-- The second node is the first without the parentheses around it. -/
inductive Holds : Node → Node → Prop
  | self {n : Node} : n.kind ≠ .parenthesizedExpression → Holds n n
  | inside {n c t : Node} : n.kind = .parenthesizedExpression → c ∈ n.children →
      c.isDeclared = false → Holds c t → Holds n t

/-- The second node is one of the targets that a write to the first one writes: the elements of a
tuple are targets of their own. -/
inductive HasTarget : Node → Node → Prop
  | single {n t : Node} : n.Holds t → t.kind ≠ .tupleExpression → HasTarget n t
  | element {n tuple a e t : Node} : n.Holds tuple → tuple.kind = .tupleExpression →
      a ∈ tuple.children → a.kind = .argument → a.lastChild? = some e → HasTarget e t →
      HasTarget n t

/-- What an assignment, an increment or a decrement writes. -/
def written? (n : Node) : Option Node :=
  let counts : Bool := n.operatorToken? = some .increment || n.operatorToken? = some .decrement
  match n.kind with
  | .assignmentExpression => n.child? .left
  | .prefixUnaryExpression => if counts then n.lastChild? else none
  | .postfixUnaryExpression => if counts then n.children.head? else none
  | _ => none

/-- The node is `this.name`. -/
def IsThisAccess (n : Node) (name : String) : Prop :=
  n.kind = .memberAccessExpression ∧ (∃ base, n.child? .expression = some base ∧ base.isThis) ∧
    (n.child? .name).bind (·.simpleName?) = some name

/-- The node writes `this.f` for a field `f` of the instance. -/
def WritesThis (n : Node) (d : StructDecl) : Prop :=
  ∃ target t name field, n.written? = some target ∧ target.HasTarget t ∧ t.IsThisAccess name ∧
    d.resolve name = some (.field field) ∧ field.isStatic = false

/-- The node calls `this.name`. -/
def CallsThis (n : Node) (name : String) : Prop :=
  n.kind = .invocationExpression ∧
    ∃ function t, n.child? .function = some function ∧ function.Holds t ∧ t.IsThisAccess name

end Node

/-! ## Where a prefix increment is only referred to -/

/-- The nodes around without the parentheses. -/
def bare (path : List Node) : List Node := path.filter (·.kind ≠ .parenthesizedExpression)

/-- The nodes around, from the innermost that is no parenthesis. -/
def unwrapped (path : List Node) : List Node :=
  path.dropWhile (·.kind = .parenthesizedExpression)

/-- Directly the value of a declarator in the header of a `fixed` statement. -/
def IsPinned (path : List Node) : Prop :=
  ∃ declarator declaration statement rest,
    unwrapped path = declarator :: declaration :: statement :: rest ∧
    declarator.kind = .variableDeclarator ∧ declaration.kind = .variableDeclaration ∧
    statement.kind = .fixedStatement

/-- A reference made inside of these nodes goes to a `ref readonly` local, or out of a function that
returns `ref readonly`. -/
def BindsReadonly (mode : ReturnMode) (path : List Node) : Prop :=
  ∃ parent rest, bare path = parent :: rest ∧
    ((parent.kind = .variableDeclarator ∧ ∃ declaration type, rest.head? = some declaration ∧
        declaration.child? .type = some type ∧
        ReturnMode.ofType type.stripScoped = .readonlyRef) ∨
      ((parent.kind = .arrowExpressionClause ∨ parent.kind = .returnStatement) ∧
        mode = .readonlyRef))

/-- A prefix expression of which only a reference is looked at: it is the value of a pinned pointer,
with or without `&`, or a `ref` to it is bound for reading only. -/
def Position.IsReferredTo (p : Position) : Prop :=
  p.node.kind = .prefixUnaryExpression ∧
    (IsPinned p.path ∨
      ∃ parent rest, unwrapped p.path = parent :: rest ∧
        ((parent.kind = .prefixUnaryExpression ∧ parent.operatorToken? = some .ampersand ∧
            IsPinned rest) ∨
          (parent.kind = .refExpression ∧ BindsReadonly p.mode rest)))

/-! ## Trees without comments -/

namespace Node

/-- Keywords and marks that some rule passes over. -/
def isToken (n : Node) : Bool :=
  n.kind ∈ [.thisToken, .withToken, .openParen, .closeParen, .openBrace, .closeBrace, .comma]

/-- No comment; keywords and marks are anonymous, and anonymous nodes have no children; parentheses
hold one expression. -/
def isTidy (n : Node) : Bool :=
  n.kind ≠ .comment && (n.named || n.children.isEmpty) && !(n.isToken && n.named) &&
    (n.kind ≠ .parenthesizedExpression ||
      match n.children with
      | [first, _, last] => first.kind = .openParen && last.kind = .closeParen
      | _ => false)

/-- Every node of the tree is tidy. -/
def Tidy (n : Node) : Prop := ∀ c ∈ n.preorder, c.isTidy

theorem Tidy.of_within {n c : Node} (h : n.Tidy) (hc : c.Within n) : c.Tidy :=
  fun x hx => h x (hc.mem_preorder hx)

theorem Tidy.of_mem {n c : Node} (h : n.Tidy) (hc : c ∈ n.children) : c.Tidy :=
  h.of_within (within_of_mem hc)

theorem Tidy.self {n : Node} (h : n.Tidy) : n.isTidy := h n (self_mem_preorder n)

theorem Tidy.leaf {n : Node} (h : n.Tidy) (hn : n.named = false) : n.children = [] := by
  have := h.self
  simp only [isTidy, Bool.and_eq_true, hn, Bool.false_or, List.isEmpty_iff] at this
  exact this.1.1.2

theorem Tidy.anonymous {n : Node} (h : n.Tidy) (hn : n.isToken) : n.named = false := by
  have := h.self
  simp only [isTidy, Bool.and_eq_true, hn, Bool.true_and] at this
  simpa using this.1.2

theorem Tidy.token_leaf {n : Node} (h : n.Tidy) (hn : n.isToken) : n.children = [] :=
  h.leaf (h.anonymous hn)

theorem Tidy.not_comment {n : Node} (h : n.Tidy) : n.kind ≠ .comment := by
  have := h.self
  simp only [isTidy, Bool.and_eq_true, decide_eq_true_eq] at this
  exact this.1.1.1

theorem Tidy.parentheses {n : Node} (h : n.Tidy) (hk : n.kind = .parenthesizedExpression) :
    ∃ first e last, n.children = [first, e, last] ∧ first.kind = .openParen ∧
      last.kind = .closeParen := by
  have := h.self
  simp only [isTidy, hk, Bool.and_eq_true] at this
  obtain ⟨-, hparens⟩ := this
  split at hparens
  · rename_i first e last hc
    simp only [ne_eq, not_true_eq_false, decide_false, Bool.false_or, Bool.and_eq_true,
      decide_eq_true_eq] at hparens
    exact ⟨first, e, last, hc, hparens.1, hparens.2⟩
  · simp at hparens

/-- What stands in tidy parentheses and is no mark is what `inner?` finds. -/
theorem Tidy.inner?_of_mem {n c : Node} (h : n.Tidy) (hk : n.kind = .parenthesizedExpression)
    (hc : c ∈ n.children) (hno : c.isToken = false) : n.inner? = some c := by
  obtain ⟨first, e, last, hchildren, hfirst, hlast⟩ := h.parentheses hk
  have hopen : first.isToken := by simp [isToken, hfirst]
  have hclose : last.isToken := by simp [isToken, hlast]
  have hfirstAnonymous : first.named = false := (h.of_mem (by simp [hchildren])).anonymous hopen
  have hlastAnonymous : last.named = false := (h.of_mem (by simp [hchildren])).anonymous hclose
  have hce : c = e := by
    rw [hchildren] at hc
    simp only [List.mem_cons, List.not_mem_nil, or_false] at hc
    rcases hc with rfl | rfl | rfl
    · exact absurd hopen (Bool.eq_false_iff.mp hno)
    · rfl
    · exact absurd hclose (Bool.eq_false_iff.mp hno)
  subst hce
  unfold inner? namedChildren
  by_cases hnamed : c.named
  · simp [hchildren, hfirstAnonymous, hnamed]
  · -- an anonymous expression such as `this` is found between the marks
    have hmark : c.kind ≠ .closeParen := fun hck => by simp [isToken, hck] at hno
    simp [hchildren, hfirstAnonymous, hlastAnonymous, hnamed, Option.filter_some, hmark]

theorem Holds.eq_of_not_paren {n t : Node} (h : n.Holds t)
    (hn : n.kind ≠ .parenthesizedExpression) : t = n := by
  cases h with
  | self _ => rfl
  | inside hk _ _ _ => exact absurd hk hn

/-- In a tidy tree, what stands in parentheses is what `unparenthesize` gives. -/
theorem Holds.unparenthesize {n t : Node} (h : n.Holds t) (hn : n.Tidy) (ht : t.isToken = false) :
    n.unparenthesize = t := by
  induction h with
  | self hk => rw [unparenthesize_eq, if_neg hk]
  | @inside n c t hk hc hd hholds ih =>
    -- a mark holds only itself, and the target is no mark
    have hno : c.isToken = false := by
      refine Bool.eq_false_iff.mpr fun htoken => ?_
      have hparen : c.kind ≠ .parenthesizedExpression := fun hck => by simp [isToken, hck] at htoken
      rw [hholds.eq_of_not_paren hparen, htoken] at ht
      cases ht
    rw [unparenthesize_eq, if_pos hk, hn.inner?_of_mem hk hc hno]
    exact ih (hn.of_mem hc) ht

theorem mem_children_of_mem_codeParts {n c : Node} (h : c ∈ n.codeParts) : c ∈ n.children := by
  unfold codeParts at h
  have hchild : ∀ {fld : Field}, c ∈ (n.child? fld).toList → c ∈ n.children :=
    fun h => mem_children_of_child? (Option.mem_toList.mp h)
  split at h
  all_goals first
    | exact h
    | cases h
    | exact hchild h
    | exact (List.mem_filter.mp h).1
    | exact mem_children_of_initializer? (Option.mem_toList.mp h)
    | exact mem_children_of_lastChild? (Option.mem_toList.mp h)
    | exact List.mem_of_head? (Option.mem_toList.mp h)
    | exact (List.mem_append.mp h).elim hchild hchild

theorem mem_children_of_mem_parts {n : Node} {role : Role} {part : Role × Node}
    (h : part ∈ n.parts role) : part.2 ∈ n.children := by
  cases role with
  | code =>
    simp only [parts] at h
    split at h
    · obtain ⟨c, hc, rfl⟩ := List.mem_map.mp h
      exact hc
    · obtain ⟨c, hc, rfl⟩ := List.mem_map.mp h
      exact mem_children_of_mem_codeParts hc
  | initializer =>
    obtain ⟨c, hc, rfl⟩ := List.mem_map.mp h
    exact mem_children_of_namedChildren hc
  | entry =>
    rcases List.mem_append.mp h with h | h
    · obtain ⟨c, hc, rfl⟩ := List.mem_map.mp h
      exact mem_children_of_child? (Option.mem_toList.mp (List.mem_filter.mp hc).1)
    · obtain ⟨c, hc, rfl⟩ := List.mem_map.mp h
      exact mem_children_of_child? (Option.mem_toList.mp hc)
  | index =>
    obtain ⟨c, hc, rfl⟩ := List.mem_map.mp h
    exact hc

/-- Except for the initializer of a new object, code evaluates code. -/
theorem mem_parts_code {n : Node} (hn : n.makesObject = false) {part : Role × Node} :
    part ∈ n.parts .code ↔ part.1 = .code ∧ part.2 ∈ n.codeParts := by
  obtain ⟨role, c⟩ := part
  simp only [parts, hn, Bool.false_eq_true, if_false, List.mem_map, Prod.mk.injEq]
  constructor
  · rintro ⟨x, hx, rfl, rfl⟩
    exact ⟨rfl, hx⟩
  · rintro ⟨rfl, hc⟩
    exact ⟨c, hc, rfl, rfl⟩

end Node

namespace Position

theorem Reaches.of_part {p q : Position} {part : Role × Node} (hpart : part ∈ p.node.parts p.role)
    (hd : part.2.isDeclared = false) (h : (p.inside part).Reaches q) : p.Reaches q :=
  .head ⟨part, hpart, hd, rfl⟩ h

theorem Reaches.refl (p : Position) : p.Reaches p := Relation.ReflTransGen.refl

/-- What is evaluated but not the position itself is evaluated by a part of it. -/
theorem Reaches.leads {p q : Position} (h : p.Reaches q) (hq : q ≠ p) :
    ∃ part ∈ p.node.parts p.role, part.2.isDeclared = false ∧ (p.inside part).Reaches q := by
  rcases Relation.ReflTransGen.cases_head h with rfl | ⟨r, ⟨part, hpart, hd, rfl⟩, hr⟩
  · exact absurd rfl hq
  · exact ⟨part, hpart, hd, hr⟩

theorem Reaches.leads_code {path : List Node} {mode : ReturnMode} {n : Node} {q : Position}
    (h : Reaches ⟨path, mode, .code, n⟩ q) (hq : q ≠ ⟨path, mode, .code, n⟩)
    (hn : n.makesObject = false) :
    ∃ c ∈ n.codeParts, c.isDeclared = false ∧
      Reaches ⟨n :: path, n.modeInside mode, .code, c⟩ q := by
  obtain ⟨⟨role, c⟩, hpart, hd, hr⟩ := h.leads hq
  obtain ⟨hrole, hc⟩ := (Node.mem_parts_code hn).mp hpart
  dsimp only at hrole hc hd
  subst hrole
  exact ⟨c, hc, hd, hr⟩

/-- Nothing is evaluated inside of a node without children. -/
theorem Reaches.eq_of_leaf {p q : Position} (h : p.Reaches q) (hp : p.node.children = []) :
    q = p := by
  by_cases hq : q = p
  · exact hq
  · obtain ⟨part, hpart, -, -⟩ := h.leads hq
    have := Node.mem_children_of_mem_parts hpart
    rw [hp] at this
    cases this

/-- Code in parentheses is reached through them. -/
theorem Reaches.unparenthesize {n : Node} (hn : n.Tidy) {path : List Node} {mode : ReturnMode}
    {q : Position} (h : Reaches ⟨path, mode, .code, n⟩ q)
    (hq : q.node.kind ≠ .parenthesizedExpression) (ht : q.node.isToken = false) :
    ∃ parens : List Node, (∀ x ∈ parens, x.kind = .parenthesizedExpression) ∧
      Reaches ⟨parens ++ path, mode, .code, n.unparenthesize⟩ q := by
  induction n using Node.below_induction generalizing path with
  | step n ih =>
    by_cases hk : n.kind = .parenthesizedExpression
    · have hself : q ≠ ⟨path, mode, .code, n⟩ := fun he => hq (by rw [he]; exact hk)
      obtain ⟨c, hc, -, hr⟩ := h.leads_code hself (by simp [Node.makesObject, hk])
      have hmem := Node.mem_children_of_mem_codeParts hc
      have htidy := hn.of_mem hmem
      -- the search does not end in a mark
      have hno : c.isToken = false := by
        refine Bool.eq_false_iff.mpr fun htoken => ?_
        rw [hr.eq_of_leaf (htidy.token_leaf htoken)] at ht
        exact Bool.eq_false_iff.mp ht htoken
      have hmode : n.modeInside mode = mode := by simp [Node.modeInside, hk]
      rw [hmode] at hr
      obtain ⟨parens, hparens, hreach⟩ := ih c (Node.below_of_mem hmem) htidy hr
      refine ⟨parens ++ [n], ?_, ?_⟩
      · intro x hx
        rcases List.mem_append.mp hx with hx | hx
        · exact hparens x hx
        · rw [List.mem_singleton.mp hx]
          exact hk
      · rw [Node.unparenthesize_eq, if_pos hk, hn.inner?_of_mem hk hmem hno]
        simpa using hreach
    · refine ⟨[], by simp, ?_⟩
      rw [Node.unparenthesize_eq, if_neg hk]
      exact h

end Position

end ReadonlyLint
