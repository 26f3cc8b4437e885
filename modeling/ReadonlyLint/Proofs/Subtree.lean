import Mathlib.Logic.Relation
import ReadonlyLint.Mutation.Visit

/-!
What is below a node. Every node that a rule of the analysis reaches from another one, by field,
by kind, by position or through parentheses, is below it, and what is below a node is less high.
-/
namespace ReadonlyLint

namespace Node

/-- Somewhere below the node. -/
def Below (c n : Node) : Prop := Relation.TransGen (fun c n => c ∈ n.children) c n

/-- The node itself, or somewhere below it. -/
def Within (c n : Node) : Prop := Relation.ReflTransGen (fun c n => c ∈ n.children) c n

/-! ## The order of the tree -/

theorem within_refl (n : Node) : n.Within n := Relation.ReflTransGen.refl

theorem below_of_mem {c n : Node} (h : c ∈ n.children) : c.Below n := Relation.TransGen.single h

theorem Below.within {c n : Node} (h : c.Below n) : c.Within n := h.to_reflTransGen

theorem within_of_mem {c n : Node} (h : c ∈ n.children) : c.Within n := (below_of_mem h).within

theorem Within.trans {a b c : Node} (h1 : a.Within b) (h2 : b.Within c) : a.Within c :=
  Relation.ReflTransGen.trans h1 h2

theorem Within.below {a b c : Node} (h1 : a.Within b) (h2 : b.Below c) : a.Below c :=
  Relation.TransGen.trans_right h1 h2

theorem Below.of_within {a b c : Node} (h1 : a.Below b) (h2 : b.Within c) : a.Below c :=
  Relation.TransGen.trans_left h1 h2

theorem height_le_heightAll {c : Node} {l : List Node} (h : c ∈ l) : c.height ≤ heightAll l := by
  induction l with
  | nil => cases h
  | cons x l ih =>
    rw [heightAll]
    rcases List.mem_cons.mp h with rfl | h
    · exact Nat.le_max_left _ _
    · exact Nat.le_trans (ih h) (Nat.le_max_right _ _)

theorem height_eq (n : Node) : n.height = heightAll n.children + 1 := by
  cases n
  rw [height]

theorem Below.height_lt {c n : Node} (h : c.Below n) : c.height < n.height := by
  have hchild : ∀ {a b : Node}, a ∈ b.children → a.height < b.height := by
    intro a b hab
    rw [height_eq b]
    exact Nat.lt_succ_of_le (height_le_heightAll hab)
  induction h with
  | single h => exact hchild h
  | tail _ h ih => exact Nat.lt_trans ih (hchild h)

theorem height_pos (n : Node) : 0 < n.height := by
  rw [height_eq]
  exact Nat.succ_pos _

/-- What holds of a node when it holds of everything below it holds of every node. -/
@[elab_as_elim]
theorem below_induction {motive : Node → Prop}
    (step : ∀ n, (∀ c, c.Below n → motive c) → motive n) (n : Node) : motive n := by
  -- induction on a bound of the height, since what is below may be less high by more than one
  have hall : ∀ h, ∀ n : Node, n.height ≤ h → motive n := by
    intro h
    induction h with
    | zero => exact fun n hn => absurd (height_pos n) (by omega)
    | succ h ih =>
      intro n hn
      refine step n fun c hc => ih c ?_
      have := hc.height_lt
      omega
  exact hall n.height n (Nat.le_refl _)

/-! ## The nodes that the rules reach -/

theorem below_of_child? {n c : Node} {f : Field} (h : n.child? f = some c) : c.Below n :=
  below_of_mem (mem_children_of_child? h)

theorem below_of_lastChild? {n c : Node} (h : n.lastChild? = some c) : c.Below n :=
  below_of_mem (mem_children_of_lastChild? h)

theorem within_unparenthesize (n : Node) : n.unparenthesize.Within n := by
  fun_induction unparenthesize n with
  | case1 n hk c hc ih => exact ih.trans (within_of_mem (mem_children_of_inner? hc))
  | case2 n => exact within_refl n
  | case3 n => exact within_refl n

theorem below_of_mem_callArguments {n a : Node} (h : a ∈ n.callArguments) : a.Below n := by
  unfold callArguments at h
  split at h
  · rename_i list hl
    obtain ⟨c, hc, ha⟩ := List.mem_filterMap.mp h
    have hlist := (within_of_mem (mem_children_of_namedOfKind hc)).below (below_of_child? hl)
    exact (below_of_lastChild? ha).of_within hlist.within
  · cases h

theorem mem_children_of_initializer? {n c : Node} (h : n.initializer? = some c) :
    c ∈ n.children :=
  (List.dropWhile_sublist _).mem (List.mem_of_getElem? h)

theorem mem_of_mem_anonymousParts {l : List Node} {c : Node} (h : c ∈ anonymousParts l) :
    c ∈ l := by
  induction l with
  | nil => cases h
  | cons x l ih =>
    rw [anonymousParts] at h
    split at h
    · rcases List.mem_cons.mp h with rfl | h
      · exact List.mem_cons_self
      · exact List.mem_cons_of_mem _ (ih h)
    · exact List.mem_cons_of_mem _ (ih h)

/-! ## Recursive views, unrolled once -/

theorem unparenthesize_eq (n : Node) :
    n.unparenthesize =
      if n.kind = .parenthesizedExpression then (n.inner?.map unparenthesize).getD n else n := by
  rw [unparenthesize]
  split
  · split
    · rename_i c hc
      simp [hc]
    · rename_i hc
      simp [hc]
  · rfl

theorem unparenthesize_of_ne {n : Node} (h : n.kind ≠ .parenthesizedExpression) :
    n.unparenthesize = n := by
  rw [unparenthesize_eq, if_neg h]

theorem simpleName?_eq (n : Node) :
    n.simpleName? =
      match n.kind with
      | .identifier => some n.text
      | .genericName => (n.namedChildren.head?.filter (·.kind = .identifier)).map (·.text)
      | .qualifiedName | .aliasQualifiedName => (n.child? .name).bind simpleName?
      | _ => none := by
  fun_cases simpleName? n <;> simp [*]

theorem targets_eq (outer : List Node) (n : Node) :
    n.targets outer =
      if n.unparenthesize.kind = .tupleExpression then
        (n.unparenthesize.namedOfKind .argument).flatMap fun a =>
          a.lastChild?.toList.flatMap fun e => e.targets (a :: n.unparenthesize :: outer)
      else [(outer, n.unparenthesize)] := by
  rw [targets]
  split
  · -- the recursion carries the membership of the argument along, which its value does not use
    rw [List.flatMap_subtype, List.unattach_attach]
    intro a _
    dsimp only
    split
    · rename_i e he
      simp [he]
    · rename_i he
      simp [he]
  · rfl

/-- The part of an object initializer that one named child stands for. -/
def entryParts (outer : List Node) (n c : Node) : List (List Node × Node) :=
  if c.kind ≠ .assignmentExpression then [(n :: outer, c)]
  else
    ((c.child? .left).toList.flatMap fun left =>
      if left.kind = .elementBindingExpression then
        (left.children.filter fun i => !i.field.any (·.isDeclarative)).map
          (left :: c :: n :: outer, ·)
      else []) ++
    (c.child? .right).toList.flatMap fun right =>
      if right.kind = .initializerExpression then right.initializerParts (c :: n :: outer)
      else [(c :: n :: outer, right)]

theorem initializerParts_eq (outer : List Node) (n : Node) :
    n.initializerParts outer = n.namedChildren.flatMap (n.entryParts outer) := by
  rw [initializerParts, List.flatMap_subtype, List.unattach_attach]
  intro c _
  dsimp only
  unfold entryParts
  split
  · rfl
  · congr 1
    · split
      · rename_i left hl
        simp [hl]
      · rename_i hl
        simp [hl]
    · split
      · rename_i right hr
        simp [hr]
      · rename_i hr
        simp [hr]

theorem within_of_mem_targets {outer : List Node} {n : Node} {p : List Node × Node}
    (h : p ∈ n.targets outer) : p.2.Within n := by
  induction n using below_induction generalizing outer with
  | step n ih =>
    rw [targets_eq] at h
    split at h
    · obtain ⟨a, ha, hp⟩ := List.mem_flatMap.mp h
      obtain ⟨e, he, hp⟩ := List.mem_flatMap.mp hp
      have hbelow : e.Below n :=
        (below_of_lastChild? (Option.mem_toList.mp he)).of_within
          ((within_of_mem (mem_children_of_namedOfKind ha)).trans (within_unparenthesize n))
      exact (ih e hbelow hp).trans hbelow.within
    · rw [List.mem_singleton] at h
      subst h
      exact within_unparenthesize n

theorem below_of_mem_initializerParts {outer : List Node} {n : Node} {p : List Node × Node}
    (h : p ∈ n.initializerParts outer) : p.2.Below n := by
  induction n using below_induction generalizing outer with
  | step n ih =>
    rw [initializerParts_eq] at h
    obtain ⟨c, hc, hp⟩ := List.mem_flatMap.mp h
    have hcn : c.Below n := below_of_mem (mem_children_of_namedChildren hc)
    unfold entryParts at hp
    split at hp
    · rw [List.mem_singleton] at hp
      subst hp
      exact hcn
    · rcases List.mem_append.mp hp with hp | hp
      · obtain ⟨left, hl, hp⟩ := List.mem_flatMap.mp hp
        have hln := (below_of_child? (Option.mem_toList.mp hl)).of_within hcn.within
        split at hp
        · obtain ⟨i, hi, rfl⟩ := List.mem_map.mp hp
          exact (below_of_mem (List.mem_filter.mp hi).1).of_within hln.within
        · cases hp
      · obtain ⟨right, hr, hp⟩ := List.mem_flatMap.mp hp
        have hrn := (below_of_child? (Option.mem_toList.mp hr)).of_within hcn.within
        split at hp
        · exact (ih right hrn hp).of_within hrn.within
        · rw [List.mem_singleton] at hp
          subst hp
          exact hrn

/-! ## A property of a whole tree -/

theorem preorder_eq (n : Node) : n.preorder = n :: preorderAll n.children := by
  cases n
  rw [preorder]

theorem mem_preorderAll {c : Node} {l : List Node} :
    c ∈ preorderAll l ↔ ∃ x ∈ l, c ∈ x.preorder := by
  induction l with
  | nil => simp [preorderAll]
  | cons x l ih => simp [preorderAll, ih]

theorem mem_preorder {c n : Node} : c ∈ n.preorder ↔ c.Within n := by
  induction n using below_induction with
  | step n ih =>
    rw [preorder_eq, List.mem_cons, mem_preorderAll]
    constructor
    · rintro (rfl | ⟨x, hx, hc⟩)
      · exact within_refl c
      · exact ((ih x (below_of_mem hx)).mp hc).trans (within_of_mem hx)
    · intro h
      rcases Relation.ReflTransGen.cases_tail h with rfl | ⟨x, hc, hx⟩
      · exact Or.inl rfl
      · exact Or.inr ⟨x, hx, (ih x (below_of_mem hx)).mpr hc⟩

theorem self_mem_preorder (n : Node) : n ∈ n.preorder := mem_preorder.mpr (within_refl n)

theorem Within.mem_preorder {c n x : Node} (h : c.Within n) (hx : x ∈ c.preorder) :
    x ∈ n.preorder :=
  Node.mem_preorder.mpr ((Node.mem_preorder.mp hx).trans h)

/-! ## Walks through named nodes -/

theorem reach_eq (enter : Node → Bool) (n : Node) :
    n.reach enter = if enter n then n :: n.namedChildren.flatMap (reach enter) else [] := by
  have hall : ∀ l : List Node,
      reachAll enter l = (l.filter (·.named)).flatMap (reach enter) := by
    intro l
    induction l with
    | nil => rw [reachAll, List.filter_nil, List.flatMap_nil]
    | cons c l ih =>
      rw [reachAll, ih]
      by_cases hc : c.named <;> simp [hc]
  cases n
  rw [reach, hall]
  rfl

theorem within_of_mem_reach {enter : Node → Bool} {n c : Node} (h : c ∈ n.reach enter) :
    c.Within n := by
  induction n using below_induction with
  | step n ih =>
    rw [reach_eq] at h
    split at h
    · rcases List.mem_cons.mp h with rfl | h
      · exact within_refl c
      · obtain ⟨x, hx, hc⟩ := List.mem_flatMap.mp h
        have hmem := mem_children_of_namedChildren hx
        exact (ih x (below_of_mem hmem) hc).trans (within_of_mem hmem)
    · cases h

/-! ## Trees for examples -/

/-- A keyword or a mark on the first line of a source. -/
def word (kind : Kind) (text : String) (start : Nat) (field : Option Field := none) : Node :=
  { kind, field, named := false, missing := false, hasError := false, text, children := []
    span := { start, stop := start + text.utf8ByteSize, line := 1, column := start + 1 } }

/-- A named node on the first line of a source. -/
def tree (kind : Kind) (text : String) (start : Nat) (children : List Node := [])
    (field : Option Field := none) : Node :=
  { word kind text start field with named := true, children }

/-- The expression `this.name`. -/
def thisAccess (name : String) (start : Nat) : Node :=
  tree .memberAccessExpression ("this." ++ name) start
    [word .thisToken "this" start (some .expression), word (.other ".") "." (start + 4),
     tree .identifier name (start + 5) [] (some .name)]

/-- The expression `this.name++`. -/
def thisIncrement (name : String) (start : Nat) : Node :=
  let operand := thisAccess name start
  tree .postfixUnaryExpression (operand.text ++ "++") start
    [operand, word .increment "++" operand.span.stop]

/-- The file `struct S { int f; void M() … }` with the given body of `M`, which starts at the
offset 27. -/
def structWithBody (body : Node) : Node :=
  let field := tree .fieldDeclaration "int f;" 11
    [tree .variableDeclaration "int f" 11
      [tree .predefinedType "int" 11 [] (some .type),
       tree .variableDeclarator "f" 15 [tree .identifier "f" 15 [] (some .name)]],
     word (.other ";") ";" 16]
  let method := tree .methodDeclaration ("void M() " ++ body.text) 18
    [tree .predefinedType "void" 18 [] (some .returns), tree .identifier "M" 23 [] (some .name),
     tree .parameterList "()" 24 [word .openParen "(" 24, word .closeParen ")" 25]
       (some .parameters),
     { body with field := some .body }]
  let members := tree (.other "declaration_list") ("\x7b int f; " ++ method.text ++ " \x7d") 9
    [word .openBrace "\x7b" 9, field, method, word .closeBrace "\x7d" (body.span.stop + 1)]
    (some .body)
  let declaration := tree .structDeclaration ("struct S " ++ members.text) 0
    [word .structToken "struct" 0, tree .identifier "S" 7 [] (some .name), members]
  tree (.other "compilation_unit") declaration.text 0 [declaration]

/-- The node with a syntax error in it. -/
def broken (n : Node) : Node := { n with hasError := true }

/-- The parameter list `()`. -/
def noParameters (start : Nat) : Node :=
  tree .parameterList "()" start [word .openParen "(" start, word .closeParen ")" (start + 1)]
    (some .parameters)

/-- The field `int name;` with a name of one letter. -/
def intField (name : String) (start : Nat) : Node :=
  tree .fieldDeclaration ("int " ++ name ++ ";") start
    [tree .variableDeclaration ("int " ++ name) start
      [tree .predefinedType "int" start [] (some .type),
       tree .variableDeclarator name (start + 4)
        [tree .identifier name (start + 4) [] (some .name)]],
     word (.other ";") ";" (start + 5)]

/-- The method `void name() …` with a name of one letter and the given body. -/
def voidMethod (name : String) (start : Nat) (body : Node) : Node :=
  { tree .methodDeclaration ("void " ++ name ++ "() " ++ body.text) start
      [tree .predefinedType "void" start [] (some .returns),
       tree .identifier name (start + 5) [] (some .name), noParameters (start + 6),
       { body with field := some .body }] with
    hasError := body.hasError }

/-- The block `{ }`. -/
def emptyBlock (start : Nat) : Node :=
  tree .block "\x7b \x7d" start
    [word .openBrace "\x7b" start, word .closeBrace "\x7d" (start + 2)]

/-- The block `{ this.f++; }`. -/
def incrementBlock (start : Nat) : Node :=
  tree .block "\x7b this.f++; \x7d" start
    [word .openBrace "\x7b" start,
     tree (.other "expression_statement") "this.f++;" (start + 2)
      [thisIncrement "f" (start + 2), word (.other ";") ";" (start + 10)],
     word .closeBrace "\x7d" (start + 12)]

/-- The accessor `keyword …` with the given body. -/
def accessor (kind : Kind) (keyword : String) (start : Nat) (body : Node) : Node :=
  tree .accessorDeclaration (keyword ++ " " ++ body.text) start
    [word kind keyword start (some .name), { body with field := some .body }]

/-- The property `int name { … }` with a name of one letter and the given accessors, of which the
first starts eight bytes after the property. -/
def intProperty (name : String) (start : Nat) (accessors : List Node) : Node :=
  let text := "\x7b " ++ " ".intercalate (accessors.map (·.text)) ++ " \x7d"
  tree .propertyDeclaration ("int " ++ name ++ " " ++ text) start
    [tree .predefinedType "int" start [] (some .type),
     tree .identifier name (start + 4) [] (some .name),
     tree (.other "accessor_list") text (start + 6)
      (word .openBrace "\x7b" (start + 6) :: accessors ++
        [word .closeBrace "\x7d" (start + 5 + text.utf8ByteSize)]) (some .accessors)]

/-- The event `event A E { add { } remove { } }`. -/
def customEvent (start : Nat) : Node :=
  tree .eventDeclaration "event A E \x7b add \x7b \x7d remove \x7b \x7d \x7d" start
    [word (.other "event") "event" start, tree .identifier "A" (start + 6) [] (some .type),
     tree .identifier "E" (start + 8) [] (some .name),
     tree (.other "accessor_list") "\x7b add \x7b \x7d remove \x7b \x7d \x7d" (start + 10)
      [word .openBrace "\x7b" (start + 10),
       accessor .addToken "add" (start + 12) (emptyBlock (start + 16)),
       accessor .removeToken "remove" (start + 20) (emptyBlock (start + 27)),
       word .closeBrace "\x7d" (start + 31)] (some .accessors)]

/-- The file `struct S { … }` with the given members, of which the first starts at the offset 11. -/
def structOf (members : List Node) : Node :=
  let hasError := members.any (·.hasError)
  let text := "\x7b " ++ " ".intercalate (members.map (·.text)) ++ " \x7d"
  let body := { tree (.other "declaration_list") text 9
    (word .openBrace "\x7b" 9 :: members ++
      [word .closeBrace "\x7d" (8 + text.utf8ByteSize)]) (some .body) with hasError }
  let declaration := { tree .structDeclaration ("struct S " ++ text) 0
    [word .structToken "struct" 0, tree .identifier "S" 7 [] (some .name), body] with hasError }
  { tree (.other "compilation_unit") ("struct S " ++ text) 0 [declaration] with hasError }

end Node

end ReadonlyLint
