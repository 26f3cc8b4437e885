import ReadonlyLint.Proofs.VisitMap
import ReadonlyLint.Struct.Reader

/-!
Trees without their comments. A comment is a child like any other, so a rule that picks a child by
its position can pick a comment. `Node.hasIdleComments` says that no comment stands where a position
is counted; then no rule for code tells the tree from the one without comments.
-/
namespace ReadonlyLint

namespace Node

def isComment (n : Node) : Bool := n.kind = .comment

theorem kind_of_isComment {n : Node} (h : n.isComment) : n.kind = .comment := by
  simpa [isComment] using h

mutual

/-- The tree without the comments below it. Everything else stays as it is. -/
def stripComments : Node → Node
  | ⟨kind, field, named, missing, hasError, span, text, children⟩ =>
    ⟨kind, field, named, missing, hasError, span, text, stripCommentsAll children⟩

def stripCommentsAll : List Node → List Node
  | [] => []
  | n :: rest =>
    if n.isComment then stripCommentsAll rest else n.stripComments :: stripCommentsAll rest

end

theorem children_stripComments (n : Node) :
    n.stripComments.children = (n.children.filter (!·.isComment)).map stripComments := by
  have hall : ∀ l : List Node,
      stripCommentsAll l = (l.filter (!·.isComment)).map stripComments := by
    intro l
    induction l with
    | nil => rw [stripCommentsAll, List.filter_nil, List.map_nil]
    | cons c l ih =>
      rw [stripCommentsAll, ih]
      by_cases hc : c.isComment <;> simp [hc]
  cases n
  rw [stripComments]
  exact hall _

theorem sameLabel_stripComments (n : Node) : n.stripComments.SameLabel n := by
  cases n
  rw [stripComments]
  exact ⟨rfl, rfl, rfl, rfl, rfl⟩

@[simp] theorem kind_stripComments (n : Node) : n.stripComments.kind = n.kind :=
  n.sameLabel_stripComments.kind

@[simp] theorem named_stripComments (n : Node) : n.stripComments.named = n.named :=
  n.sameLabel_stripComments.named

@[simp] theorem text_stripComments (n : Node) : n.stripComments.text = n.text :=
  n.sameLabel_stripComments.text

@[simp] theorem span_stripComments (n : Node) : n.stripComments.span = n.span :=
  n.sameLabel_stripComments.span

@[simp] theorem missing_stripComments (n : Node) : n.stripComments.missing = n.missing := by
  cases n
  rw [stripComments]

@[simp] theorem hasError_stripComments (n : Node) : n.stripComments.hasError = n.hasError := by
  cases n
  rw [stripComments]

/-! ## Idle comments -/

/-- A comment as a parser makes it: a named leaf that fills no field. -/
def isPlain (c : Node) : Bool := c.named && !c.missing && c.field.isNone && c.children.isEmpty

/-- The nodes of a list that stand directly before `=`. -/
def beforeAssign : List Node → List Node
  | [] => []
  | c :: rest =>
    if rest.head?.any (·.kind = .assign) then c :: beforeAssign rest else beforeAssign rest

/-- What the rules for code pick by its position. -/
def countedInCode (n : Node) : List Node :=
  match n.kind with
  | .parenthesizedExpression | .genericName => n.namedChildren.head?.toList
  | .prefixUnaryExpression | .argument | .refExpression | .withInitializer => n.lastChild?.toList
  | .postfixUnaryExpression => n.children.head?.toList
  | .variableDeclarator => n.initializer?.toList
  | .tupleExpression => n.namedChildren.filterMap (·.lastChild?)
  | .anonymousObjectCreationExpression => beforeAssign n.children
  | _ => []

/-- What stands first in a member, attributes and modifiers aside. -/
def leading? (n : Node) : Option Node :=
  n.children.find? fun c => c.kind ≠ .attributeList && c.kind ≠ .modifier

/-- What the reader of declarations picks by its position. A member that lacks its type is marked
before what stands first in it. -/
def countedInHeader (n : Node) : List Node :=
  match n.kind with
  | .genericName | .explicitInterfaceSpecifier => n.namedChildren.head?.toList
  | .methodDeclaration => if (n.child? .returns).isSome then [] else n.leading?.toList
  | .operatorDeclaration | .conversionOperatorDeclaration | .propertyDeclaration
  | .indexerDeclaration => if (n.child? .type).isSome then [] else n.leading?.toList
  | _ => []

/-- The body that a node gives to the member it declares. -/
def memberBody? (n : Node) : Option Node :=
  match n.kind with
  | .methodDeclaration | .operatorDeclaration | .conversionOperatorDeclaration
  | .accessorDeclaration => n.child? .body
  | .propertyDeclaration | .indexerDeclaration =>
    (n.child? .value).filter (·.kind = .arrowExpressionClause)
  | _ => none

/-- Every comment of the tree is plain, and none stands where a position is counted: in the
declarations, or in the code of a member. -/
def hasIdleComments (root : Node) : Bool :=
  root.preorder.all fun n =>
    n.children.all (fun c => !c.isComment || c.isPlain) &&
    n.countedInHeader.all (!·.isComment) &&
    n.memberBody?.all fun body => body.preorder.all (·.countedInCode.all (!·.isComment))

/-- Every comment below the node is plain. -/
def PlainComments (n : Node) : Prop :=
  ∀ c : Node, c.Within n → ∀ x ∈ c.children, x.isComment → x.isPlain

/-- No comment below the node stands where the rules for code count. -/
def IdleCode (n : Node) : Prop :=
  ∀ c : Node, c.Within n → ∀ x ∈ c.countedInCode, x.isComment = false

/-- A part of a tree with idle comments. -/
structure Idle (n : Node) : Prop where
  plain : n.PlainComments
  header : ∀ c : Node, c.Within n → ∀ x ∈ c.countedInHeader, x.isComment = false
  code : ∀ c : Node, c.Within n → ∀ body ∈ c.memberBody?, body.IdleCode

theorem idle_of_hasIdleComments {root : Node} (h : root.hasIdleComments) : root.Idle := by
  have hnode : ∀ n : Node, n.Within root →
      (∀ c ∈ n.children, (!c.isComment || c.isPlain) = true) ∧
      (∀ x ∈ n.countedInHeader, (!x.isComment) = true) ∧
      (n.memberBody?.all fun body => body.preorder.all (·.countedInCode.all (!·.isComment))) := by
    intro n hn
    have hall := List.all_eq_true.mp h n (mem_preorder.mpr hn)
    simpa only [Bool.and_eq_true, List.all_eq_true, and_assoc] using hall
  refine ⟨fun n hn c hc hcomment => ?_, fun n hn x hx => ?_, fun n hn body hbody c hc x hx => ?_⟩
  · simpa [hcomment] using (hnode n hn).1 c hc
  · simpa using (hnode n hn).2.1 x hx
  · have hcode := (hnode n hn).2.2
    rw [Option.mem_def.mp hbody, Option.all_some, List.all_eq_true] at hcode
    simpa using List.all_eq_true.mp (hcode c (mem_preorder.mpr hc)) x hx

theorem Idle.of_within {n c : Node} (h : n.Idle) (hc : c.Within n) : c.Idle where
  plain := fun x hx => h.plain x (hx.trans hc)
  header := fun x hx => h.header x (hx.trans hc)
  code := fun x hx => h.code x (hx.trans hc)

theorem Idle.of_mem {n c : Node} (h : n.Idle) (hc : c ∈ n.children) : c.Idle :=
  h.of_within (within_of_mem hc)

theorem Idle.of_child? {n c : Node} {fld : Field} (h : n.Idle) (hc : n.child? fld = some c) :
    c.Idle :=
  h.of_mem (mem_children_of_child? hc)

theorem PlainComments.of_within {n c : Node} (h : n.PlainComments) (hc : c.Within n) :
    c.PlainComments :=
  fun x hx => h x (hx.trans hc)

theorem isPlain_iff {c : Node} :
    c.isPlain ↔ c.named ∧ c.missing = false ∧ c.field = none ∧ c.children = [] := by
  simp [isPlain, and_assoc]

theorem isLoose_eq_isComment {c : Node} (h : c.isComment → c.isPlain) :
    c.isLoose = c.isComment := by
  by_cases hc : c.isComment
  · obtain ⟨-, -, hfield, -⟩ := isPlain_iff.mp (h hc)
    simp [isLoose, hc, kind_of_isComment hc, hfield]
  · have hkind : c.kind ≠ .comment := by simpa [isComment] using hc
    simp [isLoose, isComment, hkind]

/-! ## Children of the stripped tree -/

section Stripped

variable {n : Node}

/-- The children that a test on labels picks, when it picks no comment. -/
theorem filter_stripComments {p : Node → Bool} (hp : ∀ c, p c.stripComments = p c)
    (hcomment : ∀ c ∈ n.children, c.isComment → p c = false) :
    n.stripComments.children.filter p = (n.children.filter p).map stripComments := by
  rw [children_stripComments, List.filter_map, List.filter_filter]
  congr 1
  refine List.filter_congr fun c hc => ?_
  rw [Function.comp, hp]
  by_cases hcom : c.isComment
  · simp [hcomment c hc hcom]
  · simp [hcom]

theorem find?_stripComments {p : Node → Bool} (hp : ∀ c, p c.stripComments = p c)
    (hcomment : ∀ c ∈ n.children, c.isComment → p c = false) :
    n.stripComments.children.find? p = (n.children.find? p).map stripComments := by
  rw [← List.head?_filter, ← List.head?_filter, filter_stripComments hp hcomment, List.head?_map]

theorem filterKind_stripComments (n : Node) {k : Kind} (hk : k ≠ .comment) :
    n.stripComments.children.filter (·.kind = k) =
      (n.children.filter (·.kind = k)).map stripComments := by
  refine filter_stripComments (fun c => by rw [kind_stripComments]) fun c _ hc => ?_
  simpa [kind_of_isComment hc] using Ne.symm hk

theorem childOfKind?_stripComments (n : Node) {k : Kind} (hk : k ≠ .comment) :
    n.stripComments.childOfKind? k = (n.childOfKind? k).map stripComments := by
  unfold childOfKind?
  rw [← List.head?_filter, ← List.head?_filter, filterKind_stripComments n hk, List.head?_map]

theorem namedChildren_stripComments (n : Node) :
    n.stripComments.namedChildren = (n.namedChildren.filter (!·.isComment)).map stripComments := by
  unfold namedChildren
  rw [children_stripComments, List.filter_map, List.filter_filter, List.filter_filter]
  congr 1
  refine List.filter_congr fun c _ => ?_
  rw [Function.comp, named_stripComments, Bool.and_comm]

theorem keeps_stripComments (h : ∀ c ∈ n.children, c.isComment → c.isPlain) :
    Keeps stripComments n where
  label := n.sameLabel_stripComments
  solid := by
    refine ⟨stripComments, ?_, fun c _ => Or.inl rfl⟩
    rw [solid, solid, filter_stripComments]
    · exact fun c => congrArg (!·) (isLoose_map sameLabel_stripComments c)
    · intro c hc hcom
      rw [isLoose_eq_isComment (h c hc), hcom, Bool.not_true]

theorem follows_stripComments (h : n.PlainComments) : Follows stripComments n :=
  fun c hc => keeps_stripComments (h c hc)

end Stripped

/-! ## Counted positions without comments -/

section Positions

variable {l : List Node}

theorem head?_filter_idle (h : ∀ x ∈ l.head?, x.isComment = false) :
    (l.filter (!·.isComment)).head? = l.head? := by
  cases l with
  | nil => rfl
  | cons c l => simp [h c rfl]

theorem getLast?_filter_idle (h : ∀ x ∈ l.getLast?, x.isComment = false) :
    (l.filter (!·.isComment)).getLast? = l.getLast? := by
  rw [List.getLast?_eq_head?_reverse] at h
  rw [List.getLast?_eq_head?_reverse, List.getLast?_eq_head?_reverse, ← List.filter_reverse]
  exact head?_filter_idle h

theorem dropWhile_filter_idle
    (h : ∀ x ∈ (l.dropWhile (·.kind ≠ .assign))[1]?, x.isComment = false) :
    ((l.filter (!·.isComment)).dropWhile (·.kind ≠ .assign))[1]? =
      (l.dropWhile (·.kind ≠ .assign))[1]? := by
  induction l with
  | nil => rfl
  | cons c l ih =>
    by_cases hassign : c.kind = .assign
    · -- from here on only the child after `=` counts, and it is no comment
      have hc : c.isComment = false := by simp [isComment, hassign]
      simp only [List.dropWhile_cons, hassign, hc, ne_eq, not_true_eq_false, decide_false,
        Bool.false_eq_true, if_false, Bool.not_false, List.filter_cons, if_true,
        List.getElem?_cons_succ, ← List.head?_eq_getElem?] at h ⊢
      exact head?_filter_idle h
    · have hskip : (c :: l).dropWhile (·.kind ≠ .assign) = l.dropWhile (·.kind ≠ .assign) := by
        simp [hassign]
      rw [hskip] at h ⊢
      by_cases hc : c.isComment
      · simpa [hc] using ih h
      · simpa [hc, hassign] using ih h

theorem mem_beforeAssign_cons (c : Node) {x : Node} (hx : x ∈ beforeAssign l) :
    x ∈ beforeAssign (c :: l) := by
  rw [beforeAssign]
  split
  · exact List.mem_cons_of_mem _ hx
  · exact hx

/-- Without a comment directly before it, `=` follows the same child. -/
theorem head?_assign_filter_idle (h : ∀ x ∈ beforeAssign l, x.isComment = false) :
    (l.filter (!·.isComment)).head?.any (·.kind = .assign) = l.head?.any (·.kind = .assign) := by
  induction l with
  | nil => rfl
  | cons c l ih =>
    by_cases hc : c.isComment
    · -- what follows a comment is not `=`, or the comment would stand directly before it
      have hnext : l.head?.any (·.kind = .assign) = false := by
        refine Bool.eq_false_iff.mpr fun hnext => ?_
        have hmem : c ∈ beforeAssign (c :: l) := by
          rw [beforeAssign, if_pos hnext]
          exact List.mem_cons_self
        rw [h c hmem] at hc
        cases hc
      have hdrop : (c :: l).filter (!·.isComment) = l.filter (!·.isComment) := by simp [hc]
      rw [hdrop, ih fun x hx => h x (mem_beforeAssign_cons c hx), hnext]
      simp [kind_of_isComment hc]
    · simp [hc]

theorem anonymousParts_filter_idle (h : ∀ x ∈ beforeAssign l, x.isComment = false) :
    anonymousParts (l.filter (!·.isComment)) = (anonymousParts l).filter (!·.isComment) := by
  induction l with
  | nil => rfl
  | cons c l ih =>
    have hrest : ∀ x ∈ beforeAssign l, x.isComment = false :=
      fun x hx => h x (mem_beforeAssign_cons c hx)
    by_cases hc : c.isComment
    · have hpart : (anonymousParts (c :: l)).filter (!·.isComment) =
          (anonymousParts l).filter (!·.isComment) := by
        rw [anonymousParts]
        split <;> simp [hc]
      rw [hpart, ← ih hrest]
      simp [hc]
    · have hkeep : (c :: l).filter (!·.isComment) = c :: l.filter (!·.isComment) := by simp [hc]
      rw [hkeep, anonymousParts, anonymousParts, head?_assign_filter_idle hrest, ih hrest]
      split <;> simp [hc]

end Positions

section Code

variable {n : Node}

theorem namedChildren_head?_stripComments
    (h : ∀ x ∈ n.namedChildren.head?, x.isComment = false) :
    n.stripComments.namedChildren.head? = n.namedChildren.head?.map stripComments := by
  rw [namedChildren_stripComments, List.head?_map, head?_filter_idle h]

theorem lastChild?_stripComments (h : ∀ x ∈ n.lastChild?, x.isComment = false) :
    n.stripComments.lastChild? = n.lastChild?.map stripComments := by
  rw [lastChild?, children_stripComments, List.getLast?_map, getLast?_filter_idle h]
  rfl

theorem inner?_stripComments (hplain : ∀ c ∈ n.children, c.isComment → c.isPlain)
    (h : ∀ x ∈ n.namedChildren.head?, x.isComment = false) :
    n.stripComments.inner? = n.inner?.map stripComments := by
  unfold inner?
  rw [namedChildren_head?_stripComments h]
  rcases hnamed : n.namedChildren.head? with _ | c
  · -- a comment has a name, so there is none
    have hnone : n.children.filter (!·.isComment) = n.children := by
      refine List.filter_eq_self.mpr fun c hc => ?_
      have hunnamed : c.named = false := by
        have := List.filter_eq_nil_iff.mp (List.head?_eq_none_iff.mp hnamed) c hc
        simpa using this
      refine (Bool.not_eq_true' _).mpr (Bool.eq_false_iff.mpr fun hcom => ?_)
      obtain ⟨hname, -⟩ := isPlain_iff.mp (hplain c hc hcom)
      rw [hname] at hunnamed
      cases hunnamed
    simp only [Option.map_none]
    rw [children_stripComments, hnone, List.getElem?_map]
    rcases n.children[1]? with _ | c
    · rfl
    · by_cases hc : c.kind = .closeParen <;> simp [Option.filter_some, hc]
  · rfl

theorem alike_stripComments (hplain : ∀ c ∈ n.children, c.isComment → c.isPlain)
    (h : ∀ x ∈ n.countedInCode, x.isComment = false) : Alike stripComments n where
  toKeeps := keeps_stripComments hplain
  inner := fun hk => inner?_stripComments hplain fun x hx =>
    h x (by simpa [countedInCode, hk] using hx)
  last := fun hk => lastChild?_stripComments fun x hx =>
    h x (by rcases hk with hk | hk | hk | hk <;> simpa [countedInCode, hk] using hx)
  first := fun hk => by
    rw [children_stripComments, List.head?_map, head?_filter_idle]
    exact fun x hx => h x (by simpa [countedInCode, hk] using hx)
  value := fun hk => by
    have hvalue : ∀ x ∈ n.initializer?, x.isComment = false :=
      fun x hx => h x (by simpa [countedInCode, hk] using hx)
    have hkind : ((fun c : Node => decide (c.kind ≠ .assign)) ∘ stripComments) =
        fun c => decide (c.kind ≠ .assign) :=
      funext fun c => by simp only [Function.comp, kind_stripComments]
    rw [initializer?, children_stripComments, List.dropWhile_map, List.getElem?_map, hkind,
      dropWhile_filter_idle hvalue]
    rfl
  named := fun hk => namedChildren_head?_stripComments fun x hx =>
    h x (by simpa [countedInCode, hk] using hx)
  entries := fun hk => by
    have hnames : ∀ x ∈ beforeAssign n.children, x.isComment = false :=
      fun x hx => h x (by simpa [countedInCode, hk] using hx)
    rw [children_stripComments, anonymousParts_map sameLabel_stripComments,
      anonymousParts_filter_idle hnames, List.filter_map, List.filter_filter]
    congr 1
    -- of plain comments, the loose ones are all
    refine List.filter_congr fun c hc => ?_
    rw [Function.comp, isLoose_map sameLabel_stripComments,
      isLoose_eq_isComment (hplain c (mem_of_mem_anonymousParts hc)), Bool.and_self]

theorem carries_stripComments (hplain : n.PlainComments) (h : n.IdleCode) :
    Carries stripComments n :=
  fun c hc => alike_stripComments (hplain c hc) (h c hc)

end Code

/-! ## Walks over the tree -/

theorem flatMap_filter_of_nil {α β : Type} {l : List α} {p : α → Bool} {g : α → List β}
    (h : ∀ a ∈ l, p a = false → g a = []) : (l.filter p).flatMap g = l.flatMap g := by
  induction l with
  | nil => rfl
  | cons a l ih =>
    obtain ⟨ha, hl⟩ := List.forall_mem_cons.mp h
    by_cases hp : p a
    · simp [hp, ih hl]
    · simp [hp, ih hl, ha (by simpa using hp)]

/-- A walk that enters by the label reaches the images of what it reaches, comments aside. -/
theorem reach_stripComments {enter : Node → Bool} (henter : ∀ c, enter c.stripComments = enter c)
    {n : Node} (h : n.PlainComments) :
    (n.stripComments.reach enter).filter (!·.isComment) =
      ((n.reach enter).filter (!·.isComment)).map stripComments := by
  induction n using below_induction with
  | step n ih =>
    -- a comment is a leaf, so nothing is reached through it
    have hleaf : ∀ c ∈ n.namedChildren, (!c.isComment) = false →
        ((c.reach enter).filter (!·.isComment)).map stripComments = [] := by
      intro c hc hcom
      have hcom : c.isComment := by simpa using hcom
      have hmem := mem_children_of_namedChildren hc
      obtain ⟨-, -, -, hnone⟩ := isPlain_iff.mp (h n (within_refl n) c hmem hcom)
      rw [reach_eq, namedChildren, hnone]
      split <;> simp [hcom]
    have hbelow : (n.stripComments.namedChildren.flatMap (reach enter)).filter (!·.isComment) =
        ((n.namedChildren.flatMap (reach enter)).filter (!·.isComment)).map stripComments := by
      rw [namedChildren_stripComments, List.filter_flatMap, List.filter_flatMap, List.map_flatMap,
        List.flatMap_map, ← flatMap_filter_of_nil hleaf]
      refine List.flatMap_congr fun c hc => ?_
      have hmem := mem_children_of_namedChildren (List.mem_filter.mp hc).1
      exact ih c (below_of_mem hmem) (h.of_within (within_of_mem hmem))
    have hself : n.stripComments.isComment = n.isComment := by simp [isComment]
    rw [reach_eq, reach_eq, henter]
    split
    · rw [List.filter_cons, List.filter_cons, hself, hbelow]
      split <;> rfl
    · rfl

/-! ## The storage behind a property -/

theorem namesBackingField_eq (t : Node) :
    t.namesBackingField =
      match t.unparenthesize.kind with
      | .identifier => decide (t.unparenthesize.text = backingFieldName)
      | .tupleExpression =>
        t.unparenthesize.namedChildren.any fun c => c.lastChild?.any namesBackingField
      | _ => false := by
  fun_cases namesBackingField t with
  | case1 hk => simp only [hk]
  | case2 hk =>
    simp only [hk]
    rw [List.any_subtype, List.unattach_attach]
    intro c _
    dsimp only
    split <;> simp_all
  | case3 => simp [*]

theorem namesBackingField_stripComments {t : Node} (hplain : t.PlainComments) (h : t.IdleCode) :
    t.stripComments.namesBackingField = t.namesBackingField := by
  induction t using below_induction with
  | step t ih =>
    have hcarries := carries_stripComments hplain h
    have hin := within_unparenthesize t
    rw [namesBackingField_eq, namesBackingField_eq, unparenthesize_map hcarries,
      kind_stripComments, text_stripComments]
    split
    · rfl
    · rename_i hk
      rw [namedChildren_stripComments, List.any_map, List.any_filter, Bool.eq_iff_iff,
        List.any_eq_true, List.any_eq_true]
      refine exists_congr fun c => and_congr_right fun hc => ?_
      have hmem := mem_children_of_namedChildren hc
      by_cases hcom : c.isComment
      · obtain ⟨-, -, -, hleaf⟩ := isPlain_iff.mp (hplain _ hin c hmem hcom)
        simp [hcom, lastChild?, hleaf]
      · have hlast : ∀ x ∈ c.lastChild?, x.isComment = false := fun x hx =>
          h _ hin x (by simpa [countedInCode, hk] using ⟨c, hc, hx⟩)
        rw [Function.comp, lastChild?_stripComments hlast]
        rcases he : c.lastChild? with _ | e
        · simp [hcom]
        · have hbelow : e.Below t :=
            (below_of_lastChild? he).of_within ((within_of_mem hmem).trans hin)
          have hnames := ih e hbelow (hplain.of_within hbelow.within)
            fun x hx => h x (hx.trans hbelow.within)
          simp [hcom, hnames]
    · rfl

theorem backingTarget?_stripComments {n : Node} (h : Carries stripComments n) :
    n.stripComments.backingTarget? = n.backingTarget?.map stripComments := by
  unfold backingTarget?
  rw [kind_stripComments, hasChildOfKind_map h.follows (by decide) (by decide),
    hasChildOfKind_map h.follows (by decide) (by decide),
    hasChildOfKind_map h.follows (by decide) (by decide),
    hasChildOfKind_map h.follows (by decide) (by decide)]
  split
  · exact child?_map h.follows .left (by simp)
  · rename_i hk
    exact h.alike.first hk
  · rename_i hk
    rw [h.alike.last (Or.inl hk)]
    split <;> rfl
  · rename_i hk
    rw [h.alike.last (Or.inr (Or.inl hk))]
    split <;> rfl
  · rfl

theorem below_of_backingTarget? {n t : Node} (h : n.backingTarget? = some t) : t.Below n := by
  unfold backingTarget? at h
  split at h
  · exact below_of_child? h
  · exact below_of_mem (List.mem_of_head? h)
  · split at h
    · exact below_of_lastChild? h
    · cases h
  · split at h
    · exact below_of_lastChild? h
    · cases h
  · cases h

theorem writesBackingField_stripComments {body : Node} (hplain : body.PlainComments)
    (h : body.IdleCode) : body.stripComments.writesBackingField = body.writesBackingField := by
  let writes (n : Node) : Bool := n.backingTarget?.any (·.namesBackingField)
  -- a comment writes nothing, so the comments of a walk may be left out
  have hskip : ∀ l : List Node, l.any writes = (l.filter (!·.isComment)).any writes := by
    intro l
    rw [List.any_filter, Bool.eq_iff_iff, List.any_eq_true, List.any_eq_true]
    refine exists_congr fun c => and_congr_right fun _ => ?_
    by_cases hc : c.isComment
    · simp [writes, backingTarget?, kind_of_isComment hc]
    · simp [hc]
  change (body.stripComments.reach fun _ => true).any writes = (body.reach fun _ => true).any writes
  rw [hskip (body.stripComments.reach _), hskip (body.reach _),
    reach_stripComments (fun _ => rfl) hplain, List.any_map, Bool.eq_iff_iff, List.any_eq_true,
    List.any_eq_true]
  refine exists_congr fun c => and_congr_right fun hc => ?_
  have hin := within_of_mem_reach (List.mem_filter.mp hc).1
  have hcarries := (carries_stripComments hplain h).of_within hin
  simp only [Function.comp, writes]
  rw [backingTarget?_stripComments hcarries, Option.any_map]
  rcases ht : c.backingTarget? with _ | t
  · rfl
  · have hwithin := (below_of_backingTarget? ht).within.trans hin
    have hnames := namesBackingField_stripComments (hplain.of_within hwithin)
      fun x hx => h x (hx.trans hwithin)
    simp [hnames]

end Node

end ReadonlyLint
