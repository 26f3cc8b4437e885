import ReadonlyLint.Proofs.Evaluated
import ReadonlyLint.Proofs.Growth
import ReadonlyLint.Proofs.VisitMap

/-!
The visit of a body comes by all evaluated code. What is sought is a position, with a property of
what was found that every visit of its node establishes and that nothing found later undoes. One
lemma for each rule says that the rule establishes the property when what is sought is evaluated
inside; `shown` follows by induction on the tree.
-/
namespace ReadonlyLint

namespace Walk

/-! ## What is sought -/

/-- A property of what was found that nothing found later undoes. -/
def Lasting (Q : LocalAnalysis → Prop) : Prop :=
  ∀ ⦃w w' : Walk⦄, w.GrowsTo w' → Q w.analysis → Q w'.analysis

/-- A fold establishes a lasting property when one of its turns does. -/
theorem Lasting.foldl {Q : LocalAnalysis → Prop} (hQ : Lasting Q) {R : Walk → Prop}
    (hR : ∀ {w w' : Walk}, w.GrowsTo w' → R w → R w') {α : Type} {f : Walk → α → Walk}
    {l : List α} (hf : ∀ w : Walk, ∀ a ∈ l, w.GrowsTo (f w a)) {a : α} (ha : a ∈ l)
    (h : ∀ w : Walk, R w → Q (f w a).analysis) {w : Walk} (hw : R w) :
    Q (l.foldl f w).analysis := by
  induction l generalizing w with
  | nil => cases ha
  | cons b l ih =>
    rw [List.foldl_cons]
    have hrest : ∀ w : Walk, ∀ a ∈ l, w.GrowsTo (f w a) := fun w a ha => hf w a (by simp [ha])
    -- the later turns only add to what the one turn established
    rcases List.mem_cons.mp ha with rfl | ha
    · exact hQ (growsTo_foldl f l hrest _) (h w hw)
    · exact ih hrest ha (hR (hf w b (by simp)) hw)

theorem growsTo_visitChild (v : Viewpoint) (outer : List Node) (c : Node) (w : Walk) :
    w.GrowsTo (if c.field.any (·.isDeclarative) then w else visit v outer c w) := by
  split
  · exact GrowsTo.refl w
  · exact grows_visit v outer c w

/-- What the visit of an evaluated child establishes, the visit of all children does. -/
theorem Lasting.visitChildren {Q : LocalAnalysis → Prop} (hQ : Lasting Q) {v : Viewpoint}
    {n c : Node} (hc : c ∈ n.children) (hd : c.isDeclared = false) {R : Walk → Prop}
    (hR : ∀ {w w' : Walk}, w.GrowsTo w' → R w → R w') {outer : List Node}
    (h : ∀ w, R w → Q (visit v (n.around outer) c w).analysis) {w : Walk} (hw : R w) :
    Q (Walk.visitChildren (visit v) outer n w).analysis := by
  unfold Walk.visitChildren
  refine hQ.foldl hR (fun w x _ => growsTo_visitChild v _ x w) hc (fun w hw => ?_) hw
  rw [Node.isDeclared] at hd
  rw [hd]
  exact h w hw

/-- The kinds of nodes that are sought: each has a rule of its own, which nothing goes around. -/
def soughtKinds : List Kind :=
  [.assignmentExpression, .prefixUnaryExpression, .postfixUnaryExpression, .invocationExpression,
    .argument, .refExpression]

/-- A position whose node has a rule of its own, which nothing goes around. -/
structure Noticeable (q : Position) : Prop where
  role : q.role = .code
  kind : q.node.kind ∈ soughtKinds
  branches : q.node.children ≠ []
  counts : q.node.kind = .prefixUnaryExpression →
    q.node.operatorToken? = some .increment ∨ q.node.operatorToken? = some .decrement
  /-- An element of a tuple may be a target, whose rule is not that of an argument. -/
  untupled : q.node.kind = .argument → ∀ parent ∈ q.path.head?, parent.kind ≠ .tupleExpression

/-- The visit of the operand alone, wherever it is made, establishes `Q`. -/
def OperandShows (v : Viewpoint) (Q : LocalAnalysis → Prop) (n : Node) : Prop :=
  ∀ operand, n.lastChild? = some operand →
    ∀ (outer : List Node) (w : Walk), Q (visit v outer operand w).analysis

/-- A position that every visit notices: the visit of its node establishes `Q`. -/
structure Sought (v : Viewpoint) (Q : LocalAnalysis → Prop) (q : Position) : Prop
    extends Noticeable q where
  lasting : Lasting Q
  visited : ∀ w : Walk, Q (visit v (bare q.path) q.node w).analysis
  /-- Of a prefix expression as a target the operand is visited and evidence is noted. -/
  recorded : q.node.kind = .prefixUnaryExpression → OperandShows v Q q.node ∨
    ∀ (w : Walk) (mutation : Mutation) (n : Node), Q (w.record mutation n).analysis
  /-- Where only a reference to it is looked at, the operand is visited and nothing is noted. -/
  referred : q.IsReferredTo → OperandShows v Q q.node

/-- Whether the node is of a kind that is not sought and passes on to its parts as code of the same
function. -/
def passesOn (n : Node) : Bool :=
  n.kind ∉ soughtKinds ++ [.objectCreationExpression, .implicitObjectCreationExpression,
    .localFunctionStatement, .lambdaExpression, .anonymousMethodExpression]

/-- The innermost function around the point that a walk has reached returns so. -/
def Returns (w : Walk) (mode : ReturnMode) : Prop := w.returnModes.head? = some mode

theorem GrowsTo.returns {w w' : Walk} {mode : ReturnMode} (h : w.GrowsTo w') (hw : w.Returns mode) :
    w'.Returns mode := by
  unfold Returns at *
  rw [h.returnModes]
  exact hw

/-- If the node evaluates what is sought, then its visit establishes `Q`. -/
def Shown (v : Viewpoint) (Q : LocalAnalysis → Prop) (q : Position) (n : Node) : Prop :=
  ∀ path mode, Position.Reaches ⟨path, mode, .code, n⟩ q →
    ∀ w : Walk, w.Returns mode → Q (visit v (bare path) n w).analysis

section Basics

variable {q : Position} (hs : Noticeable q)
include hs

theorem Noticeable.kind_ne {k : Kind} (hk : k ∉ soughtKinds) : q.node.kind ≠ k :=
  fun h => hk (h ▸ hs.kind)

theorem Noticeable.not_token : q.node.isToken = false := by
  have := hs.kind
  simp only [soughtKinds, List.mem_cons, List.not_mem_nil, or_false] at this
  rcases this with h | h | h | h | h | h <;> simp [Node.isToken, h]

theorem Noticeable.ne {p : Position} (hp : p.node.kind ∉ soughtKinds) : q ≠ p :=
  fun h => hp (h ▸ hs.kind)

/-- What evaluates something sought has children, so it is named. -/
theorem Noticeable.not_leaf {p : Position} (hr : p.Reaches q) : p.node.children ≠ [] := by
  intro hleaf
  rw [hr.eq_of_leaf hleaf] at hs
  exact hs.branches hleaf

theorem Noticeable.named {p : Position} (hp : p.node.Tidy) (hr : p.Reaches q) : p.node.named := by
  by_contra hnot
  exact hs.not_leaf hr (hp.leaf (by simpa using hnot))

/-- What is sought inside of such a node is evaluated by one of its parts. -/
theorem Noticeable.leads {path : List Node} {mode : ReturnMode} {n : Node} (hn : passesOn n)
    (hr : Position.Reaches ⟨path, mode, .code, n⟩ q) :
    ∃ c ∈ n.codeParts, c.isDeclared = false ∧ Position.Reaches ⟨n :: path, mode, .code, c⟩ q := by
  simp only [passesOn, List.mem_append, List.mem_cons, List.not_mem_nil, or_false, not_or,
    decide_eq_true_eq] at hn
  obtain ⟨hkind, hnew, himplicit, hfunction, hlambda, hmethod⟩ := hn
  have hobject : n.makesObject = false := by simp [Node.makesObject, hnew, himplicit]
  have hmode : n.modeInside mode = mode := by
    unfold Node.modeInside
    split <;> first | contradiction | rfl
  obtain ⟨c, hc, hd, hr⟩ := hr.leads_code (hs.ne hkind) hobject
  rw [hmode] at hr
  exact ⟨c, hc, hd, hr⟩

/-- A node without evaluated parts evaluates nothing sought. -/
theorem Noticeable.codeParts_ne_nil {path : List Node} {mode : ReturnMode} {n : Node}
    (hr : Position.Reaches ⟨path, mode, .code, n⟩ q) (hn : passesOn n) : n.codeParts ≠ [] := by
  obtain ⟨c, hc, -⟩ := hs.leads hn hr
  exact List.ne_nil_of_mem hc

theorem Noticeable.not_identifier {path : List Node} {mode : ReturnMode} {n : Node}
    (hr : Position.Reaches ⟨path, mode, .code, n⟩ q) : n.kind ≠ .identifier :=
  fun hk => hs.codeParts_ne_nil hr (by simp [passesOn, soughtKinds, hk])
    (by simp [Node.codeParts, hk])

/-- A declarator is evaluated by its value alone. -/
theorem Noticeable.value {path : List Node} {mode : ReturnMode} {declarator : Node}
    (hk : declarator.kind = .variableDeclarator)
    (hr : Position.Reaches ⟨path, mode, .code, declarator⟩ q) :
    ∃ value, declarator.initializer? = some value ∧
      Position.Reaches ⟨declarator :: path, mode, .code, value⟩ q := by
  obtain ⟨value, hvalue, -, hr⟩ := hs.leads (by simp [passesOn, soughtKinds, hk]) hr
  exact ⟨value, by simpa [Node.codeParts, hk] using hvalue, hr⟩

end Basics

theorem Sought.foldl {v : Viewpoint} {Q : LocalAnalysis → Prop} {q : Position}
    (hs : Sought v Q q) {α : Type} {f : Walk → α → Walk} {l : List α}
    (hf : ∀ w : Walk, ∀ a ∈ l, w.GrowsTo (f w a)) {a : α} (ha : a ∈ l) {mode : ReturnMode}
    (h : ∀ w : Walk, w.Returns mode → Q (f w a).analysis) {w : Walk} (hw : w.Returns mode) :
    Q (l.foldl f w).analysis :=
  hs.lasting.foldl GrowsTo.returns hf ha h hw

theorem mem_namedOfKind_of_child {n c x : Node} {k : Kind} (hn : n.Tidy) (hc : c ∈ n.children)
    (hk : c.kind = k) (hx : x ∈ c.children) : c ∈ n.namedOfKind k := by
  have hnamed : c.named := by
    by_contra hnot
    rw [(hn.of_mem hc).leaf (by simpa using hnot)] at hx
    cases hx
  simp [Node.namedOfKind, Node.namedChildren, hc, hnamed, hk]

theorem bare_cons (n : Node) (path : List Node) : bare (n :: path) = n.around (bare path) := by
  by_cases hk : n.kind = .parenthesizedExpression <;> simp [bare, Node.around, hk]

theorem bare_append {parens : List Node} (h : ∀ x ∈ parens, x.kind = .parenthesizedExpression)
    (path : List Node) : bare (parens ++ path) = bare path := by
  have hnone : bare parens = [] := List.filter_eq_nil_iff.mpr fun x hx => by simp [h x hx]
  unfold bare at *
  rw [List.filter_append, hnone, List.nil_append]

theorem unwrapped_append {parens : List Node} (h : ∀ x ∈ parens, x.kind = .parenthesizedExpression)
    {n : Node} (hn : n.kind ≠ .parenthesizedExpression) (path : List Node) :
    unwrapped (parens ++ n :: path) = n :: path := by
  unfold unwrapped
  rw [List.dropWhile_append_of_pos (fun x hx => by simp [h x hx]), List.dropWhile_cons]
  simp [hn]

/-! ## Targets and initializers -/

section Leading

variable {q : Position} (hs : Noticeable q) {path : List Node} {mode : ReturnMode}
include hs

/-- Nothing sought is evaluated by `this`. -/
theorem Noticeable.not_this {c : Node} (hc : c.Tidy)
    (hr : Position.Reaches ⟨path, mode, .code, c⟩ q) : c.isThis = false := by
  refine Bool.eq_false_iff.mpr fun hthis => ?_
  have hk : c.unparenthesize.kind = .thisToken := by simpa [Node.isThis] using hthis
  have htoken : c.unparenthesize.isToken := by simp [Node.isToken, hk]
  obtain ⟨parens, -, hreach⟩ :=
    Position.Reaches.unparenthesize hc hr (hs.kind_ne (by decide)) hs.not_token
  exact hs.not_leaf hreach ((hc.of_within (Node.within_unparenthesize c)).token_leaf htoken)

/-- What a target evaluates is evaluated by one of its single targets. -/
theorem exists_target {c : Node} (hc : c.Tidy)
    (hr : Position.Reaches ⟨path, mode, .code, c⟩ q) :
    ∃ around t, (bare around, t) ∈ c.targets (bare path) ∧
      Position.Reaches ⟨around, mode, .code, t⟩ q := by
  induction c using Node.below_induction generalizing path with
  | step c ih =>
    obtain ⟨parens, hparens, hreach⟩ :=
      Position.Reaches.unparenthesize hc hr (hs.kind_ne (by decide)) hs.not_token
    rw [Node.targets_eq]
    split
    · rename_i hk
      have htuple := hc.of_within (Node.within_unparenthesize c)
      obtain ⟨a, ha, -, hra⟩ := hs.leads (by simp [passesOn, soughtKinds, hk]) hreach
      simp only [Node.codeParts, hk, List.mem_filter, decide_eq_true_eq] at ha
      obtain ⟨hmem, hka⟩ := ha
      -- an element of a tuple is not sought itself
      have hself : q ≠ ⟨c.unparenthesize :: (parens ++ path), mode, .code, a⟩ := by
        intro hq
        rw [hq] at hs
        exact hs.untupled hka _ rfl hk
      obtain ⟨e, he, -, hre⟩ := hra.leads_code hself (by simp [Node.makesObject, hka])
      have he : a.lastChild? = some e := by simpa [Node.codeParts, hka] using he
      have hmode : a.modeInside mode = mode := by simp [Node.modeInside, hka]
      rw [hmode] at hre
      have harg := mem_namedOfKind_of_child htuple hmem hka (Node.mem_children_of_lastChild? he)
      have hwithin : e.Below c := (Node.below_of_lastChild? he).of_within
        ((Node.within_of_mem hmem).trans (Node.within_unparenthesize c))
      obtain ⟨around, t, ht, hrt⟩ := ih e hwithin (hc.of_within hwithin.within) hre
      refine ⟨around, t, ?_, hrt⟩
      have hbare : bare (a :: c.unparenthesize :: (parens ++ path)) =
          a :: c.unparenthesize :: bare path := by
        rw [bare_cons, bare_cons, bare_append hparens]
        simp [Node.around, hk, hka]
      rw [hbare] at ht
      exact List.mem_flatMap.mpr ⟨a, harg, List.mem_flatMap.mpr ⟨e, by simp [he], ht⟩⟩
    · -- anything but a tuple is its own target
      refine ⟨parens ++ path, c.unparenthesize, ?_, hreach⟩
      rw [bare_append hparens]
      exact List.mem_singleton.mpr rfl

/-- What an entry of an object initializer evaluates stands in its index or is its value. -/
theorem exists_entryPart {b c : Node} (hb : b.kind = .initializerExpression)
    (hk : c.kind = .assignmentExpression) (hr : Position.Reaches ⟨b :: path, mode, .entry, c⟩ q)
    (hnested : ∀ right, c.child? .right = some right → right.kind = .initializerExpression →
      Position.Reaches ⟨c :: b :: path, mode, .initializer, right⟩ q →
      ∃ around x, (bare around, x) ∈ right.initializerParts (bare (c :: b :: path)) ∧
        x.Below right ∧ Position.Reaches ⟨around, mode, .code, x⟩ q) :
    ∃ around x, (bare around, x) ∈ b.entryParts (bare path) c ∧ x.Below c ∧
      Position.Reaches ⟨around, mode, .code, x⟩ q := by
  have hself : q ≠ ⟨b :: path, mode, .entry, c⟩ := by
    intro hq
    have := hs.role
    rw [hq] at this
    cases this
  obtain ⟨part, hpart, -, hr⟩ := hr.leads hself
  have hmode : c.modeInside mode = mode := by simp [Node.modeInside, hk]
  have hbare : bare (c :: b :: path) = c :: b :: bare path := by simp [bare, hk, hb]
  rw [Node.entryParts, if_neg (by simp [hk]), ← hbare]
  rcases List.mem_append.mp hpart with hpart | hpart
  · -- an index in brackets, then what stands in the brackets
    obtain ⟨left, hleft, rfl⟩ := List.mem_map.mp hpart
    obtain ⟨hleft, hkl⟩ := List.mem_filter.mp hleft
    have hkl : left.kind = .elementBindingExpression := by simpa using hkl
    simp only [Position.inside, hmode] at hr
    obtain ⟨part, hpart, hd, hr⟩ := hr.leads (hs.ne (by simp [soughtKinds, hkl]))
    obtain ⟨i, hi, rfl⟩ := List.mem_map.mp hpart
    have hmodel : left.modeInside mode = mode := by simp [Node.modeInside, hkl]
    have hbarel : bare (left :: c :: b :: path) = left :: bare (c :: b :: path) := by
      rw [bare_cons, Node.around, if_neg (by simp [hkl])]
    simp only [Position.inside, hmodel] at hr
    refine ⟨left :: c :: b :: path, i, List.mem_append_left _ ?_,
      (Node.below_of_mem hi).of_within
        (Node.below_of_child? (Option.mem_toList.mp hleft)).within, hr⟩
    refine List.mem_flatMap.mpr ⟨left, hleft, ?_⟩
    rw [if_pos hkl, hbarel]
    refine List.mem_map.mpr ⟨i, List.mem_filter.mpr ⟨hi, ?_⟩, rfl⟩
    simpa [Node.isDeclared] using hd
  · obtain ⟨right, hright, rfl⟩ := List.mem_map.mp hpart
    have hsome := Option.mem_toList.mp hright
    have hbelow := Node.below_of_child? hsome
    simp only [Position.inside, hmode] at hr
    by_cases hkr : right.kind = .initializerExpression
    · -- the value is an object initializer again
      rw [if_pos hkr] at hr
      obtain ⟨around, x, hx, hxr, hrx⟩ := hnested right hsome hkr hr
      refine ⟨around, x, List.mem_append_right _ (List.mem_flatMap.mpr ⟨right, hright, ?_⟩),
        hxr.of_within hbelow.within, hrx⟩
      rw [if_pos hkr]
      exact hx
    · rw [if_neg hkr] at hr
      refine ⟨c :: b :: path, right,
        List.mem_append_right _ (List.mem_flatMap.mpr ⟨right, hright, ?_⟩), hbelow, hr⟩
      rw [if_neg hkr]
      exact List.mem_singleton.mpr rfl

/-- What an object initializer evaluates is evaluated by one of its parts. -/
theorem exists_initializerPart {b : Node} (hk : b.kind = .initializerExpression)
    (hr : Position.Reaches ⟨path, mode, .initializer, b⟩ q) :
    ∃ around x, (bare around, x) ∈ b.initializerParts (bare path) ∧ x.Below b ∧
      Position.Reaches ⟨around, mode, .code, x⟩ q := by
  induction b using Node.below_induction generalizing path with
  | step b ih =>
    obtain ⟨part, hpart, -, hr⟩ := hr.leads (hs.ne (by simp [soughtKinds, hk]))
    obtain ⟨c, hc, rfl⟩ := List.mem_map.mp hpart
    have hmode : b.modeInside mode = mode := by simp [Node.modeInside, hk]
    have hbare : bare (b :: path) = b :: bare path := by simp [bare, hk]
    have hbelow := Node.below_of_mem (Node.mem_children_of_namedChildren hc)
    simp only [Position.inside, hmode] at hr
    rw [Node.initializerParts_eq]
    by_cases hkc : c.kind = .assignmentExpression
    · rw [if_pos hkc] at hr
      obtain ⟨around, x, hx, hxc, hrx⟩ := exists_entryPart hs hk hkc hr
        fun right hright hkr hrr =>
          ih right ((Node.below_of_child? hright).of_within hbelow.within) hkr hrr
      exact ⟨around, x, List.mem_flatMap.mpr ⟨c, hc, hx⟩, hxc.of_within hbelow.within, hrx⟩
    · rw [if_neg hkc] at hr
      refine ⟨b :: path, c, List.mem_flatMap.mpr ⟨c, hc, ?_⟩, hbelow, hr⟩
      rw [Node.entryParts, if_pos hkc, hbare]
      exact List.mem_singleton.mpr rfl

end Leading

/-! ## Operands and targets -/

section Operands

variable {v : Viewpoint} {Q : LocalAnalysis → Prop} {q : Position} (hs : Sought v Q q)
  {c : Node} (hc : c.Tidy) {path : List Node} {mode : ReturnMode}
include hs hc

variable (hv : ∀ x, x.Within c → Shown v Q q x) {w : Walk} (hw : w.Returns mode)
include hv hw

/-- The base of an access is visited when it evaluates what is sought. -/
theorem visitBase_shows (hr : Position.Reaches ⟨path, mode, .code, c⟩ q) :
    Q (visitBase (visit v) (bare path) (some c) w).analysis := by
  unfold visitBase
  rw [Option.filter_some, hs.not_this hc hr]
  exact hv c (Node.within_refl c) path mode hr w hw

/-- The evaluated parts of a target are visited. Of a prefix expression only the operand is, which
must be enough if the expression itself is what is sought. -/
theorem visitOperands_shows (hr : Position.Reaches ⟨path, mode, .code, c⟩ q)
    (hself : ∀ parens : List Node, (∀ x ∈ parens, x.kind = .parenthesizedExpression) →
      q = ⟨parens ++ path, mode, .code, c.unparenthesize⟩ →
        c.unparenthesize.kind = .prefixUnaryExpression → OperandShows v Q c.unparenthesize) :
    Q (visitOperands (visit v) (bare path) c w).analysis := by
  obtain ⟨parens, hparens, hreach⟩ :=
    Position.Reaches.unparenthesize hc hr (hs.kind_ne (by decide)) hs.not_token
  have hwithin := Node.within_unparenthesize c
  have htidy := hc.of_within hwithin
  have hbare : bare (c.unparenthesize :: (parens ++ path)) =
      c.unparenthesize.around (bare path) := by
    rw [bare_cons, bare_append hparens]
  have hpart : ∀ x ∈ c.unparenthesize.children, ∀ y, y.Within x → Shown v Q q y :=
    fun x hx y hy => hv y ((hy.trans (Node.within_of_mem hx)).trans hwithin)
  unfold visitOperands
  dsimp only
  rw [← hbare]
  split
  case h_1 hk => exact absurd hk (hs.not_identifier hreach)
  case h_2 hk =>
    exact absurd (htidy.token_leaf (by simp [Node.isToken, hk])) (hs.not_leaf hreach)
  case h_3 hk =>
    exact absurd (by simp [Node.codeParts, hk])
      (hs.codeParts_ne_nil hreach (by simp [passesOn, soughtKinds, hk]))
  case h_4 hk =>
    obtain ⟨x, hx, -, hr⟩ := hs.leads (by simp [passesOn, soughtKinds, hk]) hreach
    have hbase : c.unparenthesize.child? .expression = some x := by
      simpa [Node.codeParts, hk] using hx
    have hmem := Node.mem_children_of_child? hbase
    rw [hbase]
    exact visitBase_shows hs (htidy.of_mem hmem) (hpart x hmem) hw hr
  case h_5 hk =>
    obtain ⟨x, hx, -, hr⟩ := hs.leads (by simp [passesOn, soughtKinds, hk]) hreach
    have hx : c.unparenthesize.child? .expression = some x ∨
        c.unparenthesize.child? .subscript = some x := by
      simpa [Node.codeParts, hk] using hx
    rcases hx with hbase | hsubscript
    · have hmem := Node.mem_children_of_child? hbase
      rw [hbase]
      refine hs.lasting (growsTo_visitPart (grows_visit v) _ _ _) ?_
      exact visitBase_shows hs (htidy.of_mem hmem) (hpart x hmem) hw hr
    · have hmem := Node.mem_children_of_child? hsubscript
      rw [hsubscript]
      have hbefore := growsTo_visitPart (grows_visit v)
        (bare (c.unparenthesize :: (parens ++ path)))
        ((c.unparenthesize.child? .expression).filter (!·.isThis)) w
      exact hpart x hmem x (Node.within_refl x) _ mode hr _ (hbefore.returns hw)
  case h_6 hk =>
    by_cases hq : q = ⟨parens ++ path, mode, .code, c.unparenthesize⟩
    · have hchildren : c.unparenthesize.children ≠ [] := by
        have hbranches := hs.branches
        rwa [hq] at hbranches
      have hlast : c.unparenthesize.lastChild? = some (c.unparenthesize.children.getLast hchildren) :=
        List.getLast?_eq_some_getLast hchildren
      rw [hlast]
      exact hself parens hparens hq hk _ hlast _ w
    · obtain ⟨x, hx, -, hr⟩ := hreach.leads_code hq (by simp [Node.makesObject, hk])
      have hmode : c.unparenthesize.modeInside mode = mode := by simp [Node.modeInside, hk]
      have hlast : c.unparenthesize.lastChild? = some x := by simpa [Node.codeParts, hk] using hx
      rw [hmode] at hr
      rw [hlast]
      exact hpart x (Node.mem_children_of_lastChild? hlast) x (Node.within_refl x) _ mode hr w hw
  case h_7 =>
    have hshown := hv _ hwithin _ mode hreach w hw
    rwa [bare_append hparens] at hshown

omit hc hv hw in
/-- A sought prefix expression denotes unknown storage, and any evidence will do for it if its
operand is not enough. -/
theorem Sought.storage_eq {parens : List Node}
    (hq : q = ⟨parens ++ path, mode, .code, c.unparenthesize⟩)
    (hk : c.unparenthesize.kind = .prefixUnaryExpression)
    (hoperand : ¬ OperandShows v Q c.unparenthesize) (scope : Scope) :
    v.storage scope c = .unknown (Kind.name .prefixUnaryExpression) ∧
      ∀ (w : Walk) (mutation : Mutation) (n : Node), Q (w.record mutation n).analysis := by
  rw [hq] at hs
  refine ⟨?_, (hs.recorded hk).resolve_left hoperand⟩
  rw [Viewpoint.storage_eq, Viewpoint.storageOf]
  rcases hs.counts hk with hcounts | hcounts
  · simp [hk, hcounts]
  · simp [hk, hcounts]

/-- The evaluated parts of a target are visited, unless the target is itself what is sought. -/
theorem visitOperands_shows_or (hr : Position.Reaches ⟨path, mode, .code, c⟩ q) :
    (∃ parens : List Node, (∀ x ∈ parens, x.kind = .parenthesizedExpression) ∧
      q = ⟨parens ++ path, mode, .code, c.unparenthesize⟩ ∧
      c.unparenthesize.kind = .prefixUnaryExpression ∧ ¬ OperandShows v Q c.unparenthesize) ∨
    Q (visitOperands (visit v) (bare path) c w).analysis := by
  by_cases hself : ∃ parens : List Node, (∀ x ∈ parens, x.kind = .parenthesizedExpression) ∧
      q = ⟨parens ++ path, mode, .code, c.unparenthesize⟩ ∧
      c.unparenthesize.kind = .prefixUnaryExpression ∧ ¬ OperandShows v Q c.unparenthesize
  · exact Or.inl hself
  · refine Or.inr (visitOperands_shows hs hc hv hw hr fun parens hparens hq hk => ?_)
    by_contra hoperand
    exact hself ⟨parens, hparens, hq, hk, hoperand⟩

theorem writeTarget_shows (access : Access) (hr : Position.Reaches ⟨path, mode, .code, c⟩ q) :
    Q (writeTarget v (visit v) access (bare path) c w).analysis := by
  unfold writeTarget
  split
  · exact hv c (Node.within_refl c) path mode hr w hw
  · split
    · rename_i hdiscard
      have hk : c.kind = .identifier := by
        simp only [Bool.and_eq_true, decide_eq_true_eq] at hdiscard
        exact hdiscard.1.1
      exact absurd hk (hs.not_identifier hr)
    · have hgrows := growsTo_writeStorage v w access w.scope c c
      rcases visitOperands_shows_or hs hc hv (hgrows.returns hw) hr with
        ⟨parens, -, hq, hk, hoperand⟩ | h
      · -- the target is itself sought: its storage is unknown, and a write to that is evidence
        obtain ⟨hstorage, hrecord⟩ := hs.storage_eq hq hk hoperand w.scope
        refine hs.lasting (growsTo_visitOperands (grows_visit v) _ _ _) ?_
        rw [hstorage]
        exact hrecord w _ c
      · exact h

theorem write_shows (access : Access) (hr : Position.Reaches ⟨path, mode, .code, c⟩ q) :
    Q (write v (visit v) access (bare path) c w).analysis := by
  obtain ⟨around, t, ht, hrt⟩ := exists_target hs.toNoticeable hc hr
  have hwithin := Node.within_of_mem_targets ht
  unfold write
  refine hs.foldl (fun w p _ => growsTo_writeTarget (grows_visit v) access p.1 p.2 w) ht ?_ hw
  intro w hw
  exact writeTarget_shows hs (hc.of_within hwithin) (fun x hx => hv x (hx.trans hwithin)) hw access
    hrt

end Operands

/-! ## Rules that visit their children -/

section Rules

variable {v : Viewpoint} {Q : LocalAnalysis → Prop} {q : Position} (hs : Sought v Q q) {n : Node}
  (hv : ∀ x, x.Below n → Shown v Q q x) {path : List Node} {mode : ReturnMode} {c : Node}
include hs hv

theorem visitChildren_shows (hc : c ∈ n.children) (hd : c.isDeclared = false)
    (hr : Position.Reaches ⟨n :: path, mode, .code, c⟩ q) {w : Walk} (hw : w.Returns mode) :
    Q (visitChildren (visit v) (bare path) n w).analysis := by
  refine hs.lasting.visitChildren hc hd GrowsTo.returns (fun w hw => ?_) hw
  rw [← bare_cons]
  exact hv c (Node.below_of_mem hc) _ mode hr w hw

theorem visitBlock_shows (hc : c ∈ n.children) (hd : c.isDeclared = false)
    (hr : Position.Reaches ⟨n :: path, mode, .code, c⟩ q) {w : Walk} (hw : w.Returns mode) :
    Q (visitBlock (visit v) (bare path) n w).analysis := by
  have hgrows := growsTo_foldl (fun w f => declareName (f.child? .name) .plain w)
    (n.namedOfKind .localFunctionStatement) (fun w f _ => growsTo_declareName _ .plain w)
    { w with scope := w.scope.enter }
  exact visitChildren_shows hs hv hc hd hr (hgrows.returns hw)

omit hs in
theorem visitLocalFunction_shows (hc : n.child? .body = some c)
    (hr : Position.Reaches ⟨n :: path, .ofType? (n.child? .type), .code, c⟩ q) (w : Walk) :
    Q (visitLocalFunction (visit v) (bare path) n w).analysis := by
  unfold visitLocalFunction
  rw [hc, ← bare_cons]
  exact hv c (Node.below_of_child? hc) _ _ hr _ rfl

theorem visitLambda_shows (hc : c ∈ n.children) (hd : c.isDeclared = false)
    (hr : Position.Reaches ⟨n :: path, .ref, .code, c⟩ q) (w : Walk) :
    Q (visitLambda (visit v) (bare path) n w).analysis := by
  unfold visitLambda inBlock returning
  exact visitChildren_shows hs hv hc hd hr rfl

theorem visitInvocation_shows (hc : c ∈ n.children) (hd : c.isDeclared = false)
    (hr : Position.Reaches ⟨n :: path, mode, .code, c⟩ q) {w : Walk} (hw : w.Returns mode) :
    Q (visitInvocation v (visit v) (bare path) n w).analysis := by
  unfold visitInvocation
  refine visitChildren_shows hs hv hc hd hr ?_
  split
  · exact (growsTo_checkCall v _ w).returns hw
  · exact hw

theorem visitMemberAccess_shows (hn : n.Tidy) (hc : n.child? .expression = some c)
    (hr : Position.Reaches ⟨n :: path, mode, .code, c⟩ q) {w : Walk} (hw : w.Returns mode) :
    Q (visitMemberAccess v (visit v) (bare path) n w).analysis := by
  have hmem := Node.mem_children_of_child? hc
  unfold visitMemberAccess
  rw [hc, ← bare_cons]
  simp only [hs.not_this (hn.of_mem hmem) hr]
  exact hv c (Node.below_of_mem hmem) _ mode hr w hw

theorem visitElementAccess_shows (hn : n.Tidy)
    (hc : n.child? .expression = some c ∨ n.child? .subscript = some c)
    (hr : Position.Reaches ⟨n :: path, mode, .code, c⟩ q) {w : Walk} (hw : w.Returns mode) :
    Q (visitElementAccess v (visit v) (bare path) n w).analysis := by
  unfold visitElementAccess
  rw [← bare_cons]
  dsimp only
  rcases hc with hc | hc
  · have hmem := Node.mem_children_of_child? hc
    refine hs.lasting (growsTo_visitPart (grows_visit v) _ _ _) ?_
    rw [hc]
    simp only [hs.not_this (hn.of_mem hmem) hr]
    exact hv c (Node.below_of_mem hmem) _ mode hr w hw
  · rw [hc]
    refine hv c (Node.below_of_child? hc) _ mode hr _ ?_
    split
    · exact hw
    · split
      · exact (growsTo_useIndexers v w true false).returns hw
      · exact (grows_visit v _ _ w).returns hw

/-! ## Declarations -/

theorem visitVariableDeclaration_shows (hn : n.Tidy) (hc : c ∈ n.children)
    (hk : c.kind = .variableDeclarator) (hr : Position.Reaches ⟨n :: path, mode, .code, c⟩ q)
    {w : Walk} (hw : w.Returns mode) :
    Q (visitVariableDeclaration v (visit v) (bare path) n w).analysis := by
  obtain ⟨value, hvalue, hrv⟩ := hs.value hk hr
  have hmem := Node.mem_children_of_initializer? hvalue
  have hdeclarator : c ∈ n.declarators :=
    mem_namedOfKind_of_child hn hc hk hmem
  unfold visitVariableDeclaration
  refine hs.foldl (fun w d _ => growsTo_visitDeclarator (grows_visit v) _ _ d w) hdeclarator
    (fun w hw => ?_) hw
  unfold visitDeclarator
  dsimp only
  rw [hvalue, ← bare_cons, ← bare_cons]
  -- the value is visited first; what follows only adds to it
  refine hs.lasting ((growsTo_declareName _ _ _).trans
    (growsTo_foldl _ _ (fun w pattern _ => grows_visit v _ pattern w) _)) ?_
  exact hv value ((Node.below_of_mem hmem).of_within (Node.within_of_mem hc)) _ mode hrv w hw

/-! ## Statements with a header -/

theorem visitForeach_shows (hn : n.Tidy) (hc : c ∈ n.children) (hd : c.isDeclared = false)
    (hr : Position.Reaches ⟨n :: path, mode, .code, c⟩ q) {w : Walk} (hw : w.Returns mode) :
    Q (visitForeach v (visit v) (bare path) n w).analysis := by
  have hbelow := Node.below_of_mem hc
  unfold visitForeach
  refine hs.foldl (fun w x _ => growsTo_visitForeachPart (grows_visit v) _ _ x w) hc
    (fun w hw => ?_) (hw : Returns { w with scope := w.scope.enter } mode)
  have hshown := hv c hbelow _ mode hr w hw
  rw [← bare_cons]
  unfold visitForeachPart
  split
  · rename_i hfield
    simp [Node.isDeclared, hfield, Field.isDeclarative] at hd
  · split
    · split
      · split
        · rename_i hk
          exact absurd hk (hs.not_identifier hr)
        · exact hshown
      · exact write_shows hs (hn.of_mem hc)
          (fun x hx => hv x (hx.below hbelow)) hw .assign hr
    · exact hshown

/-- The value of a pinned pointer, or what it takes the address of. -/
theorem visitPin_shows (hn : n.Tidy) (hk : n.kind = .variableDeclarator)
    (hpinned : ∀ parens : List Node, (∀ x ∈ parens, x.kind = .parenthesizedExpression) →
      IsPinned (parens ++ n :: path))
    (hr : Position.Reaches ⟨path, mode, .code, n⟩ q) {w : Walk} (hw : w.Returns mode) :
    Q (visitPin v (visit v) (bare path) n w).analysis := by
  obtain ⟨value, hvalue, hrv⟩ := hs.value hk hr
  have hmem := Node.mem_children_of_initializer? hvalue
  have htidy := hn.of_mem hmem
  have hbelow := Node.below_of_mem hmem
  unfold visitPin
  rw [hvalue, ← bare_cons]
  dsimp only
  refine hs.lasting (growsTo_declareName _ _ _) ?_
  -- the value itself may not be what is sought
  have hvalueShows : Q (visitOperands (visit v) (bare (n :: path)) value w).analysis := by
    refine visitOperands_shows hs htidy (fun x hx => hv x (hx.below hbelow)) hw hrv ?_
    intro parens hparens hq hunary
    rw [hq] at hs
    exact hs.referred ⟨hunary, Or.inl (hpinned parens hparens)⟩
  unfold Node.addressed
  dsimp only
  split
  · rename_i hamp
    simp only [Bool.and_eq_true, decide_eq_true_eq] at hamp
    rcases ho : value.unparenthesize.lastChild? with _ | operand
    · exact hvalueShows
    · obtain ⟨parens, hparens, hra⟩ :=
        Position.Reaches.unparenthesize htidy hrv (hs.kind_ne (by decide)) hs.not_token
      have hwithin := (Node.within_unparenthesize value).below hbelow
      have hne : q ≠ ⟨parens ++ n :: path, mode, .code, value.unparenthesize⟩ := by
        intro hq
        rw [hq] at hs
        rcases hs.counts hamp.1 with hcounts | hcounts <;> simp [hamp.2] at hcounts
      obtain ⟨x, hx, -, hro⟩ := hra.leads_code hne (by simp [Node.makesObject, hamp.1])
      obtain rfl : x = operand := by simpa [Node.codeParts, hamp.1, ho] using hx
      have hmode : value.unparenthesize.modeInside mode = mode := by
        simp [Node.modeInside, hamp.1]
      rw [hmode] at hro
      have hoperand := (Node.below_of_lastChild? ho).of_within hwithin.within
      have hbare : bare (value.unparenthesize :: (parens ++ n :: path)) =
          value.unparenthesize :: bare (n :: path) := by
        rw [bare_cons, bare_append hparens]
        simp [Node.around, hamp.1]
      rw [← hbare]
      refine visitOperands_shows hs (hn.of_within hoperand.within)
        (fun y hy => hv y (hy.below hoperand)) hw hro ?_
      -- nor may the operand of `&` be
      intro more hmore hq hunary
      rw [hq] at hs
      refine hs.referred ⟨hunary, Or.inr ⟨value.unparenthesize, parens ++ n :: path, ?_,
        Or.inl ⟨hamp.1, hamp.2, hpinned parens hparens⟩⟩⟩
      exact unwrapped_append hmore (by rw [hamp.1]; decide) _
  · exact hvalueShows

theorem visitFixed_shows (hn : n.Tidy) (hk : n.kind = .fixedStatement) (hc : c ∈ n.children)
    (hr : Position.Reaches ⟨n :: path, mode, .code, c⟩ q) {w : Walk} (hw : w.Returns mode) :
    Q (visitFixed v (visit v) (bare path) n w).analysis := by
  have hgrows : ∀ w : Walk, ∀ x ∈ n.children, w.GrowsTo
      (if x.kind = .variableDeclaration then
        x.declarators.foldl (fun w declarator =>
          visitPin v (visit v) (x.around (n.around (bare path))) declarator w) w
      else if x.named then visit v (n.around (bare path)) x w
      else w) := by
    intro w x _
    split
    · exact growsTo_foldl _ _ (fun w d _ => growsTo_visitPin (grows_visit v) _ d w) w
    · split
      · exact grows_visit v _ x w
      · exact GrowsTo.refl w
  unfold visitFixed
  refine hs.foldl hgrows hc (fun w hw => ?_)
    (hw : Returns { w with scope := w.scope.enter } mode)
  rw [← bare_cons, ← bare_cons]
  by_cases hkc : c.kind = .variableDeclaration
  · rw [if_pos hkc]
    obtain ⟨d, hd, -, hrd⟩ := hs.leads (by simp [passesOn, soughtKinds, hkc]) hr
    simp only [Node.codeParts, hkc, List.mem_filter, decide_eq_true_eq] at hd
    obtain ⟨value, hvalue, -⟩ := hs.value hd.2 hrd
    have hdeclarator : d ∈ c.declarators := mem_namedOfKind_of_child (hn.of_mem hc) hd.1 hd.2
      (Node.mem_children_of_initializer? hvalue)
    have hbelow := (Node.below_of_mem hd.1).of_within (Node.within_of_mem hc)
    refine hs.foldl (fun w d _ => growsTo_visitPin (grows_visit v) _ d w) hdeclarator
      (fun w hw => ?_) hw
    refine visitPin_shows hs (fun x hx => hv x (hx.of_within hbelow.within))
      (hn.of_within hbelow.within) hd.2 ?_ hrd hw
    intro parens hparens
    exact ⟨d, c, n, path, unwrapped_append hparens (by simp [hd.2]) _, hd.2, hkc, hk⟩
  · rw [if_neg hkc]
    rw [if_pos (hs.named (hn.of_mem hc) hr)]
    exact hv c (Node.below_of_mem hc) _ mode hr w hw

/-! ## Expressions that write -/

theorem visitAssignment_shows (hn : n.Tidy)
    (hc : n.child? .left = some c ∨ n.child? .right = some c)
    (hr : Position.Reaches ⟨n :: path, mode, .code, c⟩ q) {w : Walk} (hw : w.Returns mode) :
    Q (visitAssignment v (visit v) (bare path) n w).analysis := by
  unfold visitAssignment
  dsimp only
  rw [← bare_cons]
  rcases hc with hc | hc
  · have hbelow := Node.below_of_child? hc
    refine hs.lasting (growsTo_visitPart (grows_visit v) _ _ _) ?_
    rw [hc]
    exact write_shows hs (hn.of_within hbelow.within) (fun x hx => hv x (hx.below hbelow)) hw _ hr
  · rw [hc]
    refine hv c (Node.below_of_child? hc) _ mode hr _ ?_
    split
    · exact (growsTo_write (grows_visit v) _ _ _ w).returns hw
    · exact hw

theorem visitUnary_shows (hn : n.Tidy) (hc : unaryOperand? n = some c) (hd : c.isDeclared = false)
    (hr : Position.Reaches ⟨n :: path, mode, .code, c⟩ q) {w : Walk} (hw : w.Returns mode) :
    Q (visitUnary v (visit v) (bare path) n w).analysis := by
  have hmem : c ∈ n.children := by
    unfold unaryOperand? at hc
    split at hc
    · exact Node.mem_children_of_lastChild? hc
    · exact List.mem_of_head? hc
  have hbelow := Node.below_of_mem hmem
  have htidy := hn.of_mem hmem
  unfold visitUnary
  rw [hc]
  dsimp only
  rw [← bare_cons]
  split
  · exact write_shows hs htidy (fun x hx => hv x (hx.below hbelow)) hw .compound hr
  · split
    · have hgrows : w.GrowsTo (if (v.storage w.scope c).isInstance then
          w.record (.unclassifiable "address of instance storage") n else w) := by
        split
        · exact growsTo_record w _ n
        · exact GrowsTo.refl w
      rcases visitOperands_shows_or hs htidy (fun x hx => hv x (hx.below hbelow))
        (hgrows.returns hw) hr with ⟨parens, -, hq, hk, hoperand⟩ | h
      · obtain ⟨hstorage, hrecord⟩ := hs.storage_eq hq hk hoperand w.scope
        refine hs.lasting (growsTo_visitOperands (grows_visit v) _ _ _) ?_
        rw [hstorage]
        exact hrecord w _ n
      · exact h
    · exact visitChildren_shows hs hv hmem hd hr hw

theorem visitArgument_shows (hn : n.Tidy) (hc : n.lastChild? = some c)
    (hr : Position.Reaches ⟨n :: path, mode, .code, c⟩ q) {w : Walk} (hw : w.Returns mode) :
    Q (visitArgument v (visit v) (bare path) n w).analysis := by
  have hbelow := Node.below_of_lastChild? hc
  unfold visitArgument
  rw [hc]
  dsimp only
  rw [← bare_cons]
  split
  · exact write_shows hs (hn.of_within hbelow.within) (fun x hx => hv x (hx.below hbelow)) hw
      .reference hr
  · refine hv c hbelow _ mode hr _ ?_
    split
    · exact (growsTo_record w _ c).returns hw
    · exact hw

/-! ## References -/

omit hs hv in
theorem bindsReadonly_of_bindsReadonly {w : Walk} (hw : w.Returns mode)
    (h : bindsReadonly (bare path) w = true) : BindsReadonly mode path := by
  have hhead : w.returnModes.head? = some mode := hw
  unfold bindsReadonly at h
  split at h
  · cases h
  · rename_i parent rest hpath
    refine ⟨parent, rest, hpath, ?_⟩
    split at h
    · rename_i hk
      rcases hd : rest.head? with _ | declaration
      · simp [hd] at h
      · rcases ht : declaration.child? .type with _ | type
        · simp [hd, ht] at h
        · exact Or.inl ⟨hk, declaration, type, rfl, ht, by simpa [hd, ht] using h⟩
    · rename_i hk
      exact Or.inr ⟨Or.inl hk, by simpa [hhead] using h⟩
    · rename_i hk
      exact Or.inr ⟨Or.inr hk, by simpa [hhead] using h⟩
    · cases h

theorem visitRef_shows (hn : n.Tidy) (hk : n.kind = .refExpression) (hc : n.lastChild? = some c)
    (hr : Position.Reaches ⟨n :: path, mode, .code, c⟩ q) {w : Walk} (hw : w.Returns mode) :
    Q (visitRef v (visit v) (bare path) n w).analysis := by
  have hbelow := Node.below_of_lastChild? hc
  have hgrows : w.GrowsTo (noteRef v (bare path) n c w) := growsTo_noteRef (bare path) n c w
  unfold visitRef
  rw [hc]
  change Q (visitOperands (visit v) _ c (noteRef v (bare path) n c w)).analysis
  rw [← bare_cons]
  rcases visitOperands_shows_or hs (hn.of_within hbelow.within) (fun x hx => hv x (hx.below hbelow))
    (hgrows.returns hw) hr with ⟨parens, hparens, hq, hunary, hoperand⟩ | h
  · -- the operand itself is sought: the reference can be written through, so it is evidence
    obtain ⟨hstorage, hrecord⟩ := hs.storage_eq hq hunary hoperand w.scope
    have hwritable : ¬ bindsReadonly (bare path) w = true := by
      intro hb
      rw [hq] at hs
      refine hoperand (hs.referred ⟨hunary, Or.inr ⟨n, path, ?_,
        Or.inr ⟨hk, bindsReadonly_of_bindsReadonly hw hb⟩⟩⟩)
      exact unwrapped_append hparens (by rw [hk]; decide) path
    refine hs.lasting (growsTo_visitOperands (grows_visit v) _ _ _) ?_
    rw [noteRef, hstorage, if_neg hwritable]
    exact hrecord w _ n
  · exact h

/-! ## New objects -/

theorem visitObjectCreation_shows {role : Role} (hn : n.makesObject)
    (hpart : (role, c) ∈ n.parts .code) (hd : c.isDeclared = false)
    (hr : Position.Reaches ⟨n :: path, mode, role, c⟩ q) {w : Walk} (hw : w.Returns mode) :
    Q (visitObjectCreation (visit v) (bare path) n w).analysis := by
  have hmem := Node.mem_children_of_mem_parts hpart
  have hrole : role = if c.kind = .initializerExpression then .initializer else .code := by
    simp only [Node.parts, hn, if_true, List.mem_map, Prod.mk.injEq] at hpart
    obtain ⟨x, -, hrole, rfl⟩ := hpart
    exact hrole.symm
  have hgrows : ∀ w : Walk, ∀ x ∈ n.children,
      w.GrowsTo (visitObjectPart (visit v) (n.around (bare path)) x w) :=
    fun w x _ => growsTo_visitObjectPart (grows_visit v) _ x w
  refine hs.foldl hgrows hmem (fun w hw => ?_) hw
  have hfield : c.field ≠ some .type := by
    intro hfield
    simp [Node.isDeclared, hfield, Field.isDeclarative] at hd
  rw [visitObjectPart, if_neg hfield, ← bare_cons]
  by_cases hk : c.kind = .initializerExpression
  · rw [if_pos hk] at hrole ⊢
    subst hrole
    obtain ⟨around, x, hx, hbelow, hrx⟩ := exists_initializerPart hs.toNoticeable hk hr
    refine hs.foldl (fun w p _ => grows_visit v p.1 p.2 w) hx (fun w hw => ?_) hw
    exact hv x (hbelow.of_within (Node.within_of_mem hmem)) around mode hrx w hw
  · rw [if_neg hk] at hrole ⊢
    subst hrole
    exact hv c (Node.below_of_mem hmem) _ mode hr w hw

theorem visitWith_shows (hn : n.Tidy) (hc : c ∈ n.children)
    (hr : Position.Reaches ⟨n :: path, mode, .code, c⟩ q) {w : Walk} (hw : w.Returns mode) :
    Q (visitWith (visit v) (bare path) n w).analysis := by
  have hgrows : ∀ w : Walk, ∀ x ∈ n.children,
      w.GrowsTo (visitWithPart (visit v) (n.around (bare path)) x w) :=
    fun w x _ => growsTo_visitWithPart (grows_visit v) _ x w
  have htidy := hn.of_mem hc
  have hbelow := Node.below_of_mem hc
  refine hs.foldl hgrows hc (fun w hw => ?_) hw
  rw [visitWithPart, ← bare_cons, ← bare_cons]
  by_cases hk : c.kind = .withInitializer
  · obtain ⟨x, hx, -, hrx⟩ := hs.leads (by simp [passesOn, soughtKinds, hk]) hr
    have hlast : c.lastChild? = some x := by simpa [Node.codeParts, hk] using hx
    simp only [hk, hlast]
    exact hv x ((Node.below_of_lastChild? hlast).of_within hbelow.within) _ mode hrx w hw
  · -- the keyword and the marks have no children
    have hmark : ∀ k ∈ [Kind.withToken, .openBrace, .closeBrace, .comma], c.kind ≠ k := by
      intro k hmem hkc
      refine hs.not_leaf hr (htidy.token_leaf ?_)
      simp only [List.mem_cons, List.not_mem_nil, or_false] at hmem
      rcases hmem with rfl | rfl | rfl | rfl <;> simp [Node.isToken, hkc]
    split
    · exact absurd ‹_› hk
    · exact absurd ‹_› (hmark _ (by simp))
    · exact absurd ‹_› (hmark _ (by simp))
    · exact absurd ‹_› (hmark _ (by simp))
    · exact absurd ‹_› (hmark _ (by simp))
    · exact hv c hbelow _ mode hr w hw

omit hs hv in
theorem mem_anonymousParts {l : List Node} (hc : c ∈ l) (hnamed : c.named)
    (hk : c.kind ≠ .identifier) : c ∈ Node.anonymousParts l := by
  induction l with
  | nil => cases hc
  | cons x l ih =>
    rw [Node.anonymousParts]
    rcases List.mem_cons.mp hc with rfl | hc
    · simp [hnamed, hk]
    · split
      · exact List.mem_cons_of_mem _ (ih hc)
      · exact ih hc

theorem visitAnonymousObject_shows (hn : n.Tidy) (hc : c ∈ n.children)
    (hr : Position.Reaches ⟨n :: path, mode, .code, c⟩ q) {w : Walk} (hw : w.Returns mode) :
    Q (visitAnonymousObject (visit v) (bare path) n w).analysis := by
  unfold visitAnonymousObject
  refine hs.foldl (fun w x _ => grows_visit v _ x w)
    (mem_anonymousParts hc (hs.named (hn.of_mem hc) hr) (hs.not_identifier hr))
    (fun w hw => ?_) hw
  rw [← bare_cons]
  exact hv c (Node.below_of_mem hc) _ mode hr w hw

/-! ## The visit -/

/-- The rule of a node that makes no object, with a child that leads on to what is sought. -/
theorem step_shows (hn : n.Tidy) (ho : n.makesObject = false) (hc : c ∈ n.codeParts)
    (hd : c.isDeclared = false)
    (hr : Position.Reaches ⟨n :: path, n.modeInside mode, .code, c⟩ q) {w : Walk}
    (hw : w.Returns mode) : Q (step v (visit v) (bare path) n w).analysis := by
  have hmem := Node.mem_children_of_mem_codeParts hc
  have hsame : n.modeInside mode = mode → Position.Reaches ⟨n :: path, mode, .code, c⟩ q :=
    fun h => h ▸ hr
  have henter : Returns { w with scope := w.scope.enter } mode := hw
  have hnames : (declareNames n w).Returns mode := (growsTo_declareNames n w).returns hw
  unfold step
  split
  all_goals rename_i hk
  -- no part is evaluated
  all_goals try (exact absurd hk hn.not_comment)
  all_goals try (simp [Node.codeParts, hk] at hc; done)
  all_goals try (simp [Node.makesObject, hk] at ho; done)
  -- a function of its own changes how a reference inside of it returns
  all_goals first
    | exact visitLocalFunction_shows hv (by simpa [Node.codeParts, hk] using hc)
        (by simpa [Node.modeInside, hk] using hr) w
    | exact visitLambda_shows hs hv hmem hd (by simpa [Node.modeInside, hk] using hr) w
    | skip
  all_goals have hr := hsame (by simp [Node.modeInside, *])
  all_goals first
    | exact visitChildren_shows hs hv hmem hd hr hw
    | exact visitChildren_shows hs hv hmem hd hr henter
    | exact visitChildren_shows hs hv hmem hd hr hnames
    | exact visitBlock_shows hs hv hmem hd hr hw
    | exact visitForeach_shows hs hv hn hmem hd hr hw
    | exact visitFixed_shows hs hv hn hk hmem hr hw
    | exact visitVariableDeclaration_shows hs hv hn hmem
        (by simp [Node.codeParts, hk] at hc; exact hc.2) hr hw
    | exact visitAssignment_shows hs hv hn (by simpa [Node.codeParts, hk] using hc) hr hw
    | exact visitUnary_shows hs hv hn (by simpa [unaryOperand?, Node.codeParts, hk] using hc) hd hr
        hw
    | exact visitArgument_shows hs hv hn (by simpa [Node.codeParts, hk] using hc) hr hw
    | exact visitRef_shows hs hv hn hk (by simpa [Node.codeParts, hk] using hc) hr hw
    | exact visitInvocation_shows hs hv hmem hd hr hw
    | exact visitMemberAccess_shows hs hv hn (by simpa [Node.codeParts, hk] using hc) hr hw
    | exact visitElementAccess_shows hs hv hn (by simpa [Node.codeParts, hk] using hc) hr hw
    | exact visitWith_shows hs hv hn hmem hr hw
    | exact visitAnonymousObject_shows hs hv hn hmem hr hw

end Rules

/-- Every visit of a tidy tree comes by what is sought, if the tree evaluates it. -/
theorem shown {v : Viewpoint} {Q : LocalAnalysis → Prop} {q : Position} (hs : Sought v Q q)
    {n : Node} (hn : n.Tidy) : Shown v Q q n := by
  induction n using Node.below_induction with
  | step n ih =>
    have hv : ∀ x, x.Below n → Shown v Q q x := fun x hx => ih x hx (hn.of_within hx.within)
    intro path mode hr w hw
    by_cases hq : q = ⟨path, mode, .code, n⟩
    · rw [hq] at hs
      exact hs.visited w
    · rw [visit_eq]
      by_cases ho : n.makesObject
      · obtain ⟨⟨role, c⟩, hpart, hd, hr⟩ := hr.leads hq
        have hk : n.kind = .objectCreationExpression ∨
            n.kind = .implicitObjectCreationExpression := by
          simpa [Node.makesObject] using ho
        have hmode : n.modeInside mode = mode := by
          rcases hk with hk | hk <;> simp [Node.modeInside, hk]
        simp only [Position.inside, hmode] at hr
        have hshows := visitObjectCreation_shows hs hv ho hpart hd hr hw
        rcases hk with hk | hk <;> simpa only [step, hk] using hshows
      · obtain ⟨c, hc, hd, hr⟩ := hr.leads_code hq (by simpa using ho)
        exact step_shows hs hv hn (by simpa using ho) hc hd hr hw

end Walk

end ReadonlyLint
