import ReadonlyLint.Proofs.VisitedNodes

/-!
Evaluated code is visited. What a node evaluates in a tree without comments is evaluated by a part
that the node visits, so every write, call and argument that is evaluated is visited itself. There
is one exception: of a prefix expression that is taken for the storage it denotes only the operand
is visited (`Node.referents`, `Node.Sees.visits`).
-/
namespace ReadonlyLint

namespace Node

/-- The nodes that are looked at for the storage that they denote, as a target of a write, the
operand of `&` or `ref`, or the value of a pinned pointer. They are not visited themselves. -/
def referents (n : Node) : List Node :=
  match n.kind with
  | .prefixUnaryExpression =>
    if n.operatorToken? = some .ampersand then n.lastChild?.toList.map (·.unparenthesize)
    else n.writing?.toList.flatMap (·.2.singleTargets)
  | .refExpression => n.lastChild?.toList.map (·.unparenthesize)
  | .foreachStatement =>
    if (n.child? .type).isSome then []
    else (n.children.filter (·.field = some .left)).flatMap singleTargets
  | .fixedStatement =>
    (n.children.filter (·.kind = .variableDeclaration)).flatMap fun c =>
      c.declarators.flatMap fun d =>
        d.initializer?.toList.map fun value => (value.addressed []).2.unparenthesize
  | _ => n.writing?.toList.flatMap (·.2.singleTargets)

/-- The code of the node evaluates the position. -/
def LeadsTo (n : Node) (q : Position) : Prop :=
  ∃ path mode, Position.Reaches ⟨path, mode, .code, n⟩ q

/-- The node leads on to the position through a part that it visits, or takes what stands there for
storage, which only a prefix expression is. -/
def LeadsOn (n : Node) (q : Position) : Prop :=
  (∃ x ∈ n.visitedParts, x.LeadsTo q) ∨
    q.node.kind = .prefixUnaryExpression ∧ q.node ∈ n.referents

/-- The first node visits the second, or visits a node that takes it for storage. -/
def Sees (n x : Node) : Prop :=
  n.Visits x ∨ x.kind = .prefixUnaryExpression ∧ ∃ p, n.Visits p ∧ x ∈ p.referents

theorem Sees.of_part {n c x : Node} (hc : c ∈ n.visitedParts) (h : c.Sees x) : n.Sees x := by
  rcases h with h | ⟨hk, p, hp, hx⟩
  · exact .inl (.part hc h)
  · exact .inr ⟨hk, p, .part hc hp, hx⟩

theorem unparenthesize_idem (n : Node) : n.unparenthesize.unparenthesize = n.unparenthesize := by
  fun_induction unparenthesize n with
  | case1 n hk c hc ih => exact ih
  | case2 n hk hnone => rw [unparenthesize_eq, if_pos hk, hnone, Option.map_none, Option.getD_none]
  | case3 n hk => exact unparenthesize_of_ne hk

/-- A single target stands in no parentheses. -/
theorem unparenthesize_of_mem_targets {outer : List Node} {n : Node} {p : List Node × Node}
    (h : p ∈ n.targets outer) : p.2.unparenthesize = p.2 := by
  induction n using below_induction generalizing outer with
  | step n ih =>
    rw [targets_eq] at h
    split at h
    · obtain ⟨a, ha, hp⟩ := List.mem_flatMap.mp h
      obtain ⟨e, he, hp⟩ := List.mem_flatMap.mp hp
      have hbelow : e.Below n :=
        (below_of_lastChild? (Option.mem_toList.mp he)).of_within
          ((within_of_mem (mem_children_of_namedOfKind ha)).trans (within_unparenthesize n))
      exact ih e hbelow hp
    · rw [List.mem_singleton] at h
      subst h
      exact unparenthesize_idem n

end Node

namespace Walk

section Leading

variable {q : Position} (hs : Noticeable q)
include hs

/-- What a node evaluates that is looked at for its storage one of its operands evaluates, unless it
is the node itself. -/
theorem operands_lead {c : Node} (hc : c.Tidy) (hr : c.LeadsTo q) :
    (∃ x ∈ c.operandParts, x.LeadsTo q) ∨
      q.node.kind = .prefixUnaryExpression ∧ q.node = c.unparenthesize := by
  obtain ⟨path, mode, hr⟩ := hr
  obtain ⟨parens, -, hreach⟩ :=
    Position.Reaches.unparenthesize hc hr (hs.kind_ne (by decide)) hs.not_token
  have htidy := hc.of_within (Node.within_unparenthesize c)
  unfold Node.operandParts
  dsimp only
  split
  case h_1 hk => exact absurd hk (hs.not_identifier hreach)
  case h_2 hk =>
    exact absurd (htidy.token_leaf (by simp [Node.isToken, hk])) (hs.not_leaf hreach)
  case h_3 hk =>
    exact absurd (by simp [Node.codeParts, hk])
      (hs.codeParts_ne_nil hreach (by simp [passesOn, soughtKinds, hk]))
  case h_4 hk =>
    obtain ⟨x, hx, -, hr⟩ := hs.leads (by simp [passesOn, soughtKinds, hk]) hreach
    have hbase : c.unparenthesize.child? .expression = some x := by
      simpa [Node.codeParts, hk] using hx
    have hthis := hs.not_this (htidy.of_mem (Node.mem_children_of_child? hbase)) hr
    exact .inl ⟨x, by simp [hbase, hthis], _, _, hr⟩
  case h_5 hk =>
    obtain ⟨x, hx, -, hr⟩ := hs.leads (by simp [passesOn, soughtKinds, hk]) hreach
    have hx : c.unparenthesize.child? .expression = some x ∨
        c.unparenthesize.child? .subscript = some x := by
      simpa [Node.codeParts, hk] using hx
    rcases hx with hbase | hsubscript
    · have hthis := hs.not_this (htidy.of_mem (Node.mem_children_of_child? hbase)) hr
      exact .inl ⟨x, by simp [hbase, hthis], _, _, hr⟩
    · exact .inl ⟨x, by simp [hsubscript], _, _, hr⟩
  case h_6 hk =>
    by_cases hq : q = ⟨parens ++ path, mode, .code, c.unparenthesize⟩
    · rw [hq]
      exact .inr ⟨hk, rfl⟩
    · obtain ⟨x, hx, -, hr⟩ := hreach.leads_code hq (by simp [Node.makesObject, hk])
      exact .inl ⟨x, by simpa [Node.codeParts, hk] using hx, _, _, hr⟩
  case h_7 => exact .inl ⟨_, List.mem_singleton_self _, _, _, hreach⟩

/-- The same of a target, whose single targets are looked at for their storage. -/
theorem targets_lead {c : Node} (hc : c.Tidy) (hr : c.LeadsTo q) :
    (∃ x ∈ c.writtenParts, x.LeadsTo q) ∨
      q.node.kind = .prefixUnaryExpression ∧ q.node ∈ c.singleTargets := by
  obtain ⟨path, mode, hr⟩ := hr
  obtain ⟨around, t, ht, hrt⟩ := exists_target hs hc hr
  have htidy := hc.of_within (Node.within_of_mem_targets ht)
  have hsingle : t ∈ c.singleTargets := by
    rw [c.singleTargets_eq (bare path)]
    exact List.mem_map.mpr ⟨_, ht, rfl⟩
  have hwritten : ∀ x ∈ t.targetParts, x ∈ c.writtenParts := by
    intro x hx
    rw [c.writtenParts_eq (bare path)]
    exact List.mem_flatMap.mpr ⟨_, ht, hx⟩
  by_cases hdeclaration : t.kind = .declarationExpression
  · exact .inl ⟨t, hwritten t (by simp [Node.targetParts, hdeclaration]), _, _, hrt⟩
  · rcases operands_lead hs htidy ⟨_, _, hrt⟩ with ⟨x, hx, hrx⟩ | ⟨hk, hself⟩
    · refine .inl ⟨x, hwritten x ?_, hrx⟩
      rw [Node.targetParts, if_neg hdeclaration]
      exact hx
    · rw [Node.unparenthesize_of_mem_targets ht] at hself
      exact .inr ⟨hk, hself ▸ hsingle⟩

/-! ## One step of evaluation -/

variable {n : Node} (hn : n.Tidy) {c : Node}

include hn

theorem leadsOn_foreach (hk : n.kind = .foreachStatement) (hc : c ∈ n.children)
    (hd : c.isDeclared = false) (hr : c.LeadsTo q) : n.LeadsOn q := by
  have htype : c.field ≠ some .type := by
    intro hfield
    simp [Node.isDeclared, hfield, Field.isDeclarative] at hd
  have hparts : ∀ x ∈ c.foreachParts (n.child? .type).isSome, x ∈ n.visitedParts := by
    intro x hx
    simp only [Node.visitedParts, Node.looseParts, Node.innerParts, hk, List.nil_append]
    exact List.mem_flatMap.mpr ⟨c, hc, hx⟩
  unfold Node.foreachParts at hparts
  rw [if_neg htype] at hparts
  by_cases hleft : c.field = some .left
  · rw [if_pos hleft] at hparts
    split at hparts
    · obtain ⟨path, mode, hr⟩ := hr
      rw [if_neg (hs.not_identifier hr)] at hparts
      exact .inl ⟨c, hparts c (List.mem_singleton_self c), path, mode, hr⟩
    · rename_i hdeclares
      rcases targets_lead hs (hn.of_mem hc) hr with ⟨x, hx, hrx⟩ | ⟨hunary, htarget⟩
      · exact .inl ⟨x, hparts x hx, hrx⟩
      · refine .inr ⟨hunary, ?_⟩
        simp only [Node.referents, hk, if_neg hdeclares]
        exact List.mem_flatMap.mpr ⟨c, List.mem_filter.mpr ⟨hc, by simp [hleft]⟩, htarget⟩
  · rw [if_neg hleft] at hparts
    exact .inl ⟨c, hparts c (List.mem_singleton_self c), hr⟩

omit hn in
/-- What the value of a pinned pointer evaluates is evaluated by what it takes the address of. -/
theorem addressed_leads {value : Node} (hvalue : value.Tidy) (hr : value.LeadsTo q) :
    (value.addressed []).2.LeadsTo q := by
  unfold Node.addressed
  dsimp only
  split
  · rename_i hamp
    simp only [Bool.and_eq_true, decide_eq_true_eq] at hamp
    split
    · rename_i operand hoperand
      obtain ⟨path, mode, hr⟩ := hr
      obtain ⟨parens, -, hreach⟩ :=
        Position.Reaches.unparenthesize hvalue hr (hs.kind_ne (by decide)) hs.not_token
      -- an address is not what is sought
      have hne : q ≠ ⟨parens ++ path, mode, .code, value.unparenthesize⟩ := by
        intro hq
        rw [hq] at hs
        rcases hs.counts hamp.1 with hcounts | hcounts <;> simp [hamp.2] at hcounts
      obtain ⟨x, hx, -, hrx⟩ := hreach.leads_code hne (by simp [Node.makesObject, hamp.1])
      obtain rfl : x = operand := by simpa [Node.codeParts, hamp.1, hoperand] using hx
      exact ⟨_, _, hrx⟩
    · exact hr
  · exact hr

theorem leadsOn_fixed (hk : n.kind = .fixedStatement) (hc : c ∈ n.children) {path : List Node}
    {mode : ReturnMode} (hr : Position.Reaches ⟨path, mode, .code, c⟩ q) : n.LeadsOn q := by
  have htidy := hn.of_mem hc
  have hparts : ∀ x ∈ c.fixedParts, x ∈ n.visitedParts := by
    intro x hx
    simp only [Node.visitedParts, Node.looseParts, Node.innerParts, hk, List.nil_append]
    exact List.mem_flatMap.mpr ⟨c, hc, hx⟩
  unfold Node.fixedParts at hparts
  by_cases hkc : c.kind = .variableDeclaration
  · rw [if_pos hkc] at hparts
    obtain ⟨d, hd, -, hrd⟩ := hs.leads (by simp [passesOn, soughtKinds, hkc]) hr
    simp only [Node.codeParts, hkc, List.mem_filter, decide_eq_true_eq] at hd
    obtain ⟨value, hvalue, hrv⟩ := hs.value hd.2 hrd
    have hmem := Node.mem_children_of_initializer? hvalue
    have hdeclarator : d ∈ c.declarators := mem_namedOfKind_of_child htidy hd.1 hd.2 hmem
    have hvaluetidy := (htidy.of_mem hd.1).of_mem hmem
    rcases operands_lead hs (hvaluetidy.of_within (Node.within_addressed [] value))
      (addressed_leads hs hvaluetidy ⟨_, _, hrv⟩) with ⟨x, hx, hrx⟩ | ⟨hunary, hself⟩
    · refine .inl ⟨x, hparts x (List.mem_flatMap.mpr ⟨d, hdeclarator, ?_⟩), hrx⟩
      exact List.mem_flatMap.mpr ⟨value, Option.mem_toList.mpr hvalue, hx⟩
    · refine .inr ⟨hunary, ?_⟩
      simp only [Node.referents, hk]
      refine List.mem_flatMap.mpr ⟨c, List.mem_filter.mpr ⟨hc, by simp [hkc]⟩, ?_⟩
      refine List.mem_flatMap.mpr ⟨d, hdeclarator, ?_⟩
      exact List.mem_map.mpr ⟨value, Option.mem_toList.mpr hvalue, hself.symm⟩
  · rw [if_neg hkc, if_pos (hs.named htidy hr)] at hparts
    exact .inl ⟨c, hparts c (List.mem_singleton_self c), _, _, hr⟩

theorem leadsOn_variableDeclaration (hk : n.kind = .variableDeclaration) (hc : c ∈ n.children)
    (hkc : c.kind = .variableDeclarator) {path : List Node} {mode : ReturnMode}
    (hr : Position.Reaches ⟨path, mode, .code, c⟩ q) : n.LeadsOn q := by
  obtain ⟨value, hvalue, hrv⟩ := hs.value hkc hr
  have hdeclarator : c ∈ n.declarators :=
    mem_namedOfKind_of_child hn hc hkc (Node.mem_children_of_initializer? hvalue)
  refine .inl ⟨value, ?_, _, _, hrv⟩
  simp only [Node.visitedParts, Node.looseParts, Node.innerParts, hk, List.append_nil]
  refine List.mem_flatMap.mpr ⟨c, hdeclarator, List.mem_append_left _ ?_⟩
  exact Option.mem_toList.mpr hvalue

theorem leadsOn_assignment (hk : n.kind = .assignmentExpression)
    (hc : n.child? .left = some c ∨ n.child? .right = some c) (hr : c.LeadsTo q) :
    n.LeadsOn q := by
  have hparts : n.visitedParts =
      (n.child? .left).toList.flatMap Node.writtenParts ++ (n.child? .right).toList := by
    simp only [Node.visitedParts, Node.looseParts, Node.innerParts, hk, List.append_nil]
  rcases hc with hc | hc
  · rcases targets_lead hs (hn.of_mem (Node.mem_children_of_child? hc)) hr with
      ⟨x, hx, hrx⟩ | ⟨hunary, htarget⟩
    · refine .inl ⟨x, ?_, hrx⟩
      rw [hparts, hc]
      exact List.mem_append_left _ (by simpa using hx)
    · refine .inr ⟨hunary, ?_⟩
      simpa [Node.referents, Node.writing?, hk, hc] using htarget
  · refine .inl ⟨c, ?_, hr⟩
    rw [hparts, hc]
    exact List.mem_append_right _ (by simp)

theorem leadsOn_unary
    (hk : n.kind = .prefixUnaryExpression ∨ n.kind = .postfixUnaryExpression)
    (hc : unaryOperand? n = some c) (hd : c.isDeclared = false) (hr : c.LeadsTo q) :
    n.LeadsOn q := by
  have hmem : c ∈ n.children := by
    unfold unaryOperand? at hc
    split at hc
    · exact Node.mem_children_of_lastChild? hc
    · exact List.mem_of_head? hc
  have htidy := hn.of_mem hmem
  have hparts : n.visitedParts = n.unaryParts := by
    rcases hk with hk | hk <;>
      simp only [Node.visitedParts, Node.looseParts, Node.innerParts, hk, List.append_nil]
  unfold Node.LeadsOn
  rw [hparts, Node.unaryParts, hc]
  dsimp only
  split
  · rename_i hcounts
    simp only [Bool.or_eq_true, decide_eq_true_eq] at hcounts
    refine (targets_lead hs htidy hr).imp_right (And.imp_right fun htarget => ?_)
    have hwriting := Node.writing?_of_unary hk hcounts hc
    rcases hk with hk | hk
    · rcases hcounts with hcounts | hcounts <;>
        simpa [Node.referents, hk, hcounts, hwriting] using htarget
    · simpa [Node.referents, hk, hwriting] using htarget
  · split
    · rename_i hampersand
      simp only [Bool.and_eq_true, decide_eq_true_eq] at hampersand
      refine (operands_lead hs htidy hr).imp_right (And.imp_right fun hself => ?_)
      have hlast := Node.lastChild?_of_unaryOperand? hampersand.2 hc
      simp [Node.referents, hampersand, hlast, hself]
    · refine .inl ⟨c, List.mem_filter.mpr ⟨hmem, ?_⟩, hr⟩
      simpa [Node.isDeclared] using hd

theorem leadsOn_argument (hk : n.kind = .argument) (hc : n.lastChild? = some c)
    (hr : c.LeadsTo q) : n.LeadsOn q := by
  have hparts : n.visitedParts = n.argumentParts := by
    simp only [Node.visitedParts, Node.looseParts, Node.innerParts, hk, List.append_nil]
  unfold Node.LeadsOn
  rw [hparts, Node.argumentParts, hc]
  dsimp only
  split
  · rename_i hword
    simp only [Bool.or_eq_true, decide_eq_true_eq] at hword
    refine (targets_lead hs (hn.of_mem (Node.mem_children_of_lastChild? hc)) hr).imp_right
      (And.imp_right fun htarget => ?_)
    simpa [Node.referents, hk, Node.writing?_of_argument hk hword hc] using htarget
  · exact .inl ⟨c, List.mem_singleton_self c, hr⟩

theorem leadsOn_ref (hk : n.kind = .refExpression) (hc : n.lastChild? = some c)
    (hr : c.LeadsTo q) : n.LeadsOn q := by
  have hparts : n.visitedParts = c.operandParts := by
    simp [Node.visitedParts, Node.looseParts, Node.innerParts, hk, hc]
  unfold Node.LeadsOn
  rw [hparts]
  refine (operands_lead hs (hn.of_mem (Node.mem_children_of_lastChild? hc)) hr).imp_right
    (And.imp_right fun hself => ?_)
  simp [Node.referents, hk, hc, hself]

theorem leadsOn_memberAccess (hk : n.kind = .memberAccessExpression)
    (hc : n.child? .expression = some c) (hr : c.LeadsTo q) : n.LeadsOn q := by
  obtain ⟨path, mode, hr⟩ := hr
  have hthis := hs.not_this (hn.of_mem (Node.mem_children_of_child? hc)) hr
  refine .inl ⟨c, ?_, path, mode, hr⟩
  simp [Node.visitedParts, Node.looseParts, Node.innerParts, hk, hc, hthis]

theorem leadsOn_elementAccess (hk : n.kind = .elementAccessExpression)
    (hc : n.child? .expression = some c ∨ n.child? .subscript = some c) (hr : c.LeadsTo q) :
    n.LeadsOn q := by
  obtain ⟨path, mode, hr⟩ := hr
  refine .inl ⟨c, ?_, path, mode, hr⟩
  simp only [Node.visitedParts, Node.looseParts, Node.innerParts, hk, List.append_nil]
  rcases hc with hc | hc
  · have hthis := hs.not_this (hn.of_mem (Node.mem_children_of_child? hc)) hr
    simp [hc, hthis]
  · simp [hc]

theorem leadsOn_with (hk : n.kind = .withExpression) (hc : c ∈ n.children) {path : List Node}
    {mode : ReturnMode} (hr : Position.Reaches ⟨path, mode, .code, c⟩ q) : n.LeadsOn q := by
  have hparts : ∀ x ∈ c.withParts, x ∈ n.visitedParts := by
    intro x hx
    simp only [Node.visitedParts, Node.looseParts, Node.innerParts, hk, List.append_nil]
    exact List.mem_flatMap.mpr ⟨c, hc, hx⟩
  by_cases hkc : c.kind = .withInitializer
  · obtain ⟨x, hx, -, hrx⟩ := hs.leads (by simp [passesOn, soughtKinds, hkc]) hr
    have hlast : c.lastChild? = some x := by simpa [Node.codeParts, hkc] using hx
    exact .inl ⟨x, hparts x (by simp [Node.withParts, hkc, hlast]), _, _, hrx⟩
  · -- the keyword and the marks have no children
    have hmark : ∀ k ∈ [Kind.withToken, .openBrace, .closeBrace, .comma], c.kind ≠ k := by
      intro k hmem hkc
      refine hs.not_leaf hr ((hn.of_mem hc).token_leaf ?_)
      simp only [List.mem_cons, List.not_mem_nil, or_false] at hmem
      rcases hmem with rfl | rfl | rfl | rfl <;> simp [Node.isToken, hkc]
    refine .inl ⟨c, hparts c ?_, _, _, hr⟩
    unfold Node.withParts
    split
    · exact absurd ‹_› hkc
    · exact absurd ‹_› (hmark _ (by simp))
    · exact absurd ‹_› (hmark _ (by simp))
    · exact absurd ‹_› (hmark _ (by simp))
    · exact absurd ‹_› (hmark _ (by simp))
    · exact List.mem_singleton_self c

omit hn in
theorem leadsOn_object (ho : n.makesObject) {role : Role} (hpart : (role, c) ∈ n.parts .code)
    (hd : c.isDeclared = false) {path : List Node} {mode : ReturnMode}
    (hr : Position.Reaches ⟨path, mode, role, c⟩ q) : n.LeadsOn q := by
  have hmem := Node.mem_children_of_mem_parts hpart
  have hrole : role = if c.kind = .initializerExpression then .initializer else .code := by
    simp only [Node.parts, ho, if_true, List.mem_map, Prod.mk.injEq] at hpart
    obtain ⟨x, -, hrole, rfl⟩ := hpart
    exact hrole.symm
  have hfield : c.field ≠ some .type := by
    intro hfield
    simp [Node.isDeclared, hfield, Field.isDeclarative] at hd
  have hparts : ∀ x ∈ c.objectParts, x ∈ n.visitedParts := by
    intro x hx
    have hk : n.kind = .objectCreationExpression ∨ n.kind = .implicitObjectCreationExpression := by
      simpa [Node.makesObject] using ho
    rcases hk with hk | hk <;>
      simp only [Node.visitedParts, Node.looseParts, Node.innerParts, hk, List.append_nil] <;>
      exact List.mem_flatMap.mpr ⟨c, hmem, hx⟩
  unfold Node.objectParts at hparts
  rw [if_neg hfield] at hparts
  by_cases hk : c.kind = .initializerExpression
  · rw [if_pos hk] at hrole hparts
    subst hrole
    obtain ⟨around, x, hx, -, hrx⟩ := exists_initializerPart hs hk hr
    refine .inl ⟨x, hparts x ?_, _, _, hrx⟩
    rw [Node.map_snd_initializerParts [] (bare path)]
    exact List.mem_map.mpr ⟨_, hx, rfl⟩
  · rw [if_neg hk] at hrole hparts
    subst hrole
    exact .inl ⟨c, hparts c (List.mem_singleton_self c), _, _, hr⟩

/-- What a node evaluates, and is not the node itself, it leads on to. -/
theorem leadsOn_of_reaches {path : List Node} {mode : ReturnMode}
    (hr : Position.Reaches ⟨path, mode, .code, n⟩ q) (hq : q ≠ ⟨path, mode, .code, n⟩) :
    n.LeadsOn q := by
  by_cases ho : n.makesObject
  · obtain ⟨⟨role, c⟩, hpart, hd, hr⟩ := hr.leads hq
    exact leadsOn_object hs ho hpart hd hr
  obtain ⟨c, hc, hd, hr⟩ := hr.leads_code hq (by simpa using ho)
  have hmem := Node.mem_children_of_mem_codeParts hc
  have hlead : c.LeadsTo q := ⟨_, _, hr⟩
  have hevaluated : c ∈ n.evaluatedChildren :=
    List.mem_filter.mpr ⟨hmem, by simpa [Node.isDeclared] using hd⟩
  -- the kinds whose rules do not just visit the evaluated children come first
  by_cases hrule : n.kind ∈ [.localFunctionStatement, .foreachStatement, .fixedStatement,
    .variableDeclaration, .assignmentExpression, .prefixUnaryExpression, .postfixUnaryExpression,
    .argument, .refExpression, .memberAccessExpression, .elementAccessExpression, .withExpression,
    .anonymousObjectCreationExpression]
  · simp only [List.mem_cons, List.not_mem_nil, or_false] at hrule
    rcases hrule with hk | hk | hk | hk | hk | hk | hk | hk | hk | hk | hk | hk | hk
    all_goals simp only [Node.codeParts, hk, List.mem_append, Option.mem_toList] at hc
    · refine .inl ⟨c, ?_, hlead⟩
      simpa [Node.visitedParts, Node.looseParts, Node.innerParts, hk] using hc
    · exact leadsOn_foreach hs hn hk hmem hd hlead
    · exact leadsOn_fixed hs hn hk hmem hr
    · exact leadsOn_variableDeclaration hs hn hk hmem (by simpa using (List.mem_filter.mp hc).2) hr
    · exact leadsOn_assignment hs hn hk hc hlead
    · exact leadsOn_unary hs hn (.inl hk) (by rwa [unaryOperand?, if_pos hk]) hd hlead
    · exact leadsOn_unary hs hn (.inr hk) (by rwa [unaryOperand?, if_neg (by simp [hk])]) hd hlead
    · exact leadsOn_argument hs hn hk hc hlead
    · exact leadsOn_ref hs hn hk hc hlead
    · exact leadsOn_memberAccess hs hn hk hc hlead
    · exact leadsOn_elementAccess hs hn hk hc hlead
    · exact leadsOn_with hs hn hk hmem hr
    · refine .inl ⟨c, ?_, hlead⟩
      simp only [Node.visitedParts, Node.looseParts, Node.innerParts, hk, List.append_nil]
      exact mem_anonymousParts hmem (hs.named (hn.of_mem hmem) hr) (hs.not_identifier hr)
  · refine .inl ⟨c, ?_, hlead⟩
    simp only [List.mem_cons, List.not_mem_nil, or_false, not_or] at hrule
    unfold Node.visitedParts Node.looseParts Node.innerParts
    split
    all_goals try rename_i hk
    all_goals first
      | exact absurd hk hn.not_comment
      | (simp [Node.codeParts, hk] at hc; done)
      | (simp [Node.makesObject, hk] at ho; done)
      | (simp [hk] at hrule; done)
      | (simp only [hk]
         exact List.mem_append_right _ hevaluated)
      | exact List.mem_append_left _ hevaluated

end Leading

end Walk

namespace Node

/-- Evaluated code is visited, except for a prefix expression that is taken for storage. -/
theorem sees_of_leadsTo {q : Position} (hs : Walk.Noticeable q) {n : Node} (hn : n.Tidy)
    (hr : n.LeadsTo q) : n.Sees q.node := by
  induction n using below_induction with
  | step n ih =>
    obtain ⟨path, mode, hr⟩ := hr
    by_cases hq : q = ⟨path, mode, .code, n⟩
    · rw [hq]
      exact .inl (.refl n)
    · rcases Walk.leadsOn_of_reaches hs hn hr hq with ⟨x, hx, hrx⟩ | ⟨hk, hreferent⟩
      · have hbelow := below_of_mem_visitedParts hx
        exact (ih x hbelow (hn.of_within hbelow.within) hrx).of_part hx
      · exact .inr ⟨hk, n, .refl n, hreferent⟩

/-! ## Parts of what is taken for storage -/

/-- What is visited with a target is visited by the node that writes it. -/
theorem mem_visitedParts_of_writing? {n target c : Node} {access : Access}
    (h : n.writing? = some (access, target)) (hc : c ∈ target.writtenParts) :
    c ∈ n.visitedParts := by
  refine List.mem_append_left _ ?_
  unfold writing? at h
  split at h
  case h_1 hk =>
    obtain ⟨left, hleft, hpair⟩ := Option.map_eq_some_iff.mp h
    cases hpair
    simp [looseParts, hk, hleft, hc]
  case h_2 hk | h_3 hk =>
    split at h
    · rename_i hcounts
      obtain ⟨operand, hoperand, hpair⟩ := Option.map_eq_some_iff.mp h
      cases hpair
      simp only [looseParts, hk, unaryParts, hoperand, hcounts, if_true]
      exact hc
    · cases h
  case h_4 hk =>
    split at h
    · rename_i hword
      obtain ⟨value, hvalue, hpair⟩ := Option.map_eq_some_iff.mp h
      cases hpair
      simp only [looseParts, hk, argumentParts, hvalue, hword, if_true]
      exact hc
    · cases h
  case h_5 => cases h

section Referents

variable {x operand : Node} (hk : x.kind = .prefixUnaryExpression)
  (hoperand : x.lastChild? = some operand)
include hk hoperand

theorem operand_mem_operandParts {c : Node} (hx : c.unparenthesize = x) :
    operand ∈ c.operandParts := by
  simp [operandParts, hx, hk, hoperand]

theorem operand_mem_writtenParts {c : Node} (hx : x ∈ c.singleTargets) :
    operand ∈ c.writtenParts := by
  obtain ⟨p, hp, rfl⟩ := List.mem_map.mp hx
  refine List.mem_flatMap.mpr ⟨p, hp, ?_⟩
  rw [targetParts, if_neg (by simp [hk])]
  exact operand_mem_operandParts hk hoperand (unparenthesize_of_mem_targets hp)

/-- Of a prefix expression that is taken for storage the operand is visited. -/
theorem operand_mem_visitedParts {n : Node} (hx : x ∈ n.referents) :
    operand ∈ n.visitedParts := by
  have hwritten : x ∈ n.writing?.toList.flatMap (·.2.singleTargets) → operand ∈ n.visitedParts := by
    intro h
    obtain ⟨⟨access, target⟩, htarget, hx⟩ := List.mem_flatMap.mp h
    exact mem_visitedParts_of_writing? (Option.mem_toList.mp htarget)
      (operand_mem_writtenParts hk hoperand hx)
  unfold referents at hx
  split at hx
  case h_1 hn =>
    split at hx
    · -- the address of it is taken
      rename_i hamp
      obtain ⟨c, hc, hx⟩ := List.mem_map.mp hx
      have hlast : n.lastChild? = some c := Option.mem_toList.mp hc
      refine List.mem_append_left _ ?_
      simp only [looseParts, hn, unaryParts, Walk.unaryOperand?, if_true, hlast, hamp]
      exact operand_mem_operandParts hk hoperand hx
    · exact hwritten hx
  case h_2 hn =>
    obtain ⟨c, hc, hx⟩ := List.mem_map.mp hx
    refine List.mem_append_left _ ?_
    simp only [looseParts, hn]
    exact List.mem_flatMap.mpr ⟨c, hc, operand_mem_operandParts hk hoperand hx⟩
  case h_3 hn =>
    split at hx
    · cases hx
    · -- the loop declares no variable, so it writes what stands there
      rename_i hdeclares
      obtain ⟨c, hc, hx⟩ := List.mem_flatMap.mp hx
      obtain ⟨hc, hleft⟩ := List.mem_filter.mp hc
      have hleft : c.field = some .left := by simpa using hleft
      refine List.mem_append_right _ ?_
      simp only [innerParts, hn]
      refine List.mem_flatMap.mpr ⟨c, hc, ?_⟩
      rw [foreachParts, if_neg (by simp [hleft]), if_pos hleft, if_neg hdeclares]
      exact operand_mem_writtenParts hk hoperand hx
  case h_4 hn =>
    -- it is what a declarator pins
    obtain ⟨c, hc, hx⟩ := List.mem_flatMap.mp hx
    obtain ⟨hc, hdeclaration⟩ := List.mem_filter.mp hc
    obtain ⟨d, hd, hx⟩ := List.mem_flatMap.mp hx
    obtain ⟨value, hvalue, hx⟩ := List.mem_map.mp hx
    refine List.mem_append_right _ ?_
    simp only [innerParts, hn]
    refine List.mem_flatMap.mpr ⟨c, hc, ?_⟩
    rw [fixedParts, if_pos (by simpa using hdeclaration)]
    refine List.mem_flatMap.mpr ⟨d, hd, List.mem_flatMap.mpr ⟨value, hvalue, ?_⟩⟩
    exact operand_mem_operandParts hk hoperand hx
  case h_5 => exact hwritten hx

/-- Where a prefix expression is seen, it or its operand is visited. -/
theorem Sees.visits {n : Node} (h : n.Sees x) : n.Visits x ∨ n.Visits operand := by
  rcases h with h | ⟨-, p, hp, hx⟩
  · exact .inl h
  · exact .inr (hp.trans (.part (operand_mem_visitedParts hk hoperand hx) (.refl operand)))

end Referents

end Node

end ReadonlyLint
