import ReadonlyLint.Mutation.Analyze
import ReadonlyLint.Proofs.Coverage
import ReadonlyLint.Proofs.Members

/-!
Writes and calls on `this` are noticed. Wherever the body of a member evaluates a write of `this.f`,
the member shows evidence, and wherever it evaluates a call of `this.N`, the member uses the methods
`N`. There is one exception: a prefix increment of which only a reference is looked at.
-/
namespace ReadonlyLint

namespace Walk

theorem lasting_mutates : Lasting fun a => a.mutates = true := by
  intro w w' h hw
  simp only [LocalAnalysis.mutates, analysis, Bool.not_eq_true', List.isEmpty_eq_false_iff] at *
  exact fun hnil => hw (List.prefix_nil.mp (hnil ▸ h.evidence))

theorem lasting_uses (id : Nat) : Lasting fun a => id ∈ a.uses :=
  fun _ _ h hw => h.uses id hw

theorem mutates_record (w : Walk) (mutation : Mutation) (n : Node) :
    (w.record mutation n).analysis.mutates = true := by
  simp [LocalAnalysis.mutates, analysis, record]

/-! ## Writes -/

/-- `this.f` denotes the field, or memory behind a pointer. -/
theorem storage_of_isThisAccess {v : Viewpoint} {t : Node} {name : String} {field : Member}
    (ht : t.IsThisAccess name) (hfield : v.decl.resolve name = some (.field field))
    (hstatic : field.isStatic = false) (scope : Scope) :
    v.storage scope t = .field name ∨ v.storage scope t = .pointer := by
  obtain ⟨hk, ⟨base, hbase, hthis⟩, hname⟩ := ht
  have hself := v.storage_of_isThis scope hthis
  have hmember : v.memberStorage name = .field name := by
    simp [Viewpoint.memberStorage, hfield, hstatic]
  rw [Viewpoint.storage_eq, Node.unparenthesize_eq, if_neg (by simp [hk])]
  simp only [Viewpoint.storageOf, hk, hbase, Viewpoint.accessedMember, hname, hself, hmember]
  split
  · exact Or.inr rfl
  · exact Or.inl rfl

/-- The single targets of a tidy target are those that the write goes over. -/
theorem mem_targets_of_hasTarget {n t : Node} (h : n.HasTarget t) (hn : n.Tidy)
    (ht : t.isToken = false) (outer : List Node) : ∃ around, (around, t) ∈ n.targets outer := by
  induction h generalizing outer with
  | @single n t hholds hk =>
    have hinner := hholds.unparenthesize hn ht
    rw [Node.targets_eq, hinner, if_neg hk]
    exact ⟨outer, List.mem_singleton.mpr rfl⟩
  | @element n tuple a e t hholds hk ha hka he _ ih =>
    have hinner := hholds.unparenthesize hn (by simp [Node.isToken, hk])
    have htuple : tuple.Tidy := hinner ▸ hn.of_within (Node.within_unparenthesize n)
    have hmem := Node.mem_children_of_lastChild? he
    obtain ⟨around, hin⟩ := ih ((htuple.of_mem ha).of_mem hmem) ht (a :: tuple :: outer)
    rw [Node.targets_eq, hinner, if_pos hk]
    refine ⟨around, List.mem_flatMap.mpr ⟨a, mem_namedOfKind_of_child htuple ha hka hmem, ?_⟩⟩
    exact List.mem_flatMap.mpr ⟨e, by simp [he], hin⟩

theorem mutates_write {v : Viewpoint} {target t : Node} {name : String} {field : Member}
    (htidy : target.Tidy) (htarget : target.HasTarget t) (ht : t.IsThisAccess name)
    (hfield : v.decl.resolve name = some (.field field)) (hstatic : field.isStatic = false)
    (access : Access) (outer : List Node) (w : Walk) :
    (write v (visit v) access outer target w).analysis.mutates = true := by
  have hk := ht.1
  obtain ⟨around, hin⟩ := mem_targets_of_hasTarget htarget htidy (by simp [Node.isToken, hk]) outer
  unfold write
  refine lasting_mutates.foldl (R := fun _ => True) (fun _ h => h)
    (fun w p _ => growsTo_writeTarget (grows_visit v) access p.1 p.2 w) hin (fun w _ => ?_) trivial
  dsimp only
  rw [writeTarget_of_kept (by simp [hk]) (by simp [hk])]
  refine lasting_mutates (growsTo_visitOperands (grows_visit v) _ _ _) ?_
  -- either way the write is recorded
  rcases storage_of_isThisAccess ht hfield hstatic w.scope with hstorage | hstorage
  · rw [hstorage]
    exact mutates_record w _ t
  · rw [hstorage]
    exact mutates_record w _ t

theorem mutates_visit {v : Viewpoint} {n : Node} (hn : n.Tidy) (h : n.WritesThis v.decl)
    (outer : List Node) (w : Walk) : (visit v outer n w).analysis.mutates = true := by
  obtain ⟨target, t, name, field, hwritten, htarget, ht, hfield, hstatic⟩ := h
  have hwrite : target.Tidy → ∀ access outer w,
      (write v (visit v) access outer target w).analysis.mutates = true :=
    fun htidy => mutates_write htidy htarget ht hfield hstatic
  rw [visit_eq]
  unfold Node.written? at hwritten
  dsimp only at hwritten
  split at hwritten
  · rename_i hk
    have htidy := hn.of_mem (Node.mem_children_of_child? hwritten)
    simp only [step, hk, visitAssignment, hwritten]
    exact lasting_mutates (growsTo_visitPart (grows_visit v) _ _ _) (hwrite htidy _ _ w)
  · rename_i hk
    split at hwritten
    · rename_i hcounts
      have htidy := hn.of_mem (Node.mem_children_of_lastChild? hwritten)
      simp only [step, hk, visitUnary, unaryOperand?, hwritten, hcounts, if_true]
      exact hwrite htidy _ _ w
    · cases hwritten
  · rename_i hk
    split at hwritten
    · rename_i hcounts
      have htidy := hn.of_mem (List.mem_of_head? hwritten)
      simp only [step, hk, visitUnary, unaryOperand?, hwritten, hcounts, if_true]
      simpa using hwrite htidy _ _ w
    · cases hwritten
  · cases hwritten

/-! ## Calls -/

/-- The visit of `this.N`, in any number of parentheses, uses the methods `N`. -/
theorem uses_visit_of_holds {v : Viewpoint} {n t : Node} {name : String} {methods : List Member}
    {k : Member} (h : n.Holds t) (ht : t.IsThisAccess name)
    (hmethods : v.decl.resolve name = some (.methods methods)) (hk : k ∈ methods)
    (hstatic : k.isStatic = false) (outer : List Node) (w : Walk) :
    k.id ∈ (visit v outer n w).analysis.uses := by
  induction h generalizing outer w with
  | @self n _ =>
    obtain ⟨hkind, ⟨base, hbase, hthis⟩, hname⟩ := ht
    rw [visit_eq]
    simp only [step, hkind, visitMemberAccess, hbase, hthis, if_true, hname, useName, hmethods]
    refine MemberSet.mem_insertAll.mpr (Or.inl (List.mem_map.mpr ⟨k, ?_, rfl⟩))
    simp [hk, hstatic]
  | @inside n c t hparen hc hd _ ih =>
    -- parentheses visit all that stands in them
    rw [visit_eq]
    simp only [step, hparen]
    exact (lasting_uses k.id).visitChildren hc hd (R := fun _ => True) (fun _ h => h)
      (fun w _ => ih ht _ w) trivial

theorem uses_visit {v : Viewpoint} {n : Node} {name : String} {methods : List Member} {k : Member}
    (h : n.CallsThis name) (hmethods : v.decl.resolve name = some (.methods methods))
    (hk : k ∈ methods) (hstatic : k.isStatic = false) (outer : List Node) (w : Walk) :
    k.id ∈ (visit v outer n w).analysis.uses := by
  obtain ⟨hkind, function, t, hfunction, hholds, ht⟩ := h
  have hfield : function.field = some .function := by simpa using List.find?_some hfunction
  have hd : function.isDeclared = false := by simp [Node.isDeclared, hfield, Field.isDeclarative]
  rw [visit_eq]
  simp only [step, hkind, visitInvocation]
  exact (lasting_uses k.id).visitChildren (Node.mem_children_of_child? hfunction) hd
    (R := fun _ => True) (fun _ h => h)
    (fun w _ => uses_visit_of_holds hholds ht hmethods hk hstatic _ w) trivial

/-! ## Both are sought -/

theorem sought_write {v : Viewpoint} {q : Position} (htidy : q.node.Tidy) (hrole : q.role = .code)
    (h : q.node.WritesThis v.decl) (hreferred : ¬ q.IsReferredTo) :
    Sought v (fun a => a.mutates = true) q := by
  have hvisited := fun w => mutates_visit htidy h (bare q.path) w
  obtain ⟨target, t, name, field, hwritten, -⟩ := h
  unfold Node.written? at hwritten
  dsimp only at hwritten
  refine
    { lasting := lasting_mutates
      role := hrole
      kind := ?_
      branches := fun hnil => ?_
      visited := hvisited
      counts := fun hk => ?_
      recorded := fun _ => Or.inr mutates_record
      referred := fun h => absurd h hreferred
      untupled := fun hk => by simp [hk] at hwritten }
  · split at hwritten <;> simp_all [soughtKinds]
  · split at hwritten <;> simp_all [Node.child?, Node.lastChild?]
  · simp only [hk] at hwritten
    split at hwritten
    · rename_i hcounts
      simpa only [Bool.or_eq_true, decide_eq_true_eq] using hcounts
    · cases hwritten

theorem sought_call {v : Viewpoint} {q : Position} {name : String} {methods : List Member}
    {k : Member} (hrole : q.role = .code) (h : q.node.CallsThis name)
    (hmethods : v.decl.resolve name = some (.methods methods)) (hk : k ∈ methods)
    (hstatic : k.isStatic = false) : Sought v (fun a => k.id ∈ a.uses) q where
  lasting := lasting_uses k.id
  role := hrole
  kind := by simp [soughtKinds, h.1]
  branches := fun hnil => by
    obtain ⟨-, function, t, hfunction, -⟩ := h
    simp [Node.child?, hnil] at hfunction
  visited := fun w => uses_visit h hmethods hk hstatic (bare q.path) w
  counts := fun hunary => by simp [h.1] at hunary
  recorded := fun hunary => by simp [h.1] at hunary
  referred := fun hreferred => by
    have hunary := hreferred.1
    simp [h.1] at hunary
  untupled := fun hargument => by simp [h.1] at hargument

end Walk

/-! ## The law -/

theorem Position.Reaches.within {p q : Position} (h : p.Reaches q) : q.node.Within p.node := by
  induction h with
  | refl => exact Node.within_refl p.node
  | tail _ hstep ih =>
    obtain ⟨part, hpart, -, rfl⟩ := hstep
    exact (Node.within_of_mem (Node.mem_children_of_mem_parts hpart)).trans ih

theorem StructDecl.analyzeMember_of_body {d : StructDecl} {m : Member} {body : Node}
    (hbody : m.body = some body) (hfield : m.isField = false) (hsynthesized : m.synthesized = false)
    (hstatic : m.isStatic = false) (hinit : m.kind.isInitOnly = false)
    (hmalformed : m.malformed = false) :
    d.analyzeMember m = (Walk.visit (d.viewpoint m) [] body (Walk.start m)).analysis := by
  simp [analyzeMember, hbody, hfield, hsynthesized, hstatic, hinit, hmalformed]

/-- A member notices every write of a field through `this` that its body evaluates, except for a
prefix increment of which only a reference is looked at, and every call of a method through
`this`. -/
theorem a_write_or_call_on_this_is_noticed {root : Node} {d : StructDecl} {m : Member} {body : Node}
    (hd : d ∈ StructDecl.ofTree root) (hm : m ∈ d.members) (hbody : m.body = some body)
    (hstatic : m.isStatic = false) (hinit : m.kind.isInitOnly = false)
    (hmalformed : m.malformed = false) (htidy : body.Tidy) {q : Position}
    (hq : (Position.ofBody m.returns body).Reaches q) (hrole : q.role = .code) :
    (q.node.WritesThis d → ¬ q.IsReferredTo → (d.analyzeMember m).mutates = true) ∧
    ∀ name methods, q.node.CallsThis name → d.resolve name = some (.methods methods) →
      ∀ k ∈ methods, k.isStatic = false → k.id ∈ (d.analyzeMember m).uses := by
  obtain ⟨hfield, hsynthesized⟩ :=
    StructDecl.allMembers_ofTree StructDecl.given_inspected hd m hm (by simp [hbody])
  rw [StructDecl.analyzeMember_of_body hbody hfield hsynthesized hstatic hinit hmalformed]
  refine ⟨fun hwrites hreferred => ?_, fun name methods hcalls hmethods k hk hkstatic => ?_⟩
  · have hsought := Walk.sought_write (v := d.viewpoint m) (htidy.of_within hq.within) hrole hwrites
      hreferred
    exact Walk.shown hsought htidy [] m.returns hq (Walk.start m) rfl
  · have hsought := Walk.sought_call (v := d.viewpoint m) hrole hcalls hmethods hk hkstatic
    exact Walk.shown hsought htidy [] m.returns hq (Walk.start m) rfl

theorem isThisAccess_thisAccess (name : String) (start : Nat) (field : Option Field) :
    { Node.thisAccess name start with field }.IsThisAccess name := by
  refine ⟨rfl, ⟨_, rfl, ?_⟩, ?_⟩
  · rw [Node.isThis, Node.unparenthesize_eq]
    rfl
  · change (Node.tree .identifier name (start + 5) [] (some .name)).simpleName? = some name
    rw [Node.simpleName?_eq]
    rfl

/-- The subscript `[this.f++]` at the offset 30. -/
def countingSubscript : Node :=
  .tree (.other "bracketed_argument_list") "[this.f++]" 30
    [.word (.other "[") "[" 30, .tree .argument "this.f++" 31 [.thisIncrement "f" 31],
     .word (.other "]") "]" 39] (some .subscript)

/-- The call `this.M()` at the offset 43. -/
def callOfM : Node :=
  .tree .invocationExpression "this.M()" 43
    [{ Node.thisAccess "M" 43 with field := some .function },
     .tree (.other "argument_list") "()" 49 [.word .openParen "(" 49, .word .closeParen ")" 50]
       (some .arguments)] (some .right)

/-- The assignment `g[this.f++] = this.M()`. -/
def countingAssignment : Node :=
  .tree .assignmentExpression "g[this.f++] = this.M()" 29
    [.tree .elementAccessExpression "g[this.f++]" 29
      [.tree .identifier "g" 29 [] (some .expression), countingSubscript] (some .left),
     .word .assign "=" 41, callOfM]

/-- The body `{ g[this.f++] = this.M(); }`. -/
def countingBody : Node :=
  .tree .block "\x7b g[this.f++] = this.M(); \x7d" 27
    [.word .openBrace "\x7b" 27,
     .tree (.other "expression_statement") "g[this.f++] = this.M();" 29
      [countingAssignment, .word (.other ";") ";" 51],
     .word .closeBrace "\x7d" 53] (some .body)

/-- The struct with that body of its method. -/
def countingDecl : StructDecl := (StructDecl.ofTree (.structWithBody countingBody)).head!

theorem a_counting_assignment_is_noticed :
    ∃ m ∈ countingDecl.members, m.body = some countingBody ∧
      (countingDecl.analyzeMember m).mutates = true ∧
      m.id ∈ (countingDecl.analyzeMember m).uses := by
  have hd : countingDecl ∈ StructDecl.ofTree (.structWithBody countingBody) := List.mem_cons_self
  have hm : countingDecl.members[1]! ∈ countingDecl.members :=
    Array.getElem_mem (i := 1) (by decide +kernel)
  have htidy : countingBody.Tidy := by
    unfold Node.Tidy
    decide +kernel
  refine ⟨countingDecl.members[1]!, hm, rfl, ?_, ?_⟩
  · -- the increment is the argument in the subscript of the target
    refine (a_write_or_call_on_this_is_noticed hd hm rfl (by decide +kernel) (by decide +kernel)
      (by decide +kernel) htidy
      (.of_part (.tail _ (.head _)) rfl <| .of_part (.head _) rfl <| .of_part (.head _) rfl <|
        .of_part (.tail _ (.head _)) rfl <| .of_part (.tail _ (.head _)) rfl <|
        .of_part (.head _) rfl (.refl _)) rfl).1 ?_ fun h => absurd h.1 (by decide)
    exact ⟨.thisAccess "f" 31, .thisAccess "f" 31, "f", countingDecl.members[0]!, rfl,
      .single (.self (by decide)) (by decide), isThisAccess_thisAccess "f" 31 none, rfl,
      by decide +kernel⟩
  · -- the call is the value that is assigned
    refine (a_write_or_call_on_this_is_noticed hd hm rfl (by decide +kernel) (by decide +kernel)
      (by decide +kernel) htidy
      (.of_part (.tail _ (.head _)) rfl <| .of_part (.head _) rfl <|
        .of_part (.tail _ (.head _)) rfl (.refl _)) rfl).2 "M" [countingDecl.members[1]!] ?_ rfl
      countingDecl.members[1]! List.mem_cons_self (by decide +kernel)
    exact ⟨rfl, _, _, rfl, .self (by decide), isThisAccess_thisAccess "M" 43 (some .function)⟩

/-- The expression `++this.f` at the offset 45. -/
def pinnedIncrement : Node :=
  .tree .prefixUnaryExpression "++this.f" 45 [.word .increment "++" 45, .thisAccess "f" 47]

/-- The body `{ fixed (int* p = ++this.f) { } }`. -/
def pinningBody : Node :=
  .tree .block "\x7b fixed (int* p = ++this.f) \x7b \x7d \x7d" 27
    [.word .openBrace "\x7b" 27,
     .tree .fixedStatement "fixed (int* p = ++this.f) \x7b \x7d" 29
      [.word (.other "fixed") "fixed" 29, .word .openParen "(" 35,
       .tree .variableDeclaration "int* p = ++this.f" 36
        [.tree .pointerType "int*" 36
          [.tree .predefinedType "int" 36 [] (some .type), .word .star "*" 39] (some .type),
         .tree .variableDeclarator "p = ++this.f" 41
          [.tree .identifier "p" 41 [] (some .name), .word .assign "=" 43, pinnedIncrement]],
       .word .closeParen ")" 53,
       .tree .block "\x7b \x7d" 55 [.word .openBrace "\x7b" 55, .word .closeBrace "\x7d" 57]],
     .word .closeBrace "\x7d" 59] (some .body)

/-- The struct with that body of its method. -/
def pinningDecl : StructDecl := (StructDecl.ofTree (.structWithBody pinningBody)).head!

/-- Of a prefix increment that is pinned, the write goes unnoticed. -/
theorem a_pinned_increment_is_overlooked :
    ∃ m ∈ pinningDecl.members, m.body = some pinningBody ∧ pinningBody.Tidy ∧
      (∃ q, (Position.ofBody m.returns pinningBody).Reaches q ∧ q.role = .code ∧
        q.node.WritesThis pinningDecl) ∧
      m.isStatic = false ∧ m.kind.isInitOnly = false ∧ m.malformed = false ∧
      (pinningDecl.analyzeMember m).mutates = false := by
  have hm : pinningDecl.members[1]! ∈ pinningDecl.members :=
    Array.getElem_mem (i := 1) (by decide +kernel)
  have htidy : pinningBody.Tidy := by
    unfold Node.Tidy
    decide +kernel
  refine ⟨pinningDecl.members[1]!, hm, rfl, htidy,
    ⟨_, .of_part (.tail _ (.head _)) rfl <| .of_part (.tail _ (.tail _ (.head _))) rfl <|
      .of_part (.head _) rfl <| .of_part (.head _) rfl (.refl _), rfl, ?_⟩, by decide +kernel,
    by decide +kernel, by decide +kernel, by decide +kernel⟩
  exact ⟨.thisAccess "f" 47, .thisAccess "f" 47, "f", pinningDecl.members[0]!, rfl,
    .single (.self (by decide)) (by decide), isThisAccess_thisAccess "f" 47 none, rfl,
    by decide +kernel⟩

end ReadonlyLint
