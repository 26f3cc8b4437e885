import ReadonlyLint.Proofs.Loops

/-!
Copies of pointers. A local that is declared with a pointer type and starts as a pointer into the
instance is known as one; then every write through it is noted, and every call that it is passed to
by value. By `ref` or `out` it is given away without a note. What decides is how the type is
written: under `var` the same copy is a plain local, its elements count as storage outside of the
instance, and it can be passed on without a note.
-/
namespace ReadonlyLint

open Node

/-! ## Evidence that is added -/

namespace Walk

/-- The evidence was found between the two states. -/
def Adds (w w' : Walk) (e : Evidence) : Prop :=
  ∃ found, w'.evidence = w.evidence ++ found ∧ e ∈ found

theorem adds_record (w : Walk) (mutation : Mutation) (n : Node) :
    w.Adds (w.record mutation n) { mutation, span := some n.span } :=
  ⟨[_], rfl, List.mem_singleton_self _⟩

theorem Adds.after {a b c : Walk} {e : Evidence} (hadds : b.Adds c e) (h : a.GrowsTo b) :
    a.Adds c e := by
  obtain ⟨found, hfound, he⟩ := hadds
  obtain ⟨before, hbefore⟩ := h.evidence
  exact ⟨before ++ found, by rw [hfound, ← hbefore, List.append_assoc],
    List.mem_append_right before he⟩

theorem Adds.before {a b c : Walk} {e : Evidence} (hadds : a.Adds b e) (h : b.GrowsTo c) :
    a.Adds c e := by
  obtain ⟨found, hfound, he⟩ := hadds
  obtain ⟨later, hlater⟩ := h.evidence
  exact ⟨found ++ later, by rw [← hlater, hfound, List.append_assoc],
    List.mem_append_left later he⟩

end Walk

/-! ## What a declaration binds -/

/-- The declarator leaves the name bound in the block of its declaration. -/
def Node.Declares (declarator : Node) (name : String) : Prop :=
  name ∈ (declarator.child? .name).toList.map (·.text) ∨
    ∃ c ∈ declarator.declaratorParts, c.Leaves name

/-- The type of a declaration is written as a reference, `scoped` aside. -/
def Node.isRefType (type : Node) : Bool := ReturnMode.ofType type.stripScoped ≠ .value

namespace Walk

variable {v : Viewpoint}

theorem declaredKind_of_pointerType {type value : Node} (htype : type.kind = .pointerType)
    {scope : Scope} (hvalue : isInstancePointer scope value = true) :
    declaredKind v scope (some type) (some value) = .pointer true := by
  have hvalueMode : ReturnMode.ofType type.stripScoped = .value := by
    simp [ReturnMode.ofType, stripScoped, htype]
  simp [declaredKind, hvalueMode, htype, hvalue]

theorem declaredKind_of_otherType {type value : Node} (hpointer : type.kind ≠ .pointerType)
    (href : type.isRefType = false) (scope : Scope) :
    declaredKind v scope (some type) (some value) = .plain := by
  have hvalueMode : ReturnMode.ofType type.stripScoped = .value := by
    simpa [isRefType] using href
  simp [declaredKind, hvalueMode, hpointer]

/-- Visits of nodes that do not leave the name leave it as it is. -/
theorem lookup_foldl_visit {nodes : List Node} {name : String} (h : ∀ c ∈ nodes, ¬ c.Leaves name)
    (around : List Node) (w : Walk) :
    (nodes.foldl (fun w c => visit v around c w) w).scope.lookup name = w.scope.lookup name := by
  have hbinds := (effects_binds v).foldl _ nodes
    (fun w c _ => (effects_binds v).visit around c w) w
  apply hbinds.lookup
  rintro ⟨c, hc, hleaves⟩
  exact h c hc hleaves

/-- A declarator binds its name as its type and its value say. -/
theorem lookup_visitDeclarator {declarator name : Node}
    (hname : declarator.child? .name = some name)
    (hpatterns : ∀ c ∈ declarator.namedOfKind .tuplePattern, ¬ c.Leaves name.text)
    (outer : List Node) (type : Option Node) (w : Walk) :
    (visitDeclarator v (visit v) outer type declarator w).scope.lookup name.text =
      some (declaredKind v w.scope type declarator.initializer?) := by
  unfold visitDeclarator
  rw [hname, lookup_foldl_visit hpatterns]
  exact Scope.lookup_declare_self _ _ _

/-- Later declarators that do not bind the name leave it as it is. -/
theorem lookup_declarators {declarators : List Node} {name : String}
    (h : ∀ d ∈ declarators, ¬ d.Declares name) (outer : List Node) (type : Option Node)
    (w : Walk) :
    (declarators.foldl (fun w d => visitDeclarator v (visit v) outer type d w) w).scope.lookup name =
      w.scope.lookup name := by
  have hbinds := (effects_binds v).foldl _ declarators (fun w d _ =>
    (effects_binds v).visitDeclarator _ v outer type d
      ((effects_binds v).bindsAfter (effects_binds v).bind _ _) ((effects_binds v).follows _) w) w
  apply hbinds.lookup
  rintro ⟨d, hd, hparts | hown⟩
  · exact h d hd (.inr hparts)
  · exact h d hd (.inl hown)

/-- The state in which a declaration comes to the declarator after the given ones. -/
def declared (v : Viewpoint) (outer : List Node) (n : Node) (before : List Node) (w : Walk) : Walk :=
  before.foldl (fun w d => visitDeclarator v (visit v) (n.around outer) (n.child? .type) d w) w

/-- A declaration binds the name of a declarator, unless a later part of it binds the name anew. -/
theorem lookup_variableDeclaration {n declarator name : Node} {before after : List Node}
    (hn : n.kind = .variableDeclaration) (hsplit : n.declarators = before ++ declarator :: after)
    (hname : declarator.child? .name = some name)
    (hpatterns : ∀ c ∈ declarator.namedOfKind .tuplePattern, ¬ c.Leaves name.text)
    (hafter : ∀ d ∈ after, ¬ d.Declares name.text) (outer : List Node) (w : Walk) :
    (visit v outer n w).scope.lookup name.text =
      some (declaredKind v (declared v outer n before w).scope (n.child? .type)
        declarator.initializer?) := by
  have hvisit : visit v outer n w = after.foldl
      (fun w d => visitDeclarator v (visit v) (n.around outer) (n.child? .type) d w)
      (visitDeclarator v (visit v) (n.around outer) (n.child? .type) declarator
        (declared v outer n before w)) := by
    rw [visit_eq]
    simp only [step, hn, visitVariableDeclaration, hsplit, List.foldl_append, List.foldl_cons]
    rfl
  rw [hvisit, lookup_declarators hafter, lookup_visitDeclarator hname hpatterns]

end Walk

/-! ## Pointers that are derived from a name -/

/-- The expression is the name, or a cast of or a sum with such an expression. -/
inductive Node.DerivesFrom (name : String) : Node → Prop
  | name {x : Node} : x.unparenthesize.IsName name → DerivesFrom name x
  | cast {x y : Node} : x.unparenthesize.kind = .castExpression →
      x.unparenthesize.child? .value = some y → DerivesFrom name y → DerivesFrom name x
  | left {x y : Node} : x.unparenthesize.kind = .binaryExpression →
      x.unparenthesize.child? .left = some y → DerivesFrom name y → DerivesFrom name x
  | right {x y : Node} : x.unparenthesize.kind = .binaryExpression →
      x.unparenthesize.child? .right = some y → DerivesFrom name y → DerivesFrom name x

theorem Walk.isInstancePointer_of_derivesFrom {name : String} {x : Node} (h : x.DerivesFrom name)
    {scope : Scope} (hname : scope.lookup name = some (.pointer true)) :
    isInstancePointer scope x = true := by
  induction h with
  | name hx =>
    rw [isInstancePointer_eq]
    simp [instancePointerOf, hx.1, hx.2, hname]
  | cast hk hy _ ih =>
    rw [isInstancePointer_eq]
    simp [instancePointerOf, hk, hy, ih]
  | left hk hy _ ih =>
    rw [isInstancePointer_eq]
    simp [instancePointerOf, hk, hy, ih]
  | right hk hy _ ih =>
    rw [isInstancePointer_eq]
    simp [instancePointerOf, hk, hy, ih]

/-! ## Writes through a pointer -/

/-- The target is an element `q[…]` of the name. -/
def Node.IsElementOf (t : Node) (name : String) : Prop :=
  t.kind = .elementAccessExpression ∧
    ∃ base, t.child? .expression = some base ∧ base.unparenthesize.IsName name

/-- The target is reached through the name as a pointer: `q[…]`, `q->x` or `*q`. -/
def Node.IsThrough (t : Node) (name : String) : Prop :=
  t.IsElementOf name ∨
    (t.kind = .memberAccessExpression ∧ t.hasChildOfKind .pointerArrow = true ∧
      ∃ base, t.child? .expression = some base ∧ base.unparenthesize.IsName name) ∨
    (t.kind = .prefixUnaryExpression ∧ t.operatorToken? = some .star ∧
      ∃ base, t.lastChild? = some base ∧ base.unparenthesize.IsName name)

namespace Viewpoint

theorem storage_of_isElementOf (v : Viewpoint) {t : Node} {name : String} (h : t.IsElementOf name)
    (scope : Scope) : v.storage scope t = v.select (v.nameStorage scope name) .indexer := by
  obtain ⟨hk, base, hbase, hname⟩ := h
  have hpart : v.storage scope base = v.nameStorage scope name := by
    rw [storage_eq]
    simp [storageOf, hname.1, hname.2]
  rw [storage_eq, unparenthesize_of_ne (by simp [hk])]
  simp [storageOf, hk, hbase, hpart]

theorem storage_of_isThrough (v : Viewpoint) {t : Node} {name : String} (h : t.IsThrough name)
    {scope : Scope} {intoInstance : Bool} (hname : scope.lookup name = some (.pointer intoInstance)) :
    v.storage scope t = .pointer := by
  rcases h with h | ⟨hk, harrow, -⟩ | ⟨hk, hstar, -⟩
  · rw [v.storage_of_isElementOf h]
    simp [nameStorage, hname, select]
  · rw [storage_eq, unparenthesize_of_ne (by simp [hk])]
    simp [storageOf, hk, harrow]
  · rw [storage_eq, unparenthesize_of_ne (by simp [hk])]
    simp [storageOf, hk, hstar]

end Viewpoint

namespace Walk

variable {v : Viewpoint}

/-- A target that is reached through a pointer is noted when it is written. -/
theorem adds_writeTarget {t : Node} {name : String} (hthrough : t.IsThrough name) {w : Walk}
    {intoInstance : Bool} (hname : w.scope.lookup name = some (.pointer intoInstance))
    (access : Access) (outer : List Node) :
    w.Adds (writeTarget v (visit v) access outer t w)
      { mutation := .pointerWrite, span := some t.span } := by
  have hkind : t.kind ≠ .declarationExpression ∧ t.kind ≠ .identifier := by
    rcases hthrough with ⟨hk, -⟩ | ⟨hk, -⟩ | ⟨hk, -⟩ <;> simp [hk]
  rw [writeTarget_of_kept hkind.1 fun hk => absurd hk hkind.2,
    v.storage_of_isThrough hthrough hname]
  exact (adds_record w .pointerWrite t).before (growsTo_visitOperands (grows_visit v) _ _ _)

/-- So it is when it is one of several targets, unless one before it binds the name anew. -/
theorem adds_write {target t : Node} {name : String} {outer place : List Node}
    {earlier rest : List (List Node × Node)}
    (htargets : target.targets outer = earlier ++ (place, t) :: rest)
    (hthrough : t.IsThrough name)
    (hearlier : ∀ p ∈ earlier, ∀ c ∈ p.2.targetParts, ¬ c.Leaves name) (access : Access) {w : Walk}
    {intoInstance : Bool} (hname : w.scope.lookup name = some (.pointer intoInstance)) :
    w.Adds (write v (visit v) access outer target w)
      { mutation := .pointerWrite, span := some t.span } := by
  have hbinds := (effects_binds v).foldl _ earlier (fun w p _ =>
    (effects_binds v).writeTarget _ ((effects_binds v).writes access p.2)
      ((effects_binds v).follows _) p.1 w) w
  have hunbound : name ∉ { s | ∃ p ∈ earlier, s ∈ gathered (fun c => { s | c.Leaves s })
      p.2.targetParts } := by
    rintro ⟨p, hp, c, hc, hleaves⟩
    exact hearlier p hp c hc hleaves
  have hreached := (hbinds.lookup hunbound).trans hname
  have hgrows : ∀ (l : List (List Node × Node)) (w : Walk),
      w.GrowsTo (l.foldl (fun w p => writeTarget v (visit v) access p.1 p.2 w) w) := fun l w =>
    growsTo_foldl _ l (fun w p _ => growsTo_writeTarget (grows_visit v) access p.1 p.2 w) w
  have htarget := adds_writeTarget (v := v) hthrough hreached access place
  unfold write
  rw [htargets, List.foldl_append, List.foldl_cons]
  exact (htarget.after (hgrows earlier w)).before (hgrows rest _)

end Walk

/-! ## Calls that a pointer is passed to -/

/-- The value is passed by the node: the node is an argument with this value, not passed by `ref` or
`out`, or a call with such an argument. Nothing that a call evaluates before it leaves the name. -/
inductive Node.PassedBy (name : String) (value : Node) : Node → Prop
  | argument {n : Node} : n.kind = .argument → Walk.passing? n ≠ some .refToken →
      Walk.passing? n ≠ some .outToken → n.lastChild? = some value → PassedBy name value n
  | call {n c : Node} {before after : List Node} :
      n.kind = .invocationExpression ∨ n.kind = .other "argument_list" →
      n.evaluatedChildren = before ++ c :: after → (∀ b ∈ before, ¬ b.Leaves name) →
      PassedBy name value c → PassedBy name value n

namespace Walk

variable {v : Viewpoint}

/-- A call checks what it calls, which changes no name, and then visits its parts. -/
theorem visit_call {n : Node} (h : n.kind = .invocationExpression ∨ n.kind = .other "argument_list")
    (outer : List Node) (w : Walk) :
    ∃ w', w.GrowsTo w' ∧ (∀ name, w'.scope.lookup name = w.scope.lookup name) ∧
      visit v outer n w = visitChildren (visit v) outer n w' := by
  rw [visit_eq]
  rcases h with hk | hk
  · cases hfunction : n.child? .function with
    | none =>
      refine ⟨w, .refl w, fun _ => rfl, ?_⟩
      simp only [step, hk, visitInvocation, hfunction]
    | some function =>
      have hbinds := (effects_binds v).checkCall v fun mutation _ =>
        (effects_binds v).record w mutation function.unparenthesize
      refine ⟨checkCall v function w, growsTo_checkCall v function w,
        fun name => hbinds.lookup (Set.notMem_empty name), ?_⟩
      simp only [step, hk, visitInvocation, hfunction]
  · refine ⟨w, .refl w, fun _ => rfl, ?_⟩
    simp only [step, hk]

/-- A pointer into the instance that is passed to a call is noted. -/
theorem adds_of_passedBy {n value : Node} {name : String} (h : value.PassedBy name n)
    (hvalue : value.DerivesFrom name) (outer : List Node) {w : Walk}
    (hname : w.scope.lookup name = some (.pointer true)) :
    w.Adds (visit v outer n w)
      { mutation := .referenceEscape value.text, span := some value.span } := by
  induction h generalizing outer w with
  | argument hk href hout hlast =>
    have hpointer := isInstancePointer_of_derivesFrom hvalue hname
    rw [visit_eq]
    simp only [step, hk, visitArgument, hlast, href, hout, hpointer, decide_false, Bool.or_self,
      Bool.false_eq_true, if_false, if_true]
    exact (adds_record w (.referenceEscape value.text) value).before (grows_visit v _ _ _)
  | @call n c before after hk hsplit hbefore _ ih =>
    obtain ⟨w', hgrows, hscope, hvisit⟩ := visit_call hk outer w
    have hgrowsAll : ∀ (l : List Node) (w : Walk),
        w.GrowsTo (l.foldl (fun w c => visit v (n.around outer) c w) w) := fun l w =>
      growsTo_foldl _ l (fun w c _ => grows_visit v _ c w) w
    have hreached := lookup_foldl_visit (v := v) hbefore (n.around outer) w'
    rw [hscope name, hname] at hreached
    rw [hvisit, visitChildren_eq, hsplit, List.foldl_append, List.foldl_cons]
    exact ((ih (n.around outer) hreached).after (hgrows.trans (hgrowsAll before w'))).before
      (hgrowsAll after _)

/-- The write of a pointer variable itself changes nothing. -/
theorem writeTarget_of_pointer {t : Node} {name : String} (ht : t.IsName name) {w : Walk}
    {intoInstance : Bool} (hname : w.scope.lookup name = some (.pointer intoInstance))
    (access : Access) (outer : List Node) : writeTarget v (visit v) access outer t w = w := by
  obtain ⟨hk, rfl⟩ := ht
  -- a name that is bound is no discard
  have hkept : t.kind = .identifier → t.text = "_" → w.scope.binds "_" = true := by
    intro _ hunderscore
    rw [← hunderscore, Scope.binds, hname]
    rfl
  have hsingle : t.unparenthesize = t := unparenthesize_of_ne (by simp [hk])
  have hstorage : v.storage w.scope t = .pointerVariable intoInstance := by
    rw [v.storage_eq, hsingle]
    simp [Viewpoint.storageOf, hk, Viewpoint.nameStorage, hname]
  rw [writeTarget_of_kept (by simp [hk]) hkept, hstorage, writeStorage]
  simp only [visitOperands, hsingle, hk]

/-- So an argument that passes it by `ref` or `out` changes nothing. -/
theorem visit_of_reference {n value : Node} {name : String} (hk : n.kind = .argument)
    (hword : passing? n = some .refToken ∨ passing? n = some .outToken)
    (hlast : n.lastChild? = some value) (hvalue : value.unparenthesize.IsName name)
    (outer : List Node) {w : Walk} {intoInstance : Bool}
    (hname : w.scope.lookup name = some (.pointer intoInstance)) : visit v outer n w = w := by
  have htargets : value.targets (n.around outer) = [(n.around outer, value.unparenthesize)] := by
    rw [targets_eq, if_neg (by simp [hvalue.1])]
  have hword : (decide (passing? n = some .refToken) || decide (passing? n = some .outToken)) =
      true := by simpa using hword
  rw [visit_eq]
  simp only [step, hk, visitArgument, hlast, hword, if_true, write, htargets, List.foldl_cons,
    List.foldl_nil]
  exact writeTarget_of_pointer hvalue hname _ _

end Walk

/-! ## The law -/

/-- A local that a declaration starts as a pointer into the instance is known as one just when its
type is written as a pointer type; with another type, such as `var`, it is a plain local. The name
keeps that meaning until something binds it anew. While it is known as a pointer into the instance,
every write through it is noted at the target, and every call that it is passed to by value, as it
is or with casts and sums, is noted at the value. An argument that passes it by `ref` or `out` is
overlooked: it counts as a write of the pointer itself, which changes nothing of the instance. While
it is plain, its elements are storage outside of the instance, and it is no pointer into the
instance. -/
theorem a_pointer_copy_is_known_by_its_written_type (v : Viewpoint) (outer : List Node) (w : Walk)
    {n declarator name value type : Node} {before after : List Node}
    (hn : n.kind = .variableDeclaration) (hsplit : n.declarators = before ++ declarator :: after)
    (hname : declarator.child? .name = some name)
    (hvalue : declarator.initializer? = some value) (htype : n.child? .type = some type)
    (hcopy : Walk.isInstancePointer (Walk.declared v outer n before w).scope value = true)
    (hpatterns : ∀ c ∈ declarator.namedOfKind .tuplePattern, ¬ c.Leaves name.text)
    (hafter : ∀ d ∈ after, ¬ d.Declares name.text) :
    let bound := (Walk.visit v outer n w).scope.lookup name.text
    (type.kind = .pointerType → bound = some (.pointer true)) ∧
    (type.kind ≠ .pointerType → type.isRefType = false → bound = some .plain) ∧
    (∀ between : List (List Node × Node), (∀ p ∈ between, ¬ p.2.Leaves name.text) →
      (between.foldl (fun w p => Walk.visit v p.1 p.2 w)
        (Walk.visit v outer n w)).scope.lookup name.text = bound) ∧
    (∀ later : Walk, later.scope.lookup name.text = some (.pointer true) →
      (∀ (around : List Node) (x target t : Node) (access : Access) (place : List Node)
        (earlier rest : List (List Node × Node)), x.writing? = some (access, target) →
        target.targets (x :: around) = earlier ++ (place, t) :: rest → t.IsThrough name.text →
        (∀ p ∈ earlier, ∀ c ∈ p.2.targetParts, ¬ c.Leaves name.text) →
        later.Adds (Walk.visit v around x later)
          { mutation := .pointerWrite, span := some t.span }) ∧
      (∀ (around : List Node) (x passed : Node), passed.PassedBy name.text x →
        passed.DerivesFrom name.text →
        later.Adds (Walk.visit v around x later)
          { mutation := .referenceEscape passed.text, span := some passed.span }) ∧
      ∀ (around : List Node) (x passed : Node), x.kind = .argument →
        (Walk.passing? x = some .refToken ∨ Walk.passing? x = some .outToken) →
        x.lastChild? = some passed → passed.unparenthesize.IsName name.text →
        Walk.visit v around x later = later) ∧
    ∀ later : Walk, later.scope.lookup name.text = some .plain →
      (∀ t : Node, t.IsElementOf name.text → v.storage later.scope t = .outside) ∧
      ∀ x : Node, x.unparenthesize.IsName name.text →
        Walk.isInstancePointer later.scope x = false := by
  intro bound
  have hbound : bound = _ :=
    Walk.lookup_variableDeclaration hn hsplit hname hpatterns hafter outer w
  rw [htype, hvalue] at hbound
  refine ⟨fun hpointer => ?_, fun hpointer href => ?_, fun between hbetween => ?_,
    fun later hlater => ⟨?_, ?_, ?_⟩, fun later hlater => ⟨?_, ?_⟩⟩
  · rw [hbound, Walk.declaredKind_of_pointerType hpointer hcopy]
  · rw [hbound, Walk.declaredKind_of_otherType hpointer href]
  · exact Walk.lookup_visits v hbetween _
  · intro around x target t access place earlier rest hwriting htargets hthrough hearlier
    exact (Walk.adds_write htargets hthrough hearlier access hlater).before
      (Walk.growsTo_of_writing? hwriting around later)
  · intro around x passed hpassed hderives
    exact Walk.adds_of_passedBy hpassed hderives around hlater
  · intro around x passed hargument hword hlast hpassed
    exact Walk.visit_of_reference hargument hword hlast hpassed around hlater
  · intro t ht
    rw [v.storage_of_isElementOf ht]
    simp [Viewpoint.nameStorage, hlater, Viewpoint.select]
  · intro x hx
    rw [Walk.isInstancePointer_eq]
    simp [Walk.instancePointerOf, hx.1, hx.2, hlater]

/-! ## A copy with a pointer type, and one with `var` -/

/-- The type `int*`. -/
def pointerToInt (start : Nat) : Node :=
  .tree .pointerType "int*" start
    [.tree .predefinedType "int" start [] (some .type), .word .star "*" (start + 3)] (some .type)

/-- The type `var`. -/
def varType (start : Nat) : Node :=
  .tree .implicitType "var" start [.word (.other "var") "var" start] (some .type)

/-- The declarator `q = p`. -/
def copyDeclarator (start : Nat) : Node :=
  .tree .variableDeclarator "q = p" start
    [.tree .identifier "q" start [] (some .name), .word .assign "=" (start + 2),
     .tree .identifier "p" (start + 4)]

/-- The declaration of `q = p` with the given type. -/
def copyOfPointer (type : Node) : Node :=
  .tree .variableDeclaration (type.text ++ " q = p") type.span.start
    [type, copyDeclarator (type.span.stop + 1)]

/-- The expression `q[0]`. -/
def firstElement (start : Nat) : Node :=
  .tree .elementAccessExpression "q[0]" start
    [.tree .identifier "q" start [] (some .expression),
     .tree (.other "bracketed_argument_list") "[0]" (start + 1)
      [.word (.other "[") "[" (start + 1),
       .tree .argument "0" (start + 2) [.tree (.other "integer_literal") "0" (start + 2)],
       .word (.other "]") "]" (start + 3)] (some .subscript)] (some .left)

/-- The expression `q[0] = 1`. -/
def elementWrite (start : Nat) : Node :=
  .tree .assignmentExpression "q[0] = 1" start
    [firstElement start, .word .assign "=" (start + 5) (some .operator),
     .tree (.other "integer_literal") "1" (start + 7) [] (some .right)]

/-- A point where `p` is a pointer into the instance. -/
def pinnedPoint : Walk :=
  { scope := { blocks := [[("p", .pointer true)]], params := [] }, returnModes := [.value] }

/-- After `int* q = p` the write `q[0] = 1` is noted. -/
theorem a_write_through_a_copied_pointer_is_noted :
    let v : Viewpoint := ⟨oneField, none⟩
    let after := Walk.visit v [] (copyOfPointer (pointerToInt 58)) pinnedPoint
    Walk.isInstancePointer pinnedPoint.scope (.tree .identifier "p" 67) = true ∧
      after.scope.lookup "q" = some (.pointer true) ∧
      after.Adds (Walk.visit v [] (elementWrite 70) after)
        { mutation := .pointerWrite, span := some (firstElement 70).span } := by
  intro v after
  have hcopy : Walk.isInstancePointer pinnedPoint.scope (.tree .identifier "p" 67) = true := by
    decide +kernel
  have hdeclarators : (copyOfPointer (pointerToInt 58)).declarators = [] ++ copyDeclarator 63 :: [] :=
    rfl
  have hinitializer : (copyDeclarator 63).initializer? = some (.tree .identifier "p" 67) := rfl
  obtain ⟨hbound, -, -, hknown, -⟩ := a_pointer_copy_is_known_by_its_written_type v [] pinnedPoint
    (by rfl) hdeclarators (by rfl) hinitializer (by rfl) hcopy (by decide) (by simp)
  have hq := hbound rfl
  have htargets : (firstElement 70).targets [elementWrite 70] =
      [] ++ ([elementWrite 70], firstElement 70) :: [] := by
    rw [targets_of_isPath (by simp [IsPath, firstElement, tree, word])]
    rfl
  have hthrough : (firstElement 70).IsThrough "q" := by
    refine .inl ⟨rfl, _, rfl, ?_⟩
    rw [unparenthesize_of_ne (by decide)]
    exact ⟨rfl, rfl⟩
  exact ⟨hcopy, hq, (hknown after hq).1 [] (elementWrite 70) _ _ .assign _ _ _ rfl htargets hthrough
    (by simp)⟩

/-- The file
`unsafe struct S { int f; void M() { fixed (int* p = &f) { var q = p; q[0] = 1; } } }`. -/
def fileWithCopyUnderVar : Node :=
  let pin := .tree .variableDeclaration "int* p = &f" 43
    [pointerToInt 43, .tree .variableDeclarator "p = &f" 48
      [.tree .identifier "p" 48 [] (some .name), .word .assign "=" 50,
       .tree .prefixUnaryExpression "&f" 52
        [.word .ampersand "&" 52, .tree .identifier "f" 53]]]
  let pinned := .tree .block "\x7b var q = p; q[0] = 1; \x7d" 56
    [.word .openBrace "\x7b" 56,
     .tree (.other "local_declaration_statement") "var q = p;" 58
      [copyOfPointer (varType 58), .word (.other ";") ";" 67],
     .tree (.other "expression_statement") "q[0] = 1;" 69
      [elementWrite 69, .word (.other ";") ";" 77],
     .word .closeBrace "\x7d" 79]
  let fixed := .tree .fixedStatement ("fixed (int* p = &f) " ++ pinned.text) 36
    [.word (.other "fixed") "fixed" 36, .word .openParen "(" 42, pin, .word .closeParen ")" 54,
     pinned]
  let body := .tree .block ("\x7b " ++ fixed.text ++ " \x7d") 34
    [.word .openBrace "\x7b" 34, fixed, .word .closeBrace "\x7d" 81]
  let method := .voidMethod "M" 25 body
  let members := .tree (.other "declaration_list") ("\x7b int f; " ++ method.text ++ " \x7d") 16
    [.word .openBrace "\x7b" 16, .intField "f" 18, method, .word .closeBrace "\x7d" 83]
    (some .body)
  let text := "unsafe struct S " ++ members.text
  .tree (.other "compilation_unit") text 0
    [.tree .structDeclaration text 0
      [.tree .modifier "unsafe" 0 [.word (.other "unsafe") "unsafe" 0],
       .word .structToken "struct" 7, .tree .identifier "S" 14 [] (some .name), members]]

/-- Under `var` the copy of a pointer into the instance is a plain local, and the method that writes
the field through it shows nothing. -/
theorem a_copy_under_var_hides_a_write :
    let d := (StructDecl.ofTree fileWithCopyUnderVar).head!
    let m := d.members[1]!
    m.name = "M" ∧
      Walk.isInstancePointer pinnedPoint.scope (.tree .identifier "p" 66) = true ∧
      (Walk.visit (d.viewpoint m) [] (copyOfPointer (varType 58)) pinnedPoint).scope.lookup "q" =
        some .plain ∧
      (d.analyzeMember m).evidence = [] := by
  decide +kernel

end ReadonlyLint
