import ReadonlyLint.Proofs.Likeness

/-!
Trees that no rule can tell apart are visited alike. One lemma for each rule says that the rule does
the same at a node and at its image, when the visits of what is below do; `step_map` gathers them.
With the identity as the map this says that a visit that goes deep enough is the visit; the visit is
then its own step (`visit_eq`), and `visit_map` follows by induction on the tree.
-/
namespace ReadonlyLint

namespace Walk

/-! ## What a rule needs of the visit below -/

/-- The visit passes over loose comments. -/
def Quiet (go : Visit) : Prop := ∀ outer c w, c.isLoose → go outer c w = w

/-- All that the lemma for a rule asks for: the tree and the nodes around it are carried, both
visits pass over loose comments, and below the node the one visit does at a node what the other does
at its image. -/
structure Mirror (f : Node → Node) (outer : List Node) (n : Node) (go go' : Visit) : Prop where
  carries : Node.Carries f n
  outer : ∀ o ∈ outer, Node.Carries f o
  quiet : Quiet go
  quiet' : Quiet go'
  below : ∀ around c w, c.Below n → (∀ o ∈ around, Node.Carries f o) →
    go' (around.map f) (f c) w = go around c w

theorem around_map {f : Node → Node} {n : Node} (h : Node.Carries f n) (outer : List Node) :
    (f n).around (outer.map f) = (n.around outer).map f := by
  unfold Node.around
  rw [h.kind]
  split <;> rfl

theorem carries_around {f : Node → Node} {n : Node} {outer : List Node} (h : Node.Carries f n)
    (hout : ∀ o ∈ outer, Node.Carries f o) : ∀ o ∈ n.around outer, Node.Carries f o := by
  unfold Node.around
  split
  · exact hout
  · exact List.forall_mem_cons.mpr ⟨h, hout⟩

theorem foldl_filter_of_quiet {α : Type} {p : α → Bool} {s : Walk → α → Walk}
    (hs : ∀ w a, p a = false → s w a = w) (l : List α) (w : Walk) :
    (l.filter p).foldl s w = l.foldl s w := by
  induction l generalizing w with
  | nil => rfl
  | cons a l ih =>
    by_cases ha : p a
    · simp [ha, ih]
    · simp [ha, ih, hs w a (by simpa using ha)]

section Rules

variable {f : Node → Node} {outer : List Node} {n : Node} {go go' : Visit}

/-- The same at a child, whose rule gets the node among those around it. -/
theorem Mirror.child {c : Node} (h : Mirror f outer n go go') (hc : c ∈ n.children) :
    Mirror f (n.around outer) c go go' where
  carries := h.carries.of_mem hc
  outer := carries_around h.carries h.outer
  quiet := h.quiet
  quiet' := h.quiet'
  below := fun around x w hx => h.below around x w (hx.of_within (Node.within_of_mem hc))

/-- A fold over the children that passes over loose comments, and over the type of a new array. -/
theorem foldl_children_map (h : Mirror f outer n go go') {s s' : Walk → Node → Walk}
    (hquiet : ∀ w c, c.isLoose → s w c = w) (hquiet' : ∀ w c, c.isLoose → s' w c = w)
    (himage : ∀ c ∈ n.children, ∀ w, s' w (f c) = s w c)
    (htype : n.makesArray → ∀ w c, c.field = some .type → s w c = w ∧ s' w c = w) (w : Walk) :
    (f n).children.foldl s' w = n.children.foldl s w := by
  obtain ⟨g, hg, hsame⟩ := h.carries.alike.solid
  rw [← foldl_filter_of_quiet (p := (!·.isLoose)) (fun w c hc => hquiet' w c (by simpa using hc)),
    ← foldl_filter_of_quiet (p := (!·.isLoose)) (fun w c hc => hquiet w c (by simpa using hc))]
  change (f n).solid.foldl s' w = n.solid.foldl s w
  rw [hg, List.foldl_map]
  refine List.foldl_ext _ _ w fun w c hc => ?_
  rcases hsame c hc with he | ⟨hn, harray, hlabel⟩
  · rw [he]
    exact himage c (List.mem_filter.mp hc).1 w
  · -- the type of a new array is no image, but both turns pass over it
    have hfield := Node.field_of_isArrayType harray
    rw [(htype hn w c hfield).1, (htype hn w (g c) (hlabel.field.trans hfield)).2]

/-- The same where no array is made. -/
theorem foldl_parts_map (h : Mirror f outer n go go') (hn : n.makesArray = false)
    {s s' : Walk → Node → Walk} (hquiet : ∀ w c, c.isLoose → s w c = w)
    (hquiet' : ∀ w c, c.isLoose → s' w c = w)
    (himage : ∀ c ∈ n.children, ∀ w, s' w (f c) = s w c) (w : Walk) :
    (f n).children.foldl s' w = n.children.foldl s w :=
  foldl_children_map h hquiet hquiet' himage (fun hm => absurd hm (Bool.eq_false_iff.mp hn)) w

theorem declareName_map {name : Option Node} (hname : ∀ c ∈ name, Node.Carries f c)
    (kind : LocalKind) (w : Walk) :
    declareName (name.map f) kind w = declareName name kind w := by
  rcases name with _ | c
  · rfl
  · simp [declareName, declare, (hname c rfl).text]

theorem visitPart_map (h : Mirror f outer n go go') {around : List Node} {part : Option Node}
    (hout : ∀ o ∈ around, Node.Carries f o) (hpart : ∀ c ∈ part, c.Below n) (w : Walk) :
    visitPart go' (around.map f) (part.map f) w = visitPart go around part w := by
  rcases part with _ | c
  · rfl
  · exact h.below around c w (hpart c rfl) hout

theorem visitField_map (h : Mirror f outer n go go') (fld : Field)
    (hn : n.makesArray → fld ≠ .type) (w : Walk) :
    visitPart go' ((f n).around (outer.map f)) ((f n).child? fld) w =
      visitPart go (n.around outer) (n.child? fld) w := by
  rw [around_map h.carries, Node.child?_map h.carries.follows fld hn]
  exact visitPart_map h (carries_around h.carries h.outer) (fun c hc => Node.below_of_child? hc) w

theorem visitBase_map (h : Mirror f outer n go go') (w : Walk) :
    visitBase go' ((f n).around (outer.map f)) ((f n).child? .expression) w =
      visitBase go (n.around outer) (n.child? .expression) w := by
  unfold visitBase
  rw [around_map h.carries, Node.child?_map h.carries.follows .expression (by simp)]
  rcases hc : n.child? .expression with _ | base
  · rfl
  · simp only [Option.map_some, Option.filter_some, Node.isThis_map (h.carries.of_child? hc)]
    split
    · exact h.below _ base w (Node.below_of_child? hc) (carries_around h.carries h.outer)
    · rfl

theorem visitChildren_map (h : Mirror f outer n go go') (w : Walk) :
    visitChildren go' (outer.map f) (f n) w = visitChildren go outer n w := by
  unfold visitChildren
  refine foldl_children_map h ?_ ?_ ?_ ?_ w
  · intro w c hc
    simp [h.quiet _ c w hc]
  · intro w c hc
    simp [h.quiet' _ c w hc]
  · intro c hc w
    rw [(h.carries.of_mem hc).alike.label.field, around_map h.carries,
      h.below _ c w (Node.below_of_mem hc) (carries_around h.carries h.outer)]
  · intro _ w c hc
    simp [hc, Field.isDeclarative]

/-! ## Writes -/

theorem visitOperands_map (h : Mirror f outer n go go') (w : Walk) {target : Node}
    (ht : target.Below n) {around : List Node} (hout : ∀ o ∈ around, Node.Carries f o) :
    visitOperands go' (around.map f) (f target) w = visitOperands go around target w := by
  have hcar := h.carries.of_within ht.within
  have hinner := (Node.within_unparenthesize target).below ht
  have hm : Mirror f around target.unparenthesize go go' :=
    { carries := Node.carries_unparenthesize hcar
      outer := hout
      quiet := h.quiet
      quiet' := h.quiet'
      below := fun a c w hc => h.below a c w (hc.of_within hinner.within) }
  unfold visitOperands
  dsimp only
  rw [Node.unparenthesize_map hcar, hm.carries.kind]
  split
  · rfl
  · rfl
  · rfl
  · exact visitBase_map hm w
  · rw [visitBase_map hm, visitField_map hm .subscript (by simp)]
  · rename_i hk
    rw [around_map hm.carries, hm.carries.alike.last (Or.inl hk)]
    exact visitPart_map hm (carries_around hm.carries hm.outer)
      (fun c hc => Node.below_of_lastChild? hc) w
  · exact h.below around _ w hinner hout

theorem writeTarget_map (h : Mirror f outer n go go') (v : Viewpoint) (access : Access) (w : Walk)
    {t : Node} (ht : t.Below n) {around : List Node} (hout : ∀ o ∈ around, Node.Carries f o) :
    writeTarget v go' access (around.map f) (f t) w = writeTarget v go access around t w := by
  have hcar := h.carries.of_within ht.within
  have hstorage : ∀ storage, writeStorage v w access storage (f t) =
      writeStorage v w access storage t := by
    intro storage
    cases storage <;> simp [writeStorage, record, hcar.alike.label.span]
  unfold writeTarget
  rw [hcar.kind, hcar.text, h.below around t w ht hout, Node.storage_map hcar, hstorage,
    visitOperands_map h _ ht hout]

theorem carries_of_mem_targets {around : List Node} (h : Node.Carries f n)
    (hout : ∀ o ∈ around, Node.Carries f o) {p : List Node × Node} (hp : p ∈ n.targets around) :
    ∀ o ∈ p.1, Node.Carries f o := by
  induction n using Node.below_induction generalizing around with
  | step n ih =>
    rw [Node.targets_eq] at hp
    split at hp
    · obtain ⟨a, ha, hp⟩ := List.mem_flatMap.mp hp
      obtain ⟨e, he, hp⟩ := List.mem_flatMap.mp hp
      have htuple := Node.carries_unparenthesize h
      have harg := htuple.of_mem (Node.mem_children_of_namedOfKind ha)
      have hmem := Node.mem_children_of_lastChild? (Option.mem_toList.mp he)
      have hbelow : e.Below n := (Node.below_of_mem hmem).of_within
        ((Node.within_of_mem (Node.mem_children_of_namedOfKind ha)).trans
          (Node.within_unparenthesize n))
      -- around an element stand the argument and the tuple as well
      refine ih e hbelow (harg.of_mem hmem) ?_ hp
      exact List.forall_mem_cons.mpr ⟨harg, List.forall_mem_cons.mpr ⟨htuple, hout⟩⟩
    · rw [List.mem_singleton] at hp
      subst hp
      exact hout

theorem write_map (h : Mirror f outer n go go') (v : Viewpoint) (access : Access) (w : Walk)
    {target : Node} (ht : target.Below n) {around : List Node}
    (hout : ∀ o ∈ around, Node.Carries f o) :
    write v go' access (around.map f) (f target) w = write v go access around target w := by
  have hcar := h.carries.of_within ht.within
  unfold write
  rw [Node.targets_map hcar, List.foldl_map]
  refine List.foldl_ext _ _ w fun w p hp => ?_
  exact writeTarget_map h v access w ((Node.within_of_mem_targets hp).below ht)
    (carries_of_mem_targets hcar hout hp)

/-! ## Declarations -/

theorem declareNames_map (h : Mirror f outer n go go') (hn : n.makesArray = false) (w : Walk) :
    declareNames (f n) w = declareNames n w := by
  have hquiet : ∀ (k : Kind) (w : Walk) (c : Node), c.isLoose →
      (if c.kind = .identifier &&
          (c.field = some .name || k = .parenthesizedVariableDesignation) then
        w.declare c .plain
      else w) = w := by
    intro k w c hc
    simp [Node.kind_of_isLoose hc]
  unfold declareNames
  refine foldl_parts_map h hn (hquiet n.kind) (hquiet (f n).kind) (fun c hc w => ?_) w
  have hcar := h.carries.of_mem hc
  simp [hcar.kind, hcar.text, hcar.alike.label.field, h.carries.kind, declare]

theorem visitBlock_map (h : Mirror f outer n go go') (w : Walk) :
    visitBlock go' (outer.map f) (f n) w = visitBlock go outer n w := by
  have hdeclare : ∀ w, ((f n).namedOfKind .localFunctionStatement).foldl
      (fun w f => declareName (f.child? .name) .plain w) w =
        (n.namedOfKind .localFunctionStatement).foldl
          (fun w f => declareName (f.child? .name) .plain w) w := by
    intro w
    rw [Node.namedOfKind_map h.carries.follows (by decide) (by decide), List.foldl_map]
    refine List.foldl_ext _ _ w fun w c hc => ?_
    have hcar := h.carries.of_mem (Node.mem_children_of_namedOfKind hc)
    rw [Node.child?_map hcar.follows .name (by simp)]
    exact declareName_map (fun x hx => hcar.of_child? hx) _ _
  unfold visitBlock inBlock
  dsimp only
  rw [hdeclare, visitChildren_map h]

theorem visitLocalFunction_map (h : Mirror f outer n go go') (hn : n.makesArray = false)
    (w : Walk) :
    visitLocalFunction go' (outer.map f) (f n) w = visitLocalFunction go outer n w := by
  have hmode : ReturnMode.ofType? ((n.child? .type).map f) =
      ReturnMode.ofType? (n.child? .type) := by
    rcases hc : n.child? .type with _ | t
    · rfl
    · exact Node.ofType_map (h.carries.of_child? hc).follows
  have hparams : Parameter.ofList? ((n.child? .parameters).map f) =
      Parameter.ofList? (n.child? .parameters) := by
    rcases hc : n.child? .parameters with _ | t
    · rfl
    · exact Node.parameter_ofList_map (h.carries.of_child? hc).follows
  unfold visitLocalFunction inBlock returning
  dsimp only
  rw [visitField_map h .body (by simp), Node.child?_map h.carries.follows .type (by simp [hn]),
    Node.child?_map h.carries.follows .name (by simp),
    Node.child?_map h.carries.follows .parameters (by simp), hmode, hparams,
    declareName_map (fun c hc => h.carries.of_child? hc)]

theorem visitLambda_map (h : Mirror f outer n go go') (w : Walk) :
    visitLambda go' (outer.map f) (f n) w = visitLambda go outer n w := by
  unfold visitLambda inBlock returning
  dsimp only
  rw [Node.child?_map h.carries.follows .parameters (by simp), visitChildren_map h]
  rcases hc : n.child? .parameters with _ | params
  · rfl
  · have hcar := h.carries.of_child? hc
    simp only [Option.map_some, hcar.kind, declare, hcar.text,
      Node.parameter_ofList_map hcar.follows]

theorem declaredKind_map {type value : Option Node} (htype : ∀ t ∈ type, Node.Carries f t)
    (hvalue : ∀ x ∈ value, Node.Carries f x) (v : Viewpoint) (scope : Scope) :
    declaredKind v scope (type.map f) (value.map f) = declaredKind v scope type value := by
  have hany : ∀ p q : Node → Bool, (∀ t, Node.Carries f t → p (f t) = q t) →
      (type.map f).any p = type.any q := by
    intro p q hpq
    rcases type with _ | t
    · rfl
    · exact hpq t (htype t rfl)
  have hisRef := hany (fun t => ReturnMode.ofType t.stripScoped ≠ .value)
    (fun t => ReturnMode.ofType t.stripScoped ≠ .value) (fun t ht => by
      rw [Node.stripScoped_map ht.follows, Node.ofType_map (Node.follows_stripScoped ht.follows)])
  have hisPointer := hany (·.kind = .pointerType) (·.kind = .pointerType) (fun t ht => by
    rw [ht.kind])
  unfold declaredKind
  dsimp only
  rw [hisRef, hisPointer]
  rcases value with _ | x
  · rfl
  · have hcar := hvalue x rfl
    simp only [Option.map_some, Node.isInstancePointer_map hcar, Node.refTarget?_map hcar]
    rcases hr : x.refTarget? with _ | t
    · rfl
    · have ht : Node.Carries f t := by
        unfold Node.refTarget? at hr
        split at hr
        · exact (Node.carries_unparenthesize hcar).of_mem (Node.mem_children_of_lastChild? hr)
        · cases hr
      simp only [Option.map_some, Node.storage_map ht]

theorem visitDeclarator_map (h : Mirror f outer n go go') (hk : n.kind = .variableDeclarator)
    {type : Option Node} (htype : ∀ t ∈ type, Node.Carries f t) (v : Viewpoint) (w : Walk) :
    visitDeclarator v go' (outer.map f) (type.map f) (f n) w =
      visitDeclarator v go outer type n w := by
  have hvalue : ∀ x ∈ n.initializer?, x ∈ n.children :=
    fun x hx => Node.mem_children_of_initializer? hx
  have hout := carries_around h.carries h.outer
  unfold visitDeclarator
  dsimp only
  rw [around_map h.carries, h.carries.alike.value hk,
    Node.child?_map h.carries.follows .name (by simp), declaredKind_map htype
      (fun x hx => h.carries.of_mem (hvalue x hx)),
    visitPart_map h hout (fun x hx => Node.below_of_mem (hvalue x hx)),
    declareName_map (fun c hc => h.carries.of_child? hc),
    Node.namedOfKind_map h.carries.follows (by decide) (by decide), List.foldl_map]
  refine List.foldl_ext _ _ _ fun w c hc => ?_
  exact h.below _ c w (Node.below_of_mem (Node.mem_children_of_namedOfKind hc)) hout

theorem visitVariableDeclaration_map (h : Mirror f outer n go go') (hn : n.makesArray = false)
    (v : Viewpoint) (w : Walk) :
    visitVariableDeclaration v go' (outer.map f) (f n) w =
      visitVariableDeclaration v go outer n w := by
  unfold visitVariableDeclaration Node.declarators
  rw [around_map h.carries, Node.child?_map h.carries.follows .type (by simp [hn]),
    Node.namedOfKind_map h.carries.follows (by decide) (by decide), List.foldl_map]
  refine List.foldl_ext _ _ w fun w c hc => ?_
  exact visitDeclarator_map (h.child (Node.mem_children_of_namedOfKind hc))
    (Node.kind_of_mem_namedOfKind hc) (fun t ht => h.carries.of_child? ht) v w

/-! ## Statements with a header -/

theorem visitForeach_map (h : Mirror f outer n go go') (hn : n.makesArray = false) (v : Viewpoint)
    (w : Walk) : visitForeach v go' (outer.map f) (f n) w = visitForeach v go outer n w := by
  have hquiet : ∀ {g : Visit}, Quiet g → ∀ (around : List Node) (declares : Bool) (w : Walk)
      (c : Node), c.isLoose → visitForeachPart v g around declares c w = w := by
    intro g hg around declares w c hc
    simp only [Node.isLoose, Bool.and_eq_true, Option.isNone_iff_eq_none] at hc
    simp [visitForeachPart, hc.2, hg around c w (by simpa [Node.isLoose] using hc)]
  have hchild : ∀ (declares : Bool), ∀ c ∈ n.children, ∀ w,
      visitForeachPart v go' ((n.around outer).map f) declares (f c) w =
        visitForeachPart v go (n.around outer) declares c w := by
    intro declares c hc w
    have hcar := h.carries.of_mem hc
    have hout := carries_around h.carries h.outer
    unfold visitForeachPart
    rw [hcar.alike.label.field, hcar.kind, h.below _ c w (Node.below_of_mem hc) hout,
      write_map h v .assign w (Node.below_of_mem hc) hout]
    simp only [declare, hcar.text]
  unfold visitForeach inBlock
  dsimp only
  rw [Node.child?_map h.carries.follows .type (by simp [hn]), Option.isSome_map,
    around_map h.carries]
  rw [foldl_parts_map h hn (hquiet h.quiet _ _) (hquiet h.quiet' _ _) (hchild _)]

theorem visitPin_map (h : Mirror f outer n go go') (hk : n.kind = .variableDeclarator)
    (v : Viewpoint) (w : Walk) :
    visitPin v go' (outer.map f) (f n) w = visitPin v go outer n w := by
  unfold visitPin
  rw [h.carries.alike.value hk, around_map h.carries,
    Node.child?_map h.carries.follows .name (by simp)]
  rcases hx : n.initializer? with _ | value
  · exact declareName_map (fun c hc => h.carries.of_child? hc) _ w
  · have hmem := Node.mem_children_of_initializer? hx
    have hcar := h.carries.of_mem hmem
    have hout := carries_around h.carries h.outer
    simp only [Option.map_some]
    rw [Node.addressed_map hcar]
    -- the target is the operand of `&`, or the value itself
    have htarget : (value.addressed (n.around outer)).2.Below n ∧
        ∀ o ∈ (value.addressed (n.around outer)).1, Node.Carries f o := by
      have hinner := (Node.within_unparenthesize value).trans (Node.within_of_mem hmem)
      unfold Node.addressed
      dsimp only
      split
      · rcases hl : value.unparenthesize.lastChild? with _ | operand
        · exact ⟨Node.below_of_mem hmem, hout⟩
        · exact ⟨(Node.below_of_lastChild? hl).of_within hinner,
            List.forall_mem_cons.mpr ⟨h.carries.of_within hinner, hout⟩⟩
      · exact ⟨Node.below_of_mem hmem, hout⟩
    simp only [Node.mapPart]
    rw [Node.pointsIntoInstance_map (h.carries.of_within htarget.1.within),
      visitOperands_map h w htarget.1 htarget.2,
      declareName_map (fun c hc => h.carries.of_child? hc)]

theorem visitFixed_map (h : Mirror f outer n go go') (hn : n.makesArray = false) (v : Viewpoint)
    (w : Walk) : visitFixed v go' (outer.map f) (f n) w = visitFixed v go outer n w := by
  unfold visitFixed inBlock
  dsimp only
  rw [around_map h.carries, foldl_parts_map h hn ?_ ?_ ?_]
  · intro w c hc
    simp [Node.kind_of_isLoose hc, h.quiet _ c w hc]
  · intro w c hc
    simp [Node.kind_of_isLoose hc, h.quiet' _ c w hc]
  · intro c hc w
    have hchild := h.child hc
    rw [hchild.carries.kind, hchild.carries.alike.label.named, around_map hchild.carries,
      h.below _ c w (Node.below_of_mem hc) hchild.outer]
    unfold Node.declarators
    rw [Node.namedOfKind_map hchild.carries.follows (by decide) (by decide), List.foldl_map]
    have hpins : ∀ w, (c.namedOfKind .variableDeclarator).foldl
        (fun w d => visitPin v go' ((c.around (n.around outer)).map f) (f d) w) w =
          (c.namedOfKind .variableDeclarator).foldl
            (fun w d => visitPin v go (c.around (n.around outer)) d w) w := by
      intro w
      refine List.foldl_ext _ _ w fun w d hd => ?_
      exact visitPin_map (hchild.child (Node.mem_children_of_namedOfKind hd))
        (Node.kind_of_mem_namedOfKind hd) v w
    rw [hpins]

/-! ## Expressions that write -/

theorem visitAssignment_map (h : Mirror f outer n go go') (v : Viewpoint) (w : Walk) :
    visitAssignment v go' (outer.map f) (f n) w = visitAssignment v go outer n w := by
  have hoperator : ((n.child? .operator).map f).map (·.kind) =
      (n.child? .operator).map (·.kind) := by
    rw [Option.map_map]
    exact Option.map_congr fun c hc => (h.carries.of_child? hc).kind
  unfold visitAssignment
  dsimp only
  rw [visitField_map h .right (by simp), around_map h.carries,
    Node.child?_map h.carries.follows .operator (by simp), hoperator,
    Node.child?_map h.carries.follows .left (by simp)]
  rcases hl : n.child? .left with _ | left
  · rfl
  · simp only [Option.map_some]
    rw [write_map h v _ w (Node.below_of_child? hl) (carries_around h.carries h.outer)]

theorem visitUnary_map (h : Mirror f outer n go go')
    (hk : n.kind = .prefixUnaryExpression ∨ n.kind = .postfixUnaryExpression) (v : Viewpoint)
    (w : Walk) : visitUnary v go' (outer.map f) (f n) w = visitUnary v go outer n w := by
  have hoperand : unaryOperand? (f n) = (unaryOperand? n).map f := by
    unfold unaryOperand?
    rw [h.carries.kind]
    split
    · rename_i hbefore
      exact h.carries.alike.last (Or.inl hbefore)
    · rename_i hbefore
      exact h.carries.alike.first (hk.resolve_left hbefore)
  unfold visitUnary
  rw [hoperand]
  rcases ho : unaryOperand? n with _ | operand
  · rfl
  · have hmem : operand ∈ n.children := by
      unfold unaryOperand? at ho
      split at ho
      · exact Node.mem_children_of_lastChild? ho
      · exact List.mem_of_head? ho
    have hbelow := Node.below_of_mem hmem
    have hout := carries_around h.carries h.outer
    simp only [Option.map_some]
    rw [Node.operatorToken?_map h.carries.follows, h.carries.kind, around_map h.carries,
      visitChildren_map h, Node.storage_map (h.carries.of_mem hmem),
      write_map h v .compound w hbelow hout, visitOperands_map h _ hbelow hout]
    simp only [record, h.carries.alike.label.span]

theorem visitArgument_map (h : Mirror f outer n go go') (hk : n.kind = .argument) (v : Viewpoint)
    (w : Walk) : visitArgument v go' (outer.map f) (f n) w = visitArgument v go outer n w := by
  unfold visitArgument
  rw [h.carries.alike.last (by simp [hk])]
  rcases hl : n.lastChild? with _ | value
  · rfl
  · have hmem := Node.mem_children_of_lastChild? hl
    have hbelow := Node.below_of_mem hmem
    have hcar := h.carries.of_mem hmem
    have hout := carries_around h.carries h.outer
    simp only [Option.map_some]
    rw [Node.passing?_map h.carries.follows, around_map h.carries, Node.isInstancePointer_map hcar,
      write_map h v .reference w hbelow hout, h.below _ value _ hbelow hout]
    simp only [record, hcar.alike.label.span, hcar.text]

/-! ## References -/

theorem bindsReadonly_map (hout : ∀ o ∈ outer, Node.Carries f o) (w : Walk) :
    bindsReadonly (outer.map f) w = bindsReadonly outer w := by
  rcases outer with _ | ⟨parent, rest⟩
  · rfl
  · unfold bindsReadonly
    simp only [List.map_cons]
    rw [(hout parent List.mem_cons_self).kind]
    rcases rest with _ | ⟨o, rest⟩
    · rfl
    · have ho := Node.readonlyType_map (hout o (List.mem_cons_of_mem _ List.mem_cons_self)).follows
      simp only [List.map_cons, List.head?_cons, Option.bind_some]
      rw [ho]

theorem visitRef_map (h : Mirror f outer n go go') (hk : n.kind = .refExpression) (v : Viewpoint)
    (w : Walk) : visitRef v go' (outer.map f) (f n) w = visitRef v go outer n w := by
  have hmutation : ∀ operand, Node.Carries f operand →
      refMutation (outer.map f) (f operand) = refMutation outer operand := by
    intro operand hcar
    unfold refMutation
    rw [hcar.text, List.head?_map]
    rcases ho : outer.head? with _ | o
    · rfl
    · simp [(h.outer o (List.mem_of_head? ho)).kind]
  unfold visitRef
  rw [h.carries.alike.last (by simp [hk])]
  rcases hl : n.lastChild? with _ | operand
  · rfl
  · have hmem := Node.mem_children_of_lastChild? hl
    have hcar := h.carries.of_mem hmem
    simp only [Option.map_some]
    rw [around_map h.carries, Node.storage_map hcar, bindsReadonly_map h.outer,
      hmutation operand hcar,
      visitOperands_map h _ (Node.below_of_mem hmem) (carries_around h.carries h.outer)]
    simp only [record, h.carries.alike.label.span]

/-! ## Uses -/

theorem checkCall_map (h : Node.Carries f n) (v : Viewpoint) (w : Walk) :
    checkCall v (f n) w = checkCall v n w := by
  have ht := Node.carries_unparenthesize h
  have hcalled : calledName? (f n.unparenthesize) = calledName? n.unparenthesize := by
    have hbase : ((f n.unparenthesize).child? .expression).any (·.isThis) =
        (n.unparenthesize.child? .expression).any (·.isThis) := by
      rw [Node.child?_map ht.follows .expression (by simp)]
      rcases hc : n.unparenthesize.child? .expression with _ | base
      · rfl
      · exact Node.isThis_map (ht.of_child? hc)
    unfold calledName?
    rw [ht.kind, Node.simpleName?_map ht, hbase, Node.accessedName_map ht]
  unfold checkCall
  rw [Node.unparenthesize_map h, hcalled]
  simp only [record, ht.alike.label.span]

theorem visitInvocation_map (h : Mirror f outer n go go') (v : Viewpoint) (w : Walk) :
    visitInvocation v go' (outer.map f) (f n) w = visitInvocation v go outer n w := by
  unfold visitInvocation
  dsimp only
  rw [visitChildren_map h, Node.child?_map h.carries.follows .function (by simp)]
  rcases hc : n.child? .function with _ | function
  · rfl
  · simp only [Option.map_some, checkCall_map (h.carries.of_child? hc)]

theorem visitMemberAccess_map (h : Mirror f outer n go go') (v : Viewpoint) (w : Walk) :
    visitMemberAccess v go' (outer.map f) (f n) w = visitMemberAccess v go outer n w := by
  unfold visitMemberAccess
  rw [Node.child?_map h.carries.follows .expression (by simp), Node.accessedName_map h.carries,
    around_map h.carries]
  rcases hc : n.child? .expression with _ | base
  · rfl
  · simp only [Option.map_some, Node.isThis_map (h.carries.of_child? hc)]
    rw [h.below _ base w (Node.below_of_child? hc) (carries_around h.carries h.outer)]

theorem visitElementAccess_map (h : Mirror f outer n go go') (v : Viewpoint) (w : Walk) :
    visitElementAccess v go' (outer.map f) (f n) w = visitElementAccess v go outer n w := by
  unfold visitElementAccess
  dsimp only
  rw [visitField_map h .subscript (by simp),
    Node.child?_map h.carries.follows .expression (by simp), around_map h.carries]
  rcases hc : n.child? .expression with _ | base
  · rfl
  · simp only [Option.map_some, Node.isThis_map (h.carries.of_child? hc)]
    rw [h.below _ base w (Node.below_of_child? hc) (carries_around h.carries h.outer)]

/-! ## New objects -/

theorem carries_of_mem_initializerParts {around : List Node} (h : Node.Carries f n)
    (hout : ∀ o ∈ around, Node.Carries f o) {p : List Node × Node}
    (hp : p ∈ n.initializerParts around) : ∀ o ∈ p.1, Node.Carries f o := by
  induction n using Node.below_induction generalizing around with
  | step n ih =>
    rw [Node.initializerParts_eq] at hp
    obtain ⟨c, hc, hp⟩ := List.mem_flatMap.mp hp
    have hmem := Node.mem_children_of_namedChildren hc
    have hcar := h.of_mem hmem
    have hentry : ∀ o ∈ c :: n :: around, Node.Carries f o :=
      List.forall_mem_cons.mpr ⟨hcar, List.forall_mem_cons.mpr ⟨h, hout⟩⟩
    unfold Node.entryParts at hp
    split at hp
    · rw [List.mem_singleton] at hp
      subst hp
      exact List.forall_mem_cons.mpr ⟨h, hout⟩
    · rcases List.mem_append.mp hp with hp | hp
      · obtain ⟨left, hl, hp⟩ := List.mem_flatMap.mp hp
        split at hp
        · obtain ⟨i, -, rfl⟩ := List.mem_map.mp hp
          exact List.forall_mem_cons.mpr ⟨hcar.of_child? (Option.mem_toList.mp hl), hentry⟩
        · cases hp
      · obtain ⟨right, hr, hp⟩ := List.mem_flatMap.mp hp
        have hr := Option.mem_toList.mp hr
        split at hp
        · have hbelow := (Node.below_of_child? hr).of_within (Node.within_of_mem hmem)
          exact ih right hbelow (hcar.of_child? hr) hentry hp
        · rw [List.mem_singleton] at hp
          subst hp
          exact hentry

theorem visitInitializer_map (h : Mirror f outer n go go') {around : List Node}
    (hout : ∀ o ∈ around, Node.Carries f o) {c : Node} (hc : c ∈ n.children)
    (hk : c.kind = .initializerExpression) (w : Walk) :
    ((f c).initializerParts (around.map f)).foldl (fun w (outer, part) => go' outer part w) w =
      (c.initializerParts around).foldl (fun w (outer, part) => go outer part w) w := by
  have hcar := h.carries.of_mem hc
  rw [← foldl_filter_of_quiet (p := (!·.2.isLoose)) (l := (f c).initializerParts _)
      (fun w p hp => h.quiet' _ _ w (by simpa using hp)),
    ← foldl_filter_of_quiet (p := (!·.2.isLoose)) (l := c.initializerParts _)
      (fun w p hp => h.quiet _ _ w (by simpa using hp)),
    Node.initializerParts_map hcar _ hk, List.foldl_map]
  refine List.foldl_ext _ _ w fun w p hp => ?_
  have hp := (List.mem_filter.mp hp).1
  exact h.below p.1 p.2 w
    ((Node.below_of_mem_initializerParts hp).of_within (Node.within_of_mem hc))
    (carries_of_mem_initializerParts hcar hout hp)

theorem visitObjectCreation_map (h : Mirror f outer n go go') (hn : n.makesArray = false)
    (w : Walk) :
    visitObjectCreation go' (outer.map f) (f n) w = visitObjectCreation go outer n w := by
  have hout := carries_around h.carries h.outer
  unfold visitObjectCreation
  refine foldl_parts_map h hn ?_ ?_ ?_ w
  · intro w c hc
    simp [Node.kind_of_isLoose hc, h.quiet _ c w hc]
  · intro w c hc
    simp [Node.kind_of_isLoose hc, h.quiet' _ c w hc]
  · intro c hc w
    have hcar := h.carries.of_mem hc
    rw [hcar.alike.label.field, hcar.kind, around_map h.carries,
      h.below _ c w (Node.below_of_mem hc) hout]
    by_cases hk : c.kind = .initializerExpression
    · rw [visitInitializer_map h hout hc hk]
    · simp only [if_neg hk]

theorem visitWith_map (h : Mirror f outer n go go') (hn : n.makesArray = false) (w : Walk) :
    visitWith go' (outer.map f) (f n) w = visitWith go outer n w := by
  unfold visitWith
  refine foldl_parts_map h hn ?_ ?_ ?_ w
  · intro w c hc
    simp [Node.kind_of_isLoose hc, h.quiet _ c w hc]
  · intro w c hc
    simp [Node.kind_of_isLoose hc, h.quiet' _ c w hc]
  · intro c hc w
    have hchild := h.child hc
    rw [hchild.carries.kind, around_map h.carries, around_map hchild.carries,
      h.below _ c w (Node.below_of_mem hc) hchild.outer]
    split
    · rename_i hk
      rw [hchild.carries.alike.last (by simp [hk])]
      exact visitPart_map hchild (carries_around hchild.carries hchild.outer)
        (fun x hx => Node.below_of_lastChild? hx) w
    all_goals rfl

theorem visitAnonymousObject_map (h : Mirror f outer n go go')
    (hk : n.kind = .anonymousObjectCreationExpression) (w : Walk) :
    visitAnonymousObject go' (outer.map f) (f n) w = visitAnonymousObject go outer n w := by
  unfold visitAnonymousObject
  rw [← foldl_filter_of_quiet (p := (!·.isLoose)) (l := Node.anonymousParts (f n).children)
      (fun w c hc => h.quiet' _ c w (by simpa using hc)),
    ← foldl_filter_of_quiet (p := (!·.isLoose)) (l := Node.anonymousParts n.children)
      (fun w c hc => h.quiet _ c w (by simpa using hc)),
    h.carries.alike.entries hk, List.foldl_map, around_map h.carries]
  refine List.foldl_ext _ _ w fun w c hc => ?_
  have hmem := Node.mem_of_mem_anonymousParts (List.mem_filter.mp hc).1
  exact h.below _ c w (Node.below_of_mem hmem) (carries_around h.carries h.outer)

/-! ## The visit -/

theorem step_map (h : Mirror f outer n go go') (v : Viewpoint) (w : Walk) :
    step v go' (outer.map f) (f n) w = step v go outer n w := by
  unfold step
  rw [h.carries.kind]
  -- apart from the two kinds that make an array, the child in the field `type` is an image too
  by_cases hm : n.makesArray
  · have hk : n.kind = .arrayCreationExpression ∨ n.kind = .stackallocExpression := by
      simpa [Node.makesArray] using hm
    rcases hk with hk | hk
    · simp only [hk]
      exact visitChildren_map h w
    · simp only [hk]
      exact visitChildren_map h w
  · have hn : n.makesArray = false := by simpa using hm
    split
    all_goals rename_i hk
    all_goals first
      | rfl
      | exact visitChildren_map h w
      | (unfold inBlock; rw [visitChildren_map h])
      | rw [visitChildren_map h, declareNames_map h hn]
      | exact visitBlock_map h w
      | exact visitLocalFunction_map h hn w
      | exact visitLambda_map h w
      | exact visitForeach_map h hn v w
      | exact visitFixed_map h hn v w
      | exact visitVariableDeclaration_map h hn v w
      | exact visitAssignment_map h v w
      | exact visitUnary_map h (Or.inl hk) v w
      | exact visitUnary_map h (Or.inr hk) v w
      | exact visitArgument_map h hk v w
      | exact visitRef_map h hk v w
      | exact visitInvocation_map h v w
      | rw [h.carries.text]
      | rw [Node.simpleName?_map h.carries]
      | exact visitMemberAccess_map h v w
      | exact visitElementAccess_map h v w
      | exact visitObjectCreation_map h hn w
      | exact visitWith_map h hn w
      | exact visitAnonymousObject_map h hk w

end Rules

theorem quiet_visitTo (v : Viewpoint) (depth : Nat) : Quiet (visitTo v depth) := by
  intro outer c w hc
  cases depth with
  | zero => rfl
  | succ depth => simp [visitTo, step, Node.kind_of_isLoose hc]

theorem quiet_visit (v : Viewpoint) : Quiet (visit v) :=
  fun outer c w hc => quiet_visitTo v c.height outer c w hc

theorem carries_id (n : Node) : Node.Carries id n := by
  intro c _
  refine
    { label := ⟨rfl, rfl, rfl, rfl, rfl⟩
      solid := ⟨id, (List.map_id _).symm, fun _ _ => Or.inl rfl⟩
      inner := fun _ => (Option.map_id_apply).symm
      last := fun _ => (Option.map_id_apply).symm
      first := fun _ => (Option.map_id_apply).symm
      value := fun _ => (Option.map_id_apply).symm
      named := fun _ => (Option.map_id_apply).symm
      entries := fun _ => (List.map_id _).symm }

/-- A visit that goes as deep as the node is high, or deeper, is the visit. -/
theorem visitTo_eq_visit (v : Viewpoint) {n : Node} {depth : Nat} (hd : n.height ≤ depth)
    (outer : List Node) (w : Walk) : visitTo v depth outer n w = visit v outer n w := by
  induction n using Node.below_induction generalizing depth outer w with
  | step n ih =>
    obtain ⟨k, hk⟩ : ∃ k, n.height = k + 1 := ⟨_, n.height_eq⟩
    obtain ⟨d, rfl⟩ : ∃ d, depth = d + 1 := ⟨depth - 1, by omega⟩
    -- with the identity for the map, the two depths give the same step
    have hmirror : Mirror id outer n (visitTo v k) (visitTo v d) :=
      { carries := carries_id n
        outer := fun o _ => carries_id o
        quiet := quiet_visitTo v k
        quiet' := quiet_visitTo v d
        below := fun around c w hc _ => by
          have hlt := hc.height_lt
          rw [List.map_id, id, ih c hc (by omega), ih c hc (by omega)] }
    have hstep := step_map hmirror v w
    rw [List.map_id, id] at hstep
    rw [visit, hk]
    exact hstep

/-- The visit of a node applies the rule of its kind, with the visit itself for what is below. -/
theorem visit_eq (v : Viewpoint) (outer : List Node) (n : Node) (w : Walk) :
    visit v outer n w = step v (visit v) outer n w := by
  obtain ⟨k, hk⟩ : ∃ k, n.height = k + 1 := ⟨_, n.height_eq⟩
  have hmirror : Mirror id outer n (visit v) (visitTo v k) :=
    { carries := carries_id n
      outer := fun o _ => carries_id o
      quiet := quiet_visit v
      quiet' := quiet_visitTo v k
      below := fun around c w hc _ => by
        have hlt := hc.height_lt
        rw [List.map_id, id, visitTo_eq_visit v (by omega)] }
  have hstep := step_map hmirror v w
  rw [List.map_id, id] at hstep
  rw [visit, hk]
  exact hstep

/-- The visit does the same in a tree and in its image. -/
theorem visit_map (v : Viewpoint) {f : Node → Node} {n : Node} (h : Node.Carries f n)
    {outer : List Node} (hout : ∀ o ∈ outer, Node.Carries f o) (w : Walk) :
    visit v (outer.map f) (f n) w = visit v outer n w := by
  induction n using Node.below_induction generalizing outer w with
  | step n ih =>
    rw [visit_eq, visit_eq]
    exact step_map
      { carries := h
        outer := hout
        quiet := quiet_visit v
        quiet' := quiet_visit v
        below := fun around c w hc hcar => ih c hc (h.of_within hc.within) hcar w } v w

end Walk

end ReadonlyLint
