import ReadonlyLint.Proofs.Writes

/-!
The variables of loops. A visit changes the bindings of a point in one way only: the names that the
node leaves are bound anew in the innermost block (`Walk.Binds`). A `for` or a `foreach` has a block
of its own, so after it every name means what it meant before. A `while` or a `do` has none: what
its condition binds, or a body without braces, is still bound after it.
-/
namespace ReadonlyLint

/-! ## Several bindings at once -/

namespace Scope

/-- Binds locals one after the other. -/
def declareAll (s : Scope) (new : Bindings LocalKind) : Scope :=
  new.foldl (fun s b => s.declare b.1 b.2) s

theorem lookup_declareAll_of_notMem (s : Scope) {new : Bindings LocalKind} {name : String}
    (h : name ∉ new.map (·.1)) : (s.declareAll new).lookup name = s.lookup name := by
  unfold declareAll
  induction new generalizing s with
  | nil => rfl
  | cons b new ih =>
    rw [List.map_cons, List.mem_cons, not_or] at h
    rw [List.foldl_cons, ih _ h.2]
    exact s.lookup_declare_of_ne b.2 h.1

theorem binds_declareAll (s : Scope) (new : Bindings LocalKind) (name : String) :
    (s.declareAll new).binds name = true ↔ name ∈ new.map (·.1) ∨ s.binds name = true := by
  unfold declareAll
  induction new generalizing s with
  | nil => simp
  | cons b new ih =>
    rw [List.foldl_cons, ih, List.map_cons, List.mem_cons]
    by_cases hname : name = b.1
    · subst hname
      simp [binds, lookup_declare_self]
    · simp [binds, lookup_declare_of_ne s b.2 hname, hname]

/-- With a block open, all bindings go into it. -/
theorem declareAll_eq {s : Scope} {block : Bindings LocalKind} {rest : List (Bindings LocalKind)}
    (h : s.blocks = block :: rest) (new : Bindings LocalKind) :
    s.declareAll new = { s with blocks := (new.reverse ++ block) :: rest } := by
  unfold declareAll
  induction new generalizing s block with
  | nil =>
    rw [List.foldl_nil, List.reverse_nil, List.nil_append, ← h]
  | cons b new ih =>
    have hone : s.declare b.1 b.2 = { s with blocks := (b :: block) :: rest } := by
      simp only [declare, h]
    rw [List.foldl_cons, hone, ih rfl, List.reverse_cons, List.append_assoc]
    rfl

theorem exit_declareAll_enter (s : Scope) (new : Bindings LocalKind) :
    (s.enter.declareAll new).exit = s := by
  rw [declareAll_eq rfl]
  rfl

end Scope

/-! ## What a visit binds -/

namespace Walk

/-- The second state differs from the first in its scope by new bindings of exactly these names. -/
def Binds (names : Set String) (w w' : Walk) : Prop :=
  ∃ new : Bindings LocalKind, w'.scope = w.scope.declareAll new ∧
    names = { s | s ∈ new.map (·.1) }

theorem binds_of_scope_eq {w w' : Walk} (h : w'.scope = w.scope) : Binds ∅ w w' :=
  ⟨[], h, by simp⟩

/-- Each single thing that a rule does binds what is said of it. -/
theorem effects_binds (v : Viewpoint) : Effects v Binds where
  refl := fun w => binds_of_scope_eq rfl
  trans := by
    rintro S T a b c ⟨new, hnew, rfl⟩ ⟨more, hmore, rfl⟩
    refine ⟨new ++ more, ?_, ?_⟩
    · rw [hmore, hnew]
      simp [Scope.declareAll]
    · ext s
      simp
  record := fun w _ _ => binds_of_scope_eq rfl
  bind := fun w name kind => ⟨[(name, kind)], rfl, by ext s; simp⟩
  bindLocal := fun w name kind _ => ⟨[(name, kind)], rfl, by ext s; simp⟩
  inBlock := by
    rintro f w ⟨S, new, hnew, -⟩
    apply binds_of_scope_eq
    simp only [inBlock, hnew]
    exact w.scope.exit_declareAll_enter new
  returning := fun _ _ h => h
  useMethods := fun _ _ => binds_of_scope_eq rfl
  useProperty := fun _ _ _ _ _ => binds_of_scope_eq rfl
  useIndexer := fun _ _ _ _ _ => binds_of_scope_eq rfl
  useEvent := fun _ _ _ _ => binds_of_scope_eq rfl

theorem Binds.lookup {names : Set String} {w w' : Walk} (h : Binds names w w') {name : String}
    (hname : name ∉ names) : w'.scope.lookup name = w.scope.lookup name := by
  obtain ⟨new, hnew, rfl⟩ := h
  rw [hnew]
  exact w.scope.lookup_declareAll_of_notMem hname

theorem Binds.binds {names : Set String} {w w' : Walk} (h : Binds names w w') {name : String}
    (hname : name ∈ names) : w'.scope.binds name = true := by
  obtain ⟨new, hnew, rfl⟩ := h
  rw [hnew]
  exact (w.scope.binds_declareAll new name).mpr (Or.inl hname)

end Walk

/-! ## Writes after a loop -/

namespace Use

open Walk

/-- The parts that are visited with the targets before the expression in a tuple. -/
def earlierParts (use : Use) (outer : List Node) (x : Node) : List Node :=
  match use with
  | .assigned n slot =>
    (slot.split (some .left) (fill (.assigned n slot) x :: outer) x).before.flatMap
      (·.2.targetParts)
  | _ => []

theorem binds_reached (use : Use) (v : Viewpoint) (outer : List Node) (x : Node) (w : Walk) :
    Binds (gathered (fun c => { s | c.Leaves s }) (use.earlierParts outer x)) w
      (use.reached v outer x w) := by
  have heffects := effects_binds v
  cases use with
  | assigned n slot =>
    rw [earlierParts, gathered_flatMap]
    exact heffects.foldl _ _
      (fun w p _ => heffects.writeTarget _ (heffects.writes (accessOf n) p.2) (heffects.follows _)
        p.1 w) w
  | _ =>
    unfold earlierParts
    dsimp only
    rw [gathered_nil]
    exact heffects.refl w

end Use

namespace Walk

/-- Visits of nodes that do not leave the name do not bind it. -/
theorem lookup_visits (v : Viewpoint) {nodes : List (List Node × Node)} {name : String}
    (h : ∀ p ∈ nodes, ¬ p.2.Leaves name) (w : Walk) :
    (nodes.foldl (fun w p => visit v p.1 p.2 w) w).scope.lookup name = w.scope.lookup name := by
  have hbinds := (effects_binds v).foldl (fun p : List Node × Node => { s | p.2.Leaves s }) nodes
    (fun w p _ => (effects_binds v).visit p.1 p.2 w) w
  apply hbinds.lookup
  rintro ⟨p, hp, hleaves⟩
  exact h p hp hleaves

/-- Where nothing binds the name of a field, a write of the name is noted. -/
theorem evidence_of_write_of_unbound {v : Viewpoint} {name : String} {m : Member}
    (hfield : v.decl.resolve name = some (.field m)) (hinstance : m.isStatic = false)
    (hname : name ≠ "_") {w : Walk} (hfree : w.scope.lookup name = none) {use : Use}
    {access : Access} (hfits : use.Fits) (hwrites : use.access? = some access) {x : Node}
    (hx : x.IsName name) {outer : List Node} (hearlier : ∀ c ∈ use.earlierParts outer x,
      ¬ c.Leaves name) :
    ∃ found, (visit v outer (use.fill x) w).evidence = w.evidence ++ found ∧
      { mutation := if access = .reference then .referenceEscape name else .fieldWrite name
        span := some x.span } ∈ found := by
  have hstorage : v.memberStorage name = .field name := by
    simp [Viewpoint.memberStorage, hfield, hinstance]
  have hreached : (use.reached v outer x w).scope.binds name = false := by
    have hnot : name ∉ gathered (fun c => { s | c.Leaves s }) (use.earlierParts outer x) := by
      rintro ⟨c, hc, hleaves⟩
      exact hearlier c hc hleaves
    rw [Scope.binds, (use.binds_reached v outer x w).lookup hnot, hfree]
    rfl
  have hdiscard : ¬ x.IsName "_" := fun h => hname (hx.2.symm.trans h.2)
  exact use.evidence_fill_of_writes hstorage outer w hfits hwrites hdiscard
    (Or.inl ⟨hx, hreached⟩)

end Walk

/-! ## Loops -/

namespace Node

def isLoop (n : Node) : Bool :=
  n.kind ∈ [.forStatement, .foreachStatement, .whileStatement, .doStatement]

/-- A loop without a block for its variables. -/
def isOpenLoop (n : Node) : Bool := n.kind ∈ [.whileStatement, .doStatement]

/-- A loop with a block of its own leaves no name; the others leave what their parts leave. -/
theorem leaves_iff_of_isLoop {n : Node} (h : n.isLoop = true) {name : String} :
    n.Leaves name ↔ n.isOpenLoop = true ∧ ∃ c ∈ n.evaluatedChildren, c.Leaves name := by
  rw [leaves_iff]
  simp only [isLoop, List.mem_cons, List.not_mem_nil, or_false, decide_eq_true_eq] at h
  rcases h with hkind | hkind | hkind | hkind
  all_goals simp [ownNames, looseParts, isOpenLoop, hkind]

end Node

/-- After a loop every name that the loop does not leave means what it meant before, and every other
name is bound. No name is left by a `for` or a `foreach`; a `while` or a `do` leaves what its parts
leave. So a later write of a field whose name the loop does not leave is noted, unless something in
between binds the name. -/
theorem only_open_loops_leave_variables (v : Viewpoint) (outer : List Node) (loop : Node)
    (w : Walk) (hloop : loop.isLoop = true) :
    let after := Walk.visit v outer loop w
    (∀ name, loop.Leaves name ↔
      loop.isOpenLoop = true ∧ ∃ c ∈ loop.evaluatedChildren, c.Leaves name) ∧
    (∀ name, ¬ loop.Leaves name → after.scope.lookup name = w.scope.lookup name) ∧
    (∀ name, loop.Leaves name → after.scope.binds name = true) ∧
    ∀ name m, ¬ loop.Leaves name → v.decl.resolve name = some (.field m) → m.isStatic = false →
      name ≠ "_" → w.scope.binds name = false →
      ∀ between : List (List Node × Node), (∀ p ∈ between, ¬ p.2.Leaves name) →
      let later := between.foldl (fun w p => Walk.visit v p.1 p.2 w) after
      ∀ (use : Use) (access : Access) (x : Node) (around : List Node), use.Fits →
        use.access? = some access → x.IsName name →
        (∀ c ∈ use.earlierParts around x, ¬ c.Leaves name) →
        ∃ found, (Walk.visit v around (use.fill x) later).evidence = later.evidence ++ found ∧
          { mutation := if access = .reference then .referenceEscape name else .fieldWrite name
            span := some x.span } ∈ found := by
  intro after
  have hbinds : Walk.Binds { s | loop.Leaves s } w after :=
    (Walk.effects_binds v).visit outer loop w
  refine ⟨fun name => Node.leaves_iff_of_isLoop hloop, fun name hname => hbinds.lookup hname,
    fun name hname => hbinds.binds hname, ?_⟩
  intro name m hleaves hfield hinstance hname hfree between hbetween later use access x around
    hfits hwrites hx hearlier
  have hlater : later.scope.lookup name = none := by
    rw [Walk.lookup_visits v hbetween, hbinds.lookup hleaves]
    simpa [Scope.binds] using hfree
  exact Walk.evidence_of_write_of_unbound hfield hinstance hname hlater hfits hwrites hx hearlier

/-! ## A loop that ends its variables, and one that does not -/

/-- The condition `r is Ref name` with a name of one letter. -/
def patternCondition (name : String) (start : Nat) : Node :=
  .tree (.other "is_pattern_expression") ("r is Ref " ++ name) start
    [.tree .identifier "r" start [] (some .expression), .word (.other "is") "is" (start + 2),
     .tree .declarationPattern ("Ref " ++ name) (start + 5)
      [.tree .identifier "Ref" (start + 5) [] (some .type),
       .tree .identifier name (start + 9) [] (some .name)] (some (.other "pattern"))]
    (some (.other "condition"))

/-- The loop `while (r is Ref name) …` with the given body. -/
def patternLoop (name : String) (start : Nat) (body : Node) : Node :=
  .tree .whileStatement ("while (r is Ref " ++ name ++ ") " ++ body.text) start
    [.word (.other "while") "while" start, .word .openParen "(" (start + 6),
     patternCondition name (start + 7), .word .closeParen ")" (start + 17),
     { body with field := some .body }]

/-- The block `{ int f; }`. -/
def declaringBlock (start : Nat) : Node :=
  .tree .block "\x7b int f; \x7d" start
    [.word .openBrace "\x7b" start,
     .tree (.other "local_declaration_statement") "int f;" (start + 2)
      [.tree .variableDeclaration "int f" (start + 2)
        [.tree .predefinedType "int" (start + 2) [] (some .type),
         .tree .variableDeclarator "f" (start + 6)
          [.tree .identifier "f" (start + 6) [] (some .name)]],
       .word (.other ";") ";" (start + 7)],
     .word .closeBrace "\x7d" (start + 9)]

/-- The assignment `… = 1`. -/
def assignOne (start : Nat) : Use :=
  .assigned (.tree .assignmentExpression "f = 1" start
    [.word .assign "=" (start + 2) (some .operator),
     .tree (.other "integer_literal") "1" (start + 4) [] (some .right)]) .whole

/-- The loop `while (r is Ref g) { int f; }` leaves `g` and not `f`, and `f = 1` after it is
noted. -/
theorem a_block_ends_the_variables_of_its_loop :
    let loop := patternLoop "g" 36 (declaringBlock 55)
    let v : Viewpoint := ⟨oneField, none⟩
    let after := Walk.visit v [] loop innerPoint
    let name := Node.tree .identifier "f" 66
    loop.isLoop = true ∧ loop.Leaves "g" ∧ ¬ loop.Leaves "f" ∧
      after.scope.lookup "f" = none ∧ after.scope.binds "g" = true ∧
      ∃ found, (Walk.visit v [] ((assignOne 66).fill name) after).evidence =
          after.evidence ++ found ∧
        { mutation := .fieldWrite "f", span := some name.span } ∈ found := by
  have hloop : (patternLoop "g" 36 (declaringBlock 55)).isLoop = true := by decide
  have hleft : (patternLoop "g" 36 (declaringBlock 55)).Leaves "g" := by decide +kernel
  have hended : ¬ (patternLoop "g" 36 (declaringBlock 55)).Leaves "f" := by decide +kernel
  obtain ⟨-, hsame, hbound, hlater⟩ :=
    only_open_loops_leave_variables ⟨oneField, none⟩ [] _ innerPoint hloop
  have hfree : innerPoint.scope.lookup "f" = none := by decide
  have hfield : oneField.resolve "f" = some (.field oneField.members[0]!) := rfl
  have hwrite := hlater "f" _ hended hfield rfl (by decide) (by decide) [] (by simp)
    (assignOne 66) .assign (Node.tree .identifier "f" 66) [] trivial rfl ⟨rfl, rfl⟩
    (by simp [assignOne, Use.earlierParts, Slot.split])
  rw [List.foldl_nil, if_neg (by decide)] at hwrite
  exact ⟨hloop, hleft, hended, (hsame "f" hended).trans hfree, hbound "g" hleft, hwrite⟩

/-- The file `struct S { int f; Ref r; void M() { while (r is Ref f) { } f = 1; } }`. -/
def fileWithOpenLoop : Node :=
  let body := .tree .block "\x7b while (r is Ref f) \x7b \x7d f = 1; \x7d" 34
    [.word .openBrace "\x7b" 34, patternLoop "f" 36 (Node.emptyBlock 55),
     .tree (.other "expression_statement") "f = 1;" 59
      [(assignOne 59).fill (.tree .identifier "f" 59), .word (.other ";") ";" 64],
     .word .closeBrace "\x7d" 66]
  let reference := .tree .fieldDeclaration "Ref r;" 18
    [.tree .variableDeclaration "Ref r" 18
      [.tree .identifier "Ref" 18 [] (some .type),
       .tree .variableDeclarator "r" 22 [.tree .identifier "r" 22 [] (some .name)]],
     .word (.other ";") ";" 23]
  .structOf [.intField "f" 11, reference, .voidMethod "M" 25 body]

/-- The loop leaves `f`, so `f = 1` after it is taken for a write of the variable: the method shows
nothing. -/
theorem a_pattern_variable_outlives_its_while_loop :
    let loop := patternLoop "f" 36 (Node.emptyBlock 55)
    let d := (StructDecl.ofTree fileWithOpenLoop).head!
    let m := d.members[2]!
    loop.isLoop = true ∧ loop.Leaves "f" ∧ m.name = "M" ∧
      (Walk.start m).scope.lookup "f" = none ∧
      (Walk.visit (d.viewpoint m) [] loop (Walk.start m)).scope.lookup "f" = some .plain ∧
      (d.analyzeMember m).evidence = [] := by
  decide +kernel

end ReadonlyLint
