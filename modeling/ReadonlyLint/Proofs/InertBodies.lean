import Mathlib.Tactic.MkIffOfInductiveProp
import ReadonlyLint.Proofs.Effects
import ReadonlyLint.Proofs.Evaluated
import ReadonlyLint.Proofs.Members
import ReadonlyLint.Mutation.Analyze

/-!
Bodies in which nothing is noted. A node is harmless when it takes no reference and no address,
writes at most static fields by their names and calls no unknown name on `this`; an entry of an
object initializer, which looks like an assignment, is about the new object. In a body of harmless
nodes no local ever is another way to the instance, and so no node of it notes anything.
-/
namespace ReadonlyLint

namespace Node

/-! ## The places of a tree -/

/-- The role of a child of a node that has the given role itself. -/
def childRole (n : Node) (role : Role) (c : Node) : Role :=
  match role with
  | .code => if n.makesObject && c.kind = .initializerExpression then .initializer else .code
  | .initializer => if c.named && c.kind = .assignmentExpression then .entry else .code
  | .entry =>
    if c.field = some .right && c.kind = .initializerExpression then .initializer else .code
  | .index => .code

mutual

/-- The node and everything below it, each in its role. -/
def places (role : Role) : Node → List (Role × Node)
  | ⟨kind, field, named, missing, hasError, span, text, children⟩ =>
    let n : Node := ⟨kind, field, named, missing, hasError, span, text, children⟩
    (role, n) :: placesAll n role children

/-- The places of some children of a node, tree after tree. -/
def placesAll (n : Node) (role : Role) : List Node → List (Role × Node)
  | [] => []
  | c :: rest => c.places (n.childRole role c) ++ placesAll n role rest

end

theorem places_eq (role : Role) (n : Node) :
    n.places role = (role, n) :: placesAll n role n.children := by
  cases n
  rw [places]

theorem mem_placesAll {n : Node} {role : Role} {l : List Node} {p : Role × Node} :
    p ∈ placesAll n role l ↔ ∃ c ∈ l, p ∈ c.places (n.childRole role c) := by
  induction l with
  | nil => simp [placesAll]
  | cons c l ih => simp [placesAll, ih]

theorem mem_places_self (role : Role) (n : Node) : (role, n) ∈ n.places role := by
  rw [places_eq]
  exact List.mem_cons_self

/-- A child of a place is a place. -/
theorem mem_places_child {root n c : Node} {start role : Role} (h : (role, n) ∈ root.places start)
    (hc : c ∈ n.children) : (n.childRole role c, c) ∈ root.places start := by
  induction root using below_induction generalizing start with
  | step root ih =>
    rw [places_eq, List.mem_cons, mem_placesAll] at h ⊢
    rcases h with hroot | ⟨x, hx, hn⟩
    · cases hroot
      exact .inr ⟨c, hc, mem_places_self _ c⟩
    · exact .inr ⟨x, hx, ih x (below_of_mem hx) hn⟩

/-! ## Harmless nodes -/

/-- The target, without parentheses, is the name of a static or constant field. -/
def isStaticName (d : StructDecl) (target : Node) : Bool :=
  target.unparenthesize.kind = .identifier &&
    match d.resolve target.unparenthesize.text with
    | some (.field m) => m.isStatic
    | _ => false

/-- The name that a call of `this.name` calls. -/
def calledOnThis? (n : Node) : Option String :=
  if n.kind = .invocationExpression then
    (n.child? .function).bind fun function =>
      let f := function.unparenthesize
      if f.kind = .memberAccessExpression && (f.child? .expression).any (·.isThis) then
        (f.child? .name).bind (·.simpleName?)
      else none
  else none

/-- The node, in its role, does nothing by itself that could change the instance. -/
@[mk_iff]
structure Harmless (n : Node) (d : StructDecl) (role : Role) : Prop where
  pinsNothing : n.kind ≠ .fixedStatement
  refersToNothing : n.kind ≠ .refExpression
  takesNoAddress : n.kind = .prefixUnaryExpression → n.operatorToken? ≠ some .ampersand
  passesByValue : n.kind = .argument → ∀ c ∈ n.children, c.kind ≠ .refToken ∧ c.kind ≠ .outToken
  declaresVariable : n.kind = .foreachStatement → (n.child? .type).isSome
  writesStatic : role ≠ .entry → ∀ target ∈ n.written?, target.isStaticName d
  callsKnown : ∀ name ∈ n.calledOnThis?, (d.resolve name).isSome ∨ name ∈ Walk.objectMembers

instance (n : Node) (d : StructDecl) (role : Role) : Decidable (n.Harmless d role) :=
  decidable_of_iff _ (harmless_iff n d role).symm

/-- Everything in the tree is harmless. -/
def Inert (d : StructDecl) (body : Node) : Prop :=
  ∀ p ∈ body.places .code, p.2.Harmless d p.1

instance (d : StructDecl) (body : Node) : Decidable (body.Inert d) :=
  inferInstanceAs (Decidable (∀ p ∈ body.places .code, p.2.Harmless d p.1))

/-! ## What harmless nodes write -/

theorem kind_of_isStaticName {d : StructDecl} {target : Node} (h : target.isStaticName d) :
    target.unparenthesize.kind = .identifier := by
  simpa using (Bool.and_eq_true_iff.mp h).1

/-- A target that is a static name is a single target. -/
theorem eq_of_mem_singleTargets {d : StructDecl} {target t : Node} (h : target.isStaticName d)
    (ht : t ∈ target.singleTargets) : t = target.unparenthesize := by
  rw [singleTargets, targets_eq, if_neg (by simp [kind_of_isStaticName h])] at ht
  simpa using ht

theorem writtenParts_of_isStaticName {d : StructDecl} {target : Node}
    (h : target.isStaticName d) : target.writtenParts = [] := by
  have hkind := kind_of_isStaticName h
  have hsame : target.unparenthesize.unparenthesize = target.unparenthesize :=
    unparenthesize_of_ne (by simp [hkind])
  rw [writtenParts, targets_eq, if_neg (by simp [hkind])]
  simp [targetParts, operandParts, hsame, hkind]

/-- A node that writes and is no argument is an assignment, an increment or a decrement. -/
theorem written?_of_writing? {n target : Node} {access : Access}
    (h : n.writing? = some (access, target)) (hn : n.kind ≠ .argument) :
    n.written? = some target := by
  unfold writing? Walk.unaryOperand? at h
  unfold written?
  dsimp only
  split at h
  · rename_i hk
    obtain ⟨left, hleft, hpair⟩ := Option.map_eq_some_iff.mp h
    cases hpair
    simp [hk, hleft]
  · rename_i hk
    split at h
    · rename_i hcounts
      obtain ⟨operand, hoperand, hpair⟩ := Option.map_eq_some_iff.mp h
      cases hpair
      simpa [hk, hcounts] using hoperand
    · cases h
  · rename_i hk
    split at h
    · rename_i hcounts
      obtain ⟨operand, hoperand, hpair⟩ := Option.map_eq_some_iff.mp h
      cases hpair
      simpa [hk, hcounts] using hoperand
    · cases h
  · rename_i hk
    exact absurd hk hn
  · cases h

namespace Harmless

variable {n : Node} {d : StructDecl} {role : Role}

theorem passing? (h : n.Harmless d role) (hn : n.kind = .argument) :
    Walk.passing? n ≠ some .refToken ∧ Walk.passing? n ≠ some .outToken := by
  have hno : ∀ kind, Walk.passing? n = some kind → kind ≠ .refToken ∧ kind ≠ .outToken := by
    intro kind hkind
    obtain ⟨c, hc, rfl⟩ := List.mem_map.mp (List.mem_of_find?_eq_some hkind)
    exact h.passesByValue hn c hc
  exact ⟨fun href => (hno _ href).1 rfl, fun hout => (hno _ hout).2 rfl⟩

/-- Whatever a harmless node writes as code is a static field, written by its name. -/
theorem isStaticName (h : n.Harmless d .code) {access : Access} {target : Node}
    (hwriting : n.writing? = some (access, target)) : target.isStaticName d := by
  have hn : n.kind ≠ .argument := by
    intro hk
    obtain ⟨href, hout⟩ := h.passing? hk
    simp [writing?, hk, href, hout] at hwriting
  exact h.writesStatic (by simp) target (written?_of_writing? hwriting hn)

theorem writtenParts (h : n.Harmless d .code) {access : Access} {target : Node}
    (hwriting : n.writing? = some (access, target)) : target.writtenParts = [] :=
  writtenParts_of_isStaticName (h.isStaticName hwriting)

end Harmless

/-! ## What is visited of an inert body is code -/

section Visited

variable {root n c : Node}

theorem code_of_mem (h : (.code, n) ∈ root.places .code) (hn : n.makesObject = false)
    (hc : c ∈ n.children) : (.code, c) ∈ root.places .code := by
  have hplace := mem_places_child h hc
  simpa [childRole, hn] using hplace

theorem code_unparenthesize (h : (.code, n) ∈ root.places .code) :
    (.code, n.unparenthesize) ∈ root.places .code := by
  fun_induction unparenthesize n with
  | case1 n hk c hc ih =>
    exact ih (code_of_mem h (by simp [makesObject, hk]) (mem_children_of_inner? hc))
  | case2 n => exact h
  | case3 n => exact h

theorem code_of_ne_initializer (h : (.code, n) ∈ root.places .code) (hc : c ∈ n.children)
    (hk : c.kind ≠ .initializerExpression) : (.code, c) ∈ root.places .code := by
  have hplace := mem_places_child h hc
  simpa [childRole, hk] using hplace

theorem initializer_of_mem (h : (.code, n) ∈ root.places .code) (hn : n.makesObject = true)
    (hc : c ∈ n.children) (hk : c.kind = .initializerExpression) :
    (.initializer, c) ∈ root.places .code := by
  have hplace := mem_places_child h hc
  simpa [childRole, hn, hk] using hplace

theorem entry_of_mem (h : (.initializer, n) ∈ root.places .code) (hc : c ∈ n.namedChildren)
    (hk : c.kind = .assignmentExpression) : (.entry, c) ∈ root.places .code := by
  have hplace := mem_places_child h (mem_children_of_namedChildren hc)
  simpa [childRole, (List.mem_filter.mp hc).2, hk] using hplace

theorem element_of_mem (h : (.initializer, n) ∈ root.places .code) (hc : c ∈ n.children)
    (hk : c.kind ≠ .assignmentExpression) : (.code, c) ∈ root.places .code := by
  have hplace := mem_places_child h hc
  simpa [childRole, hk] using hplace

theorem part_of_entry (h : (.entry, n) ∈ root.places .code) (hc : c ∈ n.children)
    (hk : c.kind ≠ .initializerExpression) : (.code, c) ∈ root.places .code := by
  have hplace := mem_places_child h hc
  simpa [childRole, hk] using hplace

theorem nested_of_entry (h : (.entry, n) ∈ root.places .code) (hc : n.child? .right = some c)
    (hk : c.kind = .initializerExpression) : (.initializer, c) ∈ root.places .code := by
  have hplace := mem_places_child h (mem_children_of_child? hc)
  have hfield : c.field = some .right := by simpa using List.find?_some hc
  simpa [childRole, hfield, hk] using hplace

/-- Of an object initializer the values and the indices are code. -/
theorem code_of_mem_initializerParts (h : (.initializer, n) ∈ root.places .code)
    {outer : List Node} {p : List Node × Node} (hp : p ∈ n.initializerParts outer) :
    (.code, p.2) ∈ root.places .code := by
  -- nested initializers are below, and looked into like this one
  induction n using below_induction generalizing outer with
  | step n ih =>
    rw [initializerParts_eq] at hp
    obtain ⟨e, he, hp⟩ := List.mem_flatMap.mp hp
    unfold entryParts at hp
    split at hp
    · rename_i hkind
      rw [List.mem_singleton.mp hp]
      exact element_of_mem h (mem_children_of_namedChildren he) hkind
    · rename_i hkind
      have hentry := entry_of_mem h he (not_not.mp hkind)
      rcases List.mem_append.mp hp with hp | hp
      · obtain ⟨left, hleft, hp⟩ := List.mem_flatMap.mp hp
        split at hp
        · rename_i hindex
          obtain ⟨i, hi, rfl⟩ := List.mem_map.mp hp
          have hbinding := part_of_entry hentry
            (mem_children_of_child? (Option.mem_toList.mp hleft)) (by simp [hindex])
          exact code_of_mem hbinding (by simp [makesObject, hindex]) (List.mem_filter.mp hi).1
        · cases hp
      · obtain ⟨right, hright, hp⟩ := List.mem_flatMap.mp hp
        have hchild := Option.mem_toList.mp hright
        split at hp
        · rename_i hinitializer
          have hbelow : right.Below n :=
            (below_of_child? hchild).of_within (within_of_mem (mem_children_of_namedChildren he))
          exact ih right hbelow (nested_of_entry hentry hchild hinitializer) hp
        · rename_i hinitializer
          rw [List.mem_singleton.mp hp]
          exact part_of_entry hentry (mem_children_of_child? hchild) hinitializer

theorem code_of_mem_objectParts (h : (.code, n) ∈ root.places .code) (hn : n.makesObject = true)
    {e : Node} (he : e ∈ n.children) (hc : c ∈ e.objectParts) :
    (.code, c) ∈ root.places .code := by
  unfold objectParts at hc
  split at hc
  · cases hc
  · split at hc
    · rename_i hinitializer
      obtain ⟨p, hp, rfl⟩ := List.mem_map.mp hc
      exact code_of_mem_initializerParts (initializer_of_mem h hn he hinitializer) hp
    · rename_i hinitializer
      rw [List.mem_singleton.mp hc]
      exact code_of_ne_initializer h he hinitializer

theorem code_of_mem_withParts (h : (.code, n) ∈ root.places .code) (hc : c ∈ n.withParts) :
    (.code, c) ∈ root.places .code := by
  unfold withParts at hc
  split at hc
  · rename_i hk
    exact code_of_mem h (by simp [makesObject, hk])
      (mem_children_of_lastChild? (Option.mem_toList.mp hc))
  all_goals first
    | exact absurd hc List.not_mem_nil
    | (rw [List.mem_singleton.mp hc]
       exact h)

theorem code_of_mem_declaratorParts (h : (.code, n) ∈ root.places .code)
    (hn : n.kind = .variableDeclarator) (hc : c ∈ n.declaratorParts) :
    (.code, c) ∈ root.places .code := by
  refine code_of_mem h (by simp [makesObject, hn]) ?_
  rcases List.mem_append.mp hc with hc | hc
  · exact mem_children_of_initializer? (Option.mem_toList.mp hc)
  · exact mem_children_of_namedOfKind hc

variable {d : StructDecl}

theorem code_of_mem_unaryParts (hharmless : n.Harmless d .code)
    (hn : n.kind = .prefixUnaryExpression ∨ n.kind = .postfixUnaryExpression)
    (h : (.code, n) ∈ root.places .code) (hc : c ∈ n.unaryParts) :
    (.code, c) ∈ root.places .code := by
  unfold unaryParts at hc
  split at hc
  · cases hc
  · rename_i operand hoperand
    dsimp only at hc
    split at hc
    · rename_i hcounts
      have hwriting := writing?_of_unary hn (by simpa using hcounts) hoperand
      rw [hharmless.writtenParts hwriting] at hc
      cases hc
    · split at hc
      · rename_i haddress
        obtain ⟨htoken, hprefix⟩ : n.operatorToken? = some .ampersand ∧
            n.kind = .prefixUnaryExpression := by simpa using haddress
        exact absurd htoken (hharmless.takesNoAddress hprefix)
      · have hobject : n.makesObject = false := by rcases hn with hn | hn <;> simp [makesObject, hn]
        exact code_of_mem h hobject (mem_children_of_evaluatedChildren hc)

theorem code_of_mem_argumentParts (hharmless : n.Harmless d .code) (hn : n.kind = .argument)
    (h : (.code, n) ∈ root.places .code) (hc : c ∈ n.argumentParts) :
    (.code, c) ∈ root.places .code := by
  obtain ⟨href, hout⟩ := hharmless.passing? hn
  unfold argumentParts at hc
  split at hc
  · cases hc
  · rename_i value hvalue
    dsimp only at hc
    rw [if_neg (by simp [href, hout]), List.mem_singleton] at hc
    subst hc
    exact code_of_mem h (by simp [makesObject, hn]) (mem_children_of_lastChild? hvalue)

theorem code_of_mem_looseParts (hharmless : n.Harmless d .code)
    (h : (.code, n) ∈ root.places .code) (hc : c ∈ n.looseParts) :
    (.code, c) ∈ root.places .code := by
  have hchild : n.makesObject = false → ∀ {field : Field}, c ∈ (n.child? field).toList →
      (.code, c) ∈ root.places .code := fun hn _ hc =>
    code_of_mem h hn (mem_children_of_child? (Option.mem_toList.mp hc))
  have hbase : n.makesObject = false →
      c ∈ ((n.child? .expression).filter (!·.isThis)).toList → (.code, c) ∈ root.places .code :=
    fun hn hc => hchild hn
      (Option.mem_toList.mpr (Option.filter_eq_some_iff.mp (Option.mem_toList.mp hc)).1)
  unfold looseParts at hc
  split at hc
  all_goals try exact absurd hc List.not_mem_nil
  all_goals try rename_i hk
  · -- a declaration visits parts of its declarators
    obtain ⟨declarator, hdeclarator, hc⟩ := List.mem_flatMap.mp hc
    have hplace := code_of_mem h (by simp [makesObject, hk])
      (mem_children_of_namedOfKind hdeclarator)
    exact code_of_mem_declaratorParts hplace (by simpa using (List.mem_filter.mp hdeclarator).2) hc
  · -- of an assignment to a static name only the value is visited
    rcases List.mem_append.mp hc with hc | hc
    · obtain ⟨left, hleft, hc⟩ := List.mem_flatMap.mp hc
      have hwriting := writing?_of_assignment hk (Option.mem_toList.mp hleft) rfl
      rw [hharmless.writtenParts hwriting] at hc
      cases hc
    · exact hchild (by simp [makesObject, hk]) hc
  · exact code_of_mem_unaryParts hharmless (.inl hk) h hc
  · exact code_of_mem_unaryParts hharmless (.inr hk) h hc
  · exact code_of_mem_argumentParts hharmless hk h hc
  · exact absurd hk hharmless.refersToNothing
  · exact hbase (by simp [makesObject, hk]) hc
  · rcases List.mem_append.mp hc with hc | hc
    · exact hbase (by simp [makesObject, hk]) hc
    · exact hchild (by simp [makesObject, hk]) hc
  · obtain ⟨e, he, hc⟩ := List.mem_flatMap.mp hc
    exact code_of_mem_objectParts h (by simp [makesObject, hk]) he hc
  · obtain ⟨e, he, hc⟩ := List.mem_flatMap.mp hc
    exact code_of_mem_objectParts h (by simp [makesObject, hk]) he hc
  · obtain ⟨e, he, hc⟩ := List.mem_flatMap.mp hc
    exact code_of_mem_withParts (code_of_mem h (by simp [makesObject, hk]) he) hc
  · exact code_of_mem h (by simp [makesObject, hk]) (mem_of_mem_anonymousParts hc)
  · -- every other kind visits its children, and none of these kinds makes an object
    have hn : n.makesObject = false := by simp_all [makesObject]
    exact code_of_mem h hn (mem_children_of_evaluatedChildren hc)

theorem code_of_mem_innerParts (hharmless : n.Harmless d .code)
    (h : (.code, n) ∈ root.places .code) (hc : c ∈ n.innerParts) :
    (.code, c) ∈ root.places .code := by
  unfold innerParts at hc
  split at hc
  all_goals try rename_i hk
  all_goals try
    exact code_of_mem h (by simp [makesObject, hk]) (mem_children_of_evaluatedChildren hc)
  · exact code_of_mem h (by simp [makesObject, hk])
      (mem_children_of_child? (Option.mem_toList.mp hc))
  · -- a `foreach` with a type declares its variable and writes nothing
    obtain ⟨e, he, hc⟩ := List.mem_flatMap.mp hc
    have hplace := code_of_mem h (by simp [makesObject, hk]) he
    rw [hharmless.declaresVariable hk] at hc
    unfold foreachParts at hc
    split at hc
    · cases hc
    · split at hc
      · rw [if_pos rfl] at hc
        split at hc
        · cases hc
        · rw [List.mem_singleton.mp hc]
          exact hplace
      · rw [List.mem_singleton.mp hc]
        exact hplace
  · exact absurd hk hharmless.pinsNothing
  · cases hc

end Visited

end Node

/-! ## Scopes without aliases -/

namespace Scope

/-- No name in scope is another way to the instance. -/
structure AliasFree (s : Scope) : Prop where
  blocks : ∀ block ∈ s.blocks, ∀ b ∈ block, b.2.isAlias = false
  params : ∀ b ∈ s.params, b.2.isAlias = false

namespace AliasFree

variable {s : Scope}

theorem enter (h : s.AliasFree) : s.enter.AliasFree := by
  refine ⟨fun block hblock b hb => ?_, h.params⟩
  rcases List.mem_cons.mp hblock with rfl | hblock
  · cases hb
  · exact h.blocks block hblock b hb

theorem exit (h : s.AliasFree) : s.exit.AliasFree :=
  ⟨fun block hblock => h.blocks block (List.mem_of_mem_tail hblock), h.params⟩

theorem declare (h : s.AliasFree) (name : String) {kind : LocalKind}
    (hkind : kind.isAlias = false) : (s.declare name kind).AliasFree := by
  unfold Scope.declare
  split
  · refine ⟨fun block hblock b hb => ?_, h.params⟩
    rw [List.mem_singleton.mp hblock, List.mem_singleton] at hb
    rw [hb]
    exact hkind
  · rename_i first rest hblocks
    refine ⟨fun block hblock b hb => ?_, h.params⟩
    rcases List.mem_cons.mp hblock with rfl | hblock
    · rcases List.mem_cons.mp hb with rfl | hb
      · exact hkind
      · exact h.blocks first (by simp [hblocks]) b hb
    · exact h.blocks block (by simp [hblocks, hblock]) b hb

theorem ofParameters (params : List Parameter) : (Scope.ofParameters params).AliasFree := by
  have hfold : ∀ s : Scope, s.AliasFree → (params.foldl addParam s).AliasFree := by
    induction params with
    | nil => exact fun s h => h
    | cons p params ih =>
      refine fun s h => ih _ ⟨h.blocks, fun b hb => ?_⟩
      rcases List.mem_cons.mp hb with rfl | hb
      · exact LocalKind.isAlias_ofParameter p
      · exact h.params b hb
  exact hfold empty ⟨by simp [empty], by simp [empty]⟩

/-- What a name means is no alias. -/
theorem lookup (h : s.AliasFree) {name : String} {kind : LocalKind}
    (hname : s.lookup name = some kind) : kind.isAlias = false := by
  have hmem : ∀ {l : Bindings LocalKind}, l.lookup name = some kind → (name, kind) ∈ l := by
    intro l hl
    obtain ⟨before, after, rfl, -⟩ := List.lookup_eq_some_iff.mp hl
    simp
  rcases Option.or_eq_some_iff.mp hname with hblock | ⟨-, hparam⟩
  · obtain ⟨block, hblock, hlookup⟩ := List.exists_of_findSome?_eq_some hblock
    exact h.blocks block hblock (name, kind) (hmem hlookup)
  · exact h.params (name, kind) (hmem hparam)

/-- No expression is a pointer into the instance. -/
theorem isInstancePointer (h : s.AliasFree) (n : Node) : Walk.isInstancePointer s n = false := by
  induction n using Node.below_induction with
  | step n ih =>
    have hparts : ∀ field : Field,
        (n.unparenthesize.child? field).any (Walk.isInstancePointer s) = false := by
      intro field
      cases hc : n.unparenthesize.child? field with
      | none => rfl
      | some c =>
        exact ih c ((Node.below_of_child? hc).of_within (Node.within_unparenthesize n))
    rw [Walk.isInstancePointer_eq]
    unfold Walk.instancePointerOf
    split
    · refine decide_eq_false fun hname => ?_
      have halias := h.lookup hname
      simp [LocalKind.isAlias] at halias
    · simp [hparts]
    · exact hparts .value
    · rfl

/-- What a static name means is not a part of the instance, whether or not a local hides it. -/
theorem storage_of_isStaticName (h : s.AliasFree) {v : Viewpoint} {target : Node}
    (htarget : target.isStaticName v.decl) :
    v.storage s target.unparenthesize = .outside ∨
      ∃ intoInstance, v.storage s target.unparenthesize = .pointerVariable intoInstance := by
  have hkind := Node.kind_of_isStaticName htarget
  have hfield := (Bool.and_eq_true_iff.mp htarget).2
  have hname : v.storage s target.unparenthesize =
      v.nameStorage s target.unparenthesize.text := by
    rw [v.storage_eq, Node.unparenthesize_of_ne (by simp [hkind])]
    simp [Viewpoint.storageOf, hkind]
  rw [hname]
  unfold Viewpoint.nameStorage
  split
  · exact .inr ⟨_, rfl⟩
  · rename_i hlookup
    have halias := h.lookup hlookup
    simp [LocalKind.isAlias] at halias
  · exact .inl rfl
  · -- no local hides the field
    split at hfield
    · rename_i m hresolved
      simp [Viewpoint.memberStorage, hresolved, hfield]
    · cases hfield

end AliasFree

end Scope

/-! ## Walks through harmless code -/

namespace Walk

/-- From a state without aliases, the second state is reached with nothing noted, and there are
still no aliases. -/
def Silent (w w' : Walk) : Prop :=
  w.scope.AliasFree → w'.evidence = w.evidence ∧ w'.scope.AliasFree

theorem silent_of_eq {w w' : Walk} (hevidence : w'.evidence = w.evidence)
    (hscope : w'.scope = w.scope) : w.Silent w' :=
  fun h => ⟨hevidence, hscope ▸ h⟩

/-- Uses note nothing, and a local that is no alias makes none. -/
theorem uses_silent (v : Viewpoint) : Uses v fun _ => Silent where
  refl := fun w => silent_of_eq rfl rfl
  trans := by
    intro S T a b c hab hbc hfree
    obtain ⟨hevidence, hb⟩ := hab hfree
    obtain ⟨hevidence', hc⟩ := hbc hb
    exact ⟨hevidence'.trans hevidence, hc⟩
  bindLocal := fun w name _ hkind hfree => ⟨rfl, hfree.declare name hkind⟩
  inBlock := by
    rintro f w ⟨_, h⟩ hfree
    obtain ⟨hevidence, hinner⟩ := h hfree.enter
    exact ⟨hevidence, hinner.exit⟩
  returning := fun _ _ h => h
  useMethods := fun _ _ => silent_of_eq rfl rfl
  useProperty := fun _ _ _ _ _ => silent_of_eq rfl rfl
  useIndexer := fun _ _ _ _ _ => silent_of_eq rfl rfl
  useEvent := fun _ _ _ _ => silent_of_eq rfl rfl

variable {v : Viewpoint}

theorem silent_writeStorage {target : Node} (htarget : target.isStaticName v.decl)
    (w : Walk) (access : Access) (t : Node) :
    w.Silent (writeStorage v w access (v.storage w.scope target.unparenthesize) t) := by
  intro hfree
  rcases hfree.storage_of_isStaticName htarget with hstorage | ⟨_, hstorage⟩
  · rw [hstorage]
    exact ⟨rfl, hfree⟩
  · rw [hstorage]
    exact ⟨rfl, hfree⟩

theorem calledOnThis?_of_calledName? {n function : Node} {name : String}
    (hn : n.kind = .invocationExpression) (hfunction : n.child? .function = some function)
    (h : calledName? function.unparenthesize = some (name, true)) :
    n.calledOnThis? = some name := by
  unfold calledName? at h
  split at h
  · simp at h
  · simp at h
  · rename_i hk
    split at h
    · rename_i hthis
      obtain ⟨called, hname, hpair⟩ := Option.map_eq_some_iff.mp h
      cases hpair
      simp [Node.calledOnThis?, hn, hfunction, hk, hthis, hname]
    · cases h
  · cases h

/-- A call is not noted in a struct that is declared in one part, unless it calls an unknown name
on `this`. -/
theorem checkCall_of_harmless {n function : Node} (hpartial : v.decl.isPartial = false)
    (hn : n.kind = .invocationExpression) (hfunction : n.child? .function = some function)
    (hharmless : n.Harmless v.decl .code) (w : Walk) : checkCall v function w = w := by
  unfold checkCall
  split
  · rfl
  · rename_i name throughThis hcalled
    split
    · rfl
    · split
      · rfl
      · rename_i hunresolved
        cases throughThis with
        | false => simp [hpartial]
        | true =>
          have hname := calledOnThis?_of_calledName? hn hfunction hcalled
          have hinherited := (hharmless.callsKnown name hname).resolve_left hunresolved
          simp [hinherited]

theorem isAlias_declaredKind {scope : Scope} (hscope : scope.AliasFree) {value : Option Node}
    (hvalue : ∀ x ∈ value, x.unparenthesize.kind ≠ .refExpression) (type : Option Node) :
    (declaredKind v scope type value).isAlias = false := by
  unfold declaredKind
  dsimp only
  split
  · rename_i x
    have hnone : x.refTarget? = none := by
      rw [Node.refTarget?, if_neg (hvalue x rfl)]
    split
    · simp [hnone, LocalKind.isAlias]
    · split
      · simp [LocalKind.isAlias, hscope.isInstancePointer]
      · rfl
  · split <;> rfl

theorem bindsAfter_silent {kind : Scope → LocalKind}
    (hkind : ∀ scope : Scope, scope.AliasFree → (kind scope).isAlias = false)
    (name : Option Node) : BindsAfter (fun _ => Silent) name kind := by
  intro S w w' h hfree
  obtain ⟨hevidence, hfree'⟩ := h hfree
  cases name with
  | none => exact ⟨hevidence, hfree'⟩
  | some n => exact ⟨hevidence, hfree'.declare n.text (hkind w.scope hfree)⟩

/-- A harmless node of a body notes nothing by itself and makes no alias. -/
theorem notes_silent {root n : Node} (hpartial : v.decl.isPartial = false)
    (hinert : root.Inert v.decl) (hn : (.code, n) ∈ root.places .code) :
    Notes v (fun _ => Silent) n := by
  have hharmless : n.Harmless v.decl .code := hinert _ hn
  refine
    { written := ?written, iterated := ?iterated, addressed := ?addressed, passed := ?passed
      referred := ?referred, called := ?called, declared := ?declared, pinned := ?pinned }
  case written =>
    intro access target hwriting t ht _ w
    have hstatic := hharmless.isStaticName hwriting
    rw [Node.eq_of_mem_singleTargets hstatic ht]
    exact silent_writeStorage hstatic w access _
  case iterated =>
    intro hk huntyped
    have htyped := hharmless.declaresVariable hk
    simp [huntyped] at htyped
  case addressed => exact fun hk htoken => absurd htoken (hharmless.takesNoAddress hk)
  case passed =>
    -- only an alias escapes by value, and there is none
    intro _ value _ w hpointer hfree
    rw [hfree.isInstancePointer value] at hpointer
    cases hpointer
  case referred => exact fun hk => absurd hk hharmless.refersToNothing
  case called =>
    intro hk function hfunction w
    rw [checkCall_of_harmless hpartial hk hfunction hharmless w]
    exact silent_of_eq rfl rfl
  case declared =>
    intro hk declarator hdeclarator
    refine bindsAfter_silent
      (fun scope hscope => isAlias_declaredKind hscope (fun value hvalue => ?_) _) _
    -- the value is code of the body, and so no `ref` expression
    have hplace := Node.code_of_mem hn (by simp [Node.makesObject, hk])
      (Node.mem_children_of_namedOfKind hdeclarator)
    have hdeclaratorKind : declarator.kind = .variableDeclarator := by
      simpa using (List.mem_filter.mp hdeclarator).2
    have hcode := Node.code_of_mem hplace (by simp [Node.makesObject, hdeclaratorKind])
      (Node.mem_children_of_initializer? hvalue)
    exact (hinert _ (Node.code_unparenthesize hcode)).refersToNothing
  case pinned => exact fun hk => absurd hk hharmless.pinsNothing

/-- The walk through an inert body notes nothing. -/
theorem silent_visit {root : Node} (hpartial : v.decl.isPartial = false)
    (hinert : root.Inert v.decl) (outer : List Node) (w : Walk) :
    w.Silent (visit v outer root w) := by
  have hparts : ∀ n, (.code, n) ∈ root.places .code →
      ∀ c ∈ n.visitedParts, (.code, c) ∈ root.places .code := by
    intro n hn c hc
    rcases List.mem_append.mp hc with hc | hc
    · exact Node.code_of_mem_looseParts (hinert _ hn) hn hc
    · exact Node.code_of_mem_innerParts (hinert _ hn) hn hc
  exact (uses_silent v).visit (fun _ hn => notes_silent hpartial hinert hn) hparts
    (Node.mem_places_self .code root) outer w

end Walk

/-! ## The law -/

/-- In a struct that is declared in one part, a member whose body has only harmless nodes shows no
evidence, unless it is looked at without its body for a syntax error or as an `init` accessor. -/
theorem an_inert_body_shows_no_evidence {root : Node} {d : StructDecl} {m : Member} {body : Node}
    (hd : d ∈ StructDecl.ofTree root) (hpartial : d.isPartial = false) (hm : m ∈ d.members)
    (hinit : m.kind.isInitOnly = false) (hmalformed : m.malformed = false)
    (hbody : m.body = some body) (hinert : body.Inert d) :
    (d.analyzeMember m).evidence = [] := by
  obtain ⟨hfield, hsynthesized⟩ :=
    StructDecl.allMembers_ofTree StructDecl.given_inspected hd m hm (by simp [hbody])
  by_cases hstatic : m.isStatic = true
  · -- a static member has no instance
    simp [StructDecl.analyzeMember, hstatic]
  · have hwalk : d.analyzeMember m =
        (Walk.visit (d.viewpoint m) [] body (Walk.start m)).analysis := by
      simp [StructDecl.analyzeMember, hbody, hfield, hsynthesized, hstatic, hinit, hmalformed]
    have hstart : (Walk.start m).scope.AliasFree := (Scope.AliasFree.ofParameters m.parameters).enter
    rw [hwalk]
    exact (Walk.silent_visit (v := d.viewpoint m) hpartial hinert [] (Walk.start m) hstart).1

/-- The block `{ (s) = new S { f = 1 }.f; }`. -/
def staticWrite (start : Nat) : Node :=
  let one := .tree (.other "integer_literal") "1" (start + 20) [] (some .right)
  let entry := .tree .assignmentExpression "f = 1" (start + 16)
    [.tree .identifier "f" (start + 16) [] (some .left),
     .word .assign "=" (start + 18) (some .operator), one]
  let made := .tree .objectCreationExpression "new S \x7b f = 1 \x7d" (start + 8)
    [.word (.other "new") "new" (start + 8), .tree .identifier "S" (start + 12) [] (some .type),
     .tree .initializerExpression "\x7b f = 1 \x7d" (start + 14)
      [.word .openBrace "\x7b" (start + 14), entry, .word .closeBrace "\x7d" (start + 22)]]
    (some .expression)
  let value := .tree .memberAccessExpression (made.text ++ ".f") (start + 8)
    [made, .word (.other ".") "." (start + 23), .tree .identifier "f" (start + 24) [] (some .name)]
    (some .right)
  let write := .tree .assignmentExpression ("(s) = " ++ value.text) (start + 2)
    [.tree .parenthesizedExpression "(s)" (start + 2)
      [.word .openParen "(" (start + 2), .tree .identifier "s" (start + 3),
       .word .closeParen ")" (start + 4)] (some .left),
     .word .assign "=" (start + 6) (some .operator), value]
  .tree .block ("\x7b " ++ write.text ++ "; \x7d") start
    [.word .openBrace "\x7b" start,
     .tree (.other "expression_statement") (write.text ++ ";") (start + 2)
      [write, .word (.other ";") ";" (start + 25)],
     .word .closeBrace "\x7d" (start + 27)] (some .body)

/-- The field `static int s;`. -/
def staticField (start : Nat) : Node :=
  .tree .fieldDeclaration "static int s;" start
    [.tree .modifier "static" start [.word (.other "static") "static" start],
     .tree .variableDeclaration "int s" (start + 7)
      [.tree .predefinedType "int" (start + 7) [] (some .type),
       .tree .variableDeclarator "s" (start + 11)
        [.tree .identifier "s" (start + 11) [] (some .name)]],
     .word (.other ";") ";" (start + 12)]

/-- The file `struct S { int f; static int s; void M() { (s) = new S { f = 1 }.f; } }`. -/
def fileWithStaticWrite : Node :=
  .structOf [.intField "f" 11, staticField 18, .voidMethod "M" 32 (staticWrite 41)]

/-- The method writes the static field, and the name of the other field only stands in the
initializer of a new object. -/
theorem a_static_write_from_a_new_object_is_not_noted :
    let d := (StructDecl.ofTree fileWithStaticWrite).head!
    ∃ m ∈ d.members, m.body = some (staticWrite 41) ∧ (staticWrite 41).Inert d ∧
      (d.analyzeMember m).evidence = [] := by
  intro d
  have hd : d ∈ StructDecl.ofTree fileWithStaticWrite := List.mem_cons_self
  have hm : d.members[2]! ∈ d.members := Array.getElem_mem (i := 2) (by decide +kernel)
  have hinert : (staticWrite 41).Inert d := by decide +kernel
  exact ⟨d.members[2]!, hm, rfl, hinert, an_inert_body_shows_no_evidence hd (by decide +kernel) hm
    (by decide +kernel) (by decide +kernel) rfl hinert⟩

end ReadonlyLint
