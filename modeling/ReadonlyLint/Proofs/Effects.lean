import Mathlib.Data.Set.Insert
import ReadonlyLint.Proofs.Storage
import ReadonlyLint.Proofs.VisitedParts

/-!
What a visit can do to the state of a walk, said once. A relation between the states before and
after a part of a walk, told by the names that the part binds in the innermost block, holds of the
visit of a tree if it holds of the single things that rules do: the uses of members (`Walk.Uses`),
and the notes and aliases that each node of the tree makes by itself (`Walk.Notes`). There is one
lemma for each rule; what holds of every visit, such as that nothing found is lost, and what holds
of the visits of some trees, such as that nothing is noted, needs no other induction.
-/
namespace ReadonlyLint

namespace Mutation

/-- Whether walks over bodies note the mutation. The others say why a body is not looked at. -/
def isSeen : Mutation → Bool
  | .synthesizedSetter | .initAccessor | .missingBody | .malformedSyntax => false
  | _ => true

end Mutation

namespace LocalKind

/-- Whether the local is another way to the instance. -/
def isAlias : LocalKind → Bool
  | .plain => false
  | .pointer intoInstance => intoInstance
  | .ref toInstance => toInstance

theorem isAlias_ofParameter (p : Parameter) : (ofParameter p).isAlias = false := by
  unfold ofParameter
  split <;> rfl

end LocalKind

namespace Walk

/-! ## Parts of rules -/

/-- What a `ref` expression shows of its operand before the operand is visited. -/
def noteRef (v : Viewpoint) (outer : List Node) (n operand : Node) (w : Walk) : Walk :=
  if (v.storage w.scope operand).isInstance then
    if bindsReadonly outer w then w else w.record (refMutation outer operand) n
  else
    match v.storage w.scope operand with
    | .property group => useGroup v w group true false
    | .indexer => useIndexers v w true false
    | _ => w

/-- The visit of one child of a new object, inside of the given nodes. -/
def visitObjectPart (go : Visit) (around : List Node) (c : Node) (w : Walk) : Walk :=
  if c.field = some .type then w
  else if c.kind = .initializerExpression then
    (c.initializerParts around).foldl (fun w (outer, part) => go outer part w) w
  else go around c w

/-- The visit of one child of a `with` expression, inside of the given nodes. -/
def visitWithPart (go : Visit) (around : List Node) (c : Node) (w : Walk) : Walk :=
  match c.kind with
  | .withInitializer => visitPart go (c.around around) c.lastChild? w
  | .withToken | .openBrace | .closeBrace | .comma => w
  | _ => go around c w

/-- The children that are evaluated are visited one after the other. -/
theorem visitChildren_eq (go : Visit) (outer : List Node) (n : Node) (w : Walk) :
    visitChildren go outer n w =
      n.evaluatedChildren.foldl (fun w c => go (n.around outer) c w) w := by
  unfold visitChildren Node.evaluatedChildren
  rw [List.foldl_filter]
  congr 1
  funext w c
  cases c.field.any (·.isDeclarative) <;> rfl

/-! ## Relations that put rules together -/

/-- The relation holds where nothing happens, of one part after the other and of the binding of a
local that is no alias; a block of its own binds nothing outside of it. -/
structure Composes (R : Set String → Walk → Walk → Prop) : Prop where
  refl : ∀ w : Walk, R ∅ w w
  trans : ∀ {S T : Set String} {a b c : Walk}, R S a b → R T b c → R (S ∪ T) a c
  bindLocal : ∀ (w : Walk) (name : String) {kind : LocalKind}, kind.isAlias = false →
    R {name} w { w with scope := w.scope.declare name kind }
  inBlock : ∀ {f : Walk → Walk} (w : Walk),
    (∃ S, R S { w with scope := w.scope.enter } (f { w with scope := w.scope.enter })) →
    R ∅ w (inBlock f w)
  returning : ∀ {S : Set String} {f : Walk → Walk} (mode : ReturnMode) (w : Walk),
    R S { w with returnModes := mode :: w.returnModes }
      (f { w with returnModes := mode :: w.returnModes }) →
    R S w (returning mode f w)

/-- The relation holds as well of every use that a rule makes of members: of the methods, the
property or the event of the instance that a name means, and of an indexer of the instance. -/
structure Uses (v : Viewpoint) (R : Set String → Walk → Walk → Prop) : Prop
    extends Composes R where
  useMethods : ∀ {name : String} {ms : List Member}, v.decl.resolve name = some (.methods ms) →
    ∀ w : Walk, R ∅ w (w.use ((ms.filter (!·.isStatic)).map (·.id)))
  useProperty : ∀ {name : String} {g : PropertyGroup}, v.decl.resolve name = some (.property g) →
    g.isStatic = false →
    ∀ (w : Walk) (read write : Bool), R ∅ w (useGroup v w g.id read write)
  useIndexer : ∀ {g : PropertyGroup}, g ∈ v.decl.indexers → g.isStatic = false →
    ∀ (w : Walk) (read write : Bool), R ∅ w (useGroup v w g.id read write)
  useEvent : ∀ {name : String} {e : CustomEvent}, v.decl.resolve name = some (.event e) →
    e.isStatic = false →
    ∀ (w : Walk) (access : Access), R ∅ w (w.use (access.eventAccessors e.add e.remove))

/-- The relation holds as well of every note and of every binding. -/
structure Effects (v : Viewpoint) (R : Set String → Walk → Walk → Prop) : Prop
    extends Uses v R where
  record : ∀ (w : Walk) (mutation : Mutation) (n : Node), R ∅ w (w.record mutation n)
  bind : ∀ (w : Walk) (name : String) (kind : LocalKind),
    R {name} w { w with scope := w.scope.declare name kind }

/-- The relation holds of a write to a single target. -/
def Writes (v : Viewpoint) (R : Set String → Walk → Walk → Prop) (access : Access) (t : Node) :
    Prop :=
  t.kind ≠ .declarationExpression →
    ∀ w : Walk, R ∅ w (writeStorage v w access (v.storage w.scope t) t)

/-- The relation goes on to hold when a name is bound after a part of a walk, as what it was known
to be before that part. -/
def BindsAfter (R : Set String → Walk → Walk → Prop) (name : Option Node)
    (kind : Scope → LocalKind) : Prop :=
  ∀ ⦃S : Set String⦄ ⦃w w' : Walk⦄, R S w w' →
    R (S ∪ { s | s ∈ name.toList.map (·.text) }) w (declareName name (kind w.scope) w')

/-- The relation holds of what a node does by itself, apart from uses: of its notes, and of the
bindings that it makes and that may be aliases. -/
structure Notes (v : Viewpoint) (R : Set String → Walk → Walk → Prop) (n : Node) : Prop where
  written : ∀ {access : Access} {target : Node}, n.writing? = some (access, target) →
    ∀ t ∈ target.singleTargets, Writes v R access t
  iterated : n.kind = .foreachStatement → n.child? .type = none →
    ∀ c ∈ n.children, c.field = some .left → ∀ t ∈ c.singleTargets, Writes v R .assign t
  addressed : n.kind = .prefixUnaryExpression → n.operatorToken? = some .ampersand →
    ∀ operand, n.lastChild? = some operand → ∀ w : Walk,
      (v.storage w.scope operand).isInstance = true →
      R ∅ w (w.record (.unclassifiable "address of instance storage") n)
  passed : n.kind = .argument → ∀ value, n.lastChild? = some value → ∀ w : Walk,
    isInstancePointer w.scope value = true → R ∅ w (w.record (.referenceEscape value.text) value)
  referred : n.kind = .refExpression → ∀ operand, n.lastChild? = some operand →
    ∀ (outer : List Node) (w : Walk), R ∅ w (noteRef v outer n operand w)
  called : n.kind = .invocationExpression → ∀ function, n.child? .function = some function →
    ∀ w : Walk, R ∅ w (checkCall v function w)
  declared : n.kind = .variableDeclaration → ∀ d ∈ n.declarators,
    BindsAfter R (d.child? .name) (declaredKind v · (n.child? .type) d.initializer?)
  pinned : n.kind = .fixedStatement → ∀ c ∈ n.children, ∀ d ∈ c.declarators,
    ∀ value, d.initializer? = some value →
      BindsAfter R (d.child? .name) (.pointer <| pointsIntoInstance v · (value.addressed []).2)

/-- The names that the visits of some nodes bind. -/
def gathered (names : Node → Set String) (l : List Node) : Set String :=
  { name | ∃ c ∈ l, name ∈ names c }

@[simp] theorem mem_gathered {names : Node → Set String} {l : List Node} {name : String} :
    name ∈ gathered names l ↔ ∃ c ∈ l, name ∈ names c := Iff.rfl

@[simp] theorem gathered_nil (names : Node → Set String) : gathered names [] = ∅ := by
  ext name
  simp

@[simp] theorem gathered_singleton (names : Node → Set String) (n : Node) :
    gathered names [n] = names n := by
  ext name
  simp

theorem gathered_append (names : Node → Set String) (l l' : List Node) :
    gathered names (l ++ l') = gathered names l ∪ gathered names l' := by
  ext name
  simp [or_and_right, exists_or]

theorem gathered_flatMap {α : Type} (names : Node → Set String) (l : List α)
    (f : α → List Node) :
    gathered names (l.flatMap f) = { name | ∃ a ∈ l, name ∈ gathered names (f a) } := by
  ext name
  simp only [mem_gathered, List.mem_flatMap, Set.mem_ofPred_eq]
  constructor
  · rintro ⟨c, ⟨a, ha, hc⟩, hname⟩
    exact ⟨a, ha, c, hc, hname⟩
  · rintro ⟨a, ha, c, hc, hname⟩
    exact ⟨c, ⟨a, ha, hc⟩, hname⟩

theorem gathered_map {α : Type} (names : Node → Set String) (f : α → Node) (l : List α) :
    gathered names (l.map f) = { name | ∃ a ∈ l, name ∈ names (f a) } := by
  ext name
  simp

/-- The relation holds of the visits of some nodes. -/
def Follows (R : Set String → Walk → Walk → Prop) (names : Node → Set String) (go : Visit)
    (l : List Node) : Prop :=
  ∀ c ∈ l, ∀ (outer : List Node) (w : Walk), R (names c) w (go outer c w)

namespace Follows

variable {R : Set String → Walk → Walk → Prop} {names : Node → Set String} {go : Visit}

theorem left {l l' : List Node} (h : Follows R names go (l ++ l')) : Follows R names go l :=
  fun c hc => h c (List.mem_append_left l' hc)

theorem right {l l' : List Node} (h : Follows R names go (l ++ l')) : Follows R names go l' :=
  fun c hc => h c (List.mem_append_right l hc)

theorem part {α : Type} {f : α → List Node} {l : List α} (h : Follows R names go (l.flatMap f))
    {a : α} (ha : a ∈ l) : Follows R names go (f a) :=
  fun c hc => h c (List.mem_flatMap_of_mem ha hc)

theorem self {n : Node} (h : Follows R names go [n]) (outer : List Node) (w : Walk) :
    R (names n) w (go outer n w) :=
  h n List.mem_cons_self outer w

end Follows

namespace Composes

variable {R : Set String → Walk → Walk → Prop} (hR : Composes R)
include hR

/-! ## Without a visit -/

theorem bindPlain (w : Walk) (name : String) :
    R {name} w { w with scope := w.scope.declare name .plain } :=
  hR.bindLocal w name rfl

theorem declareName {kind : LocalKind}
    (hbind : ∀ (w : Walk) (name : String), R {name} w { w with scope := w.scope.declare name kind })
    (name : Option Node) (w : Walk) :
    R { s | s ∈ name.toList.map (·.text) } w (Walk.declareName name kind w) := by
  rcases name with _ | n
  · have hempty : { s | s ∈ (none : Option Node).toList.map (·.text) } = (∅ : Set String) := by
      ext s
      simp
    rw [hempty]
    exact hR.refl w
  · have hone : { s | s ∈ (some n).toList.map (·.text) } = ({n.text} : Set String) := by
      ext s
      simp
    rw [hone]
    exact hbind w n.text

theorem declarePlain (name : Option Node) (w : Walk) :
    R { s | s ∈ name.toList.map (·.text) } w (Walk.declareName name .plain w) :=
  hR.declareName hR.bindPlain name w

/-- A fold binds what its turns bind. -/
theorem foldl {α : Type} {f : Walk → α → Walk} (names : α → Set String) (l : List α)
    (h : ∀ w : Walk, ∀ a ∈ l, R (names a) w (f w a)) (w : Walk) :
    R { s | ∃ a ∈ l, s ∈ names a } w (l.foldl f w) := by
  induction l generalizing w with
  | nil => simpa using hR.refl w
  | cons a l ih =>
    have hrest := ih (fun w b hb => h w b (List.mem_cons_of_mem a hb)) (f w a)
    have hboth := hR.trans (h w a List.mem_cons_self) hrest
    have hnames : names a ∪ { s | ∃ b ∈ l, s ∈ names b } = { s | ∃ b ∈ a :: l, s ∈ names b } := by
      ext s
      simp
    rw [hnames] at hboth
    exact hboth

theorem declareNames (n : Node) (w : Walk) :
    R { s | s ∈ n.introducedNames } w (Walk.declareNames n w) := by
  have hfold := hR.foldl (fun c : Node => {c.text})
    (n.children.filter fun c => c.kind = .identifier &&
      (c.field = some .name || n.kind = .parenthesizedVariableDesignation))
    (fun w c _ => hR.bindPlain w c.text) w
  rw [List.foldl_filter] at hfold
  have hnames : { s | s ∈ n.introducedNames } = { s | ∃ c ∈ n.children.filter fun c =>
      c.kind = .identifier && (c.field = some .name || n.kind = .parenthesizedVariableDesignation),
      s ∈ ({c.text} : Set String) } := by
    ext s
    simp [Node.introducedNames, @eq_comm _ s]
  rw [hnames]
  exact hfold

/-- A fold whose turns bind nothing binds nothing. -/
theorem foldl_empty {α : Type} {f : Walk → α → Walk} (l : List α)
    (h : ∀ w : Walk, ∀ a ∈ l, R ∅ w (f w a)) (w : Walk) : R ∅ w (l.foldl f w) := by
  have hfold := hR.foldl (fun _ => ∅) l h w
  have hnone : { s : String | ∃ a ∈ l, s ∈ (∅ : Set String) } = ∅ := by
    ext s
    simp
  rw [hnone] at hfold
  exact hfold

/-- What a fold does in a block need not be told by its names. -/
theorem foldl_exists {α : Type} {f : Walk → α → Walk} (l : List α)
    (h : ∀ w : Walk, ∀ a ∈ l, ∃ S, R S w (f w a)) (w : Walk) : ∃ S, R S w (l.foldl f w) := by
  induction l generalizing w with
  | nil => exact ⟨∅, hR.refl w⟩
  | cons a l ih =>
    obtain ⟨S, hfirst⟩ := h w a List.mem_cons_self
    obtain ⟨T, hrest⟩ := ih (fun w b hb => h w b (List.mem_cons_of_mem a hb)) (f w a)
    exact ⟨S ∪ T, hR.trans hfirst hrest⟩

theorem declareParameters (w : Walk) (params : List Parameter) :
    ∃ S, R S w (w.declareParameters params) := by
  unfold Walk.declareParameters
  induction params generalizing w with
  | nil => exact ⟨∅, hR.refl w⟩
  | cons p ps ih =>
    have hfirst := hR.bindLocal w p.name (LocalKind.isAlias_ofParameter p)
    obtain ⟨S, hrest⟩ := ih { w with scope := w.scope.declare p.name (.ofParameter p) }
    exact ⟨{p.name} ∪ S, hR.trans hfirst hrest⟩

/-- A call notes at most the function that is called. -/
theorem checkCall (v : Viewpoint) {function : Node} {w : Walk}
    (hrecord : ∀ mutation, mutation.isSeen = true →
      R ∅ w (w.record mutation function.unparenthesize)) :
    R ∅ w (Walk.checkCall v function w) := by
  unfold Walk.checkCall
  split
  · exact hR.refl w
  · split
    · exact hR.refl w
    · split
      · exact hR.refl w
      · split
        · exact hrecord _ rfl
        · split
          · exact hrecord _ rfl
          · exact hR.refl w

/-- Where every binding is followed, so is one that was known before. -/
theorem bindsAfter (hbind : ∀ (w : Walk) (name : String) (kind : LocalKind),
    R {name} w { w with scope := w.scope.declare name kind })
    (name : Option Node) (kind : Scope → LocalKind) : BindsAfter R name kind :=
  fun _ w w' h => hR.trans h (hR.declareName (fun v s => hbind v s (kind w.scope)) name w')

/-! ## Rules that use no members -/

section Visits

variable {go : Visit} (names : Node → Set String)

theorem visitPart (outer : List Node) (part : Option Node) (hgo : Follows R names go part.toList)
    (w : Walk) : R (gathered names part.toList) w (Walk.visitPart go outer part w) := by
  rcases part with _ | n
  · rw [Option.toList_none, gathered_nil]
    exact hR.refl w
  · rw [Option.toList_some, gathered_singleton]
    exact hgo.self outer w

theorem visitOperands (outer : List Node) (target : Node)
    (hgo : Follows R names go target.operandParts) (w : Walk) :
    R (gathered names target.operandParts) w (Walk.visitOperands go outer target w) := by
  unfold Node.operandParts at hgo
  unfold Walk.visitOperands Node.operandParts
  dsimp only at hgo ⊢
  generalize hkind : target.unparenthesize.kind = kind at hgo ⊢
  split
  · rw [gathered_nil]
    exact hR.refl w
  · rw [gathered_nil]
    exact hR.refl w
  · rw [gathered_nil]
    exact hR.refl w
  · exact hR.visitPart names _ _ hgo w
  · rw [gathered_append]
    exact hR.trans (hR.visitPart names _ _ hgo.left w) (hR.visitPart names _ _ hgo.right _)
  · exact hR.visitPart names _ _ hgo w
  · rw [gathered_singleton]
    split at hgo
    all_goals try contradiction
    try split
    all_goals first
      | contradiction
      | exact hgo.self outer w

theorem visitChildren (outer : List Node) (n : Node)
    (hgo : Follows R names go n.evaluatedChildren) (w : Walk) :
    R (gathered names n.evaluatedChildren) w (Walk.visitChildren go outer n w) := by
  rw [visitChildren_eq]
  exact hR.foldl names n.evaluatedChildren (fun w c hc => hgo c hc (n.around outer) w) w

theorem visitBlock (outer : List Node) (n : Node) (hgo : Follows R names go n.evaluatedChildren)
    (w : Walk) : R ∅ w (Walk.visitBlock go outer n w) := by
  refine hR.inBlock w ?_
  obtain ⟨S, hlocals⟩ := hR.foldl_exists (n.namedOfKind .localFunctionStatement)
    (fun w f _ => ⟨_, hR.declarePlain (f.child? .name) w⟩) { w with scope := w.scope.enter }
  exact ⟨_, hR.trans hlocals (hR.visitChildren names outer n hgo _)⟩

theorem visitLocalFunction (outer : List Node) (n : Node)
    (hgo : Follows R names go (n.child? .body).toList) (w : Walk) :
    R { s | s ∈ (n.child? .name).toList.map (·.text) } w
      (Walk.visitLocalFunction go outer n w) := by
  have hname := hR.declarePlain (n.child? .name) w
  rw [← Set.union_empty { s | s ∈ (n.child? .name).toList.map (·.text) }]
  unfold Walk.visitLocalFunction
  refine hR.trans hname (hR.inBlock _ ?_)
  obtain ⟨S, hparams⟩ := hR.declareParameters
    { Walk.declareName (n.child? .name) .plain w with
      scope := (Walk.declareName (n.child? .name) .plain w).scope.enter }
    (Parameter.ofList? (n.child? .parameters))
  exact ⟨_, hR.trans hparams (hR.returning _ _ (hR.visitPart names _ _ hgo _))⟩

theorem visitLambda (outer : List Node) (n : Node) (hgo : Follows R names go n.evaluatedChildren)
    (w : Walk) : R ∅ w (Walk.visitLambda go outer n w) := by
  refine hR.inBlock w ?_
  have hbody := fun w => hR.returning .ref w (hR.visitChildren names outer n hgo
    { w with returnModes := .ref :: w.returnModes })
  split
  · split
    · exact ⟨_, hR.trans (hR.bindPlain _ _) (hbody _)⟩
    · rename_i params _ _
      obtain ⟨S, hparams⟩ := hR.declareParameters { w with scope := w.scope.enter }
        (Parameter.ofList params)
      exact ⟨_, hR.trans hparams (hbody _)⟩
  · exact ⟨_, hbody _⟩

theorem visitDeclarator (v : Viewpoint) (outer : List Node) (type : Option Node)
    (declarator : Node)
    (hbound : BindsAfter R (declarator.child? .name) (declaredKind v · type declarator.initializer?))
    (hgo : Follows R names go declarator.declaratorParts) (w : Walk) :
    R (gathered names declarator.declaratorParts ∪
        { s | s ∈ (declarator.child? .name).toList.map (·.text) }) w
      (Walk.visitDeclarator v go outer type declarator w) := by
  unfold Walk.visitDeclarator Node.declaratorParts
  dsimp only
  have hvalue := hR.visitPart names (declarator.around outer) declarator.initializer? hgo.left w
  have hpatterns := hR.foldl names (declarator.namedOfKind .tuplePattern)
    (fun w pattern hpattern => hgo.right pattern hpattern (declarator.around outer) w)
    (Walk.declareName (declarator.child? .name)
      (declaredKind v w.scope type declarator.initializer?)
      (Walk.visitPart go (declarator.around outer) declarator.initializer? w))
  have hall := hR.trans (hbound hvalue) hpatterns
  rw [gathered_append, Set.union_right_comm]
  exact hall

theorem visitVariableDeclaration (v : Viewpoint) (outer : List Node) (n : Node)
    (hbound : ∀ d ∈ n.declarators,
      BindsAfter R (d.child? .name) (declaredKind v · (n.child? .type) d.initializer?))
    (hgo : Follows R names go (n.declarators.flatMap Node.declaratorParts)) (w : Walk) :
    R ({ s | s ∈ n.declarators.flatMap fun d => (d.child? .name).toList.map (·.text) } ∪
        gathered names (n.declarators.flatMap Node.declaratorParts)) w
      (Walk.visitVariableDeclaration v go outer n w) := by
  have hfold := hR.foldl _ n.declarators
    (fun w d hd => hR.visitDeclarator names v (n.around outer) (n.child? .type) d (hbound d hd)
      (hgo.part hd) w) w
  have hnames : { s | s ∈ n.declarators.flatMap fun d => (d.child? .name).toList.map (·.text) } ∪
      gathered names (n.declarators.flatMap Node.declaratorParts) =
      { s | ∃ d ∈ n.declarators, s ∈ gathered names d.declaratorParts ∪
        { s | s ∈ (d.child? .name).toList.map (·.text) } } := by
    rw [gathered_flatMap, Set.union_comm]
    ext s
    simp only [Set.mem_union, Set.mem_ofPred_eq, List.mem_flatMap, and_or_left, exists_or]
  rw [hnames]
  exact hfold

theorem visitObjectPart (around : List Node) (c : Node) (hgo : Follows R names go c.objectParts)
    (w : Walk) : R (gathered names c.objectParts) w (Walk.visitObjectPart go around c w) := by
  unfold Node.objectParts at hgo
  unfold Walk.visitObjectPart Node.objectParts
  split
  · rw [gathered_nil]
    exact hR.refl w
  · rename_i htype
    rw [if_neg htype] at hgo
    split
    · rename_i hinitializer
      rw [if_pos hinitializer, Node.map_snd_initializerParts [] around] at hgo
      rw [Node.map_snd_initializerParts [] around, gathered_map]
      exact hR.foldl (fun p : List Node × Node => names p.2) _
        (fun w p hp => hgo p.2 (List.mem_map_of_mem hp) p.1 w) w
    · rename_i hinitializer
      rw [if_neg hinitializer] at hgo
      rw [gathered_singleton]
      exact hgo.self around w

theorem visitObjectCreation (outer : List Node) (n : Node)
    (hgo : Follows R names go (n.children.flatMap Node.objectParts)) (w : Walk) :
    R (gathered names (n.children.flatMap Node.objectParts)) w
      (Walk.visitObjectCreation go outer n w) := by
  rw [gathered_flatMap]
  exact hR.foldl _ n.children
    (fun w c hc => hR.visitObjectPart names (n.around outer) c (hgo.part hc) w) w

theorem visitWithPart (around : List Node) (c : Node) (hgo : Follows R names go c.withParts)
    (w : Walk) : R (gathered names c.withParts) w (Walk.visitWithPart go around c w) := by
  unfold Node.withParts at hgo
  unfold Walk.visitWithPart Node.withParts
  generalize hkind : c.kind = kind at hgo ⊢
  split
  · exact hR.visitPart names _ _ hgo w
  all_goals first
    | (rw [gathered_nil]
       exact hR.refl w)
    | (rw [gathered_singleton]
       split at hgo
       all_goals try contradiction
       try split
       all_goals first
         | contradiction
         | exact hgo.self around w)

theorem visitWith (outer : List Node) (n : Node)
    (hgo : Follows R names go (n.children.flatMap Node.withParts)) (w : Walk) :
    R (gathered names (n.children.flatMap Node.withParts)) w (Walk.visitWith go outer n w) := by
  rw [gathered_flatMap]
  exact hR.foldl _ n.children
    (fun w c hc => hR.visitWithPart names (n.around outer) c (hgo.part hc) w) w

theorem visitAnonymousObject (outer : List Node) (n : Node)
    (hgo : Follows R names go (Node.anonymousParts n.children)) (w : Walk) :
    R (gathered names (Node.anonymousParts n.children)) w
      (Walk.visitAnonymousObject go outer n w) :=
  hR.foldl names _ (fun w c hc => hgo c hc (n.around outer) w) w

theorem visitInvocation (v : Viewpoint) (outer : List Node) (n : Node)
    (hcalled : ∀ function, n.child? .function = some function →
      ∀ w : Walk, R ∅ w (Walk.checkCall v function w))
    (hgo : Follows R names go n.evaluatedChildren) (w : Walk) :
    R (gathered names n.evaluatedChildren) w (Walk.visitInvocation v go outer n w) := by
  unfold Walk.visitInvocation
  rw [← Set.empty_union (gathered names n.evaluatedChildren)]
  refine hR.trans ?_ (hR.visitChildren names outer n hgo _)
  split
  · rename_i function hfunction
    exact hcalled function hfunction w
  · exact hR.refl w

end Visits

end Composes

/-! ## Rules that use members -/

namespace Uses

variable {v : Viewpoint} {R : Set String → Walk → Walk → Prop} (hR : Uses v R)
include hR

theorem useName (w : Walk) (name : String) : R ∅ w (Walk.useName v w name) := by
  unfold Walk.useName
  split
  · rename_i hresolved
    exact hR.useMethods hresolved w
  · rename_i g hresolved
    by_cases hstatic : g.isStatic = true
    · rw [if_pos hstatic]
      exact hR.refl w
    · rw [if_neg hstatic]
      exact hR.useProperty hresolved (by simpa using hstatic) w true false
  · exact hR.refl w

theorem useIndexers (w : Walk) (read write : Bool) :
    R ∅ w (Walk.useIndexers v w read write) := by
  refine hR.foldl_empty _ ?_ w
  intro w g hg
  obtain ⟨hmem, hstatic⟩ := List.mem_filter.mp hg
  exact hR.useIndexer hmem (by simpa using hstatic) w read write

theorem useStored {scope : Scope} {n : Node} {group : Nat}
    (h : v.storage scope n = .property group) (w : Walk) (read write : Bool) :
    R ∅ w (Walk.useGroup v w group read write) := by
  obtain ⟨name, hname⟩ := v.exists_memberStorage_of_isAccessed scope n (by rw [h]; rfl)
  obtain ⟨g, hresolved, hstatic, rfl⟩ := v.resolve_of_memberStorage_property (hname.trans h)
  exact hR.useProperty hresolved hstatic w read write

theorem useSubscribed {scope : Scope} {n : Node} {add remove : Option Nat}
    (h : v.storage scope n = .event add remove) (w : Walk) (access : Access) :
    R ∅ w (w.use (access.eventAccessors add remove)) := by
  obtain ⟨name, hname⟩ := v.exists_memberStorage_of_isAccessed scope n (by rw [h]; rfl)
  obtain ⟨e, hresolved, hstatic, rfl, rfl⟩ := v.resolve_of_memberStorage_event (hname.trans h)
  exact hR.useEvent hresolved hstatic w access

/-- A write notes at most its target. -/
theorem writeStorage {scope : Scope} {n : Node} {w : Walk} {t : Node}
    (hrecord : ∀ mutation, mutation.isSeen = true → R ∅ w (w.record mutation t))
    (access : Access) :
    R ∅ w (Walk.writeStorage v w access (v.storage scope n) t) := by
  have hseen : ∀ target : String, (if access = .reference then Mutation.referenceEscape target
      else .fieldWrite target).isSeen = true := fun target => by split <;> rfl
  cases hstorage : v.storage scope n with
  | self => exact hrecord _ (by split <;> rfl)
  | field name => exact hrecord _ (hseen name)
  | inner name => exact hrecord _ (hseen name)
  | pointer => exact hrecord _ rfl
  | unknown construct => exact hrecord _ rfl
  | property group => exact hR.useStored hstorage w _ true
  | indexer => exact hR.useIndexers w _ true
  | event add remove => exact hR.useSubscribed hstorage w access
  | pointerVariable intoInstance => exact hR.refl w
  | outside => exact hR.refl w

/-- A reference notes at most the node that makes it. -/
theorem noteRef {n : Node} {w : Walk}
    (hrecord : ∀ mutation, mutation.isSeen = true → R ∅ w (w.record mutation n))
    (outer : List Node) (operand : Node) : R ∅ w (Walk.noteRef v outer n operand w) := by
  unfold Walk.noteRef
  split
  · split
    · exact hR.refl w
    · refine hrecord _ ?_
      unfold refMutation
      split <;> rfl
  · split
    · rename_i hstorage
      exact hR.useStored hstorage w true false
    · exact hR.useIndexers w true false
    · exact hR.refl w

/-- All notes that a node makes by itself are of nodes within it. -/
theorem notes {n : Node}
    (hrecord : ∀ t : Node, t.Within n → ∀ (w : Walk) mutation, mutation.isSeen = true →
      R ∅ w (w.record mutation t))
    (hbind : ∀ (w : Walk) (name : String) (kind : LocalKind),
      R {name} w { w with scope := w.scope.declare name kind }) : Notes v R n where
  written := fun hwriting t ht _ w =>
    hR.writeStorage (hrecord t ((Node.within_of_mem_singleTargets ht).trans
      (Node.below_of_writing? hwriting).within) w) _
  iterated := fun _ _ _ hc _ t ht _ w =>
    hR.writeStorage (hrecord t ((Node.within_of_mem_singleTargets ht).trans
      (Node.within_of_mem hc)) w) _
  addressed := fun _ _ _ _ w _ => hrecord n (Node.within_refl n) w _ rfl
  passed := fun _ value hvalue w _ => hrecord value (Node.below_of_lastChild? hvalue).within w _ rfl
  referred := fun _ operand _ outer w => hR.noteRef (hrecord n (Node.within_refl n) w) outer operand
  called := fun _ function hfunction w =>
    hR.checkCall v (hrecord _ ((Node.within_unparenthesize function).trans
      (Node.below_of_child? hfunction).within) w)
  declared := fun _ _ _ => hR.bindsAfter hbind _ _
  pinned := fun _ _ _ _ _ _ _ => hR.bindsAfter hbind _ _

theorem visitName (name : String) (w : Walk) : R ∅ w (Walk.visitName v name w) := by
  unfold Walk.visitName
  split
  · exact hR.refl w
  · exact hR.useName w name

theorem visitSimpleName (name : Option String) (w : Walk) :
    R ∅ w (match name with | some name => Walk.visitName v name w | none => w) := by
  cases name with
  | none => exact hR.refl w
  | some name => exact hR.visitName name w

section Visits

variable {go : Visit} (names : Node → Set String)

theorem writeTarget {access : Access} {t : Node} (hnote : Writes v R access t)
    (hgo : Follows R names go t.targetParts) (outer : List Node) (w : Walk) :
    R (gathered names t.targetParts) w (Walk.writeTarget v go access outer t w) := by
  unfold Node.targetParts at hgo
  unfold Walk.writeTarget Node.targetParts
  split
  · rename_i hdeclaration
    rw [if_pos hdeclaration] at hgo
    rw [gathered_singleton]
    exact hgo.self outer w
  · rename_i hdeclaration
    rw [if_neg hdeclaration] at hgo
    split
    · -- a discard is a name, which has no parts
      rename_i hdiscard
      have hname : t.kind = .identifier := by simp_all
      have hparts : t.operandParts = [] := by
        simp [Node.operandParts, Node.unparenthesize_of_ne, hname]
      rw [hparts, gathered_nil]
      exact hR.refl w
    · rw [← Set.empty_union (gathered names t.operandParts)]
      exact hR.trans (hnote hdeclaration w) (hR.visitOperands names outer t hgo _)

theorem write {access : Access} {target : Node}
    (hnotes : ∀ t ∈ target.singleTargets, Writes v R access t)
    (hgo : Follows R names go target.writtenParts) (outer : List Node) (w : Walk) :
    R (gathered names target.writtenParts) w (Walk.write v go access outer target w) := by
  have hsingle : ∀ p ∈ target.targets outer, p.2 ∈ target.singleTargets := by
    intro p hp
    rw [target.singleTargets_eq outer]
    exact List.mem_map_of_mem hp
  rw [target.writtenParts_eq outer] at hgo
  rw [target.writtenParts_eq outer, gathered_flatMap]
  exact hR.foldl (fun p : List Node × Node => gathered names p.2.targetParts)
    (target.targets outer)
    (fun w p hp => hR.writeTarget names (hnotes p.2 (hsingle p hp)) (hgo.part hp) p.1 w) w

theorem visitForeachPart (outer : List Node) {declares : Bool} {c : Node}
    (hnotes : declares = false → c.field = some .left →
      ∀ t ∈ c.singleTargets, Writes v R .assign t)
    (hgo : Follows R names go (c.foreachParts declares)) (w : Walk) :
    ∃ S, R S w (Walk.visitForeachPart v go outer declares c w) := by
  unfold Node.foreachParts at hgo
  unfold Walk.visitForeachPart
  by_cases htype : c.field = some .type
  · rw [if_pos htype]
    exact ⟨_, hR.refl w⟩
  rw [if_neg htype] at hgo ⊢
  by_cases hleft : c.field = some .left
  · rw [if_pos hleft] at hgo ⊢
    cases declares with
    | false => exact ⟨_, hR.write names (hnotes rfl hleft) hgo outer w⟩
    | true =>
      rw [if_pos rfl] at hgo ⊢
      by_cases hname : c.kind = .identifier
      · rw [if_pos hname]
        exact ⟨_, hR.bindPlain w c.text⟩
      · rw [if_neg hname] at hgo ⊢
        exact ⟨_, hgo.self outer w⟩
  · rw [if_neg hleft] at hgo ⊢
    exact ⟨_, hgo.self outer w⟩

theorem visitForeach (outer : List Node) (n : Node)
    (hnotes : n.child? .type = none → ∀ c ∈ n.children, c.field = some .left →
      ∀ t ∈ c.singleTargets, Writes v R .assign t)
    (hgo : Follows R names go (n.children.flatMap (Node.foreachParts (n.child? .type).isSome)))
    (w : Walk) : R ∅ w (Walk.visitForeach v go outer n w) := by
  refine hR.inBlock w (hR.foldl_exists n.children (fun w c hc => ?_) _)
  refine hR.visitForeachPart names _ (fun hdeclares => ?_) (hgo.part hc) w
  exact hnotes (by simpa using hdeclares) c hc

theorem visitPin (outer : List Node) (declarator : Node)
    (hbound : ∀ value, declarator.initializer? = some value → BindsAfter R (declarator.child? .name)
      (.pointer <| pointsIntoInstance v · (value.addressed []).2))
    (hgo : Follows R names go declarator.pinParts) (w : Walk) :
    ∃ S, R S w (Walk.visitPin v go outer declarator w) := by
  unfold Node.pinParts at hgo
  unfold Walk.visitPin
  split
  · rename_i value hvalue
    rw [hvalue, Option.toList_some, List.flatMap_singleton] at hgo
    dsimp only
    rw [Node.snd_addressed]
    exact ⟨_, hbound value hvalue (hR.visitOperands names _ _ hgo w)⟩
  · exact ⟨_, hR.declareName (fun w name => hR.bindLocal w name rfl) _ w⟩

theorem visitFixed (outer : List Node) (n : Node)
    (hbound : ∀ c ∈ n.children, ∀ d ∈ c.declarators, ∀ value, d.initializer? = some value →
      BindsAfter R (d.child? .name) (.pointer <| pointsIntoInstance v · (value.addressed []).2))
    (hgo : Follows R names go (n.children.flatMap Node.fixedParts)) (w : Walk) :
    R ∅ w (Walk.visitFixed v go outer n w) := by
  refine hR.inBlock w (hR.foldl_exists n.children (fun w c hc => ?_) _)
  have hchild := hgo.part hc
  unfold Node.fixedParts at hchild
  split
  · rename_i hdeclaration
    rw [if_pos hdeclaration] at hchild
    exact hR.foldl_exists c.declarators
      (fun w d hd => hR.visitPin names _ d (hbound c hc d hd) (hchild.part hd) w) w
  · rename_i hdeclaration
    rw [if_neg hdeclaration] at hchild
    split
    · rename_i hnamed
      rw [if_pos hnamed] at hchild
      exact ⟨_, hchild.self _ w⟩
    · exact ⟨_, hR.refl w⟩

theorem visitAssignment (outer : List Node) (n : Node)
    (hnotes : ∀ access left, n.child? .left = some left →
      access = .ofOperator ((n.child? .operator).map (·.kind)) →
      ∀ t ∈ left.singleTargets, Writes v R access t)
    (hgo : Follows R names go ((n.child? .left).toList.flatMap Node.writtenParts ++
      (n.child? .right).toList)) (w : Walk) :
    R (gathered names ((n.child? .left).toList.flatMap Node.writtenParts ++
        (n.child? .right).toList)) w
      (Walk.visitAssignment v go outer n w) := by
  unfold Walk.visitAssignment
  rw [gathered_append]
  refine hR.trans ?_ (hR.visitPart names _ _ hgo.right _)
  have hleft := hgo.left
  cases hl : n.child? .left with
  | none =>
    rw [Option.toList_none, List.flatMap_nil, gathered_nil]
    exact hR.refl w
  | some left =>
    rw [hl, Option.toList_some, List.flatMap_singleton] at hleft
    rw [Option.toList_some, List.flatMap_singleton]
    exact hR.write names (hnotes _ left hl rfl) hleft _ w

theorem visitUnary (outer : List Node) (n : Node)
    (hnotes : n.operatorToken? = some .increment ∨ n.operatorToken? = some .decrement →
      ∀ operand, unaryOperand? n = some operand →
      ∀ t ∈ operand.singleTargets, Writes v R .compound t)
    (haddressed : n.kind = .prefixUnaryExpression → n.operatorToken? = some .ampersand →
      ∀ operand, unaryOperand? n = some operand → ∀ w : Walk,
      (v.storage w.scope operand).isInstance = true →
      R ∅ w (w.record (.unclassifiable "address of instance storage") n))
    (hgo : Follows R names go n.unaryParts) (w : Walk) :
    R (gathered names n.unaryParts) w (Walk.visitUnary v go outer n w) := by
  unfold Node.unaryParts at hgo
  unfold Walk.visitUnary Node.unaryParts
  cases hoperand : unaryOperand? n with
  | none =>
    rw [gathered_nil]
    exact hR.refl w
  | some operand =>
    rw [hoperand] at hgo
    dsimp only at hgo ⊢
    split
    · rename_i hcounts
      rw [if_pos hcounts] at hgo
      exact hR.write names (hnotes (by simpa using hcounts) operand hoperand) hgo _ w
    · rename_i hcounts
      rw [if_neg hcounts] at hgo
      split
      · rename_i hampersand
        rw [if_pos hampersand] at hgo
        obtain ⟨htoken, hprefix⟩ : n.operatorToken? = some .ampersand ∧
            n.kind = .prefixUnaryExpression := by simpa using hampersand
        rw [← Set.empty_union (gathered names operand.operandParts)]
        refine hR.trans ?_ (hR.visitOperands names _ operand hgo _)
        split
        · rename_i hinstance
          exact haddressed hprefix htoken operand hoperand w hinstance
        · exact hR.refl w
      · rename_i hampersand
        rw [if_neg hampersand] at hgo
        exact hR.visitChildren names outer n hgo w

theorem visitArgument (outer : List Node) (n : Node)
    (hnotes : passing? n = some .refToken ∨ passing? n = some .outToken →
      ∀ value, n.lastChild? = some value → ∀ t ∈ value.singleTargets, Writes v R .reference t)
    (hpassed : ∀ value, n.lastChild? = some value → ∀ w : Walk,
      isInstancePointer w.scope value = true →
      R ∅ w (w.record (.referenceEscape value.text) value))
    (hgo : Follows R names go n.argumentParts) (w : Walk) :
    R (gathered names n.argumentParts) w (Walk.visitArgument v go outer n w) := by
  unfold Node.argumentParts at hgo
  unfold Walk.visitArgument Node.argumentParts
  cases hvalue : n.lastChild? with
  | none =>
    rw [gathered_nil]
    exact hR.refl w
  | some value =>
    rw [hvalue] at hgo
    dsimp only at hgo ⊢
    split
    · rename_i hword
      rw [if_pos hword] at hgo
      exact hR.write names (hnotes (by simpa using hword) value hvalue) hgo _ w
    · rename_i hword
      rw [if_neg hword] at hgo
      rw [gathered_singleton, ← Set.empty_union (names value)]
      refine hR.trans ?_ (hgo.self _ _)
      split
      · rename_i hpointer
        exact hpassed value hvalue w hpointer
      · exact hR.refl w

theorem visitRef (outer : List Node) (n : Node)
    (hreferred : ∀ operand, n.lastChild? = some operand →
      ∀ w : Walk, R ∅ w (Walk.noteRef v outer n operand w))
    (hgo : Follows R names go (n.lastChild?.toList.flatMap Node.operandParts)) (w : Walk) :
    R (gathered names (n.lastChild?.toList.flatMap Node.operandParts)) w
      (Walk.visitRef v go outer n w) := by
  unfold Walk.visitRef
  cases hoperand : n.lastChild? with
  | none =>
    rw [Option.toList_none, List.flatMap_nil, gathered_nil]
    exact hR.refl w
  | some operand =>
    rw [hoperand, Option.toList_some, List.flatMap_singleton] at hgo
    rw [Option.toList_some, List.flatMap_singleton,
      ← Set.empty_union (gathered names operand.operandParts)]
    exact hR.trans (hreferred operand hoperand w) (hR.visitOperands names _ operand hgo _)

theorem visitMemberAccess (outer : List Node) (n : Node)
    (hgo : Follows R names go ((n.child? .expression).filter (!·.isThis)).toList) (w : Walk) :
    R (gathered names ((n.child? .expression).filter (!·.isThis)).toList) w
      (Walk.visitMemberAccess v go outer n w) := by
  unfold Walk.visitMemberAccess
  cases hbase : n.child? .expression with
  | none =>
    rw [Option.filter_none, Option.toList_none, gathered_nil]
    exact hR.refl w
  | some base =>
    rw [hbase] at hgo
    by_cases hthis : base.isThis = true
    · simp only [Option.filter_some, hthis, Bool.not_true, Bool.false_eq_true, if_false, if_true,
        Option.toList_none, gathered_nil]
      split
      · exact hR.useName w _
      · exact hR.refl w
    · simp only [Option.filter_some, hthis, Bool.not_false, if_true, Option.toList_some,
        gathered_singleton] at hgo ⊢
      exact hgo.self _ w

theorem visitElementAccess (outer : List Node) (n : Node)
    (hgo : Follows R names go (((n.child? .expression).filter (!·.isThis)).toList ++
      (n.child? .subscript).toList)) (w : Walk) :
    R (gathered names (((n.child? .expression).filter (!·.isThis)).toList ++
        (n.child? .subscript).toList)) w
      (Walk.visitElementAccess v go outer n w) := by
  unfold Walk.visitElementAccess
  rw [gathered_append]
  refine hR.trans ?_ (hR.visitPart names _ _ hgo.right _)
  have hfirst := hgo.left
  cases hbase : n.child? .expression with
  | none =>
    rw [Option.filter_none, Option.toList_none, gathered_nil]
    exact hR.refl w
  | some base =>
    rw [hbase] at hfirst
    by_cases hthis : base.isThis = true
    · simp only [Option.filter_some, hthis, Bool.not_true, Bool.false_eq_true, if_false, if_true,
        Option.toList_none, gathered_nil]
      exact hR.useIndexers w true false
    · simp only [Option.filter_some, hthis, Bool.not_false, if_true, Option.toList_some,
        gathered_singleton] at hfirst ⊢
      exact hfirst.self _ w

/-- What a node does, from its notes and from what is done by the parts that it visits. -/
theorem step {n : Node} (hnotes : Notes v R n) (hgo : Follows R names go n.visitedParts)
    (outer : List Node) (w : Walk) :
    R ({ s | s ∈ n.ownNames } ∪ gathered names n.looseParts) w (Walk.step v go outer n w) := by
  have hnone : { s : String | s ∈ ([] : List String) } = ∅ := by simp
  unfold Walk.step
  split
  -- the kind says which names the node binds and which parts it visits
  all_goals
    rename_i hkind
    try simp only [Node.ownNames, Node.looseParts, hkind, hnone, gathered_nil, Set.empty_union,
      Set.union_empty]
    try simp only [Node.visitedParts, Node.looseParts, Node.innerParts, hkind, List.nil_append,
      List.append_nil] at hgo
  all_goals first
    | exact hR.refl w
    | exact hR.inBlock w ⟨_, hR.visitChildren names outer n hgo _⟩
    | exact hR.trans (hR.declareNames n w) (hR.visitChildren names outer n hgo _)
    | exact hR.visitBlock names outer n hgo w
    | exact hR.visitLocalFunction names outer n hgo w
    | exact hR.visitLambda names outer n hgo w
    | exact hR.visitForeach names outer n (hnotes.iterated hkind) hgo w
    | exact hR.visitFixed names outer n (hnotes.pinned hkind) hgo w
    | exact hR.visitAssignment names outer n
        (fun _ _ hleft h => hnotes.written (Node.writing?_of_assignment hkind hleft h)) hgo w
    | exact hR.visitUnary names outer n
        (fun hcounts _ h => hnotes.written (Node.writing?_of_unary (by simp [hkind]) hcounts h))
        (fun hprefix htoken _ h => hnotes.addressed hprefix htoken _
          (Node.lastChild?_of_unaryOperand? hprefix h)) hgo w
    | exact hR.visitArgument names outer n
        (fun hword _ h => hnotes.written (Node.writing?_of_argument hkind hword h))
        (hnotes.passed hkind) hgo w
    | exact hR.visitRef names outer n (fun _ h => hnotes.referred hkind _ h outer) hgo w
    | exact hR.visitInvocation names v outer n (hnotes.called hkind) hgo w
    | exact hR.visitName _ w
    | exact hR.visitMemberAccess names outer n hgo w
    | exact hR.visitElementAccess names outer n hgo w
    | exact hR.visitObjectCreation names outer n hgo w
    | exact hR.visitWith names outer n hgo w
    | exact hR.visitAnonymousObject names outer n hgo w
    | exact hR.visitVariableDeclaration names v outer n (hnotes.declared hkind) hgo w
    | exact hR.visitSimpleName _ w
    | exact hR.visitChildren names outer n hgo w

end Visits

/-! ## Whole visits -/

section Trees

variable {P : Node → Prop} (hnotes : ∀ n, P n → Notes v R n)
  (hparts : ∀ n, P n → ∀ c ∈ n.visitedParts, P c)
include hnotes hparts

theorem visitTo (depth : Nat) {n : Node} (hn : P n) (outer : List Node) (w : Walk) :
    R { s | s ∈ n.leftTo depth } w (Walk.visitTo v depth outer n w) := by
  induction depth generalizing outer n w with
  | zero =>
    have hnone : { s | s ∈ n.leftTo 0 } = (∅ : Set String) := by simp [Node.leftTo]
    rw [hnone]
    exact hR.refl w
  | succ depth ih =>
    have hnames : { s | s ∈ n.leftTo (depth + 1) } =
        { s | s ∈ n.ownNames } ∪ gathered (fun c => { s | s ∈ c.leftTo depth }) n.looseParts := by
      ext s
      simp [Node.leftTo]
    rw [hnames]
    exact hR.step _ (hnotes n hn) (fun c hc => ih (hparts n hn c hc)) outer w

/-- What the visit of a node does, in a set of nodes that is closed under the parts visited. -/
theorem visit {n : Node} (hn : P n) (outer : List Node) (w : Walk) :
    R { s | n.Leaves s } w (Walk.visit v outer n w) := by
  have hnames : { s | s ∈ n.leftTo n.height } = { s | n.Leaves s } := by
    ext s
    exact Node.mem_leftTo (Nat.le_refl _)
  rw [← hnames]
  exact hR.visitTo hnotes hparts n.height hn outer w

end Trees

end Uses

namespace Effects

variable {v : Viewpoint} {R : Set String → Walk → Walk → Prop} (hR : Effects v R)
include hR

theorem writes (access : Access) (t : Node) : Writes v R access t :=
  fun _ w => hR.writeStorage (fun mutation _ => hR.record w mutation t) access

theorem notes (n : Node) : Notes v R n :=
  hR.toUses.notes (fun t _ w mutation _ => hR.record w mutation t) hR.bind

/-- What every visit does. -/
theorem visit (outer : List Node) (n : Node) (w : Walk) :
    R { s | n.Leaves s } w (Walk.visit v outer n w) :=
  hR.toUses.visit (P := fun _ => True) (fun n _ => hR.notes n) (fun _ _ _ _ => trivial) trivial
    outer w

theorem follows (l : List Node) : Follows R (fun c => { s | c.Leaves s }) (Walk.visit v) l :=
  fun c _ outer w => hR.visit outer c w

end Effects

end Walk

end ReadonlyLint
