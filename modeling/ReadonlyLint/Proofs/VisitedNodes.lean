import ReadonlyLint.Proofs.Coverage
import ReadonlyLint.Proofs.Loops

/-!
Which nodes a visit comes by. The visit of a node visits its parts, these visit theirs, and so on
(`Node.Visits`). As long as nothing binds a name, the name is free wherever the visit comes, so what
the visit of one node establishes because the name is free, the visit of the whole body establishes
(`Walk.Reveals.of_visits`). The evidence of a write of a field by its name is such a thing.
-/
namespace ReadonlyLint

namespace Node

/-! ## Names that nothing binds -/

/-- The names that a node binds by itself in a block of its own. -/
def innerNames (n : Node) : List String :=
  match n.kind with
  | .localFunctionStatement => (Parameter.ofList? (n.child? .parameters)).map (·.name)
  | .lambdaExpression | .anonymousMethodExpression =>
    (n.child? .parameters).toList.flatMap fun params =>
      if params.kind = .implicitParameter then [params.text]
      else (Parameter.ofList params).map (·.name)
  | .foreachStatement =>
    if (n.child? .type).isSome then
      (n.children.filter fun c => c.field = some .left && c.kind = .identifier).map (·.text)
    else []
  | _ => []

/-- Nothing in the tree binds the name. -/
def Spares (n : Node) (name : String) : Prop :=
  ∀ c ∈ n.preorder, name ∉ c.ownNames ∧ name ∉ c.innerNames

instance (n : Node) (name : String) : Decidable (n.Spares name) :=
  inferInstanceAs (Decidable (∀ c ∈ n.preorder, _))

namespace Spares

variable {n : Node} {name : String} (h : n.Spares name)
include h

theorem of_within {c : Node} (hc : c.Within n) : c.Spares name :=
  fun x hx => h x (hc.mem_preorder hx)

theorem own : name ∉ n.ownNames := (h n (self_mem_preorder n)).1

theorem inner : name ∉ n.innerNames := (h n (self_mem_preorder n)).2

theorem not_leaves : ¬ n.Leaves name := by
  intro hleaves
  induction hleaves with
  | own hown => exact h.own hown
  | part hc _ ih => exact ih (h.of_within (below_of_mem_looseParts hc).within)

end Spares

/-- The second node is the first, or a part that it visits visits it. -/
inductive Visits : Node → Node → Prop
  | refl (n : Node) : Visits n n
  | part {n c x : Node} : c ∈ n.visitedParts → Visits c x → Visits n x

theorem Visits.within {n x : Node} (h : n.Visits x) : x.Within n := by
  induction h with
  | refl n => exact within_refl n
  | part hc _ ih => exact ih.trans (below_of_mem_visitedParts hc).within

theorem Visits.trans {a b c : Node} (hab : a.Visits b) (hbc : b.Visits c) : a.Visits c := by
  induction hab with
  | refl n => exact hbc
  | part hc _ ih => exact .part hc (ih hbc)

end Node

theorem Scope.lookup_ofParameters {params : List Parameter} {name : String}
    (h : ∀ p ∈ params, p.name ≠ name) : (Scope.ofParameters params).lookup name = none := by
  have hstep : ∀ (l : List Parameter) (s : Scope), (∀ p ∈ l, p.name ≠ name) →
      (l.foldl Scope.addParam s).lookup name = s.lookup name := by
    intro l
    induction l with
    | nil => intros; rfl
    | cons p l ih =>
      intro s hl
      have hp : (name == p.name) = false := by simpa using (hl p List.mem_cons_self).symm
      rw [List.foldl_cons, ih _ fun q hq => hl q (List.mem_cons_of_mem p hq)]
      simp [Scope.lookup, Scope.addParam, List.lookup_cons, hp]
  exact hstep params Scope.empty h

namespace Walk

/-! ## What is found where a name is free -/

/-- Nothing binds the name here. -/
def Free (name : String) (w : Walk) : Prop := w.scope.lookup name = none

/-- Nothing found is lost, and the name means what it meant unless it is bound anew. -/
def Retains (name : String) (names : Set String) (w w' : Walk) : Prop :=
  w.GrowsTo w' ∧ (name ∉ names → w'.scope.lookup name = w.scope.lookup name)

theorem composes_retains (name : String) : Composes (Retains name) where
  refl := fun w => ⟨GrowsTo.refl w, fun _ => rfl⟩
  trans := by
    rintro S T a b c ⟨hab, hS⟩ ⟨hbc, hT⟩
    refine ⟨hab.trans hbc, fun h => ?_⟩
    rw [Set.mem_union, not_or] at h
    exact (hT h.2).trans (hS h.1)
  bindLocal := fun w s kind _ =>
    ⟨growsTo_bind w s kind, fun h => w.scope.lookup_declare_of_ne kind h⟩
  inBlock := by
    rintro f w ⟨S, hgrows, -⟩
    refine ⟨growsTo_inBlock w hgrows, fun _ => ?_⟩
    -- the block that was entered is left with all that it bound
    obtain ⟨new, hnew⟩ := hgrows.blocks [] w.scope.blocks rfl
    simp only [inBlock, Scope.lookup, Scope.exit, hnew, hgrows.params, List.tail_cons]
    rfl
  returning := fun mode w h => ⟨growsTo_returning mode w h.1, h.2⟩

theorem effects_retains (v : Viewpoint) (name : String) : Effects v (Retains name) where
  toComposes := composes_retains name
  record := fun w mutation n => ⟨growsTo_record w mutation n, fun _ => rfl⟩
  bind := fun w s kind => ⟨growsTo_bind w s kind, fun h => w.scope.lookup_declare_of_ne kind h⟩
  useMethods := fun _ w => ⟨growsTo_use w _, fun _ => rfl⟩
  useProperty := fun _ _ w _ _ => ⟨growsTo_use w _, fun _ => rfl⟩
  useIndexer := fun _ _ w _ _ => ⟨growsTo_use w _, fun _ => rfl⟩
  useEvent := fun _ _ w _ => ⟨growsTo_use w _, fun _ => rfl⟩

/-- A name that is no parameter is free at the start. -/
theorem free_start {m : Member} {name : String} (h : ∀ p ∈ m.parameters, p.name ≠ name) :
    (start m).Free name :=
  Scope.lookup_ofParameters h

theorem Retains.spared {name : String} {names : Set String} {w w' : Walk}
    (h : Retains name names w w') (hname : name ∉ names) : Retains name ∅ w w' :=
  ⟨h.1, fun _ => h.2 hname⟩

theorem Retains.andThen {name : String} {a b c : Walk} (hab : Retains name ∅ a b)
    (hbc : Retains name ∅ b c) : Retains name ∅ a c :=
  ⟨hab.1.trans hbc.1, fun h => (hbc.2 h).trans (hab.2 h)⟩

theorem Retains.free {name : String} {w w' : Walk} (h : Retains name ∅ w w') (hw : w.Free name) :
    w'.Free name :=
  (h.2 (Set.notMem_empty name)).trans hw

theorem retains_refl (name : String) (w : Walk) : Retains name ∅ w w :=
  ⟨GrowsTo.refl w, fun _ => rfl⟩

/-! ## What keeps a name free -/

section Retaining

variable {v : Viewpoint} {name : String}

theorem retains_foldl {α : Type} {f : Walk → α → Walk} {l : List α}
    (hf : ∀ w : Walk, ∀ a ∈ l, Retains name ∅ w (f w a)) (w : Walk) :
    Retains name ∅ w (l.foldl f w) :=
  (composes_retains name).foldl_empty l hf w

theorem notMem_gathered {l : List Node} (h : ∀ c ∈ l, c.Spares name) :
    name ∉ gathered (fun c => { s | c.Leaves s }) l := by
  rintro ⟨c, hc, hleaves⟩
  exact (h c hc).not_leaves hleaves

theorem retains_visit {n : Node} (hn : n.Spares name) (outer : List Node) (w : Walk) :
    Retains name ∅ w (visit v outer n w) :=
  ((effects_retains v name).visit outer n w).spared hn.not_leaves

theorem retains_visitPart {part : Option Node} (hpart : ∀ n ∈ part, n.Spares name)
    (outer : List Node) (w : Walk) : Retains name ∅ w (visitPart (visit v) outer part w) := by
  rcases part with _ | n
  · exact retains_refl name w
  · exact retains_visit (hpart n rfl) outer w

theorem retains_visitOperands {target : Node} (ht : target.Spares name) (outer : List Node)
    (w : Walk) : Retains name ∅ w (visitOperands (visit v) outer target w) :=
  ((effects_retains v name).visitOperands _ outer target ((effects_retains v name).follows _)
    w).spared (notMem_gathered fun _ hc => ht.of_within (Node.within_of_mem_operandParts hc))

theorem retains_writeTarget {t : Node} (ht : t.Spares name) (access : Access) (outer : List Node)
    (w : Walk) : Retains name ∅ w (writeTarget v (visit v) access outer t w) :=
  ((effects_retains v name).writeTarget _ ((effects_retains v name).writes access t)
    ((effects_retains v name).follows _) outer w).spared
      (notMem_gathered fun _ hc => ht.of_within (Node.within_of_mem_targetParts hc))

theorem retains_write {target : Node} (ht : target.Spares name) (access : Access)
    (outer : List Node) (w : Walk) :
    Retains name ∅ w (write v (visit v) access outer target w) :=
  retains_foldl (fun w p hp =>
    retains_writeTarget (ht.of_within (Node.within_of_mem_targets hp)) access p.1 w) w

theorem retains_bind {s : String} (h : s ≠ name) (kind : LocalKind) (w : Walk) :
    Retains name ∅ w { w with scope := w.scope.declare s kind } :=
  ⟨growsTo_bind w s kind, fun _ => w.scope.lookup_declare_of_ne kind h.symm⟩

theorem retains_declareName {part : Option Node} (h : name ∉ part.toList.map (·.text))
    (kind : LocalKind) (w : Walk) : Retains name ∅ w (declareName part kind w) := by
  rcases part with _ | n
  · exact retains_refl name w
  · exact retains_bind (fun he => h (by simp [he])) kind w

theorem retains_declareParameters {params : List Parameter} (h : name ∉ params.map (·.name))
    (w : Walk) : Retains name ∅ w (w.declareParameters params) := by
  unfold declareParameters
  induction params generalizing w with
  | nil => exact retains_refl name w
  | cons p params ih =>
    rw [List.map_cons, List.mem_cons, not_or] at h
    exact (retains_bind (Ne.symm h.1) (.ofParameter p) w).andThen (ih h.2 _)

end Retaining

/-! ## What a rule shows of a part -/

/-- Where the name is free, the visit of the node establishes `Q`, and nothing found later undoes
it. -/
structure Reveals (v : Viewpoint) (name : String) (Q : LocalAnalysis → Prop) (n : Node) : Prop where
  lasting : Lasting Q
  visited : ∀ (outer : List Node) (w : Walk), w.Free name → Q (visit v outer n w).analysis

/-- A fold shows what one of its turns shows, if no turn binds the name. -/
theorem shows_foldl {name : String} {Q : LocalAnalysis → Prop} (hQ : Lasting Q) {α : Type}
    {f : Walk → α → Walk} {l : List α} (hf : ∀ w : Walk, ∀ a ∈ l, Retains name ∅ w (f w a))
    {a : α} (ha : a ∈ l) (h : ∀ w : Walk, w.Free name → Q (f w a).analysis) {w : Walk}
    (hw : w.Free name) : Q (l.foldl f w).analysis := by
  induction l generalizing w with
  | nil => cases ha
  | cons b l ih =>
    rw [List.foldl_cons]
    have hrest : ∀ w : Walk, ∀ a ∈ l, Retains name ∅ w (f w a) :=
      fun w a ha => hf w a (List.mem_cons_of_mem b ha)
    rcases List.mem_cons.mp ha with rfl | ha
    · exact hQ (growsTo_foldl f l (fun w x hx => (hrest w x hx).1) _) (h w hw)
    · exact ih hrest ha ((hf w b List.mem_cons_self).free hw)

theorem shows_inBlock {name : String} {Q : LocalAnalysis → Prop} {f : Walk → Walk}
    (h : ∀ w : Walk, w.Free name → Q (f w).analysis) {w : Walk} (hw : w.Free name) :
    Q (inBlock f w).analysis :=
  h { w with scope := w.scope.enter } hw

theorem shows_returning {name : String} {Q : LocalAnalysis → Prop} {f : Walk → Walk}
    (h : ∀ w : Walk, w.Free name → Q (f w).analysis) (mode : ReturnMode) {w : Walk}
    (hw : w.Free name) : Q (returning mode f w).analysis :=
  h { w with returnModes := mode :: w.returnModes } hw

section Rules

variable {v : Viewpoint} {name : String} {Q : LocalAnalysis → Prop} {c : Node}
  (hreveals : Reveals v name Q c) {w : Walk} (hw : w.Free name)
include hreveals hw

/-- Visits of some nodes one after the other show what one of them shows. -/
theorem shows_visits {l : List Node} (hl : ∀ x ∈ l, x.Spares name) (hc : c ∈ l)
    (outer : List Node) : Q (l.foldl (fun w x => visit v outer x w) w).analysis :=
  shows_foldl hreveals.lasting (fun w x hx => retains_visit (hl x hx) outer w) hc
    (fun w hw => hreveals.visited outer w hw) hw

theorem shows_visitPart {part : Option Node} (hc : part = some c) (outer : List Node) :
    Q (visitPart (visit v) outer part w).analysis := by
  rw [hc]
  exact hreveals.visited outer w hw

theorem shows_visitOperands {target : Node} (ht : target.Spares name)
    (hc : c ∈ target.operandParts) (outer : List Node) :
    Q (visitOperands (visit v) outer target w).analysis := by
  have hinner := ht.of_within (Node.within_unparenthesize target)
  unfold Node.operandParts at hc
  dsimp only at hc
  split at hc
  all_goals rename_i hkind
  · cases hc
  · cases hc
  · cases hc
  · simp only [visitOperands, hkind]
    exact shows_visitPart hreveals hw (Option.mem_toList.mp hc) _
  · simp only [visitOperands, hkind]
    rcases List.mem_append.mp hc with hc | hc
    · exact hreveals.lasting (growsTo_visitPart (grows_visit v) _ _ _)
        (shows_visitPart hreveals hw (Option.mem_toList.mp hc) _)
    · refine shows_visitPart hreveals ?_ (Option.mem_toList.mp hc) _
      refine (retains_visitPart (fun n hn => ?_) _ w).free hw
      exact hinner.of_within (Node.below_of_base (Option.mem_toList.mpr hn)).within
  · simp only [visitOperands, hkind]
    exact shows_visitPart hreveals hw (Option.mem_toList.mp hc) _
  · obtain rfl := List.mem_singleton.mp hc
    unfold visitOperands
    dsimp only
    split
    all_goals first
      | contradiction
      | exact hreveals.visited outer w hw

theorem shows_writeTarget {t : Node} (ht : t.Spares name) (hc : c ∈ t.targetParts)
    (access : Access) (outer : List Node) :
    Q (writeTarget v (visit v) access outer t w).analysis := by
  unfold Node.targetParts at hc
  unfold writeTarget
  by_cases hdeclaration : t.kind = .declarationExpression
  · rw [if_pos hdeclaration] at hc ⊢
    obtain rfl := List.mem_singleton.mp hc
    exact hreveals.visited outer w hw
  · rw [if_neg hdeclaration] at hc ⊢
    split
    · -- a discard is a name, which has no parts
      rename_i hdiscard
      have hname : t.kind = .identifier := by simp_all
      simp [Node.operandParts, Node.unparenthesize_of_ne, hname] at hc
    · have hstorage := (effects_retains v name).writes access t hdeclaration w
      exact shows_visitOperands hreveals (hstorage.free hw) ht hc outer

theorem shows_write {target : Node} (ht : target.Spares name) (hc : c ∈ target.writtenParts)
    (access : Access) (outer : List Node) :
    Q (write v (visit v) access outer target w).analysis := by
  rw [target.writtenParts_eq outer] at hc
  obtain ⟨p, hp, hc⟩ := List.mem_flatMap.mp hc
  have hspares : ∀ p ∈ target.targets outer, p.2.Spares name :=
    fun p hp => ht.of_within (Node.within_of_mem_targets hp)
  refine shows_foldl hreveals.lasting (fun w x hx => ?_) hp (fun w hw => ?_) hw
  · exact retains_writeTarget (hspares x hx) access x.1 w
  · exact shows_writeTarget hreveals hw (hspares p hp) hc access p.1

theorem shows_visitChildren {n : Node} (hn : n.Spares name) (hc : c ∈ n.evaluatedChildren)
    (outer : List Node) : Q (visitChildren (visit v) outer n w).analysis := by
  rw [visitChildren_eq]
  refine shows_visits hreveals hw (fun x hx => ?_) hc _
  exact hn.of_within (Node.within_of_mem (Node.mem_children_of_evaluatedChildren hx))

/-! ### Blocks and functions -/

theorem shows_visitBlock {n : Node} (hn : n.Spares name) (hc : c ∈ n.evaluatedChildren)
    (outer : List Node) : Q (visitBlock (visit v) outer n w).analysis := by
  refine shows_inBlock (fun w hw => ?_) hw
  refine shows_visitChildren hreveals ((retains_foldl (fun w f hf => ?_) w).free hw) hn hc outer
  -- the name of a local function is one that its own node binds
  have hown := (hn.of_within (Node.within_of_mem (Node.mem_children_of_namedOfKind hf))).own
  have hkind : f.kind = .localFunctionStatement := by simpa using (List.mem_filter.mp hf).2
  rw [Node.ownNames, hkind] at hown
  exact retains_declareName hown .plain w

theorem shows_visitLocalFunction {n : Node} (hn : n.Spares name)
    (hkind : n.kind = .localFunctionStatement) (hc : n.child? .body = some c)
    (outer : List Node) : Q (visitLocalFunction (visit v) outer n w).analysis := by
  have hown := hn.own
  have hinner := hn.inner
  rw [Node.ownNames, hkind] at hown
  rw [Node.innerNames, hkind] at hinner
  refine shows_inBlock (fun w hw => ?_) ((retains_declareName hown .plain w).free hw)
  refine shows_returning (fun w hw => ?_) _ ((retains_declareParameters hinner w).free hw)
  exact shows_visitPart hreveals hw hc _

theorem shows_visitLambda {n : Node} (hn : n.Spares name)
    (hkind : n.kind = .lambdaExpression ∨ n.kind = .anonymousMethodExpression)
    (hc : c ∈ n.evaluatedChildren) (outer : List Node) :
    Q (visitLambda (visit v) outer n w).analysis := by
  have hinner : name ∉ (n.child? .parameters).toList.flatMap fun params =>
      if params.kind = .implicitParameter then [params.text]
      else (Parameter.ofList params).map (·.name) := by
    have hinner := hn.inner
    rcases hkind with hkind | hkind
    · rwa [Node.innerNames, hkind] at hinner
    · rwa [Node.innerNames, hkind] at hinner
  refine shows_inBlock (fun w hw => ?_) hw
  refine shows_returning (fun w hw => shows_visitChildren hreveals hw hn hc outer) .ref ?_
  split
  · rename_i params hparams
    rw [hparams, Option.toList_some, List.flatMap_singleton] at hinner
    split
    · rename_i himplicit
      rw [if_pos himplicit, List.mem_singleton] at hinner
      exact (retains_bind (Ne.symm hinner) .plain w).free hw
    · rename_i himplicit
      rw [if_neg himplicit] at hinner
      exact (retains_declareParameters hinner w).free hw
  · exact hw

/-! ### Declarations and headers -/

theorem shows_visitDeclarator {d : Node} (hd : d.Spares name)
    (hname : name ∉ (d.child? .name).toList.map (·.text)) (hc : c ∈ d.declaratorParts)
    (outer : List Node) (type : Option Node) :
    Q (visitDeclarator v (visit v) outer type d w).analysis := by
  have hparts : ∀ x ∈ d.declaratorParts, x.Spares name :=
    fun x hx => hd.of_within (Node.below_of_mem_declaratorParts hx).within
  unfold visitDeclarator
  dsimp only
  rcases List.mem_append.mp hc with hc | hc
  · -- the value is visited first; what follows only adds to it
    have hvalue := shows_visitPart hreveals hw (Option.mem_toList.mp hc) (d.around outer)
    refine hreveals.lasting (growsTo_foldl _ _ (fun w x _ => grows_visit v _ x w) _) ?_
    exact hreveals.lasting (growsTo_declareName _ _ _) hvalue
  · have hinitializer : ∀ x ∈ d.initializer?, x.Spares name :=
      fun x hx => hparts x (List.mem_append_left _ (Option.mem_toList.mpr hx))
    have hvalue := retains_visitPart (v := v) hinitializer (d.around outer) w
    have hbound := retains_declareName hname (declaredKind v w.scope type d.initializer?)
      (visitPart (visit v) (d.around outer) d.initializer? w)
    exact shows_visits hreveals ((hvalue.andThen hbound).free hw)
      (fun x hx => hparts x (List.mem_append_right _ hx)) hc _

theorem shows_visitVariableDeclaration {n : Node} (hn : n.Spares name)
    (hkind : n.kind = .variableDeclaration) (hc : c ∈ n.declarators.flatMap Node.declaratorParts)
    (outer : List Node) : Q (visitVariableDeclaration v (visit v) outer n w).analysis := by
  have hown := hn.own
  rw [Node.ownNames, hkind] at hown
  have hnames : ∀ d ∈ n.declarators, name ∉ (d.child? .name).toList.map (·.text) :=
    fun d hd h => hown (List.mem_flatMap.mpr ⟨d, hd, h⟩)
  have hspares : ∀ d ∈ n.declarators, d.Spares name := fun d hd =>
    hn.of_within (Node.within_of_mem (Node.mem_children_of_namedOfKind hd))
  obtain ⟨d, hd, hc⟩ := List.mem_flatMap.mp hc
  have hR := effects_retains v name
  refine shows_foldl hreveals.lasting (fun w x hx => ?_) hd (fun w hw => ?_) hw
  · refine (hR.visitDeclarator _ v _ _ x (hR.bindsAfter hR.bind _ _) (hR.follows _) w).spared ?_
    rw [Set.mem_union, not_or]
    exact ⟨notMem_gathered fun y hy =>
      (hspares x hx).of_within (Node.below_of_mem_declaratorParts hy).within, hnames x hx⟩
  · exact shows_visitDeclarator hreveals hw (hspares d hd) (hnames d hd) hc _ _

omit hreveals hw in
theorem retains_visitForeachPart {declares : Bool} {x : Node} (hx : x.Spares name)
    (hname : declares = true → x.field = some .left → x.kind = .identifier → x.text ≠ name)
    (outer : List Node) (w : Walk) :
    Retains name ∅ w (visitForeachPart v (visit v) outer declares x w) := by
  unfold visitForeachPart
  split
  · exact retains_refl name w
  · split
    · split
      · split
        · exact retains_bind (hname ‹_› ‹_› ‹_›) .plain w
        · exact retains_visit hx outer w
      · exact retains_write hx .assign outer w
    · exact retains_visit hx outer w

theorem shows_visitForeachPart {declares : Bool} {x : Node} (hx : x.Spares name)
    (hc : c ∈ x.foreachParts declares) (outer : List Node) :
    Q (visitForeachPart v (visit v) outer declares x w).analysis := by
  have hself : c ∈ [x] → Q (visit v outer x w).analysis := by
    intro hc
    obtain rfl := List.mem_singleton.mp hc
    exact hreveals.visited outer w hw
  unfold Node.foreachParts at hc
  unfold visitForeachPart
  by_cases htype : x.field = some .type
  · rw [if_pos htype] at hc
    cases hc
  rw [if_neg htype] at hc ⊢
  by_cases hleft : x.field = some .left
  · rw [if_pos hleft] at hc ⊢
    cases declares with
    | false => exact shows_write hreveals hw hx hc .assign outer
    | true =>
      rw [if_pos rfl] at hc ⊢
      by_cases hkind : x.kind = .identifier
      · rw [if_pos hkind] at hc
        cases hc
      · rw [if_neg hkind] at hc ⊢
        exact hself hc
  · rw [if_neg hleft] at hc ⊢
    exact hself hc

theorem shows_visitForeach {n : Node} (hn : n.Spares name) (hkind : n.kind = .foreachStatement)
    (hc : c ∈ n.children.flatMap (Node.foreachParts (n.child? .type).isSome))
    (outer : List Node) : Q (visitForeach v (visit v) outer n w).analysis := by
  have hinner := hn.inner
  rw [Node.innerNames, hkind] at hinner
  obtain ⟨x, hx, hc⟩ := List.mem_flatMap.mp hc
  have hspares : ∀ x ∈ n.children, x.Spares name := fun x hx => hn.of_within (Node.within_of_mem hx)
  refine shows_inBlock (fun w hw =>
    shows_foldl hreveals.lasting (fun w y hy => ?_) hx (fun w hw => ?_) hw) hw
  · refine retains_visitForeachPart (hspares y hy) (fun htype hleft hname htext => hinner ?_) _ w
    dsimp only
    rw [if_pos htype]
    exact List.mem_map.mpr ⟨y, List.mem_filter.mpr ⟨hy, by simp [hleft, hname]⟩, htext⟩
  · exact shows_visitForeachPart hreveals hw (hspares x hx) hc _

omit hreveals hw in
theorem retains_visitPin {d : Node} (hd : d.Spares name)
    (hname : name ∉ (d.child? .name).toList.map (·.text)) (outer : List Node) (w : Walk) :
    Retains name ∅ w (visitPin v (visit v) outer d w) := by
  unfold visitPin
  split
  · rename_i value hvalue
    have hspares := hd.of_within ((Node.within_addressed (d.around outer) value).trans
      (Node.within_of_mem (Node.mem_children_of_initializer? hvalue)))
    exact (retains_visitOperands hspares _ w).andThen (retains_declareName hname _ _)
  · exact retains_declareName hname _ w

theorem shows_visitPin {d : Node} (hd : d.Spares name) (hc : c ∈ d.pinParts) (outer : List Node) :
    Q (visitPin v (visit v) outer d w).analysis := by
  obtain ⟨value, hvalue, hc⟩ := List.mem_flatMap.mp hc
  have hvalue := Option.mem_toList.mp hvalue
  have hspares := hd.of_within ((Node.within_addressed (d.around outer) value).trans
    (Node.within_of_mem (Node.mem_children_of_initializer? hvalue)))
  rw [← Node.snd_addressed (d.around outer)] at hc
  unfold visitPin
  rw [hvalue]
  exact hreveals.lasting (growsTo_declareName _ _ _) (shows_visitOperands hreveals hw hspares hc _)

theorem shows_visitFixed {n : Node} (hn : n.Spares name)
    (hc : c ∈ n.children.flatMap Node.fixedParts) (outer : List Node) :
    Q (visitFixed v (visit v) outer n w).analysis := by
  have hspares : ∀ x ∈ n.children, x.Spares name := fun x hx => hn.of_within (Node.within_of_mem hx)
  have hpins : ∀ x ∈ n.children, x.kind = .variableDeclaration → ∀ d ∈ x.declarators,
      d.Spares name ∧ name ∉ (d.child? .name).toList.map (·.text) := by
    intro x hx hkind d hd
    have hown := (hspares x hx).own
    rw [Node.ownNames, hkind] at hown
    refine ⟨(hspares x hx).of_within (Node.within_of_mem (Node.mem_children_of_namedOfKind hd)), ?_⟩
    exact fun h => hown (List.mem_flatMap.mpr ⟨d, hd, h⟩)
  obtain ⟨x, hx, hc⟩ := List.mem_flatMap.mp hc
  refine shows_inBlock (fun w hw =>
    shows_foldl hreveals.lasting (fun w y hy => ?_) hx (fun w hw => ?_) hw) hw
  · split
    · rename_i hkind
      exact retains_foldl (fun w d hd =>
        retains_visitPin (hpins y hy hkind d hd).1 (hpins y hy hkind d hd).2 _ w) w
    · split
      · exact retains_visit (hspares y hy) _ w
      · exact retains_refl name w
  · unfold Node.fixedParts at hc
    split at hc
    · rename_i hkind
      obtain ⟨d, hd, hc⟩ := List.mem_flatMap.mp hc
      rw [if_pos hkind]
      refine shows_foldl hreveals.lasting (fun w e he => retains_visitPin (hpins x hx hkind e he).1
        (hpins x hx hkind e he).2 _ w) hd (fun w hw => ?_) hw
      exact shows_visitPin hreveals hw (hpins x hx hkind d hd).1 hc _
    · rename_i hkind
      rw [if_neg hkind]
      split at hc
      · rename_i hnamed
        rw [if_pos hnamed]
        obtain rfl := List.mem_singleton.mp hc
        exact hreveals.visited _ w hw
      · cases hc

/-! ### Expressions -/

theorem shows_visitAssignment {n : Node} (hn : n.Spares name)
    (hc : c ∈ (n.child? .left).toList.flatMap Node.writtenParts ++ (n.child? .right).toList)
    (outer : List Node) : Q (visitAssignment v (visit v) outer n w).analysis := by
  have hleft : ∀ left, n.child? .left = some left → left.Spares name :=
    fun left h => hn.of_within (Node.below_of_child? h).within
  unfold visitAssignment
  dsimp only
  rcases List.mem_append.mp hc with hc | hc
  · obtain ⟨left, hl, hc⟩ := List.mem_flatMap.mp hc
    have hl := Option.mem_toList.mp hl
    rw [hl]
    exact hreveals.lasting (growsTo_visitPart (grows_visit v) _ _ _)
      (shows_write hreveals hw (hleft left hl) hc _ _)
  · refine shows_visitPart hreveals ?_ (Option.mem_toList.mp hc) _
    split
    · rename_i left hl
      exact (retains_write (hleft left hl) _ _ w).free hw
    · exact hw

theorem shows_visitUnary {n : Node} (hn : n.Spares name) (hc : c ∈ n.unaryParts)
    (outer : List Node) : Q (visitUnary v (visit v) outer n w).analysis := by
  rcases hoperand : unaryOperand? n with _ | operand
  · simp [Node.unaryParts, hoperand] at hc
  · have hspares := hn.of_within (Node.below_of_unaryOperand? hoperand).within
    simp only [Node.unaryParts, visitUnary, hoperand] at hc ⊢
    split at hc
    · rename_i hcounts
      rw [if_pos hcounts]
      exact shows_write hreveals hw hspares hc .compound _
    · rename_i hcounts
      rw [if_neg hcounts]
      split at hc
      · rename_i hampersand
        rw [if_pos hampersand]
        refine shows_visitOperands hreveals ?_ hspares hc _
        split
        · exact hw
        · exact hw
      · rename_i hampersand
        rw [if_neg hampersand]
        exact shows_visitChildren hreveals hw hn hc outer

theorem shows_visitArgument {n : Node} (hn : n.Spares name) (hc : c ∈ n.argumentParts)
    (outer : List Node) : Q (visitArgument v (visit v) outer n w).analysis := by
  rcases hvalue : n.lastChild? with _ | value
  · simp [Node.argumentParts, hvalue] at hc
  · have hspares := hn.of_within (Node.below_of_lastChild? hvalue).within
    simp only [Node.argumentParts, visitArgument, hvalue] at hc ⊢
    split at hc
    · rename_i hword
      rw [if_pos hword]
      exact shows_write hreveals hw hspares hc .reference _
    · rename_i hword
      rw [if_neg hword]
      obtain rfl := List.mem_singleton.mp hc
      refine hreveals.visited _ _ ?_
      split
      · exact hw
      · exact hw

theorem shows_visitRef {n : Node} (hn : n.Spares name)
    (hc : c ∈ n.lastChild?.toList.flatMap Node.operandParts) (outer : List Node) :
    Q (visitRef v (visit v) outer n w).analysis := by
  obtain ⟨operand, hoperand, hc⟩ := List.mem_flatMap.mp hc
  have hoperand := Option.mem_toList.mp hoperand
  have hnote := (effects_retains v name).noteRef
    (fun mutation _ => (effects_retains v name).record w mutation n) outer operand
  unfold visitRef
  rw [hoperand]
  exact shows_visitOperands hreveals (hnote.free hw)
    (hn.of_within (Node.below_of_lastChild? hoperand).within) hc _

theorem shows_visitInvocation {n : Node} (hn : n.Spares name) (hc : c ∈ n.evaluatedChildren)
    (outer : List Node) : Q (visitInvocation v (visit v) outer n w).analysis := by
  unfold visitInvocation
  refine shows_visitChildren hreveals ?_ hn hc outer
  split
  · exact ((effects_retains v name).checkCall v
      fun mutation _ => (effects_retains v name).record w mutation _).free hw
  · exact hw

theorem shows_visitMemberAccess {n : Node}
    (hc : (n.child? .expression).filter (!·.isThis) = some c) (outer : List Node) :
    Q (visitMemberAccess v (visit v) outer n w).analysis := by
  obtain ⟨hbase, hthis⟩ := Option.filter_eq_some_iff.mp hc
  unfold visitMemberAccess
  rw [hbase]
  dsimp only
  rw [if_neg (by simpa using hthis)]
  exact hreveals.visited _ w hw

theorem shows_visitElementAccess {n : Node} (hn : n.Spares name)
    (hc : c ∈ ((n.child? .expression).filter (!·.isThis)).toList ++ (n.child? .subscript).toList)
    (outer : List Node) : Q (visitElementAccess v (visit v) outer n w).analysis := by
  unfold visitElementAccess
  dsimp only
  rcases List.mem_append.mp hc with hc | hc
  · obtain ⟨hbase, hthis⟩ := Option.filter_eq_some_iff.mp (Option.mem_toList.mp hc)
    refine hreveals.lasting (growsTo_visitPart (grows_visit v) _ _ _) ?_
    rw [hbase]
    dsimp only
    rw [if_neg (by simpa using hthis)]
    exact hreveals.visited _ w hw
  · refine shows_visitPart hreveals ?_ (Option.mem_toList.mp hc) _
    split
    · exact hw
    · rename_i base hbase
      split
      · exact ((effects_retains v name).useIndexers w true false).free hw
      · exact (retains_visit (hn.of_within (Node.below_of_child? hbase).within) _ w).free hw

/-! ### New objects -/

theorem shows_visitObjectPart {x : Node} (hx : x.Spares name) (hc : c ∈ x.objectParts)
    (around : List Node) : Q (visitObjectPart (visit v) around x w).analysis := by
  unfold Node.objectParts at hc
  unfold visitObjectPart
  split at hc
  · cases hc
  · rename_i htype
    rw [if_neg htype]
    split at hc
    · rename_i hinitializer
      rw [if_pos hinitializer]
      rw [Node.map_snd_initializerParts [] around] at hc
      obtain ⟨p, hp, rfl⟩ := List.mem_map.mp hc
      refine shows_foldl hreveals.lasting (fun w y hy => ?_) hp
        (fun w hw => hreveals.visited p.1 w hw) hw
      exact retains_visit (hx.of_within (Node.below_of_mem_initializerParts hy).within) y.1 w
    · rename_i hinitializer
      rw [if_neg hinitializer]
      obtain rfl := List.mem_singleton.mp hc
      exact hreveals.visited around w hw

theorem shows_visitObjectCreation {n : Node} (hn : n.Spares name)
    (hc : c ∈ n.children.flatMap Node.objectParts) (outer : List Node) :
    Q (visitObjectCreation (visit v) outer n w).analysis := by
  have hspares : ∀ x ∈ n.children, x.Spares name := fun x hx => hn.of_within (Node.within_of_mem hx)
  have hR := effects_retains v name
  obtain ⟨x, hx, hc⟩ := List.mem_flatMap.mp hc
  refine shows_foldl hreveals.lasting
    (f := fun w x => visitObjectPart (visit v) (n.around outer) x w)
    (fun w y hy => ?_) hx (fun w hw => shows_visitObjectPart hreveals hw (hspares x hx) hc _) hw
  exact (hR.visitObjectPart _ _ y (hR.follows _) w).spared (notMem_gathered fun z hz =>
    (hspares y hy).of_within (Node.within_of_mem_objectParts hz))

theorem shows_visitWithPart {x : Node} (hc : c ∈ x.withParts) (around : List Node) :
    Q (visitWithPart (visit v) around x w).analysis := by
  unfold Node.withParts at hc
  split at hc
  · rename_i hkind
    simp only [visitWithPart, hkind]
    exact shows_visitPart hreveals hw (Option.mem_toList.mp hc) _
  all_goals try exact absurd hc List.not_mem_nil
  obtain rfl := List.mem_singleton.mp hc
  unfold visitWithPart
  split
  all_goals first
    | contradiction
    | exact hreveals.visited around w hw

theorem shows_visitWith {n : Node} (hn : n.Spares name)
    (hc : c ∈ n.children.flatMap Node.withParts) (outer : List Node) :
    Q (visitWith (visit v) outer n w).analysis := by
  have hspares : ∀ x ∈ n.children, x.Spares name := fun x hx => hn.of_within (Node.within_of_mem hx)
  have hR := effects_retains v name
  obtain ⟨x, hx, hc⟩ := List.mem_flatMap.mp hc
  refine shows_foldl hreveals.lasting (f := fun w x => visitWithPart (visit v) (n.around outer) x w)
    (fun w y hy => ?_) hx (fun w hw => shows_visitWithPart hreveals hw hc _) hw
  exact (hR.visitWithPart _ _ y (hR.follows _) w).spared (notMem_gathered fun z hz =>
    (hspares y hy).of_within (Node.within_of_mem_withParts hz))

/-! ### Every kind of node -/

/-- A node shows what a part that it visits shows. -/
theorem shows_step {n : Node} (hn : n.Spares name) (hc : c ∈ n.visitedParts) (outer : List Node) :
    Q (step v (visit v) outer n w).analysis := by
  have hnames : n.ownNames = n.introducedNames → (declareNames n w).Free name := by
    intro hown
    refine (((effects_retains v name).declareNames n w).spared ?_).free hw
    exact hown ▸ hn.own
  unfold step
  split
  -- the kind says which parts are visited
  all_goals
    rename_i hkind
    try simp only [Node.visitedParts, Node.looseParts, Node.innerParts, hkind, List.nil_append,
      List.append_nil] at hc
  all_goals first
    | exact absurd hc List.not_mem_nil
    | exact shows_inBlock (fun w hw => shows_visitChildren hreveals hw hn hc outer) hw
    | exact shows_visitChildren hreveals (hnames (by simp only [Node.ownNames, hkind])) hn hc outer
    | exact shows_visitBlock hreveals hw hn hc outer
    | exact shows_visitLocalFunction hreveals hw hn hkind (Option.mem_toList.mp hc) outer
    | exact shows_visitLambda hreveals hw hn (by simp [hkind]) hc outer
    | exact shows_visitForeach hreveals hw hn hkind hc outer
    | exact shows_visitFixed hreveals hw hn hc outer
    | exact shows_visitVariableDeclaration hreveals hw hn hkind hc outer
    | exact shows_visitAssignment hreveals hw hn hc outer
    | exact shows_visitUnary hreveals hw hn hc outer
    | exact shows_visitArgument hreveals hw hn hc outer
    | exact shows_visitRef hreveals hw hn hc outer
    | exact shows_visitInvocation hreveals hw hn hc outer
    | exact shows_visitMemberAccess hreveals hw (Option.mem_toList.mp hc) outer
    | exact shows_visitElementAccess hreveals hw hn hc outer
    | exact shows_visitObjectCreation hreveals hw hn hc outer
    | exact shows_visitWith hreveals hw hn hc outer
    | exact shows_visits hreveals hw
        (fun x hx => hn.of_within (Node.within_of_mem (Node.mem_of_mem_anonymousParts hx))) hc _
    | exact shows_visitChildren hreveals hw hn hc outer

end Rules

/-- In a tree that does not bind the name, what the visit of one node shows the visit of every node
shows that visits it. -/
theorem Reveals.of_visits {v : Viewpoint} {name : String} {Q : LocalAnalysis → Prop} {n x : Node}
    (hx : Reveals v name Q x) (h : n.Visits x) (hn : n.Spares name) : Reveals v name Q n := by
  induction h with
  | refl n => exact hx
  | part hc _ ih =>
    have hpart := ih hx (hn.of_within (Node.below_of_mem_visitedParts hc).within)
    refine ⟨hx.lasting, fun outer w hw => ?_⟩
    rw [visit_eq]
    exact shows_step hpart hw hn hc outer

/-! ## Writes of a free name -/

theorem lasting_evidence (e : Evidence) : Lasting fun a => e ∈ a.evidence :=
  fun _ _ h he => h.evidence.subset he

/-- What the write of a field at a node is taken for. -/
def evidenceOf (access : Access) (field : String) (t : Node) : Evidence where
  mutation := if access = .reference then .referenceEscape field else .fieldWrite field
  span := some t.span

section Writes

variable {v : Viewpoint} {name field : String} (hstorage : v.memberStorage name = .field field)
  (hname : name ≠ "_") {t : Node} (hkind : t.kind = .identifier) (htext : t.text = name)
include hstorage hname hkind htext

theorem shows_writeTarget_of_free (access : Access) (outer : List Node) {w : Walk}
    (hw : w.Free name) :
    evidenceOf access field t ∈ (writeTarget v (visit v) access outer t w).evidence := by
  have hfield : v.storage w.scope t = .field field := by
    rw [v.storage_eq, Node.unparenthesize_of_ne (by simp [hkind])]
    have hlookup : w.scope.lookup t.text = none := htext ▸ hw
    simp only [Viewpoint.storageOf, hkind, Viewpoint.nameStorage, hlookup]
    rw [htext, hstorage]
  have hkept : t.text ≠ "_" := htext ▸ hname
  rw [writeTarget_of_kept (by simp [hkind]) fun _ h => absurd h hkept, hfield]
  refine lasting_evidence _ (growsTo_visitOperands (grows_visit v) _ _ _) ?_
  exact List.mem_append_right _ (List.mem_singleton_self _)

theorem shows_write_of_free {target : Node} (htarget : target.Spares name)
    (ht : t ∈ target.singleTargets) (access : Access) (outer : List Node) {w : Walk}
    (hw : w.Free name) :
    evidenceOf access field t ∈ (write v (visit v) access outer target w).evidence := by
  rw [target.singleTargets_eq outer] at ht
  obtain ⟨p, hp, rfl⟩ := List.mem_map.mp ht
  refine shows_foldl (lasting_evidence _) (fun w x hx => ?_) hp (fun w hw => ?_) hw
  · exact retains_writeTarget (htarget.of_within (Node.within_of_mem_targets hx)) access x.1 w
  · exact shows_writeTarget_of_free hstorage hname hkind htext access p.1 hw

/-- A node that writes the name of a field shows it where the name is free. -/
theorem reveals_of_writing? {n target : Node} {access : Access}
    (hwriting : n.writing? = some (access, target)) (ht : t ∈ target.singleTargets)
    (hn : n.Spares name) : Reveals v name (fun a => evidenceOf access field t ∈ a.evidence) n := by
  have htarget := hn.of_within (Node.below_of_writing? hwriting).within
  refine ⟨lasting_evidence _, fun outer w hw => ?_⟩
  exact lasting_evidence _ (growsTo_of_writing? hwriting outer w)
    (shows_write_of_free hstorage hname hkind htext htarget ht access _ hw)

end Writes

end Walk

end ReadonlyLint
