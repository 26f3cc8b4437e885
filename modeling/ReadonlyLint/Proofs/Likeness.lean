import Mathlib.Data.List.Basic
import ReadonlyLint.Proofs.Storage
import ReadonlyLint.Proofs.Subtree

/-!
Trees that no rule can tell apart. `Node.Alike f n` says that the rules see the same at `n` and at
its image `f n`: the same label, images of the same children, loose comments aside, and images of
the same children at the positions that a rule counts. `Node.Carries f n` says so of the whole tree;
then every view of the tree commutes with `f`.
-/
namespace ReadonlyLint

/-- The parameter that a child of a list stands for. -/
def Parameter.ofChild? (child : Node) : Option Parameter :=
  match child.kind with
  | .parameter => Parameter.ofNode? child
  | .identifier => if child.field = some .name then some { name := child.text } else none
  | _ => none

namespace Node

/-! ## Alike nodes -/

/-- The nodes differ at most in their children and their flags for errors. -/
structure SameLabel (a b : Node) : Prop where
  kind : a.kind = b.kind
  field : a.field = b.field
  named : a.named = b.named
  text : a.text = b.text
  span : a.span = b.span

/-- A comment that fills no field. No rule looks at it. -/
def isLoose (n : Node) : Bool := n.kind = .comment && n.field.isNone

/-- The children less the loose comments. -/
def solid (n : Node) : List Node := n.children.filter (!·.isLoose)

/-- A node that makes an array of the type in its field `type`. -/
def makesArray (n : Node) : Bool :=
  n.kind = .arrayCreationExpression || n.kind = .stackallocExpression

/-- The written type of an array, as a child of the node that makes the array. -/
def isArrayType (n : Node) : Bool := n.kind = .arrayType && n.field = some .type

/-- The image has the same label and images of the same children, loose comments aside. What is
inside the type of a new array is not looked at by any rule. -/
structure Keeps (f : Node → Node) (n : Node) : Prop where
  label : (f n).SameLabel n
  solid : ∃ g : Node → Node, (f n).solid = n.solid.map g ∧
    ∀ c ∈ n.solid, g c = f c ∨ (n.makesArray ∧ c.isArrayType ∧ (g c).SameLabel c)

/-- The rules for code see the same at a node and at its image, also where they count positions. -/
structure Alike (f : Node → Node) (n : Node) : Prop extends Keeps f n where
  inner : n.kind = .parenthesizedExpression → (f n).inner? = n.inner?.map f
  last : n.kind = .prefixUnaryExpression ∨ n.kind = .argument ∨ n.kind = .refExpression ∨
    n.kind = .withInitializer → (f n).lastChild? = n.lastChild?.map f
  first : n.kind = .postfixUnaryExpression → (f n).children.head? = n.children.head?.map f
  value : n.kind = .variableDeclarator → (f n).initializer? = n.initializer?.map f
  named : n.kind = .genericName → (f n).namedChildren.head? = n.namedChildren.head?.map f
  entries : n.kind = .anonymousObjectCreationExpression →
    (anonymousParts (f n).children).filter (!·.isLoose) =
      ((anonymousParts n.children).filter (!·.isLoose)).map f

/-- Every node of the tree is kept. -/
def Follows (f : Node → Node) (n : Node) : Prop := ∀ c, c.Within n → Keeps f c

/-- Every node of the tree is alike to its image. -/
def Carries (f : Node → Node) (n : Node) : Prop := ∀ c, c.Within n → Alike f c

section Everywhere

variable {f : Node → Node} {n c : Node} {fld : Field}

theorem Follows.of_mem (h : Follows f n) (hc : c ∈ n.children) : Follows f c :=
  fun x hx => h x (hx.trans (within_of_mem hc))

theorem Follows.of_child? (h : Follows f n) (hc : n.child? fld = some c) : Follows f c :=
  h.of_mem (mem_children_of_child? hc)

theorem Follows.keeps (h : Follows f n) : Keeps f n := h n (within_refl n)

theorem Follows.kind (h : Follows f n) : (f n).kind = n.kind := h.keeps.label.kind

theorem Follows.text (h : Follows f n) : (f n).text = n.text := h.keeps.label.text

theorem Carries.of_within (h : Carries f n) (hc : c.Within n) : Carries f c :=
  fun x hx => h x (hx.trans hc)

theorem Carries.of_mem (h : Carries f n) (hc : c ∈ n.children) : Carries f c :=
  h.of_within (within_of_mem hc)

theorem Carries.of_child? (h : Carries f n) (hc : n.child? fld = some c) : Carries f c :=
  h.of_mem (mem_children_of_child? hc)

theorem Carries.alike (h : Carries f n) : Alike f n := h n (within_refl n)

theorem Carries.follows (h : Carries f n) : Follows f n := fun c hc => (h c hc).toKeeps

theorem Carries.kind (h : Carries f n) : (f n).kind = n.kind := h.follows.kind

theorem Carries.text (h : Carries f n) : (f n).text = n.text := h.follows.text

end Everywhere

theorem kind_of_mem_namedOfKind {n c : Node} {k : Kind} (h : c ∈ n.namedOfKind k) : c.kind = k := by
  simpa using (List.mem_filter.mp h).2

theorem kind_of_isLoose {c : Node} (h : c.isLoose) : c.kind = .comment := by
  simp only [isLoose, Bool.and_eq_true, decide_eq_true_eq] at h
  exact h.1

theorem kind_of_isArrayType {c : Node} (h : c.isArrayType) : c.kind = .arrayType := by
  simp only [isArrayType, Bool.and_eq_true, decide_eq_true_eq] at h
  exact h.1

theorem field_of_isArrayType {c : Node} (h : c.isArrayType) : c.field = some .type := by
  simp only [isArrayType, Bool.and_eq_true, decide_eq_true_eq] at h
  exact h.2

/-- A loose comment among the entries of an object initializer gives no solid part. -/
theorem solid_initializerParts (outer : List Node) (n : Node) :
    (n.initializerParts outer).filter (!·.2.isLoose) =
      ((n.children.filter (·.named)).filter (!·.isLoose)).flatMap fun c =>
        (n.entryParts outer c).filter (!·.2.isLoose) := by
  rw [initializerParts_eq, List.filter_flatMap, namedChildren]
  generalize n.children.filter (·.named) = entries
  induction entries with
  | nil => rfl
  | cons c entries ih =>
    by_cases hc : c.isLoose
    · have hnone : (n.entryParts outer c).filter (!·.2.isLoose) = [] := by
        simp [entryParts, kind_of_isLoose hc, hc]
      simp [hc, hnone, ih]
    · simp [hc, ih]

/-! ## Children by their labels -/

section Labels

variable {f : Node → Node} {n : Node} (h : Follows f n)
include h

/-- The children that a test on labels picks are images, when it picks no loose comment and not
the type of a new array. -/
theorem filter_map {p : Node → Bool} (hlabel : ∀ a b, SameLabel a b → p a = p b)
    (hloose : ∀ c, c.isLoose → p c = false)
    (htype : n.makesArray → ∀ c, c.isArrayType → p c = false) :
    (f n).children.filter p = (n.children.filter p).map f := by
  -- no loose comment is picked, so the solid children decide
  have hsolid : ∀ m : Node, m.children.filter p = m.solid.filter p := by
    intro m
    rw [Node.solid, List.filter_filter]
    refine List.filter_congr fun c _ => ?_
    by_cases hc : c.isLoose
    · simp [hloose c hc]
    · simp [hc]
  obtain ⟨g, hg, himage⟩ := h.keeps.solid
  have hmem : ∀ c ∈ n.solid, c ∈ n.children := fun c hc => (List.mem_filter.mp hc).1
  have hsame : ∀ c ∈ n.solid, (g c).SameLabel c := by
    intro c hc
    rcases himage c hc with he | ⟨-, -, he⟩
    · rw [he]
      exact (h.of_mem (hmem c hc)).keeps.label
    · exact he
  rw [hsolid, hsolid, hg, List.filter_map]
  have hfilter : n.solid.filter (p ∘ g) = n.solid.filter p :=
    List.filter_congr fun c hc => hlabel _ _ (hsame c hc)
  rw [hfilter]
  refine List.map_congr_left fun c hc => ?_
  obtain ⟨hc, hpc⟩ := List.mem_filter.mp hc
  rcases himage c hc with he | ⟨hn, harray, -⟩
  · exact he
  · rw [htype hn c harray] at hpc
    cases hpc

/-- The children of a node that makes no array are images, loose comments aside. -/
theorem filter_solid_map {p : Node → Bool} (hlabel : ∀ a b, SameLabel a b → p a = p b)
    (hn : n.makesArray = false) :
    ((f n).children.filter p).filter (!·.isLoose) =
      ((n.children.filter p).filter (!·.isLoose)).map f := by
  rw [List.filter_filter, List.filter_filter]
  refine filter_map h (fun a b hab => ?_) (fun c hc => ?_) (fun hm => ?_)
  · rw [hlabel a b hab, isLoose, isLoose, hab.kind, hab.field]
  · simp [hc]
  · rw [hn] at hm
    cases hm

/-- The child of a field is an image, or the type of a new array. -/
theorem child?_image (fld : Field) :
    (f n).child? fld = (n.child? fld).map f ∨
      ∃ c d, n.child? fld = some c ∧ (f n).child? fld = some d ∧ n.makesArray ∧ c.isArrayType ∧
        d.SameLabel c := by
  -- a loose comment fills no field, so the child is solid
  have hsolid : ∀ m : Node,
      m.child? fld = (m.solid.filter fun c => decide (c.field = some fld)).head? := by
    intro m
    unfold child? Node.solid
    rw [← List.head?_filter, List.filter_filter]
    refine congrArg List.head? (List.filter_congr fun c _ => ?_)
    by_cases hc : c.isLoose
    · have hfield := hc
      simp only [isLoose, Bool.and_eq_true, Option.isNone_iff_eq_none] at hfield
      simp [hfield.2]
    · simp [hc]
  obtain ⟨g, hg, himage⟩ := h.keeps.solid
  have hfield : ∀ c ∈ n.solid, (g c).field = c.field := by
    intro c hc
    rcases himage c hc with he | ⟨-, -, he⟩
    · rw [he]
      exact (h.of_mem (List.mem_filter.mp hc).1).keeps.label.field
    · exact he.field
  have hfind : (f n).child? fld = (n.child? fld).map g := by
    have hfilter : n.solid.filter ((fun c => decide (c.field = some fld)) ∘ g) =
        n.solid.filter fun c => decide (c.field = some fld) :=
      List.filter_congr fun c hc => by simp only [Function.comp, hfield c hc]
    rw [hsolid, hsolid, hg, List.filter_map, hfilter, List.head?_map]
  rcases hc : n.child? fld with _ | c
  · rw [hfind, hc]
    exact Or.inl rfl
  · have hmem : c ∈ n.solid :=
      (List.mem_filter.mp (List.mem_of_head? ((hsolid n).symm.trans hc))).1
    rw [hfind, hc]
    rcases himage c hmem with he | ⟨hn, harray, hlabel⟩
    · exact Or.inl (congrArg some he)
    · exact Or.inr ⟨c, g c, rfl, rfl, hn, harray, hlabel⟩

theorem child?_map (fld : Field) (hn : n.makesArray → fld ≠ .type) :
    (f n).child? fld = (n.child? fld).map f := by
  rcases child?_image h fld with he | ⟨c, d, hc, -, hm, harray, -⟩
  · exact he
  · have hfield : c.field = some fld := by simpa using List.find?_some hc
    rw [field_of_isArrayType harray, Option.some.injEq] at hfield
    exact absurd hfield.symm (hn hm)

theorem namedOfKind_map {k : Kind} (h1 : k ≠ .comment) (h2 : k ≠ .arrayType) :
    (f n).namedOfKind k = (n.namedOfKind k).map f := by
  unfold namedOfKind namedChildren
  rw [List.filter_filter, List.filter_filter]
  refine filter_map h (fun a b hab => by rw [hab.kind, hab.named]) ?_ ?_
  · intro c hc
    simp [kind_of_isLoose hc, Ne.symm h1]
  · intro _ c hc
    simp [kind_of_isArrayType hc, Ne.symm h2]

theorem findKind_map {p : Kind → Bool} (h1 : p .comment = false) (h2 : p .arrayType = false) :
    ((f n).children.map (·.kind)).find? p = (n.children.map (·.kind)).find? p := by
  have hfilter := filter_map h (p := fun c => p c.kind) (fun a b hab => by rw [hab.kind])
    (fun c hc => by rw [kind_of_isLoose hc, h1])
    (fun _ c hc => by rw [kind_of_isArrayType hc, h2])
  rw [List.find?_map, List.find?_map]
  change ((f n).children.find? fun c => p c.kind).map _ = (n.children.find? fun c => p c.kind).map _
  rw [← List.head?_filter, ← List.head?_filter, hfilter, List.head?_map, Option.map_map]
  refine Option.map_congr fun c hc => ?_
  exact (h.of_mem (List.mem_filter.mp (List.mem_of_head? hc)).1).kind

theorem hasChildOfKind_map {k : Kind} (h1 : k ≠ .comment) (h2 : k ≠ .arrayType) :
    (f n).hasChildOfKind k = n.hasChildOfKind k := by
  have hfind := findKind_map h (p := fun x => decide (x = k)) (by simp [Ne.symm h1])
    (by simp [Ne.symm h2])
  have hany : ∀ m : Node,
      m.hasChildOfKind k = ((m.children.map (·.kind)).find? fun x => decide (x = k)).isSome := by
    intro m
    rw [List.isSome_find?, List.any_map]
    rfl
  rw [hany, hany, hfind]

theorem operatorToken?_map : (f n).operatorToken? = n.operatorToken? :=
  findKind_map h rfl rfl

theorem passing?_map : Walk.passing? (f n) = Walk.passing? n :=
  findKind_map h rfl rfl

theorem modifierTexts_map : (f n).modifierTexts = n.modifierTexts := by
  have hfilter := filter_map h (p := fun c => decide (c.kind = .modifier))
    (fun a b hab => by rw [hab.kind])
    (fun c hc => by simp [kind_of_isLoose hc])
    (fun _ c hc => by simp [kind_of_isArrayType hc])
  unfold modifierTexts
  rw [hfilter, List.map_map]
  refine List.map_congr_left fun c hc => ?_
  exact (h.of_mem (List.mem_filter.mp hc).1).text

/-! ## Types and parameters -/

theorem ofType_map : ReturnMode.ofType (f n) = ReturnMode.ofType n := by
  unfold ReturnMode.ofType
  rw [h.kind, hasChildOfKind_map h (by decide) (by decide)]

theorem stripScoped_map : (f n).stripScoped = f n.stripScoped := by
  unfold stripScoped
  rw [h.kind]
  split
  · rename_i hk
    rw [child?_map h .type (by simp [makesArray, hk])]
    cases n.child? .type <;> rfl
  · rfl

theorem follows_stripScoped : Follows f n.stripScoped := by
  unfold stripScoped
  split
  · rcases hc : n.child? .type with _ | c
    · exact h
    · exact h.of_child? hc
  · exact h

/-- A type that binds a reference for reading only is no array type. -/
theorem readonlyType_map :
    (((f n).child? .type).any fun t => ReturnMode.ofType t.stripScoped = .readonlyRef) =
      (n.child? .type).any fun t => ReturnMode.ofType t.stripScoped = .readonlyRef := by
  rcases child?_image h .type with he | ⟨c, d, hc, hd, -, harray, hlabel⟩
  · rw [he]
    rcases ht : n.child? .type with _ | t
    · rfl
    · have hcar := h.of_child? ht
      simp only [Option.map_some, Option.any_some]
      rw [stripScoped_map hcar, ofType_map (follows_stripScoped hcar)]
  · have hvalue : ∀ t : Node, t.kind = .arrayType →
        ReturnMode.ofType t.stripScoped ≠ .readonlyRef := by
      intro t ht
      simp [stripScoped, ht, ReturnMode.ofType]
    have hk := kind_of_isArrayType harray
    simp [hc, hd, hvalue c hk, hvalue d (hlabel.kind.trans hk)]

theorem parameter_ofNode?_map (hk : n.kind = .parameter) :
    Parameter.ofNode? (f n) = Parameter.ofNode? n := by
  have hn : n.makesArray = false := by simp [makesArray, hk]
  have htype : (((n.child? .type).map f).any fun t => decide (t.kind = .pointerType)) =
      (n.child? .type).any fun t => decide (t.kind = .pointerType) := by
    rcases hc : n.child? .type with _ | c
    · rfl
    · simp [(h.of_child? hc).kind]
  unfold Parameter.ofNode?
  rw [child?_map h .name (by simp), child?_map h .type (by simp [hn]), modifierTexts_map h, htype]
  rcases hc : n.child? .name with _ | c
  · rfl
  · simp [(h.of_child? hc).text]

theorem parameter_ofChild?_map (hk : n.kind = .parameter ∨ n.kind = .identifier) :
    Parameter.ofChild? (f n) = Parameter.ofChild? n := by
  unfold Parameter.ofChild?
  rw [h.kind, h.text, h.keeps.label.field]
  rcases hk with hk | hk
  · simp only [hk]
    exact parameter_ofNode?_map h hk
  · simp only [hk]

theorem parameter_ofList_map : Parameter.ofList (f n) = Parameter.ofList n := by
  let p : Node → Bool := fun c => c.kind = .parameter || c.kind = .identifier
  have hfilter := filter_map h (p := p) (fun a b hab => by simp only [p, hab.kind])
    (fun c hc => by simp [p, kind_of_isLoose hc])
    (fun _ c hc => by simp [p, kind_of_isArrayType hc])
  -- only parameters and identifiers count
  have hcount : ∀ m : Node,
      Parameter.ofList m = (m.children.filter p).filterMap Parameter.ofChild? := by
    intro m
    rw [List.filterMap_filter]
    refine List.filterMap_congr fun c _ => ?_
    unfold Parameter.ofChild?
    split <;> simp_all [p]
  rw [hcount, hcount, hfilter, List.filterMap_map]
  refine List.filterMap_congr fun c hc => ?_
  obtain ⟨hmem, hc⟩ := List.mem_filter.mp hc
  exact parameter_ofChild?_map (h.of_mem hmem) (by simpa [p] using hc)

theorem simpleName?_of_follows (hnamed : ∀ c, c.Within n → c.kind = .genericName →
      (f c).namedChildren.head? = c.namedChildren.head?.map f) :
    (f n).simpleName? = n.simpleName? := by
  induction n using below_induction with
  | step n ih =>
    have hqualified : ((f n).child? .name).bind simpleName? =
        (n.child? .name).bind simpleName? := by
      rw [child?_map h .name (by simp)]
      rcases hc : n.child? .name with _ | c
      · rfl
      · have hbelow := below_of_child? hc
        exact ih c hbelow (h.of_child? hc) fun x hx => hnamed x (hx.trans hbelow.within)
    rw [simpleName?_eq, simpleName?_eq, h.kind]
    split
    · rw [h.text]
    · rename_i hk
      rw [hnamed n (within_refl n) hk]
      rcases hc : n.namedChildren.head? with _ | c
      · rfl
      · have hcar := h.of_mem (mem_children_of_namedChildren (List.mem_of_head? hc))
        simp only [Option.map_some, Option.filter_some, hcar.kind]
        split
        · simp [hcar.text]
        · rfl
    · exact hqualified
    · exact hqualified
    · rfl

end Labels

section Views

variable {f : Node → Node} {n : Node} (h : Carries f n)
include h

/-! ## Names and parentheses -/

theorem simpleName?_map : (f n).simpleName? = n.simpleName? :=
  simpleName?_of_follows h.follows fun c hc hk => (h c hc).named hk

theorem accessedName_map :
    ((f n).child? .name).bind (·.simpleName?) = (n.child? .name).bind (·.simpleName?) := by
  rw [child?_map h.follows .name (by simp)]
  rcases hc : n.child? .name with _ | name
  · rfl
  · exact simpleName?_map (h.of_child? hc)

theorem unparenthesize_map : (f n).unparenthesize = f n.unparenthesize := by
  induction n using below_induction with
  | step n ih =>
    rw [unparenthesize_eq, unparenthesize_eq, h.kind]
    split
    · rename_i hk
      rw [h.alike.inner hk]
      rcases hc : n.inner? with _ | c
      · rfl
      · have hmem := mem_children_of_inner? hc
        exact ih c (below_of_mem hmem) (h.of_mem hmem)
    · rfl

theorem carries_unparenthesize : Carries f n.unparenthesize := h.of_within (within_unparenthesize n)

theorem isThis_map : (f n).isThis = n.isThis := by
  unfold isThis
  rw [unparenthesize_map h, (carries_unparenthesize h).kind]

/-! ## Storage -/

theorem callArguments_map : (f n).callArguments = n.callArguments.map f := by
  unfold callArguments
  rw [child?_map h.follows .arguments (by simp)]
  rcases hc : n.child? .arguments with _ | list
  · rfl
  · have hlist := h.of_child? hc
    simp only [Option.map_some]
    rw [namedOfKind_map hlist.follows (by decide) (by decide), List.filterMap_map,
      List.map_filterMap]
    refine List.filterMap_congr fun a ha => ?_
    have hk := kind_of_mem_namedOfKind ha
    exact (hlist.of_mem (mem_children_of_namedOfKind ha)).alike.last (by simp [hk])

theorem storageOf_map (v : Viewpoint) (scope : Scope) {part part' : Node → Storage}
    (hpart : ∀ c, c.Below n → part' (f c) = part c) :
    v.storageOf scope part' (f n) = v.storageOf scope part n := by
  have hname : v.accessedMember (f n) = v.accessedMember n := by
    unfold Viewpoint.accessedMember
    rw [accessedName_map h]
  unfold Viewpoint.storageOf
  rw [h.kind, h.text, operatorToken?_map h.follows,
    hasChildOfKind_map h.follows (by decide) (by decide),
    child?_map h.follows .expression (by simp), callArguments_map h, hname]
  split
  case h_7 =>
    have hany : ((n.callArguments.map f).any fun a => (part' a).isCertainlyInstance) =
        n.callArguments.any fun a => (part a).isCertainlyInstance := by
      rw [List.any_map, Bool.eq_iff_iff, List.any_eq_true, List.any_eq_true]
      refine exists_congr fun a => and_congr_right fun ha => ?_
      simp [hpart a (below_of_mem_callArguments ha)]
    rw [hany]
  case h_9 =>
    rcases hc : n.child? .expression with _ | base
    · rfl
    · simp only [Option.map_some, hpart base (below_of_child? hc)]
  case h_10 =>
    rcases hc : n.child? .expression with _ | base
    · rfl
    · simp only [Option.map_some, hpart base (below_of_child? hc)]
  all_goals rfl

theorem storage_map (v : Viewpoint) (scope : Scope) :
    v.storage scope (f n) = v.storage scope n := by
  induction n using below_induction with
  | step n ih =>
    rw [Viewpoint.storage_eq, Viewpoint.storage_eq, unparenthesize_map h]
    -- the parts that the rule asks for are below the node without parentheses
    refine storageOf_map (carries_unparenthesize h) v scope fun c hc => ?_
    have hcn := hc.of_within (within_unparenthesize n)
    exact ih c hcn (h.of_within hcn.within)

theorem isInstancePointer_map (scope : Scope) :
    Walk.isInstancePointer scope (f n) = Walk.isInstancePointer scope n := by
  induction n using below_induction with
  | step n ih =>
    rw [Walk.isInstancePointer_eq, Walk.isInstancePointer_eq, unparenthesize_map h]
    have ht := carries_unparenthesize h
    have hside : ∀ fld, fld ≠ .type →
        ((f n.unparenthesize).child? fld).any (Walk.isInstancePointer scope) =
          (n.unparenthesize.child? fld).any (Walk.isInstancePointer scope) := by
      intro fld hfld
      rw [child?_map ht.follows fld (fun _ => hfld)]
      rcases hc : n.unparenthesize.child? fld with _ | c
      · rfl
      · exact ih c ((below_of_child? hc).of_within (within_unparenthesize n)) (ht.of_child? hc)
    unfold Walk.instancePointerOf
    rw [ht.kind, ht.text, hside .left (by simp), hside .right (by simp), hside .value (by simp)]

theorem pointsIntoInstance_map (v : Viewpoint) (scope : Scope) :
    Walk.pointsIntoInstance v scope (f n) = Walk.pointsIntoInstance v scope n := by
  unfold Walk.pointsIntoInstance
  rw [storage_map h, isInstancePointer_map h]

/-! ## Targets and initializers -/

/-- The image of a node together with the images of the nodes around it. -/
def mapPart (f : Node → Node) (p : List Node × Node) : List Node × Node := (p.1.map f, f p.2)

theorem targets_map (outer : List Node) :
    (f n).targets (outer.map f) = (n.targets outer).map (mapPart f) := by
  induction n using below_induction generalizing outer with
  | step n ih =>
    have ht := carries_unparenthesize h
    rw [targets_eq, targets_eq, unparenthesize_map h, ht.kind]
    split
    · rw [namedOfKind_map ht.follows (by decide) (by decide), List.flatMap_map, List.map_flatMap]
      refine List.flatMap_congr fun a ha => ?_
      have hcar := ht.of_mem (mem_children_of_namedOfKind ha)
      rw [hcar.alike.last (by simp [kind_of_mem_namedOfKind ha])]
      rcases he : a.lastChild? with _ | e
      · rfl
      · have hmem := mem_children_of_lastChild? he
        have hbelow : e.Below n := (below_of_mem hmem).of_within
          ((within_of_mem (mem_children_of_namedOfKind ha)).trans (within_unparenthesize n))
        simpa using ih e hbelow (hcar.of_mem hmem) (a :: n.unparenthesize :: outer)
    · rfl

theorem entryParts_map {c : Node} (hc : c ∈ n.children) (outer : List Node)
    (hright : ∀ right, c.child? .right = some right → right.kind = .initializerExpression →
      ((f right).initializerParts ((c :: n :: outer).map f)).filter (!·.2.isLoose) =
        ((right.initializerParts (c :: n :: outer)).filter (!·.2.isLoose)).map (mapPart f)) :
    ((f n).entryParts (outer.map f) (f c)).filter (!·.2.isLoose) =
      ((n.entryParts outer c).filter (!·.2.isLoose)).map (mapPart f) := by
  have hcar := h.of_mem hc
  have hone : ∀ (around : List Node) (x : Node), (f x).SameLabel x →
      [(around.map f, f x)].filter (!·.2.isLoose) =
        ([(around, x)].filter (!·.2.isLoose)).map (mapPart f) := by
    intro around x hx
    have hl : (f x).isLoose = x.isLoose := by rw [isLoose, isLoose, hx.kind, hx.field]
    by_cases hloose : x.isLoose <;> simp [hl, hloose, mapPart]
  unfold entryParts
  rw [hcar.kind]
  split
  · exact hone (n :: outer) c hcar.alike.label
  · rw [List.filter_append, List.filter_append, List.map_append,
      child?_map hcar.follows .left (by simp), child?_map hcar.follows .right (by simp)]
    congr 1
    · rcases hl : c.child? .left with _ | left
      · rfl
      · have hleft := hcar.of_child? hl
        simp only [Option.map_some, Option.toList_some, List.flatMap_cons, List.flatMap_nil,
          List.append_nil, hleft.kind]
        split
        · rename_i hbind
          have hfilter := filter_solid_map hleft.follows
            (p := fun i => !i.field.any (·.isDeclarative))
            (fun a b hab => by rw [hab.field]) (by simp [makesArray, hbind])
          rw [List.filter_map, List.filter_map]
          simp only [Function.comp_def]
          rw [hfilter, List.map_map, List.map_map]
          rfl
        · rfl
    · rcases hr : c.child? .right with _ | right
      · rfl
      · have hcarr := hcar.of_child? hr
        simp only [Option.map_some, Option.toList_some, List.flatMap_cons, List.flatMap_nil,
          List.append_nil, hcarr.kind]
        split
        · rename_i hinit
          exact hright right hr hinit
        · exact hone (c :: n :: outer) right hcarr.alike.label

/-- The expressions that an object initializer evaluates are images, loose comments aside. -/
theorem initializerParts_map (outer : List Node) (hk : n.kind = .initializerExpression) :
    ((f n).initializerParts (outer.map f)).filter (!·.2.isLoose) =
      ((n.initializerParts outer).filter (!·.2.isLoose)).map (mapPart f) := by
  induction n using below_induction generalizing outer with
  | step n ih =>
    rw [solid_initializerParts, solid_initializerParts,
      filter_solid_map h.follows (fun a b hab => hab.named) (by simp [makesArray, hk]),
      List.flatMap_map, List.map_flatMap]
    refine List.flatMap_congr fun c hc => ?_
    have hmem := (List.mem_filter.mp (List.mem_filter.mp hc).1).1
    refine entryParts_map h hmem outer fun right hr hinit => ?_
    exact ih right ((below_of_child? hr).of_within (within_of_mem hmem))
      ((h.of_mem hmem).of_child? hr) (c :: n :: outer) hinit

theorem refTarget?_map : (f n).refTarget? = n.refTarget?.map f := by
  unfold refTarget?
  rw [unparenthesize_map h, (carries_unparenthesize h).kind]
  split
  · rename_i hk
    exact (carries_unparenthesize h).alike.last (by simp [hk])
  · rfl

theorem addressed_map (outer : List Node) :
    (f n).addressed (outer.map f) = mapPart f (n.addressed outer) := by
  have ht := carries_unparenthesize h
  unfold addressed
  dsimp only
  rw [unparenthesize_map h, ht.kind, operatorToken?_map ht.follows]
  split
  · rename_i hk
    have hunary : n.unparenthesize.kind = .prefixUnaryExpression := by
      simp only [Bool.and_eq_true, decide_eq_true_eq] at hk
      exact hk.1
    rw [ht.alike.last (Or.inl hunary)]
    rcases n.unparenthesize.lastChild? with _ | operand <;> rfl
  · rfl

end Views

/-! ## Counted positions among mapped children -/

section Positions

variable {f : Node → Node} (hf : ∀ c, (f c).SameLabel c)
include hf

theorem isLoose_map (c : Node) : (f c).isLoose = c.isLoose := by
  rw [isLoose, isLoose, (hf c).kind, (hf c).field]

theorem filter_named_map (l : List Node) :
    (l.map f).filter (·.named) = (l.filter (·.named)).map f := by
  rw [List.filter_map]
  congr 1
  exact List.filter_congr fun c _ => (hf c).named

theorem anonymousParts_map (l : List Node) :
    anonymousParts (l.map f) = (anonymousParts l).map f := by
  induction l with
  | nil => rfl
  | cons c l ih =>
    have hnext : (l.map f).head?.any (·.kind = .assign) = l.head?.any (·.kind = .assign) := by
      cases l with
      | nil => rfl
      | cons d l => simp [(hf d).kind]
    simp only [List.map_cons, anonymousParts, hnext, (hf c).kind, (hf c).named, ih]
    split <;> rfl

variable {n : Node} (hn : (f n).children = n.children.map f)
include hn

theorem inner?_of_children : (f n).inner? = n.inner?.map f := by
  unfold inner? namedChildren
  rw [hn, filter_named_map hf, List.head?_map, List.getElem?_map]
  generalize (n.children.filter (·.named)).head? = first
  generalize n.children[1]? = second
  rcases first with _ | c
  · -- no child is named, as in `(this)`: the second child counts, unless it closes
    rcases second with _ | c
    · rfl
    · by_cases hc : c.kind = .closeParen <;> simp [Option.filter_some, (hf c).kind, hc]
  · rfl

theorem initializer?_of_children : (f n).initializer? = n.initializer?.map f := by
  unfold initializer?
  rw [hn, List.dropWhile_map, List.getElem?_map]
  have hkind : ((fun c : Node => decide (c.kind ≠ .assign)) ∘ f) =
      fun c => decide (c.kind ≠ .assign) :=
    funext fun c => by simp only [Function.comp, (hf c).kind]
  rw [hkind]

/-- A node whose children are just mapped is alike to its image. -/
theorem alike_of_children : Alike f n where
  label := hf n
  solid := by
    refine ⟨f, ?_, fun c _ => Or.inl rfl⟩
    rw [solid, solid, hn, List.filter_map]
    congr 1
    exact List.filter_congr fun c _ => by simp only [Function.comp, isLoose_map hf]
  inner := fun _ => inner?_of_children hf hn
  last := fun _ => by rw [lastChild?, lastChild?, hn, List.getLast?_map]
  first := fun _ => by rw [hn, List.head?_map]
  value := fun _ => initializer?_of_children hf hn
  named := fun _ => by rw [namedChildren, namedChildren, hn, filter_named_map hf, List.head?_map]
  entries := fun _ => by
    rw [hn, anonymousParts_map hf, List.filter_map]
    congr 1
    exact List.filter_congr fun c _ => by simp only [Function.comp, isLoose_map hf]

end Positions

end Node

end ReadonlyLint
