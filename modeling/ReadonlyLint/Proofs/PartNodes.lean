import ReadonlyLint.Proofs.FixOffsets

/-!
Which node each part of a struct is read from. The members and the properties and indexers of a
struct stand in the order in which their nodes are read, so the nodes are listed beside them:
`StructDecl.memberSources` and `StructDecl.groupSources`. A part is reported, and marked, inside of
its node. In a tree whose nodes are well nested the nodes of the members of a body stand one after
the other.
-/
namespace ReadonlyLint

/-! ## Two lists entry by entry -/

theorem forall₂_filterMap {α β : Type} {R : β → α → Prop} {f : α → Option β} {l : List α}
    (h : ∀ a ∈ l, ∀ b, f a = some b → R b a) :
    List.Forall₂ R (l.filterMap f) (l.filter fun a => (f a).isSome) := by
  induction l with
  | nil => exact .nil
  | cons a l ih =>
    have hrest := ih fun x hx => h x (List.mem_cons_of_mem a hx)
    cases hf : f a with
    | none => simpa [hf] using hrest
    | some b =>
      rw [List.filterMap_cons_some hf, List.filter_cons_of_pos (by simp [hf])]
      exact .cons (h a List.mem_cons_self b hf) hrest

theorem forall₂_zipIdx {α β γ : Type} {R : α → β → Prop} {S : γ → β → Prop} {f : α × Nat → γ}
    {l : List α} {l' : List β} (h : List.Forall₂ R l l') (hf : ∀ p b, R p.1 b → S (f p) b)
    (k : Nat) : List.Forall₂ S ((l.zipIdx k).map f) l' := by
  induction h generalizing k with
  | nil => exact .nil
  | cons hab _ ih => exact .cons (hf _ _ hab) (ih (k + 1))

theorem exists_getElem?_of_forall₂ {α β : Type} {R : α → β → Prop} {l : List α} {l' : List β}
    (h : List.Forall₂ R l l') {i : Nat} {a : α} (ha : l[i]? = some a) :
    ∃ b, l'[i]? = some b ∧ R a b := by
  obtain ⟨hlt, rfl⟩ := List.getElem?_eq_some_iff.mp ha
  have hlt' : i < l'.length := h.length_eq ▸ hlt
  exact ⟨l'[i], List.getElem?_eq_getElem hlt', h.get hlt hlt'⟩

theorem exists_mem_of_forall₂ {α β : Type} {R : α → β → Prop} {l : List α} {l' : List β}
    (h : List.Forall₂ R l l') {a : α} (ha : a ∈ l) : ∃ b ∈ l', R a b := by
  obtain ⟨i, hi⟩ := List.getElem?_of_mem ha
  obtain ⟨b, hb, hab⟩ := exists_getElem?_of_forall₂ h hi
  exact ⟨b, List.mem_of_getElem? hb, hab⟩

theorem pairwise_of_forall₂ {α β : Type} {R : α → β → Prop} {S : β → β → Prop} {T : α → α → Prop}
    {l : List α} {l' : List β} (h : List.Forall₂ R l l') (hS : l'.Pairwise S)
    (hT : ∀ a b x y, R a x → R b y → S x y → T a b) : l.Pairwise T := by
  induction h with
  | nil => exact .nil
  | @cons a x l l' hax hrest ih =>
    obtain ⟨hfirst, hS⟩ := List.pairwise_cons.mp hS
    refine .cons (fun b hb => ?_) (ih hS)
    obtain ⟨y, hy, hby⟩ := exists_mem_of_forall₂ hrest hb
    exact hT a b x y hax hby (hfirst y hy)

/-! ## Well nested trees -/

namespace Node

/-- The first node ends before the second starts. -/
def Before (a b : Node) : Prop := a.span.stop ≤ b.span.start

instance (a b : Node) : Decidable (a.Before b) :=
  inferInstanceAs (Decidable (a.span.stop ≤ b.span.start))

/-- The node is not empty, and its children stand one after the other inside of it. -/
structure Nested (n : Node) : Prop where
  nonempty : n.span.start < n.span.stop
  inside : ∀ c ∈ n.children, n.span.start ≤ c.span.start ∧ c.span.stop ≤ n.span.stop
  ordered : n.children.Pairwise Before

instance (n : Node) : Decidable n.Nested :=
  decidable_of_iff (n.span.start < n.span.stop ∧
      (∀ c ∈ n.children, n.span.start ≤ c.span.start ∧ c.span.stop ≤ n.span.stop) ∧
      n.children.Pairwise Before)
    ⟨fun ⟨h1, h2, h3⟩ => ⟨h1, h2, h3⟩, fun h => ⟨h.nonempty, h.inside, h.ordered⟩⟩

/-- All nodes of the tree are nested. -/
def WellNested (root : Node) : Prop := ∀ n ∈ root.preorder, n.Nested

instance (root : Node) : Decidable root.WellNested :=
  inferInstanceAs (Decidable (∀ n ∈ root.preorder, n.Nested))

namespace WellNested

variable {root : Node} (h : root.WellNested)
include h

theorem nested : root.Nested := h root (self_mem_preorder root)

theorem of_within {n : Node} (hn : n.Within root) : n.WellNested :=
  fun x hx => h x (hn.mem_preorder hx)

/-- What is within a node stands inside of it. -/
theorem inside {x : Node} (hx : x.Within root) :
    root.span.start ≤ x.span.start ∧ x.span.start < x.span.stop ∧
      x.span.stop ≤ root.span.stop := by
  induction hx with
  | refl =>
    have := h.nested.nonempty
    omega
  | tail _ hc ih =>
    have hchild := h.nested.inside _ hc
    have := ih (h.of_within (within_of_mem hc))
    omega

theorem lt_of_startsAt {offset : Nat} (hstarts : root.StartsAt offset) :
    root.span.start ≤ offset ∧ offset < root.span.stop := by
  obtain ⟨x, hx, rfl⟩ := hstarts
  have := h.inside hx
  omega

theorem before_of_within {a b x y : Node} (ha : a.Within root) (hb : b.Within root)
    (hx : x.Within a) (hy : y.Within b) (hbefore : a.Before b) : x.Before y := by
  have hin := (h.of_within ha).inside hx
  have hin' := (h.of_within hb).inside hy
  unfold Before at *
  omega

end WellNested

theorem within_of_mem_membersAt {c n : Node} (h : c ∈ n.membersAt) : c.Within n := by
  unfold membersAt at h
  split at h
  · obtain ⟨parent, hparent, hc⟩ := exists_parent_of_mem_memberNodes h
    exact (within_of_mem hc).trans hparent
  · split at h
    · rw [List.mem_singleton.mp h]
      exact within_refl n
    · cases h

theorem within_of_mem_memberNodes {n c : Node} (h : c ∈ memberNodes n) : c.Within n := by
  obtain ⟨parent, hparent, hc⟩ := exists_parent_of_mem_memberNodes h
  exact (within_of_mem hc).trans hparent

/-- The members of a body stand one after the other, those inside of regions included. -/
theorem WellNested.memberNodes {n : Node} (h : n.WellNested) : (memberNodes n).Pairwise Before := by
  induction n using below_induction with
  | step n ih =>
    rw [memberNodes_eq, List.pairwise_flatMap]
    constructor
    · intro c hc
      unfold membersAt
      split
      · exact ih c (below_of_mem hc) (h.of_within (within_of_mem hc))
      · split
        · exact List.pairwise_singleton _ _
        · exact .nil
    · refine h.nested.ordered.imp_of_mem fun ha hb hbefore x hx y hy => ?_
      exact h.before_of_within (within_of_mem ha) (within_of_mem hb) (within_of_mem_membersAt hx)
        (within_of_mem_membersAt hy) hbefore

end Node

namespace StructDecl

/-! ## The nodes of the members -/

/-- The accessors of a property or indexer. Without a list, the whole of it is its getter. -/
def accessorSources (n : Node) : List Node :=
  if ((n.child? .value).filter (·.kind = .arrowExpressionClause)).isSome then [n]
  else (listedAccessors n).filter fun accessor =>
    ((accessor.child? .name).bind (accessorSpec? accessor)).isSome

/-- The declarators with a name of a declaration of fields. -/
def fieldSources (n : Node) : List Node :=
  (n.childOfKind? .variableDeclaration).toList.flatMap fun declaration =>
    (declaration.namedOfKind .variableDeclarator).filter fun c => (c.child? .name).isSome

/-- The accessors of an event that has a name. -/
def eventSources (n : Node) : List Node :=
  if (n.child? .name).isSome then
    (listedAccessors n).filter fun accessor =>
      ((accessor.child? .name).bind (eventRole? ·.kind)).isSome
  else []

/-- The nodes of the members that a node of a body declares. -/
def sourcesAt (n : Node) : List Node :=
  match n.kind with
  | .fieldDeclaration | .eventFieldDeclaration => fieldSources n
  | .eventDeclaration => eventSources n
  | .methodDeclaration | .operatorDeclaration | .conversionOperatorDeclaration => [n]
  | .propertyDeclaration | .indexerDeclaration => accessorSources n
  | _ => []

/-- The node, if it declares a property or indexer. -/
def groupsAt (n : Node) : List Node :=
  if n.kind = .propertyDeclaration || n.kind = .indexerDeclaration then [n] else []

/-- The nodes of the members of a struct, in the order of the members. A parameter of a primary
constructor stands for a field, or for both accessors of a property of a record. -/
def memberSources (s : Node) : List Node :=
  ((s.childOfKind? .parameterList).toList.flatMap fun list =>
    (primaryParameters list).flatMap fun param =>
      if s.kind = .recordDeclaration then [param.1, param.1] else [param.1]) ++
  (s.child? .body).toList.flatMap fun body => (memberNodes body).flatMap sourcesAt

/-- The nodes of the properties and indexers of a struct, in their order. -/
def groupSources (s : Node) : List Node :=
  ((s.childOfKind? .parameterList).toList.flatMap fun list =>
    (primaryParameters list).flatMap fun param =>
      if s.kind = .recordDeclaration then [param.1] else []) ++
  (s.child? .body).toList.flatMap fun body => (memberNodes body).flatMap groupsAt

/-- The node of what a suggestion for a struct asks to mark. -/
def targetNode? (s : Node) : SuggestionTarget → Option Node
  | .struct => some s
  | .group id => (groupSources s)[id]?
  | .member id => (memberSources s)[id]?

/-- What is reported at the place is reported inside of the node, and what can be marked is marked
where some node within it starts. -/
structure PlacedIn (n : Node) (place : Option Span) (markable : Bool) (offset : Nat) : Prop where
  shown : ∀ span ∈ place, ∃ x : Node, x.Within n ∧ x.span = span
  marked : markable = true → n.StartsAt offset

/-- Only a member with a body can be marked. -/
def MemberReadAt (m : Member) (n : Node) : Prop := PlacedIn n m.anchor m.body.isSome m.fixOffset

def SpecReadAt (a : AccessorSpec) (n : Node) : Prop := PlacedIn n a.anchor a.body.isSome a.fixOffset

def GroupReadAt (g : PropertyGroup) (n : Node) : Prop := PlacedIn n (some g.anchor) true g.fixOffset

/-! ## What is added -/

/-- The second declaration has the given members and groups after those of the first, each read at
its node. -/
structure GrowsBy (d d' : StructDecl) (ms : List Member) (gs : List PropertyGroup)
    (memberNodes groupNodes : List Node) : Prop where
  members : d'.members.toList = d.members.toList ++ ms
  groups : d'.groups.toList = d.groups.toList ++ gs
  membersAt : List.Forall₂ MemberReadAt ms memberNodes
  groupsAt : List.Forall₂ GroupReadAt gs groupNodes

theorem GrowsBy.nothing {d d' : StructDecl} (hmembers : d'.members = d.members)
    (hgroups : d'.groups = d.groups) : GrowsBy d d' [] [] [] [] :=
  ⟨by rw [hmembers, List.append_nil], by rw [hgroups, List.append_nil], .nil, .nil⟩

theorem GrowsBy.trans {d d' d'' : StructDecl} {ms ms' : List Member} {gs gs' : List PropertyGroup}
    {ns ns' ps ps' : List Node} (h : GrowsBy d d' ms gs ns ps) (h' : GrowsBy d' d'' ms' gs' ns' ps') :
    GrowsBy d d'' (ms ++ ms') (gs ++ gs') (ns ++ ns') (ps ++ ps') where
  members := by rw [h'.members, h.members, List.append_assoc]
  groups := by rw [h'.groups, h.groups, List.append_assoc]
  membersAt := List.rel_append h.membersAt h'.membersAt
  groupsAt := List.rel_append h.groupsAt h'.groupsAt

theorem GrowsBy.pushMember (d : StructDecl) {m : Member} {n : Node} (h : MemberReadAt m n) :
    GrowsBy d (d.pushMember m) [{ m with id := d.members.size }] [] [n] [] where
  members := by simp
  groups := by simp
  membersAt := .cons h .nil
  groupsAt := .nil

theorem GrowsBy.addAccessors (d : StructDecl) {g : PropertyGroup} (parameters : List Parameter)
    (returns : ReturnMode) {specs : List AccessorSpec} {n : Node} {nodes : List Node}
    (hgroup : GroupReadAt g n) (hspecs : List.Forall₂ SpecReadAt specs nodes) :
    GrowsBy d (d.addAccessors g parameters returns specs)
      ((specs.zipIdx d.members.size).map fun p =>
        { p.1.toMember d.groups.size g parameters returns with id := p.2 })
      [d.filledGroup g specs] nodes [n] where
  members := members_addAccessors d g parameters returns specs
  groups := by rw [groups_addAccessors, Array.toList_push]
  membersAt := by
    refine forall₂_zipIdx hspecs ?_ _
    exact fun _ _ hplaced => hplaced
  groupsAt := .cons hgroup .nil

/-! ## What a node of a body adds -/

theorem growsBy_addFields (types : TypeTable) (generics : Bindings TypeCategory) (d : StructDecl)
    (n : Node) (isEvent : Bool) :
    ∃ ms, GrowsBy d (d.addFields types generics n isEvent) ms [] (fieldSources n) [] := by
  unfold addFields fieldSources
  cases n.childOfKind? .variableDeclaration with
  | none => exact ⟨[], .nothing rfl rfl⟩
  | some declaration =>
    dsimp only
    refine ⟨_, members_pushAll _ _ d, by rw [groups_pushAll, List.append_nil], ?_, .nil⟩
    rw [Option.toList_some, List.flatMap_singleton]
    have hnames : List.Forall₂ (fun name c : Node => name ∈ c.children)
        ((declaration.namedOfKind .variableDeclarator).filterMap (·.child? .name))
        ((declaration.namedOfKind .variableDeclarator).filter fun c => (c.child? .name).isSome) :=
      forall₂_filterMap fun c _ name hname => Node.mem_children_of_child? hname
    refine forall₂_zipIdx hnames (fun p c hname => ⟨?_, fun hbody => ?_⟩) _
    · rintro _ ⟨⟩
      exact ⟨p.1, Node.within_of_mem hname, rfl⟩
    · cases hbody

/-- A name, or the node itself without one, is a place within the node. -/
theorem shown_getD {n : Node} {name : Option Node} (h : ∀ c ∈ name, c ∈ n.children) :
    ∃ x : Node, x.Within n ∧ x.span = (name.getD n).span := by
  cases name with
  | none => exact ⟨n, Node.within_refl n, rfl⟩
  | some c => exact ⟨c, Node.within_of_mem (h c rfl), rfl⟩

theorem readAt_methodMember {n : Node} (kind : MemberKind) {type anchor : Option Node}
    (htype : ∀ t ∈ type, t ∈ n.children) (hanchor : ∀ c ∈ anchor, c ∈ n.children) (name : String) :
    MemberReadAt (methodMember n kind type name (anchor.getD n)) n where
  shown := by
    rintro _ ⟨⟩
    exact shown_getD hanchor
  marked := fun _ => Node.startsAt_memberFixOffset (Node.within_refl n) htype

theorem growsBy_addEventAccessor (modifiers : Modifiers) (interface : Option String)
    (start : StructDecl × CustomEvent) (accessor : Node) :
    ∃ ms, GrowsBy start.1 (addEventAccessor modifiers interface start accessor).1 ms []
      (if ((accessor.child? .name).bind (eventRole? ·.kind)).isSome then [accessor] else []) [] := by
  obtain ⟨d, event⟩ := start
  rw [addEventAccessor]
  split
  · rename_i hkeyword
    rw [hkeyword]
    exact ⟨[], .nothing rfl rfl⟩
  · rename_i keyword hkeyword
    rw [hkeyword, Option.bind_some]
    split
    · rename_i hrole
      rw [if_neg (by simp [hrole])]
      exact ⟨[], .nothing rfl rfl⟩
    · rename_i adds hrole
      rw [if_pos (by simp [hrole])]
      have hchild := Node.mem_children_of_child? hkeyword
      refine ⟨_, .pushMember d ⟨?_, fun _ => ?_⟩⟩
      · rintro _ ⟨⟩
        exact ⟨keyword, Node.within_of_mem hchild, rfl⟩
      · exact (Node.within_refl accessor).startsAt_child hchild

theorem growsBy_addEvent (d : StructDecl) (n : Node) :
    ∃ ms, GrowsBy d (d.addEvent n) ms [] (eventSources n) [] := by
  -- the fold carries the event along with the declaration
  have hfold : ∀ (modifiers : Modifiers) (interface : Option String) (l : List Node)
      (start : StructDecl × CustomEvent),
      ∃ ms, GrowsBy start.1 (l.foldl (addEventAccessor modifiers interface) start).1 ms []
        (l.filter fun accessor => ((accessor.child? .name).bind (eventRole? ·.kind)).isSome) [] := by
    intro modifiers interface l
    induction l with
    | nil => exact fun _ => ⟨[], .nothing rfl rfl⟩
    | cons a l ih =>
      intro start
      obtain ⟨ms, hfirst⟩ := growsBy_addEventAccessor modifiers interface start a
      obtain ⟨ms', hrest⟩ := ih (addEventAccessor modifiers interface start a)
      refine ⟨ms ++ ms', ?_⟩
      rw [List.foldl_cons, List.filter_cons]
      have hboth := hfirst.trans hrest
      split
      · rename_i hrole
        rwa [if_pos hrole] at hboth
      · rename_i hrole
        rwa [if_neg hrole] at hboth
  rw [addEvent_eq]
  unfold eventSources
  cases n.child? .name with
  | none => exact ⟨[], .nothing rfl rfl⟩
  | some name =>
    obtain ⟨ms, hgrows⟩ := hfold (.ofNode n) (explicitInterface? n) (listedAccessors n)
      (d, { name := name.text, isStatic := (Modifiers.ofNode n).isStatic })
    dsimp only
    refine ⟨ms, ?_⟩
    split
    · exact ⟨hgrows.members, hgrows.groups, hgrows.membersAt, hgrows.groupsAt⟩
    · exact hgrows

theorem groupReadAt_groupHeader (n : Node) (kind : GroupKind) :
    GroupReadAt (groupHeader n kind) n where
  shown := by
    rintro _ ⟨⟩
    refine shown_getD fun c hc => ?_
    split at hc
    · exact Node.mem_children_of_childOfKind? hc
    · exact Node.mem_children_of_child? hc
  marked := fun _ => Node.startsAt_memberFixOffset (Node.within_refl n)
    fun t ht => Node.mem_children_of_child? ht

theorem specReadAt_written {accessor : Node} {spec : AccessorSpec}
    (h : (accessor.child? .name).bind (accessorSpec? accessor) = some spec) :
    SpecReadAt spec accessor := by
  obtain ⟨keyword, hkeyword, h⟩ := Option.bind_eq_some_iff.mp h
  obtain ⟨role, -, h⟩ := Option.bind_eq_some_iff.mp h
  cases h
  have hchild := Node.mem_children_of_child? hkeyword
  refine ⟨?_, fun _ => (Node.within_refl accessor).startsAt_child hchild⟩
  rintro _ ⟨⟩
  exact ⟨keyword, Node.within_of_mem hchild, rfl⟩

/-- A property or indexer is added with its accessors, which know it. -/
theorem growsBy_addGroup (d : StructDecl) (n : Node) (kind : GroupKind) :
    ∃ ms gs, GrowsBy d (d.addGroup n kind) ms gs (accessorSources n) [n] ∧
      ∀ m ∈ ms, ∀ g ∈ gs, m.kind.group? = some g.id := by
  have hheader := groupReadAt_groupHeader n kind
  have hlink : ∀ (g : PropertyGroup) (parameters : List Parameter) (returns : ReturnMode)
      (specs : List AccessorSpec), ∀ m ∈ (specs.zipIdx d.members.size).map fun p =>
        { p.1.toMember d.groups.size g parameters returns with id := p.2 },
      ∀ x ∈ [d.filledGroup g specs], m.kind.group? = some x.id := by
    intro g parameters returns specs m hm x hx
    obtain ⟨p, -, rfl⟩ := List.mem_map.mp hm
    rw [List.mem_singleton.mp hx]
    rfl
  rw [addGroup_eq]
  dsimp only
  split
  · rename_i body _ hvalue
    have hsources : accessorSources n = [n] := by simp [accessorSources, hvalue]
    rw [hsources]
    refine ⟨_, _, .addAccessors d _ _ hheader (.cons ⟨?_, hheader.marked⟩ .nil), hlink _ _ _ _⟩
    rintro _ ⟨⟩
  · rename_i list hvalue hlist
    have hsources : accessorSources n = (list.namedOfKind .accessorDeclaration).filter
        fun accessor => ((accessor.child? .name).bind (accessorSpec? accessor)).isSome := by
      simp [accessorSources, hvalue, listedAccessors, hlist]
    rw [hsources]
    refine ⟨_, _, .addAccessors d _ _ ⟨hheader.shown, hheader.marked⟩
      (forall₂_filterMap fun accessor _ spec hspec => specReadAt_written hspec), hlink _ _ _ _⟩
  · rename_i hvalue hlist
    have hsources : accessorSources n = [] := by
      simp [accessorSources, hvalue, listedAccessors, hlist]
    rw [hsources]
    exact ⟨_, _, .addAccessors d _ _ ⟨hheader.shown, hheader.marked⟩ .nil, hlink _ _ _ _⟩

/-- What a node of a body adds. Members and groups of one node belong together. -/
theorem growsBy_addMember (types : TypeTable) (generics : Bindings TypeCategory) (d : StructDecl)
    (n : Node) :
    ∃ ms gs, GrowsBy d (d.addMember types generics n) ms gs (sourcesAt n) (groupsAt n) ∧
      ∀ m ∈ ms, ∀ g ∈ gs, m.kind.group? = some g.id := by
  have hsingle : ∀ {d' : StructDecl} {nodes : List Node}, (∃ ms, GrowsBy d d' ms [] nodes []) →
      ∃ ms gs, GrowsBy d d' ms gs nodes [] ∧ ∀ m ∈ ms, ∀ g ∈ gs, m.kind.group? = some g.id :=
    fun ⟨ms, hgrows⟩ => ⟨ms, [], hgrows, fun _ _ _ hg => absurd hg List.not_mem_nil⟩
  have hchild : ∀ {field : Field}, ∀ c ∈ n.child? field, c ∈ n.children :=
    fun _ hc => Node.mem_children_of_child? hc
  have htoken : ∀ c ∈ (n.child? .operator).or (n.child? .type), c ∈ n.children := by
    intro c hc
    rcases Option.or_eq_some_iff.mp hc with hc | ⟨-, hc⟩
    · exact hchild c hc
    · exact hchild c hc
  unfold addMember sourcesAt groupsAt
  split
  all_goals rename_i hkind
  all_goals simp only [hkind, reduceCtorEq, decide_false, decide_true, Bool.or_false, Bool.or_true,
    Bool.or_self, Bool.false_eq_true, if_false, if_true]
  · exact hsingle (growsBy_addFields types generics d n false)
  · exact hsingle (growsBy_addFields types generics d n true)
  · exact hsingle (growsBy_addEvent d n)
  · exact hsingle ⟨_, .pushMember d (readAt_methodMember .method hchild hchild _)⟩
  · exact hsingle ⟨_, .pushMember d (readAt_methodMember .operator hchild htoken _)⟩
  · exact hsingle ⟨_, .pushMember d (readAt_methodMember .operator hchild htoken _)⟩
  · exact growsBy_addGroup d n .property
  · exact growsBy_addGroup d n .indexer
  · exact hsingle ⟨[], .nothing rfl rfl⟩
  · rename_i hproperty hindexer
    have hgroups : (if n.kind = .propertyDeclaration || n.kind = .indexerDeclaration then [n]
        else []) = ([] : List Node) := by
      simpa using ⟨hproperty, hindexer⟩
    rw [hgroups]
    split
    · exact hsingle ⟨[], .nothing rfl rfl⟩
    · exact hsingle ⟨[], .nothing rfl rfl⟩

/-! ## The nodes stand one after the other -/

/-- The nodes are within the given one, one after the other if that is well nested. -/
structure OrderedIn (n : Node) (l : List Node) : Prop where
  within : ∀ c ∈ l, c.Within n
  ordered : n.WellNested → l.Pairwise Node.Before

namespace OrderedIn

theorem nil (n : Node) : OrderedIn n [] := ⟨by simp, fun _ => .nil⟩

theorem self (n : Node) : OrderedIn n [n] where
  within := fun _ hc => List.mem_singleton.mp hc ▸ Node.within_refl n
  ordered := fun _ => List.pairwise_singleton _ _

theorem filter {n : Node} {l : List Node} (h : OrderedIn n l) (p : Node → Bool) :
    OrderedIn n (l.filter p) where
  within := fun c hc => h.within c (List.mem_filter.mp hc).1
  ordered := fun hn => (h.ordered hn).filter p

/-- Children of a child, picked by their kind. -/
theorem namedOfKind {n c : Node} (hc : c ∈ n.children) (kind : Kind) :
    OrderedIn n (c.namedOfKind kind) where
  within := fun _ hx =>
    (Node.within_of_mem (Node.mem_children_of_namedOfKind hx)).trans (Node.within_of_mem hc)
  ordered := fun hn => ((hn.of_within (Node.within_of_mem hc)).nested.ordered.filter _).filter _

end OrderedIn

theorem orderedIn_listedAccessors (n : Node) : OrderedIn n (listedAccessors n) := by
  unfold listedAccessors
  split
  · rename_i list hlist
    exact .namedOfKind (Node.mem_children_of_child? hlist) _
  · exact .nil n

theorem orderedIn_fieldSources (n : Node) : OrderedIn n (fieldSources n) := by
  unfold fieldSources
  cases hdeclaration : n.childOfKind? .variableDeclaration with
  | none => exact .nil n
  | some declaration =>
    rw [Option.toList_some, List.flatMap_singleton]
    exact (OrderedIn.namedOfKind (Node.mem_children_of_childOfKind? hdeclaration) _).filter _

theorem orderedIn_eventSources (n : Node) : OrderedIn n (eventSources n) := by
  unfold eventSources
  split
  · exact (orderedIn_listedAccessors n).filter _
  · exact .nil n

theorem orderedIn_accessorSources (n : Node) : OrderedIn n (accessorSources n) := by
  unfold accessorSources
  split
  · exact .self n
  · exact (orderedIn_listedAccessors n).filter _

theorem orderedIn_sourcesAt (n : Node) : OrderedIn n (sourcesAt n) := by
  unfold sourcesAt
  split
  · exact orderedIn_fieldSources n
  · exact orderedIn_fieldSources n
  · exact orderedIn_eventSources n
  · exact .self n
  · exact .self n
  · exact .self n
  · exact orderedIn_accessorSources n
  · exact orderedIn_accessorSources n
  · exact .nil n

theorem orderedIn_groupsAt (n : Node) : OrderedIn n (groupsAt n) := by
  unfold groupsAt
  split
  · exact .self n
  · exact .nil n

theorem within_of_mem_parameters {s c : Node} {sources : Node × Node → List Node}
    (hsources : ∀ param, ∀ x ∈ sources param, x = param.1)
    (h : c ∈ (s.childOfKind? .parameterList).toList.flatMap fun list =>
      (primaryParameters list).flatMap sources) : c.Within s := by
  obtain ⟨list, hlist, h⟩ := List.mem_flatMap.mp h
  obtain ⟨param, hparam, hc⟩ := List.mem_flatMap.mp h
  rw [hsources param c hc]
  have hchild := Node.mem_children_of_childOfKind? (Option.mem_toList.mp hlist)
  exact within_of_mem_primaryParameters (Node.within_of_mem hchild) hparam

theorem within_of_mem_body {s c : Node} {sources : Node → List Node}
    (hsources : ∀ n, ∀ x ∈ sources n, x.Within n)
    (h : c ∈ (s.child? .body).toList.flatMap fun body =>
      (memberNodes body).flatMap sources) : c.Within s := by
  obtain ⟨body, hbody, h⟩ := List.mem_flatMap.mp h
  obtain ⟨n, hn, hc⟩ := List.mem_flatMap.mp h
  exact (hsources n c hc).trans ((Node.within_of_mem_memberNodes hn).trans
    (Node.below_of_child? (Option.mem_toList.mp hbody)).within)

/-- The node of a target is within the struct. -/
theorem within_of_targetNode? {s t : Node} {target : SuggestionTarget}
    (h : targetNode? s target = some t) : t.Within s := by
  cases target with
  | struct =>
    cases h
    exact Node.within_refl s
  | group id =>
    rcases List.mem_append.mp (List.mem_of_getElem? h) with h | h
    · refine within_of_mem_parameters (fun param x hx => ?_) h
      split at hx
      · exact List.mem_singleton.mp hx
      · cases hx
    · exact within_of_mem_body (fun n => (orderedIn_groupsAt n).within) h
  | member id =>
    rcases List.mem_append.mp (List.mem_of_getElem? h) with h | h
    · refine within_of_mem_parameters (fun param x hx => ?_) h
      split at hx
      · simpa using hx
      · exact List.mem_singleton.mp hx
    · exact within_of_mem_body (fun n => (orderedIn_sourcesAt n).within) h

/-! ## What a struct adds to its header -/

theorem GrowsBy.foldl {α : Type} {f : StructDecl → α → StructDecl} {l : List α}
    {memberNodes groupNodes : α → List Node}
    (h : ∀ a ∈ l, ∀ d, ∃ ms gs, GrowsBy d (f d a) ms gs (memberNodes a) (groupNodes a))
    (d : StructDecl) :
    ∃ ms gs, GrowsBy d (l.foldl f d) ms gs (l.flatMap memberNodes) (l.flatMap groupNodes) := by
  induction l generalizing d with
  | nil => exact ⟨[], [], .nothing rfl rfl⟩
  | cons a l ih =>
    obtain ⟨ms, gs, hfirst⟩ := h a List.mem_cons_self d
    obtain ⟨ms', gs', hrest⟩ := ih (fun b hb => h b (List.mem_cons_of_mem a hb)) (f d a)
    rw [List.flatMap_cons, List.flatMap_cons]
    exact ⟨ms ++ ms', gs ++ gs', hfirst.trans hrest⟩

theorem name_mem_of_primaryParameters {list : Node} {param : Node × Node}
    (h : param ∈ primaryParameters list) : param.2 ∈ param.1.children := by
  obtain ⟨node, -, hparam⟩ := List.mem_filterMap.mp h
  obtain ⟨name, hname, rfl⟩ := Option.map_eq_some_iff.mp hparam
  exact Node.mem_children_of_child? hname

/-- A parameter is reported at its name. It stands for members without bodies, which are not
marked. -/
theorem placedIn_parameter {list : Node} {param : Node × Node}
    (h : param ∈ primaryParameters list) (markable : Bool) :
    PlacedIn param.1 (some param.2.span) markable param.1.span.start where
  shown := by
    rintro _ ⟨⟩
    exact ⟨param.2, Node.within_of_mem (name_mem_of_primaryParameters h), rfl⟩
  marked := fun _ => (Node.within_refl param.1).startsAt

theorem growsBy_withConstructor (types : TypeTable) (generics : Bindings TypeCategory) (n : Node) :
    ∃ ms gs, GrowsBy (header n) (withConstructor types generics n) ms gs
      ((n.childOfKind? .parameterList).toList.flatMap fun list =>
        (primaryParameters list).flatMap fun param =>
          if n.kind = .recordDeclaration then [param.1, param.1] else [param.1])
      ((n.childOfKind? .parameterList).toList.flatMap fun list =>
        (primaryParameters list).flatMap fun param =>
          if n.kind = .recordDeclaration then [param.1] else []) := by
  unfold withConstructor
  cases n.childOfKind? .parameterList with
  | none => exact ⟨[], [], .nothing rfl rfl⟩
  | some list =>
    rw [Option.toList_some, List.flatMap_singleton, List.flatMap_singleton]
    have hrecord : (header n).isRecord = decide (n.kind = .recordDeclaration) := rfl
    dsimp only
    rw [hrecord]
    by_cases hkind : n.kind = .recordDeclaration
    · simp only [hkind, decide_true, if_true]
      refine GrowsBy.foldl (fun param hparam d => ?_) (header n)
      refine ⟨_, _, .addAccessors d _ _ (placedIn_parameter hparam true) ?_⟩
      exact .cons (placedIn_parameter hparam _) (.cons (placedIn_parameter hparam _) .nil)
    · simp only [hkind, decide_false, if_false, Bool.false_eq_true]
      refine GrowsBy.foldl (fun param hparam d => ?_) (header n)
      exact ⟨_, _, .pushMember d (placedIn_parameter hparam _)⟩

/-- The members, properties and indexers of a struct are read at their nodes. -/
theorem readAt_ofNode (types : TypeTable) (n : Node) :
    List.Forall₂ MemberReadAt (ofNode types n).members.toList (memberSources n) ∧
      List.Forall₂ GroupReadAt (ofNode types n).groups.toList (groupSources n) := by
  obtain ⟨ms, gs, hstart⟩ := growsBy_withConstructor types (genericCategories n) n
  have hall : ∃ ms gs, GrowsBy (header n) (ofNode types n) ms gs (memberSources n)
      (groupSources n) := by
    rw [ofNode_eq]
    unfold memberSources groupSources
    cases n.child? .body with
    | none =>
      rw [Option.toList_none, List.flatMap_nil, List.flatMap_nil, List.append_nil, List.append_nil]
      exact ⟨ms, gs, hstart⟩
    | some body =>
      rw [Option.toList_some, List.flatMap_singleton, List.flatMap_singleton]
      obtain ⟨ms', gs', hbody⟩ := GrowsBy.foldl (l := memberNodes body)
        (fun c _ d => (growsBy_addMember types (genericCategories n) d c).imp fun _ h =>
          h.imp fun _ h => h.1) (withConstructor types (genericCategories n) n)
      exact ⟨_, _, hstart.trans hbody⟩
  obtain ⟨ms, gs, hgrows⟩ := hall
  -- the header has neither members nor groups
  rw [hgrows.members, hgrows.groups]
  exact ⟨hgrows.membersAt, hgrows.groupsAt⟩

end StructDecl

end ReadonlyLint
