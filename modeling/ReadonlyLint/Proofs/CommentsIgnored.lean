import ReadonlyLint.Proofs.Bodies
import ReadonlyLint.Proofs.Comments
import ReadonlyLint.Proofs.DeclaredTypes

/-!
Files without their comments. The file is read from the tree and from the tree without comments side
by side: with idle comments the same declarations come out, only that the bodies lack their
comments, and no rule for code tells those apart. So idle comments change neither what a member
shows nor the report. A comment that is not idle can hide a write.
-/
namespace ReadonlyLint

namespace Node

/-! ## Types -/

section Types

variable {n : Node} (h : n.Idle)
include h

theorem Idle.follows : Follows stripComments n := follows_stripComments h.plain

theorem Idle.simpleName? : n.stripComments.simpleName? = n.simpleName? := by
  refine simpleName?_of_follows h.follows fun c hc hk => ?_
  refine namedChildren_head?_stripComments fun x hx => ?_
  exact h.header c hc x (by simpa [countedInHeader, hk] using hx)

theorem Idle.declaredType? : n.stripComments.declaredType? = n.declaredType? := by
  have hcategory : n.stripComments.declaredCategory? = n.declaredCategory? := by
    unfold declaredCategory? isRecordStruct
    rw [kind_stripComments, hasChildOfKind_map h.follows (by decide) (by decide)]
  unfold Node.declaredType?
  rw [hcategory, child?_map h.follows .name (by simp)]
  rcases n.declaredCategory? with _ | category
  · rfl
  · rcases n.child? .name with _ | name
    · rfl
    · simp

/-- What a rule reads off each named child, when it reads nothing off a leaf. -/
theorem Idle.filterMap_namedChildren {α : Type} {g : Node → Option α}
    (hg : ∀ c ∈ n.namedChildren, g c.stripComments = g c)
    (hleaf : ∀ c : Node, c.children = [] → g c = none) :
    n.stripComments.namedChildren.filterMap g = n.namedChildren.filterMap g := by
  rw [namedChildren_stripComments, List.filterMap_map, List.filterMap_filter]
  refine List.filterMap_congr fun c hc => ?_
  by_cases hcom : c.isComment
  · have hplain := h.plain n (within_refl n) c (mem_children_of_namedChildren hc) hcom
    obtain ⟨-, -, -, hchildren⟩ := isPlain_iff.mp hplain
    simp [hcom, hleaf c hchildren]
  · simp [hcom, hg c hc]

end Types

end Node

namespace TypeTable

open Node

theorem categorize_stripComments (t : TypeTable) (generics : Bindings TypeCategory) {type : Node}
    (h : type.Idle) : t.categorize generics type.stripComments = t.categorize generics type := by
  induction type using below_induction with
  | step type ih =>
    have hinner : type.makesArray = false →
        ((type.stripComments.child? .type).map (t.categorize generics)).getD .unknown =
          ((type.child? .type).map (t.categorize generics)).getD .unknown := by
      intro harray
      rw [child?_map h.follows .type (by simp [harray])]
      rcases hc : type.child? .type with _ | inner
      · rfl
      · simp [ih inner (below_of_child? hc) (h.of_child? hc)]
    rw [categorize_eq, categorize_eq, kind_stripComments, text_stripComments, h.simpleName?]
    split
    all_goals first
      | rfl
      | exact hinner (by simp [makesArray, *])

end TypeTable

/-! ## Type parameters -/

section Generics

open Node

theorem constraintCategory?_stripComments (n : Node) :
    constraintCategory? n.stripComments = constraintCategory? n := by
  unfold constraintCategory?
  rw [← List.head?_filterMap, ← List.head?_filterMap, children_stripComments, List.filterMap_map,
    List.filterMap_filter]
  refine congrArg List.head? (List.filterMap_congr fun c _ => ?_)
  by_cases hc : c.isComment
  · simp [hc, kind_of_isComment hc]
  · simp [hc]

theorem clauseCategory?_stripComments {n : Node} (h : n.Idle) :
    clauseCategory? n.stripComments = clauseCategory? n := by
  have hfind : ∀ m : Node, m.namedChildren.find? (·.kind = .identifier) =
      (m.namedOfKind .identifier).head? := fun m => List.head?_filter.symm
  unfold clauseCategory?
  rw [hfind, hfind, namedOfKind_map h.follows (by decide) (by decide),
    namedOfKind_map h.follows (by decide) (by decide), List.head?_map, List.findSome?_map]
  have hconstraint : (constraintCategory? ∘ stripComments) = constraintCategory? :=
    funext constraintCategory?_stripComments
  rw [hconstraint]
  generalize (n.namedOfKind .typeParameterConstraint).findSome? constraintCategory? = category
  rcases (n.namedOfKind .identifier).head? with _ | target
  · rfl
  · rcases category with _ | category <;> simp

theorem genericCategories_stripComments {n : Node} (h : n.Idle) :
    genericCategories n.stripComments = genericCategories n := by
  have hmem : ∀ {k : Kind} {c : Node}, c ∈ n.children.filter (·.kind = k) → c.Idle :=
    fun hc => h.of_mem (List.mem_filter.mp hc).1
  unfold genericCategories
  dsimp only
  rw [filterKind_stripComments n (by decide), filterKind_stripComments n (by decide),
    List.filterMap_map, List.flatMap_map,
    List.filterMap_flatMap, List.filterMap_flatMap]
  congr 1
  · refine congrArg List.reverse (List.filterMap_congr fun clause hc => ?_)
    exact clauseCategory?_stripComments (hmem hc)
  · refine congrArg (fun l => (List.map _ l).reverse) (List.flatMap_congr fun list hl => ?_)
    refine (hmem hl).filterMap_namedChildren (fun param hp => ?_) fun c hc => ?_
    · have hparam := (hmem hl).of_mem (mem_children_of_namedChildren hp)
      rw [child?_map hparam.follows .name (by simp)]
      rcases param.child? .name with _ | name
      · rfl
      · simp
    · simp [child?, hc]

end Generics

/-! ## Parts of members -/

section Parts

open Node

variable {n : Node} (h : n.Idle)
include h

theorem modifiers_stripComments : Modifiers.ofNode n.stripComments = Modifiers.ofNode n :=
  congrArg Modifiers.ofTexts (modifierTexts_map h.follows)

theorem parameters_stripComments :
    Parameter.ofList? (n.stripComments.child? .parameters) =
      Parameter.ofList? (n.child? .parameters) := by
  rw [child?_map h.follows .parameters (by simp)]
  rcases hc : n.child? .parameters with _ | list
  · rfl
  · exact parameter_ofList_map (h.of_child? hc).follows

theorem ofType?_stripComments {fld : Field} (hfld : n.makesArray → fld ≠ .type) :
    ReturnMode.ofType? (n.stripComments.child? fld) = ReturnMode.ofType? (n.child? fld) := by
  rw [child?_map h.follows fld hfld]
  rcases hc : n.child? fld with _ | type
  · rfl
  · exact ofType_map (h.of_child? hc).follows

theorem typeInfo_stripComments (types : TypeTable) (generics : Bindings TypeCategory)
    (harray : n.makesArray = false) :
    StructDecl.typeInfo types generics (n.stripComments.child? .type) =
      StructDecl.typeInfo types generics (n.child? .type) := by
  rw [child?_map h.follows .type (by simp [harray])]
  rcases hc : n.child? .type with _ | type
  · rfl
  · simp [StructDecl.typeInfo, types.categorize_stripComments generics (h.of_child? hc)]

theorem explicitInterface?_stripComments :
    explicitInterface? n.stripComments = explicitInterface? n := by
  unfold explicitInterface?
  rw [childOfKind?_stripComments n (by decide)]
  rcases hc : n.childOfKind? .explicitInterfaceSpecifier with _ | specifier
  · rfl
  · have hk : specifier.kind = .explicitInterfaceSpecifier := by simpa using List.find?_some hc
    have hin := within_of_mem (mem_children_of_childOfKind? hc)
    have hhead := namedChildren_head?_stripComments (n := specifier) fun x hx =>
      h.header specifier hin x (by simpa [countedInHeader, hk] using hx)
    simp only [Option.map_some, Option.bind_eq_bind, Option.bind_some, hhead]
    rcases specifier.namedChildren.head? with _ | target
    · rfl
    · simp

omit h in
theorem leading?_stripComments (hlead : ∀ x ∈ n.leading?, x.isComment = false) :
    n.stripComments.leading? = n.leading?.map stripComments := by
  let leads (c : Node) : Bool := c.kind ≠ .attributeList && c.kind ≠ .modifier
  have hfind : ∀ m : Node, m.leading? = (m.children.filter leads).head? :=
    fun m => List.head?_filter.symm
  have hcomp : (leads ∘ stripComments) = leads := funext fun c => by
    simp only [leads, Function.comp, kind_stripComments]
  rw [hfind] at hlead
  rw [hfind, hfind, children_stripComments, List.filter_map, hcomp, List.head?_map,
    ← head?_filter_idle hlead, List.filter_filter, List.filter_filter]
  refine congrArg (fun l => Option.map _ (List.head? l)) (List.filter_congr fun c _ => ?_)
  exact Bool.and_comm _ _

omit h in
theorem memberFixOffset_eq (type : Option Node) :
    memberFixOffset n type =
      (((((n.children.reverse.find? (·.kind = .modifier)).filter (·.text = "partial")).or
        type).or n.leading?).getD n).span.start := by
  unfold memberFixOffset leading?
  generalize (n.children.reverse.find? (·.kind = .modifier)).filter _ = modifier
  generalize n.children.find? _ = first
  rcases modifier with _ | modifier
  · rcases type with _ | type
    · rcases first with _ | first <;> rfl
    · rfl
  · rfl

omit h in
/-- A member is marked at the same place, when no comment stands first in a member that lacks its
type. -/
theorem memberFixOffset_stripComments {type : Option Node}
    (hlead : type = none → ∀ x ∈ n.leading?, x.isComment = false) :
    memberFixOffset n.stripComments (type.map stripComments) = memberFixOffset n type := by
  have hmodifier : (n.stripComments.children.reverse.find? (·.kind = .modifier)).filter
        (·.text = "partial") =
      ((n.children.reverse.find? (·.kind = .modifier)).filter (·.text = "partial")).map
        stripComments := by
    rw [← List.head?_filter, ← List.head?_filter, List.filter_reverse, List.filter_reverse,
      filterKind_stripComments n (by decide), ← List.map_reverse, List.head?_map]
    generalize (n.children.filter (·.kind = .modifier)).reverse.head? = modifier
    rcases modifier with _ | modifier
    · rfl
    · by_cases hm : modifier.text = "partial" <;> simp [Option.filter_some, hm]
  rw [memberFixOffset_eq, memberFixOffset_eq, hmodifier, ← Option.map_or]
  generalize (n.children.reverse.find? (·.kind = .modifier)).filter _ = modifier
  rcases hplace : modifier.or type with _ | place
  · -- neither `partial` nor a type: the mark goes before what stands first
    have htype : type = none := (Option.or_eq_none_iff.mp hplace).2
    rw [leading?_stripComments (hlead htype)]
    rcases n.leading? with _ | first <;> simp
  · simp

omit h in
theorem structFixOffset_stripComments : structFixOffset n.stripComments = structFixOffset n := by
  have hfind : ∀ {p : Node → Bool}, (∀ c : Node, p c.stripComments = p c) →
      (∀ c : Node, c.kind = .comment → p c = false) →
      n.stripComments.children.find? p = (n.children.find? p).map stripComments := by
    intro p hp hcomment
    exact find?_stripComments hp fun c _ hc => hcomment c (kind_of_isComment hc)
  unfold structFixOffset
  dsimp only
  rw [childOfKind?_stripComments n (by decide), hfind (by simp) (by simp +contextual),
    hfind (by simp) (by simp +contextual), ← Option.map_or, ← Option.map_or]
  generalize (n.childOfKind? .refToken).or _ = place
  rcases place with _ | place <;> simp

end Parts

namespace StructDecl

open Node

/-! ## Two declarations side by side -/

/-- The second declaration is the first with its bodies stripped, and no rule for code tells the
bodies apart. -/
structure Strips (d d' : StructDecl) : Prop where
  eq : d' = d.mapBodies stripComments
  carried : d.Carried stripComments

theorem Strips.size_members {d d' : StructDecl} (h : Strips d d') :
    d'.members.size = d.members.size := by
  rw [h.eq]
  exact Array.size_map

theorem Strips.pushMember {d d' : StructDecl} (h : Strips d d') {m m' : Member}
    (hm : m' = m.mapBody stripComments) (hbody : ∀ body ∈ m.body, Carries stripComments body) :
    Strips (d.pushMember m) (d'.pushMember m') := by
  obtain ⟨rfl, hcarried⟩ := h
  subst hm
  refine ⟨pushMember_mapBodies stripComments d m, fun x hx body hb => ?_⟩
  rcases Array.mem_push.mp hx with hx | rfl
  · exact hcarried x hx body hb
  · exact hbody body hb

theorem Strips.pushGroup {d d' : StructDecl} (h : Strips d d') (g : PropertyGroup) :
    Strips (d.pushGroup g) (d'.pushGroup g) := by
  obtain ⟨rfl, hcarried⟩ := h
  refine ⟨pushGroup_mapBodies stripComments d g, ?_⟩
  unfold StructDecl.pushGroup addSymbol
  split <;> exact hcarried

theorem Strips.pushEvent {d d' : StructDecl} (h : Strips d d') (e : CustomEvent) :
    Strips (d.pushEvent e) (d'.pushEvent e) := by
  obtain ⟨rfl, hcarried⟩ := h
  refine ⟨pushEvent_mapBodies stripComments d e, ?_⟩
  unfold StructDecl.pushEvent addSymbol
  exact hcarried

theorem Strips.markErrors {d d' : StructDecl} (h : Strips d d') :
    Strips { d with hasBodyErrors := true } { d' with hasBodyErrors := true } := by
  obtain ⟨rfl, hcarried⟩ := h
  exact ⟨rfl, hcarried⟩

/-- Members without a body are added alike. -/
theorem Strips.pushBodyless {d d' : StructDecl} (h : Strips d d') {m : Member}
    (hm : m.body = none) : Strips (d.pushMember m) (d'.pushMember m) := by
  refine h.pushMember ?_ ?_
  · unfold Member.mapBody
    rw [hm, Option.map_none, ← hm]
  · intro body hbody
    rw [hm] at hbody
    cases hbody

/-! ## Accessors -/

/-- The accessor with its body stripped. -/
def AccessorSpec.strip (s : AccessorSpec) : AccessorSpec :=
  { s with body := s.body.map stripComments }

/-- No comment counts in the body of the accessor. -/
def AccessorSpec.Idle (s : AccessorSpec) : Prop :=
  ∀ body ∈ s.body, body.PlainComments ∧ body.IdleCode

theorem AccessorSpec.synthesized_strip (s : AccessorSpec) :
    s.strip.synthesized = s.synthesized := by
  unfold AccessorSpec.synthesized AccessorSpec.strip
  cases s.body <;> rfl

theorem AccessorSpec.toMember_strip (s : AccessorSpec) (id : Nat) (g : PropertyGroup)
    (parameters : List Parameter) (returns : ReturnMode) :
    s.strip.toMember id g parameters returns =
      (s.toMember id g parameters returns).mapBody stripComments := by
  unfold AccessorSpec.toMember
  rw [synthesized_strip]
  rfl

theorem AccessorSpec.writesBacking_strip {s : AccessorSpec} (h : s.Idle) :
    s.strip.writesBacking = s.writesBacking := by
  unfold AccessorSpec.writesBacking AccessorSpec.strip
  rcases hb : s.body with _ | body
  · rfl
  · obtain ⟨hplain, hcode⟩ := h body hb
    simp only [Option.map_some, writesBackingField_stripComments hplain hcode]

theorem Strips.addAccessors {d d' : StructDecl} (h : Strips d d') (g : PropertyGroup)
    (parameters : List Parameter) (returns : ReturnMode) {specs : List AccessorSpec}
    (hs : ∀ s ∈ specs, s.Idle) :
    Strips (d.addAccessors g parameters returns specs)
      (d'.addAccessors g parameters returns (specs.map (·.strip))) := by
  have hgroups : d'.groups = d.groups := by rw [h.eq]; rfl
  have hsynthesized : (specs.map (·.strip)).any (·.synthesized) = specs.any (·.synthesized) := by
    rw [List.any_map]
    exact congrArg specs.any (funext AccessorSpec.synthesized_strip)
  have hwrites : (specs.map (·.strip)).any (·.writesBacking) = specs.any (·.writesBacking) := by
    rw [List.any_map, Bool.eq_iff_iff, List.any_eq_true, List.any_eq_true]
    refine exists_congr fun s => and_congr_right fun hmem => ?_
    rw [Function.comp, AccessorSpec.writesBacking_strip (hs s hmem)]
  unfold StructDecl.addAccessors
  dsimp only
  rw [hgroups, h.size_members, hsynthesized, hwrites, List.length_map, List.foldl_map]
  -- the accessors are added side by side, one after the other
  refine List.foldl_rel (h.pushGroup _) fun s hmem e e' he => ?_
  refine he.pushMember (s.toMember_strip _ _ _ _) fun body hb => ?_
  obtain ⟨hplain, hcode⟩ := hs s hmem body hb
  exact carries_stripComments hplain hcode

theorem accessorSpec?_stripComments {n : Node} (h : n.Idle) (keyword : Node) :
    accessorSpec? n.stripComments keyword.stripComments =
      (accessorSpec? n keyword).map (·.strip) := by
  unfold accessorSpec?
  rw [kind_stripComments, modifiers_stripComments h, child?_map h.follows .body (by simp),
    span_stripComments, hasError_stripComments]
  rcases AccessorRole.ofKind? keyword.kind with _ | role <;> rfl

theorem idle_accessorSpec? {n keyword : Node} (h : n.Idle) (hk : n.kind = .accessorDeclaration)
    {s : AccessorSpec} (hs : accessorSpec? n keyword = some s) : s.Idle := by
  intro body hbody
  have hchild : n.child? .body = some body := by
    unfold accessorSpec? at hs
    rcases hr : AccessorRole.ofKind? keyword.kind with _ | role
    · simp [hr] at hs
    · simp only [hr, Option.bind_eq_bind, Option.bind_some, Option.some.injEq] at hs
      subst hs
      exact hbody
  refine ⟨(h.of_child? hchild).plain, h.code n (within_refl n) body ?_⟩
  simp [memberBody?, hk, hchild]

theorem writtenSpecs_stripComments {list : Node} (h : list.Idle) :
    writtenSpecs list.stripComments = (writtenSpecs list).map (·.strip) := by
  unfold writtenSpecs
  rw [namedOfKind_map h.follows (by decide) (by decide), List.filterMap_map, List.map_filterMap]
  refine List.filterMap_congr fun accessor ha => ?_
  have hidle := h.of_mem (mem_children_of_namedOfKind ha)
  rw [Function.comp, child?_map hidle.follows .name (by simp)]
  rcases accessor.child? .name with _ | keyword
  · rfl
  · exact accessorSpec?_stripComments hidle keyword

theorem idle_writtenSpecs {list : Node} (h : list.Idle) : ∀ s ∈ writtenSpecs list, s.Idle := by
  intro s hs
  obtain ⟨accessor, ha, hspec⟩ := List.mem_filterMap.mp hs
  obtain ⟨keyword, -, hspec⟩ := Option.bind_eq_some_iff.mp hspec
  exact idle_accessorSpec? (h.of_mem (mem_children_of_namedOfKind ha))
    (kind_of_mem_namedOfKind ha) hspec

/-- The kinds of member whose type is in the field `type`. -/
def isTyped (n : Node) : Prop :=
  n.kind = .propertyDeclaration ∨ n.kind = .indexerDeclaration ∨ n.kind = .operatorDeclaration ∨
    n.kind = .conversionOperatorDeclaration

theorem typed_fixOffset_stripComments {n : Node} (h : n.Idle) (hk : isTyped n) :
    memberFixOffset n.stripComments (n.stripComments.child? .type) =
      memberFixOffset n (n.child? .type) := by
  have harray : n.makesArray = false := by
    rcases hk with hk | hk | hk | hk <;> simp [makesArray, hk]
  rw [child?_map h.follows .type (by simp [harray])]
  refine memberFixOffset_stripComments fun htype x hx => ?_
  refine h.header n (within_refl n) x ?_
  rcases hk with hk | hk | hk | hk <;> simpa [countedInHeader, hk, htype] using hx

theorem groupHeader_stripComments {n : Node} (h : n.Idle) (hk : isTyped n) (kind : GroupKind) :
    groupHeader n.stripComments kind = groupHeader n kind := by
  unfold groupHeader
  dsimp only
  rw [childOfKind?_stripComments n (by decide), child?_map h.follows .name (by simp),
    modifiers_stripComments h, explicitInterface?_stripComments h,
    typed_fixOffset_stripComments h hk, hasError_stripComments]
  by_cases hkind : kind = .indexer
  · simp only [hkind, if_true]
    rcases n.childOfKind? .thisToken with _ | name <;> simp
  · simp only [hkind, if_false]
    rcases n.child? .name with _ | name <;> simp

theorem Strips.addGroup {d d' : StructDecl} (h : Strips d d') {n : Node} (hn : n.Idle)
    (hk : n.kind = .propertyDeclaration ∨ n.kind = .indexerDeclaration) (kind : GroupKind) :
    Strips (d.addGroup n kind) (d'.addGroup n.stripComments kind) := by
  have htyped : isTyped n := by
    rcases hk with hk | hk
    · exact Or.inl hk
    · exact Or.inr (Or.inl hk)
  have harray : n.makesArray = false := by
    rcases hk with hk | hk <;> simp [makesArray, hk]
  have hvalue : (n.stripComments.child? .value).filter (·.kind = .arrowExpressionClause) =
      ((n.child? .value).filter (·.kind = .arrowExpressionClause)).map stripComments := by
    rw [child?_map hn.follows .value (by simp)]
    rcases n.child? .value with _ | value
    · rfl
    · by_cases hv : value.kind = .arrowExpressionClause <;> simp [Option.filter_some, hv]
  rw [addGroup_eq, addGroup_eq]
  dsimp only
  rw [groupHeader_stripComments hn htyped, parameters_stripComments hn,
    ofType?_stripComments hn (by simp [harray]), hvalue, hasError_stripComments,
    child?_map hn.follows .accessors (by simp)]
  generalize hb : (n.child? .value).filter (·.kind = .arrowExpressionClause) = value
  rcases value with _ | body
  · rcases hl : n.child? .accessors with _ | list
    · exact h.addAccessors _ _ _ (List.forall_mem_nil _)
    · have hlist := hn.of_child? hl
      have hunreadable : ((list.stripComments.namedOfKind .accessorDeclaration).any fun accessor =>
            (accessor.child? .name).isNone) =
          (list.namedOfKind .accessorDeclaration).any fun accessor =>
            (accessor.child? .name).isNone := by
        rw [namedOfKind_map hlist.follows (by decide) (by decide), List.any_map, Bool.eq_iff_iff,
          List.any_eq_true, List.any_eq_true]
        refine exists_congr fun accessor => and_congr_right fun ha => ?_
        have hidle := hlist.of_mem (mem_children_of_namedOfKind ha)
        rw [Function.comp, child?_map hidle.follows .name (by simp), Option.isNone_map]
      simp only [Option.map_none, Option.map_some]
      rw [hunreadable, writtenSpecs_stripComments hlist]
      exact h.addAccessors _ _ _ (idle_writtenSpecs hlist)
  · -- an arrow body is the body of a single getter
    refine h.addAccessors _ _ _ fun s hs => ?_
    obtain rfl := List.mem_singleton.mp hs
    rintro _ ⟨⟩
    have hchild : n.child? .value = some body := (Option.filter_eq_some_iff.mp hb).1
    refine ⟨(hn.of_child? hchild).plain, hn.code n (within_refl n) body ?_⟩
    rcases hk with hk | hk <;> simpa [memberBody?, hk] using hb

/-! ## Other members -/

theorem Strips.addFields {d d' : StructDecl} (h : Strips d d') (types : TypeTable)
    (generics : Bindings TypeCategory) {n : Node} (hn : n.Idle) (isEvent : Bool) :
    Strips (d.addFields types generics n isEvent)
      (d'.addFields types generics n.stripComments isEvent) := by
  unfold StructDecl.addFields
  rw [childOfKind?_stripComments n (by decide)]
  rcases hc : n.childOfKind? .variableDeclaration with _ | declaration
  · exact h.markErrors
  · have hidle := hn.of_mem (mem_children_of_childOfKind? hc)
    have hkind : declaration.kind = .variableDeclaration := by simpa using List.find?_some hc
    have hnames : (declaration.stripComments.namedOfKind .variableDeclarator).filterMap
          (·.child? .name) =
        ((declaration.namedOfKind .variableDeclarator).filterMap (·.child? .name)).map
          stripComments := by
      rw [namedOfKind_map hidle.follows (by decide) (by decide), List.filterMap_map,
        List.map_filterMap]
      refine List.filterMap_congr fun declarator hd => ?_
      have hdeclarator := hidle.of_mem (mem_children_of_namedOfKind hd)
      exact child?_map hdeclarator.follows .name (by simp)
    simp only [Option.map_some]
    rw [hnames, List.foldl_map, modifiers_stripComments hn,
      typeInfo_stripComments hidle types generics (by simp [makesArray, hkind]),
      span_stripComments, hasError_stripComments]
    refine List.foldl_rel h fun name _ e e' he => ?_
    rw [text_stripComments, span_stripComments]
    exact he.pushBodyless rfl

theorem methodMember_stripComments {n : Node} (h : n.Idle) (kind : MemberKind) {fld : Field}
    (harray : n.makesArray = false) (name : String) (anchor : Node)
    (hoffset : memberFixOffset n.stripComments (n.stripComments.child? fld) =
      memberFixOffset n (n.child? fld)) :
    methodMember n.stripComments kind (n.stripComments.child? fld) name anchor.stripComments =
      (methodMember n kind (n.child? fld) name anchor).mapBody stripComments := by
  unfold methodMember
  rw [modifiers_stripComments h, parameters_stripComments h,
    ofType?_stripComments h (by simp [harray]), explicitInterface?_stripComments h, hoffset,
    child?_map h.follows .body (by simp), span_stripComments, hasError_stripComments]
  rfl

/-- A member that has its body in the field `body`. -/
theorem carries_body {n : Node} (h : n.Idle) (hk : n.kind = .methodDeclaration ∨
      n.kind = .operatorDeclaration ∨ n.kind = .conversionOperatorDeclaration ∨
      n.kind = .accessorDeclaration) :
    ∀ body ∈ n.child? .body, Carries stripComments body := by
  intro body hbody
  refine carries_stripComments (h.of_child? hbody).plain (h.code n (within_refl n) body ?_)
  rcases hk with hk | hk | hk | hk <;> simpa [memberBody?, hk] using hbody

theorem Strips.addMethod {d d' : StructDecl} (h : Strips d d') {n : Node} (hn : n.Idle)
    (hk : n.kind = .methodDeclaration) :
    Strips (d.addMethod n) (d'.addMethod n.stripComments) := by
  have harray : n.makesArray = false := by simp [makesArray, hk]
  have hname : (n.stripComments.child? .name).getD n.stripComments =
      ((n.child? .name).getD n).stripComments := by
    rw [child?_map hn.follows .name (by simp)]
    rcases n.child? .name with _ | name <;> rfl
  have hoffset : memberFixOffset n.stripComments (n.stripComments.child? .returns) =
      memberFixOffset n (n.child? .returns) := by
    rw [child?_map hn.follows .returns (by simp)]
    refine memberFixOffset_stripComments fun htype x hx => ?_
    exact hn.header n (within_refl n) x (by simpa [countedInHeader, hk, htype] using hx)
  unfold StructDecl.addMethod
  dsimp only
  rw [hname, text_stripComments]
  exact h.pushMember (methodMember_stripComments hn _ harray _ _ hoffset)
    (carries_body hn (Or.inl hk))

theorem Strips.addOperator {d d' : StructDecl} (h : Strips d d') {n : Node} (hn : n.Idle)
    (hk : n.kind = .operatorDeclaration ∨ n.kind = .conversionOperatorDeclaration) :
    Strips (d.addOperator n) (d'.addOperator n.stripComments) := by
  have harray : n.makesArray = false := by rcases hk with hk | hk <;> simp [makesArray, hk]
  have htoken : (((n.stripComments.child? .operator).or (n.stripComments.child? .type)).getD
      n.stripComments) = (((n.child? .operator).or (n.child? .type)).getD n).stripComments := by
    rw [child?_map hn.follows .operator (by simp), child?_map hn.follows .type (by simp [harray]),
      ← Option.map_or]
    generalize (n.child? .operator).or (n.child? .type) = token
    rcases token with _ | token <;> rfl
  have hoffset := typed_fixOffset_stripComments hn (Or.inr (Or.inr hk))
  unfold StructDecl.addOperator
  dsimp only
  rw [htoken, text_stripComments]
  refine h.pushMember (methodMember_stripComments hn _ harray _ _ hoffset) (carries_body hn ?_)
  rcases hk with hk | hk
  · exact Or.inr (Or.inl hk)
  · exact Or.inr (Or.inr (Or.inl hk))

/-- Two declarations side by side, with the same event. -/
def StripsEvent (p p' : StructDecl × CustomEvent) : Prop := Strips p.1 p'.1 ∧ p'.2 = p.2

theorem Strips.addEventAccessor {d d' : StructDecl} (h : Strips d d') (event : CustomEvent)
    (modifiers : Modifiers) (interface : Option String) {accessor : Node} (ha : accessor.Idle)
    (hk : accessor.kind = .accessorDeclaration) :
    StripsEvent (StructDecl.addEventAccessor modifiers interface (d, event) accessor)
      (StructDecl.addEventAccessor modifiers interface (d', event) accessor.stripComments) := by
  rw [StructDecl.addEventAccessor, StructDecl.addEventAccessor,
    child?_map ha.follows .name (by simp)]
  rcases accessor.child? .name with _ | keyword
  · exact ⟨h, rfl⟩
  · simp only [Option.map_some, kind_stripComments]
    rcases eventRole? keyword.kind with _ | adds
    · exact ⟨h, rfl⟩
    · simp only
      rw [modifiers_stripComments ha, child?_map ha.follows .body (by simp), h.size_members,
        span_stripComments, hasError_stripComments]
      exact ⟨h.pushMember rfl (carries_body ha (Or.inr (Or.inr (Or.inr hk)))), rfl⟩

theorem listedAccessors_stripComments {n : Node} (h : n.Idle) :
    listedAccessors n.stripComments = (listedAccessors n).map stripComments := by
  unfold listedAccessors
  rw [child?_map h.follows .accessors (by simp)]
  rcases hl : n.child? .accessors with _ | list
  · rfl
  · exact namedOfKind_map (h.of_child? hl).follows (by decide) (by decide)

theorem mem_listedAccessors {n accessor : Node} (ha : accessor ∈ listedAccessors n) :
    accessor.Within n ∧ accessor.kind = .accessorDeclaration := by
  unfold listedAccessors at ha
  split at ha
  · rename_i list hl
    have hin := within_of_mem (mem_children_of_namedOfKind ha)
    exact ⟨hin.trans (within_of_mem (mem_children_of_child? hl)), kind_of_mem_namedOfKind ha⟩
  · cases ha

theorem Strips.addEvent {d d' : StructDecl} (h : Strips d d') {n : Node} (hn : n.Idle) :
    Strips (d.addEvent n) (d'.addEvent n.stripComments) := by
  have hfold : ∀ (modifiers : Modifiers) (interface : Option String) (event : CustomEvent),
      StripsEvent ((listedAccessors n).foldl (StructDecl.addEventAccessor modifiers interface)
          (d, event))
        ((listedAccessors n.stripComments).foldl
          (StructDecl.addEventAccessor modifiers interface) (d', event)) := by
    intro modifiers interface event
    rw [listedAccessors_stripComments hn, List.foldl_map]
    refine List.foldl_rel ⟨h, rfl⟩ ?_
    rintro accessor ha ⟨e, event⟩ ⟨e', event'⟩ ⟨he, hevent⟩
    obtain ⟨hin, hk⟩ := mem_listedAccessors ha
    cases hevent
    exact he.addEventAccessor event modifiers interface (hn.of_within hin) hk
  unfold StructDecl.addEvent
  rw [child?_map hn.follows .name (by simp)]
  rcases n.child? .name with _ | name
  · exact h.markErrors
  · simp only [Option.map_some]
    rw [modifiers_stripComments hn, explicitInterface?_stripComments hn, text_stripComments]
    have hevent := hfold (.ofNode n) (explicitInterface? n)
      { name := name.text, isStatic := (Modifiers.ofNode n).isStatic }
    unfold listedAccessors at hevent
    generalize List.foldl _ _ _ = p at hevent ⊢
    generalize List.foldl _ _ _ = p' at hevent ⊢
    obtain ⟨e, event⟩ := p
    obtain ⟨e', event'⟩ := p'
    obtain ⟨he, heq⟩ := hevent
    cases heq
    dsimp only
    split
    · exact he.pushEvent event
    · exact he

/-! ## Primary constructors -/

theorem primaryParameters_stripComments {list : Node} (h : list.Idle) :
    primaryParameters list.stripComments =
      (primaryParameters list).map fun (param, name) =>
        (param.stripComments, name.stripComments) := by
  unfold primaryParameters
  rw [namedOfKind_map h.follows (by decide) (by decide), List.filterMap_map, List.map_filterMap]
  refine List.filterMap_congr fun param hp => ?_
  have hparam := h.of_mem (mem_children_of_namedOfKind hp)
  rw [Function.comp, child?_map hparam.follows .name (by simp)]
  rcases param.child? .name with _ | name <;> rfl

theorem mem_primaryParameters {list param name : Node}
    (h : (param, name) ∈ primaryParameters list) :
    param.Within list ∧ param.kind = .parameter := by
  obtain ⟨param', hmem, hname⟩ := List.mem_filterMap.mp h
  obtain ⟨name', -, heq⟩ := Option.map_eq_some_iff.mp hname
  obtain rfl : param' = param := congrArg Prod.fst heq
  exact ⟨within_of_mem (mem_children_of_namedOfKind hmem), kind_of_mem_namedOfKind hmem⟩

theorem Strips.addConstructorStorage {d d' : StructDecl} (h : Strips d d') (types : TypeTable)
    (generics : Bindings TypeCategory) {list : Node} (hl : list.Idle) :
    Strips (d.addConstructorStorage types generics list)
      (d'.addConstructorStorage types generics list.stripComments) := by
  unfold StructDecl.addConstructorStorage
  rw [primaryParameters_stripComments hl, List.foldl_map]
  refine List.foldl_rel h ?_
  rintro ⟨param, name⟩ hp e e' he
  obtain ⟨hin, hk⟩ := mem_primaryParameters hp
  dsimp only
  rw [typeInfo_stripComments (hl.of_within hin) types generics (by simp [makesArray, hk]),
    text_stripComments, span_stripComments, span_stripComments, hasError_stripComments]
  exact he.pushBodyless rfl

theorem Strips.addPositionalProperties {d d' : StructDecl} (h : Strips d d') {list : Node}
    (hl : list.Idle) :
    Strips (d.addPositionalProperties list)
      (d'.addPositionalProperties list.stripComments) := by
  have hreadonly : d'.isReadonly = d.isReadonly := by
    rw [h.eq]
    rfl
  unfold StructDecl.addPositionalProperties
  dsimp only
  rw [primaryParameters_stripComments hl, List.foldl_map, hreadonly]
  refine List.foldl_rel h ?_
  rintro ⟨param, name⟩ hp e e' he
  obtain ⟨hin, hk⟩ := mem_primaryParameters hp
  dsimp only
  rw [ofType?_stripComments (hl.of_within hin) (by simp [makesArray, hk]), text_stripComments,
    span_stripComments, span_stripComments, hasError_stripComments]
  refine he.addAccessors _ _ _ fun s hs body hbody => ?_
  -- neither accessor has a body
  simp only [List.mem_cons, List.not_mem_nil, or_false] at hs
  rcases hs with rfl | rfl <;> cases hbody

/-! ## Declarations -/

theorem Strips.addMember {d d' : StructDecl} (h : Strips d d') (types : TypeTable)
    (generics : Bindings TypeCategory) {n : Node} (hn : n.Idle) :
    Strips (d.addMember types generics n) (d'.addMember types generics n.stripComments) := by
  unfold StructDecl.addMember
  rw [kind_stripComments, missing_stripComments]
  split
  · exact h.addFields types generics hn false
  · exact h.addFields types generics hn true
  · exact h.addEvent hn
  · exact h.addMethod hn ‹_›
  · exact h.addOperator hn (Or.inl ‹_›)
  · exact h.addOperator hn (Or.inr ‹_›)
  · exact h.addGroup hn (Or.inl ‹_›) .property
  · exact h.addGroup hn (Or.inr ‹_›) .indexer
  · exact h.markErrors
  · split
    · exact h.markErrors
    · exact h

theorem memberNodes_stripComments (n : Node) :
    memberNodes n.stripComments = ((memberNodes n).filter (!·.isComment)).map stripComments := by
  induction n using below_induction with
  | step n ih =>
    have hcomment : ∀ c ∈ n.children, (!c.isComment) = false →
        ((membersAt c).filter (!·.isComment)).map stripComments = [] := by
      intro c _ hc
      have hc : c.isComment := by simpa using hc
      simp only [membersAt, kind_of_isComment hc]
      split <;> simp [hc]
    rw [memberNodes_eq, memberNodes_eq, children_stripComments, List.flatMap_map,
      List.filter_flatMap, List.map_flatMap, ← flatMap_filter_of_nil hcomment]
    refine List.flatMap_congr fun c hc => ?_
    obtain ⟨hmem, hc⟩ := List.mem_filter.mp hc
    unfold membersAt
    rw [kind_stripComments, named_stripComments, missing_stripComments]
    split
    · exact ih c (below_of_mem hmem)
    · split <;> simp [hc]

theorem Strips.addMembers {d d' : StructDecl} (h : Strips d d') (types : TypeTable)
    (generics : Bindings TypeCategory) {body : Node} (hb : body.Idle) :
    Strips ((memberNodes body).foldl (StructDecl.addMember types generics) d)
      ((memberNodes body.stripComments).foldl (StructDecl.addMember types generics) d') := by
  rw [memberNodes_stripComments, List.foldl_map, List.foldl_filter]
  refine List.foldl_rel h fun n hn e e' he => ?_
  obtain ⟨parent, hin, hmem⟩ := exists_parent_of_mem_memberNodes hn
  by_cases hc : n.isComment
  · -- a comment adds nothing
    obtain ⟨-, hmissing, -⟩ := isPlain_iff.mp (hb.plain parent hin n hmem hc)
    simpa [hc, StructDecl.addMember, kind_of_isComment hc, hmissing] using he
  · simpa [hc] using he.addMember types generics (hb.of_within ((within_of_mem hmem).trans hin))

theorem header_stripComments {n : Node} (h : n.Idle) :
    header n.stripComments = header n := by
  have herrors : (n.stripComments.children.any fun c => c.kind = .error || c.missing) =
      n.children.any fun c => c.kind = .error || c.missing := by
    rw [children_stripComments, List.any_map, List.any_filter, Bool.eq_iff_iff, List.any_eq_true,
      List.any_eq_true]
    refine exists_congr fun c => and_congr_right fun hmem => ?_
    by_cases hc : c.isComment
    · obtain ⟨-, hmissing, -⟩ := isPlain_iff.mp (h.plain n (within_refl n) c hmem hc)
      simp [hc, kind_of_isComment hc, hmissing]
    · simp [hc]
  unfold header
  rw [herrors, child?_map h.follows .name (by simp), modifiers_stripComments h,
    structFixOffset_stripComments, kind_stripComments]
  rcases n.child? .name with _ | name <;> simp

theorem strips_withConstructor (types : TypeTable) (generics : Bindings TypeCategory) {n : Node}
    (h : n.Idle) :
    Strips (withConstructor types generics n) (withConstructor types generics n.stripComments) := by
  have hheader : Strips (header n) (header n) :=
    ⟨by simp [mapBodies, header], fun m hm => by simp [header] at hm⟩
  unfold withConstructor
  rw [header_stripComments h, childOfKind?_stripComments n (by decide)]
  rcases hl : n.childOfKind? .parameterList with _ | list
  · exact hheader
  · have hlist := h.of_mem (mem_children_of_childOfKind? hl)
    simp only [Option.map_some]
    split
    · exact hheader.addPositionalProperties hlist
    · exact hheader.addConstructorStorage types generics hlist

theorem strips_ofNode (types : TypeTable) {n : Node} (h : n.Idle) :
    Strips (ofNode types n) (ofNode types n.stripComments) := by
  rw [ofNode_eq, ofNode_eq, genericCategories_stripComments h,
    child?_map h.follows .body (by simp)]
  have hstart := strips_withConstructor types (genericCategories n) h
  rcases hb : n.child? .body with _ | body
  · exact hstart
  · exact hstart.addMembers types _ (h.of_child? hb)

section File

variable {root : Node} (h : root.Idle)
include h

theorem outline_stripComments :
    root.stripComments.outline.filter (!·.isComment) =
      (root.outline.filter (!·.isComment)).map stripComments :=
  reach_stripComments (fun c => by simp [isBody]) h.plain

theorem idle_of_mem_outline {n : Node} (hn : n ∈ root.outline.filter (!·.isComment)) : n.Idle :=
  h.of_within (within_of_mem_reach (List.mem_filter.mp hn).1)

theorem typeTable_stripComments : TypeTable.ofTree root.stripComments = TypeTable.ofTree root := by
  have hskip : ∀ l : List Node, l.filterMap (·.declaredType?) =
      (l.filter (!·.isComment)).filterMap (·.declaredType?) := by
    intro l
    rw [List.filterMap_filter]
    refine List.filterMap_congr fun c _ => ?_
    by_cases hc : c.isComment
    · simp [hc, declaredType?, declaredCategory?, kind_of_isComment hc]
    · simp [hc]
  have htypes : root.stripComments.outline.filterMap (·.declaredType?) =
      root.outline.filterMap (·.declaredType?) := by
    rw [hskip root.stripComments.outline, hskip root.outline, outline_stripComments h,
      List.filterMap_map]
    exact List.filterMap_congr fun c hc => (idle_of_mem_outline h hc).declaredType?
  unfold TypeTable.ofTree
  rw [htypes]

theorem structs_stripComments :
    root.stripComments.outline.filter (·.isStruct) =
      (root.outline.filter (·.isStruct)).map stripComments := by
  have hskip : ∀ l : List Node, l.filter (·.isStruct) =
      (l.filter (!·.isComment)).filter (·.isStruct) := by
    intro l
    rw [List.filter_filter]
    refine List.filter_congr fun c _ => ?_
    by_cases hc : c.isComment
    · simp [hc, isStruct, isRecordStruct, kind_of_isComment hc]
    · simp [hc]
  rw [hskip root.stripComments.outline, hskip root.outline, outline_stripComments h,
    List.filter_map]
  refine congrArg (List.map _) (List.filter_congr fun c hc => ?_)
  have hfollows := (idle_of_mem_outline h hc).follows
  simp only [Function.comp, isStruct, isRecordStruct, kind_stripComments,
    hasChildOfKind_map hfollows (k := .structToken) (by decide) (by decide)]

/-- The same structs are read, side by side. -/
theorem ofTree_stripComments :
    ofTree root.stripComments = (ofTree root).map (·.mapBodies stripComments) ∧
      ∀ d ∈ ofTree root, d.Carried stripComments := by
  have hstrips : ∀ n ∈ root.outline.filter (·.isStruct),
      Strips (ofNode (TypeTable.ofTree root) n) (ofNode (TypeTable.ofTree root) n.stripComments) :=
    fun n hn => strips_ofNode _ (h.of_within (within_of_mem_reach (List.mem_filter.mp hn).1))
  constructor
  · unfold ofTree
    dsimp only
    rw [typeTable_stripComments h, structs_stripComments h, List.map_map, List.map_map]
    exact List.map_congr_left fun n hn => (hstrips n hn).eq
  · intro d hd
    obtain ⟨n, hn, rfl⟩ := List.mem_map.mp hd
    exact (hstrips n hn).carried

end File

end StructDecl

/-! ## The law -/

/-- Idle comments change nothing: without them the same structs are read, with the same members
apart from the comments in their bodies, each struct is analyzed alike, evidence, uses and verdicts
included, and gets the same suggestions, and the report on the file is the same. -/
theorem idle_comments_change_nothing {root : Node} (h : root.hasIdleComments) :
    StructDecl.ofTree root.stripComments =
        (StructDecl.ofTree root).map (·.mapBodies Node.stripComments) ∧
      (∀ d ∈ StructDecl.ofTree root,
        (d.mapBodies Node.stripComments).analyze = d.analyze ∧
          ∀ r options, (d.mapBodies Node.stripComments).suggestions r options =
            d.suggestions r options) ∧
      ∀ path options, FileReport.ofTree path root.stripComments options =
        FileReport.ofTree path root options := by
  obtain ⟨hread, hcarried⟩ := StructDecl.ofTree_stripComments (Node.idle_of_hasIdleComments h)
  refine ⟨hread, fun d hd => ⟨?_, fun r options => ?_⟩, fun path options => ?_⟩
  · exact StructDecl.analyze_mapBodies (hcarried d hd)
  · exact StructDecl.suggestions_mapBodies _ d r options
  · unfold FileReport.ofTree
    rw [hread]
    exact FileReport.addAll_mapBodies options _ hcarried

/-- The body `{ /*a*/ this.f /*b*/ ++; }`. -/
def commentedBody : Node :=
  .tree .block "\x7b /*a*/ this.f /*b*/ ++; \x7d" 27
    [.word .openBrace "\x7b" 27, .tree .comment "/*a*/" 29,
     .tree (.other "expression_statement") "this.f /*b*/ ++;" 35
      [.tree .postfixUnaryExpression "this.f /*b*/ ++" 35
        [.thisAccess "f" 35, .tree .comment "/*b*/" 42, .word .increment "++" 48],
       .word (.other ";") ";" 50],
     .word .closeBrace "\x7d" 52]

/-- Comments before a statement and inside of an increment are idle. -/
theorem comments_around_an_increment_are_idle :
    (Node.structWithBody commentedBody).hasIdleComments ∧
      StructDecl.mutatingNames (.structWithBody commentedBody) = ["M"] ∧
      FileReport.ofTree "S.cs" (Node.structWithBody commentedBody).stripComments {} =
        FileReport.ofTree "S.cs" (.structWithBody commentedBody) {} := by
  have hidle : (Node.structWithBody commentedBody).hasIdleComments := by decide +kernel
  exact ⟨hidle, by decide +kernel, (idle_comments_change_nothing hidle).2.2 "S.cs" {}⟩

/-- The body `{ int x = /*c*/ this.f++; }`. -/
def bodyWithHiddenWrite : Node :=
  .tree .block "\x7b int x = /*c*/ this.f++; \x7d" 27
    [.word .openBrace "\x7b" 27,
     .tree (.other "local_declaration_statement") "int x = /*c*/ this.f++;" 29
      [.tree .variableDeclaration "int x = /*c*/ this.f++" 29
        [.tree .predefinedType "int" 29 [] (some .type),
         .tree .variableDeclarator "x = /*c*/ this.f++" 33
          [.tree .identifier "x" 33 [] (some .name), .word .assign "=" 35,
           .tree .comment "/*c*/" 37, .thisIncrement "f" 43]],
       .word (.other ";") ";" 51],
     .word .closeBrace "\x7d" 53]

/-- A comment right after `=` hides the write in the value: without the comment the member
mutates. -/
theorem a_comment_after_the_equals_sign_hides_a_write :
    StructDecl.mutatingNames (Node.structWithBody bodyWithHiddenWrite).stripComments = ["M"] ∧
      StructDecl.mutatingNames (.structWithBody bodyWithHiddenWrite) = [] := by
  decide +kernel

end ReadonlyLint
