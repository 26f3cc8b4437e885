import ReadonlyLint.Proofs.Subtree
import ReadonlyLint.Proofs.Verdicts

/-!
Syntax errors. A member is malformed when the node at which it is written has an error: a method, an
operator and the getter of `int X => …` are written at the declaration itself, an accessor at a node
of its own. A malformed member counts as mutating, and so does whatever uses it; nothing that a
malformed method, operator, property or indexer declares is suggested.
-/
namespace ReadonlyLint

namespace StructDecl

/-! ## Where members are written -/

/-- The listed accessors with a keyword of the given kinds. -/
def accessorsWith (isKeyword : Kind → Bool) (n : Node) : List Node :=
  (listedAccessors n).filter fun accessor =>
    (accessor.child? .name).any fun keyword => isKeyword keyword.kind

/-- The nodes at which the members that a node declares are written, in their order. -/
def writtenAt (n : Node) : List Node :=
  match n.kind with
  | .methodDeclaration | .operatorDeclaration | .conversionOperatorDeclaration => [n]
  | .propertyDeclaration | .indexerDeclaration =>
    if (n.child? .value).any (·.kind = .arrowExpressionClause) then [n]
    else accessorsWith (fun k => (AccessorRole.ofKind? k).isSome) n
  | .eventDeclaration =>
    if (n.child? .name).isSome then accessorsWith (fun k => (eventRole? k).isSome) n else []
  | _ => []

/-- The members that a node of the body adds to a declaration. -/
def added (types : TypeTable) (generics : Bindings TypeCategory) (d : StructDecl) (n : Node) :
    List Member :=
  (d.addMember types generics n).members.toList.drop d.members.size

/-- In the struct that `s` declares, the node `n` of the body declares the member `m`, which is
written at the node `c`. -/
def Declares (types : TypeTable) (s n c : Node) (m : Member) : Prop :=
  ∃ body before after, s.child? .body = some body ∧ memberNodes body = before ++ n :: after ∧
    (c, m) ∈ (writtenAt n).zip (added types (genericCategories s)
      (before.foldl (addMember types (genericCategories s))
        (withConstructor types (genericCategories s) s)) n)

/-! ## What is added is written there -/

/-- The member is no field, and it is malformed when the node has an error. -/
def IsWrittenAt (c : Node) (m : Member) : Prop := m.malformed = c.hasError ∧ m.isField = false

/-- The second declaration has one member more for each of the nodes, related to it. -/
def Adds (R : Node → Member → Prop) (nodes : List Node) (d d' : StructDecl) : Prop :=
  ∃ news, d'.members.toList = d.members.toList ++ news ∧ List.Forall₂ R nodes news

section Adds

variable {R : Node → Member → Prop}

theorem adds_nil {d d' : StructDecl} (h : d'.members = d.members) : Adds R [] d d' :=
  ⟨[], by rw [h, List.append_nil], .nil⟩

theorem adds_pushMember {c : Node} {m : Member} (d : StructDecl)
    (h : R c { m with id := d.members.size }) : Adds R [c] d (d.pushMember m) :=
  ⟨_, by simp, .cons h .nil⟩

theorem Adds.trans {nodes nodes' : List Node} {d d' d'' : StructDecl} (h : Adds R nodes d d')
    (h' : Adds R nodes' d' d'') : Adds R (nodes ++ nodes') d d'' := by
  obtain ⟨news, hnews, hrel⟩ := h
  obtain ⟨news', hnews', hrel'⟩ := h'
  refine ⟨news ++ news', ?_, List.rel_append hrel hrel'⟩
  rw [hnews', hnews, List.append_assoc]

theorem Adds.imp {R' : Node → Member → Prop} (hR : ∀ c m, R c m → R' c m) {nodes : List Node}
    {d d' : StructDecl} (h : Adds R nodes d d') : Adds R' nodes d d' := by
  obtain ⟨news, hnews, hrel⟩ := h
  exact ⟨news, hnews, hrel.imp hR⟩

theorem Adds.forall₂_added {types : TypeTable} {generics : Bindings TypeCategory} {d : StructDecl}
    {n : Node} {nodes : List Node} (h : Adds R nodes d (d.addMember types generics n)) :
    List.Forall₂ R nodes (added types generics d n) := by
  obtain ⟨news, hnews, hrel⟩ := h
  rw [added, hnews, List.drop_left' Array.length_toList]
  exact hrel

end Adds

/-- Accessors are written where their parts are read from. -/
theorem adds_addAccessors (d : StructDecl) (g : PropertyGroup) (parameters : List Parameter)
    (returns : ReturnMode) {nodes : List Node} {specs : List AccessorSpec}
    (h : List.Forall₂ (fun c s => s.malformed = c.hasError) nodes specs) :
    Adds IsWrittenAt nodes d (d.addAccessors g parameters returns specs) := by
  refine ⟨_, members_addAccessors d g parameters returns specs, ?_⟩
  generalize d.members.size = place
  induction h generalizing place with
  | nil => exact .nil
  | cons hs _ ih => exact .cons ⟨hs, rfl⟩ (ih (place + 1))

theorem forall₂_writtenSpecs {list : Node} :
    List.Forall₂ (fun c (s : AccessorSpec) => s.malformed = c.hasError)
      ((list.namedOfKind .accessorDeclaration).filter fun accessor =>
        (accessor.child? .name).any fun keyword => (AccessorRole.ofKind? keyword.kind).isSome)
      (writtenSpecs list) := by
  unfold writtenSpecs
  induction list.namedOfKind .accessorDeclaration with
  | nil => exact .nil
  | cons accessor rest ih =>
    rcases hname : accessor.child? .name with _ | keyword
    · simpa [hname] using ih
    · rcases hrole : AccessorRole.ofKind? keyword.kind with _ | role
      · simpa [hname, hrole, accessorSpec?] using ih
      · simpa [hname, hrole, accessorSpec?] using ih

theorem adds_addGroup (d : StructDecl) (n : Node) (kind : GroupKind) :
    Adds IsWrittenAt (if (n.child? .value).any (·.kind = .arrowExpressionClause) then [n]
      else accessorsWith (fun k => (AccessorRole.ofKind? k).isSome) n) d (d.addGroup n kind) := by
  have harrow : (n.child? .value).any (·.kind = .arrowExpressionClause) =
      ((n.child? .value).filter (·.kind = .arrowExpressionClause)).isSome := by
    rw [Option.isSome_filter]
  rw [addGroup_eq, harrow]
  dsimp only
  generalize (n.child? .value).filter (·.kind = .arrowExpressionClause) = value
  rcases value with _ | body
  · rw [if_neg (by simp)]
    rcases hlist : n.child? .accessors with _ | list
    · have hnone : accessorsWith (fun k => (AccessorRole.ofKind? k).isSome) n = [] := by
        simp [accessorsWith, listedAccessors, hlist]
      rw [hnone]
      exact adds_addAccessors d _ _ _ .nil
    · have hsome : listedAccessors n = list.namedOfKind .accessorDeclaration := by
        simp [listedAccessors, hlist]
      unfold accessorsWith
      rw [hsome]
      exact adds_addAccessors d _ _ _ forall₂_writtenSpecs
  · rw [if_pos (by simp)]
    exact adds_addAccessors d _ _ _ (.cons rfl .nil)

/-- An accessor of an event, written at the node. -/
def IsEventAccessorAt (c : Node) (m : Member) : Prop := IsWrittenAt c m ∧ m.kind.isEventAccessor

theorem adds_addEventAccessor (modifiers : Modifiers) (interface : Option String)
    (d : StructDecl) (event : CustomEvent) (accessor : Node) :
    Adds IsEventAccessorAt ([accessor].filter fun accessor =>
        (accessor.child? .name).any fun keyword => (eventRole? keyword.kind).isSome)
      d (addEventAccessor modifiers interface (d, event) accessor).1 := by
  rw [addEventAccessor]
  rcases hname : accessor.child? .name with _ | keyword
  · simpa [hname] using adds_nil rfl
  · rcases hrole : eventRole? keyword.kind with _ | adds
    · simpa [hname, hrole] using adds_nil rfl
    · simpa [hname, hrole] using adds_pushMember d ⟨⟨rfl, rfl⟩, rfl⟩

theorem adds_addEvent (d : StructDecl) (n : Node) :
    Adds IsEventAccessorAt
      (if (n.child? .name).isSome then accessorsWith (fun k => (eventRole? k).isSome) n else [])
      d (d.addEvent n) := by
  have hfold : ∀ (modifiers : Modifiers) (interface : Option String) (l : List Node)
      (p : StructDecl × CustomEvent),
      Adds IsEventAccessorAt (l.filter fun accessor =>
          (accessor.child? .name).any fun keyword => (eventRole? keyword.kind).isSome)
        p.1 (l.foldl (addEventAccessor modifiers interface) p).1 := by
    intro modifiers interface l
    induction l with
    | nil => exact fun p => adds_nil rfl
    | cons accessor l ih =>
      intro p
      have hfirst := adds_addEventAccessor modifiers interface p.1 p.2 accessor
      rw [← List.singleton_append, List.filter_append]
      exact hfirst.trans (ih _)
  rw [addEvent_eq]
  rcases n.child? .name with _ | name
  · exact adds_nil rfl
  · rw [if_pos (by simp)]
    have hadds := hfold (.ofNode n) (explicitInterface? n) (listedAccessors n)
      (d, { name := name.text, isStatic := (Modifiers.ofNode n).isStatic })
    dsimp only
    split
    · exact hadds
    · exact hadds

/-- A node that declares methods, operators or accessors. -/
def declaresCode (n : Node) : Bool :=
  n.kind ∈ [.methodDeclaration, .operatorDeclaration, .conversionOperatorDeclaration,
    .propertyDeclaration, .indexerDeclaration, .eventDeclaration]

/-- Each member that a node declares is written at one node. -/
theorem forall₂_added (types : TypeTable) (generics : Bindings TypeCategory) (d : StructDecl)
    {n : Node} (hn : declaresCode n) :
    List.Forall₂ IsWrittenAt (writtenAt n) (added types generics d n) := by
  apply Adds.forall₂_added
  simp only [declaresCode, List.mem_cons, List.not_mem_nil, or_false, decide_eq_true_eq] at hn
  unfold writtenAt addMember
  rcases hn with hk | hk | hk | hk | hk | hk
  all_goals simp only [hk]
  · exact adds_pushMember d ⟨rfl, rfl⟩
  · exact adds_pushMember d ⟨rfl, rfl⟩
  · exact adds_pushMember d ⟨rfl, rfl⟩
  · exact adds_addGroup d n .property
  · exact adds_addGroup d n .indexer
  · exact (adds_addEvent d n).imp fun _ _ h => h.1

theorem declaresCode_of_writtenAt {n c : Node} (h : c ∈ writtenAt n) : declaresCode n := by
  unfold writtenAt at h
  split at h
  all_goals first
    | cases h; done
    | simp [declaresCode, *]

/-! ## Malformed properties and indexers -/

/-- However its accessors are written, a property or indexer with an error is malformed. -/
theorem exists_addGroup_eq (d : StructDecl) {n : Node} (hn : n.hasError = true) (kind : GroupKind) :
    ∃ g parameters returns specs, d.addGroup n kind = d.addAccessors g parameters returns specs ∧
      g.malformed = true := by
  have hheader : (groupHeader n kind).malformed = true := hn
  rw [addGroup_eq]
  dsimp only
  split
  · exact ⟨_, _, _, _, rfl, hheader⟩
  · exact ⟨_, _, _, _, rfl, by simp [hheader]⟩
  · exact ⟨_, _, _, _, rfl, rfl⟩

theorem group_of_mem_added {types : TypeTable} {generics : Bindings TypeCategory} {d : StructDecl}
    {n : Node} (hk : n.kind = .propertyDeclaration ∨ n.kind = .indexerDeclaration)
    (hn : n.hasError = true) {m : Member} (hm : m ∈ added types generics d n) :
    ∃ id g, m.kind.group? = some id ∧ (d.addMember types generics n).group? id = some g ∧
      g.malformed = true := by
  obtain ⟨kind, hkind⟩ : ∃ kind, d.addMember types generics n = d.addGroup n kind := by
    unfold addMember
    rcases hk with hk | hk
    · exact ⟨.property, by simp only [hk]⟩
    · exact ⟨.indexer, by simp only [hk]⟩
  obtain ⟨g, parameters, returns, specs, heq, hmalformed⟩ := exists_addGroup_eq d hn kind
  rw [added, hkind, heq, members_addAccessors, List.drop_left' Array.length_toList] at hm
  obtain ⟨p, -, rfl⟩ := List.mem_map.mp hm
  refine ⟨d.groups.size, d.filledGroup g specs, rfl, ?_, hmalformed⟩
  rw [hkind, heq, group?, groups_addAccessors, Array.getElem?_push_size]

/-- What an event declares is never reported. -/
theorem ofMember?_of_mem_added {types : TypeTable} {generics : Bindings TypeCategory}
    {d : StructDecl} {n : Node} (hk : n.kind = .eventDeclaration) {m : Member}
    (hm : m ∈ added types generics d n) : FindingKind.ofMember? m.kind = none := by
  have hadd : d.addMember types generics n = d.addEvent n := by simp only [addMember, hk]
  have hall := (hadd ▸ adds_addEvent d n).forall₂_added
  obtain ⟨place, hlt, rfl⟩ := List.getElem_of_mem hm
  have hevent := (hall.get (hall.length_eq ▸ hlt) hlt).2
  simp only [List.get_eq_getElem] at hevent
  generalize (added types generics d n)[place].kind = kind at hevent
  cases kind <;> first | rfl | cases hevent

/-! ## What a malformed node declares -/

section Declared

variable {types : TypeTable} {s n c : Node} {m : Member} (h : Declares types s n c m)
include h

theorem Declares.isWrittenAt : IsWrittenAt c m := by
  obtain ⟨body, before, after, -, -, hzip⟩ := h
  have hcode := declaresCode_of_writtenAt (List.of_mem_zip hzip).1
  exact (List.forall₂_iff_zip.mp (forall₂_added types _ _ hcode)).2 hzip

/-- What is added for a node stays in the struct. -/
theorem Declares.exists_extends : ∃ e : StructDecl,
    m ∈ added types (genericCategories s) e n ∧
      (e.addMember types (genericCategories s) n).Extends (ofNode types s) := by
  obtain ⟨body, before, after, hbody, hnodes, hzip⟩ := h
  refine ⟨_, (List.of_mem_zip hzip).2, ?_⟩
  rw [ofNode_eq, hbody]
  dsimp only
  rw [hnodes, List.foldl_append, List.foldl_cons]
  exact kept_foldl (P := Extends _) (fun d n hd => kept_addMember (kept_extends _) hd types _ n)
    after (extends_refl _)

theorem Declares.mem_members : m ∈ (ofNode types s).members := by
  obtain ⟨e, hm, hextends⟩ := h.exists_extends
  refine hextends.mem ?_
  rw [← Array.mem_toList_iff]
  exact List.mem_of_mem_drop hm

/-- What a malformed node declares is never to be marked: it may not be, or, as an accessor of an
event, it cannot be reported. -/
theorem Declares.not_suggested (hn : n.hasError = true) (r : Resolution) :
    (ofNode types s).isEligible r m = false ∨ FindingKind.ofMember? m.kind = none := by
  obtain ⟨hmalformed, -⟩ := h.isWrittenAt
  have hown : c = n → (ofNode types s).isEligible r m = false := by
    intro hc
    rw [hc, hn] at hmalformed
    simp [isEligible, Member.hasInspectableBody, hmalformed]
  obtain ⟨e, hm, hextends⟩ := h.exists_extends
  have hgroup : n.kind = .propertyDeclaration ∨ n.kind = .indexerDeclaration →
      (ofNode types s).isEligible r m = false := by
    intro hk
    obtain ⟨id, g, hid, hg, hbad⟩ := group_of_mem_added hk hn hm
    have hallows : (ofNode types s).groupAllows m = false := by
      simp [groupAllows, groupOf?, hid, hextends.group? hg, hbad]
    simp [isEligible, hallows]
  -- methods and operators are written at the node itself, accessors belong to a malformed group
  obtain ⟨body, before, after, -, -, hzip⟩ := h
  have hc := (List.of_mem_zip hzip).1
  have hcode := declaresCode_of_writtenAt hc
  simp only [declaresCode, List.mem_cons, List.not_mem_nil, or_false, decide_eq_true_eq] at hcode
  rcases hcode with hk | hk | hk | hk | hk | hk
  · exact Or.inl (hown (by simpa [writtenAt, hk] using hc))
  · exact Or.inl (hown (by simpa [writtenAt, hk] using hc))
  · exact Or.inl (hown (by simpa [writtenAt, hk] using hc))
  · exact Or.inl (hgroup (Or.inl hk))
  · exact Or.inl (hgroup (Or.inr hk))
  · exact Or.inr (ofMember?_of_mem_added hk hm)

end Declared

/-- A malformed member mutates. -/
theorem verdict_of_malformed {d : StructDecl} (hd : d.isReadonly = false) (hnumbered : d.Numbered)
    {m : Member} (hm : m ∈ d.members) (hfield : m.isField = false) (hstatic : m.isStatic = false)
    (hmalformed : m.malformed = true) : d.verdicts.verdict m.id = .mutating := by
  apply verdict_of_mutates hd hnumbered hm
  simp [analyzeMember, hfield, hstatic, hmalformed, unseen, LocalAnalysis.mutates]

end StructDecl

/-! ## The law -/

/-- Syntax errors poison. Let a node of the body of a struct that is not `readonly` declare a
member. If the node has an error, then no suggestion covers the member. If the node at which the
member itself is written has an error, then the member mutates, no suggestion covers it or a member
that uses it, directly or through others, and the struct as a whole is not suggested. -/
theorem a_malformed_member_poisons_what_uses_it {types : TypeTable} {s n c : Node} {m : Member}
    (hstruct : (StructDecl.ofNode types s).isReadonly = false)
    (hdeclares : StructDecl.Declares types s n c m) (hstatic : m.isStatic = false) :
    ∃ a, (StructDecl.ofNode types s).analyze.result? .never = some a ∧
      (n.hasError = true → ∀ options,
        ∀ found ∈ (StructDecl.ofNode types s).suggestions a.resolution options,
          found.covers m = false) ∧
      (c.hasError = true → a.resolution.verdict m.id = .mutating ∧ ∀ options,
        ∀ found ∈ (StructDecl.ofNode types s).suggestions a.resolution options,
          found.rule ≠ .readonlyStruct ∧
          ∀ user ∈ (StructDecl.ofNode types s).members,
            Relation.ReflTransGen (StructDecl.ofNode types s).Uses user.id m.id →
              found.covers user = false) := by
  have hnumbered :=
    StructDecl.kept_ofNode StructDecl.kept_numbered StructDecl.numbered_header types s
  have hlinked := StructDecl.kept_ofNode StructDecl.kept_linked StructDecl.linked_header types s
  have hm := hdeclares.mem_members
  obtain ⟨hmalformed, hfield⟩ := hdeclares.isWrittenAt
  refine ⟨_, StructDecl.result?_analyze_never _, ?_, ?_⟩
  · intro hn options found hfound
    by_contra hcovers
    obtain ⟨heligible, hkind⟩ :=
      StructDecl.of_covers hnumbered hlinked hfound hm (by simpa using hcovers)
    rcases hdeclares.not_suggested hn (StructDecl.ofNode types s).verdicts with hnot | hnone
    · simp [hnot] at heligible
    · simp [hnone] at hkind
  · intro hc
    have hverdict := StructDecl.verdict_of_malformed hstruct hnumbered hm hfield hstatic
      (hmalformed.trans hc)
    refine ⟨hverdict, fun options found hfound => ⟨?_, fun user huser huses => ?_⟩⟩
    · exact StructDecl.not_struct_of_mutating hfound hverdict
    · have hlt := StructDecl.lt_of_member? (hnumbered.member?_of_mem huser)
      exact StructDecl.not_covers_of_mutating hnumbered hlinked hfound huser
        (StructDecl.verdict_of_uses hlt huses hverdict)

/-- The method `void M() { ) }`. -/
def brokenMethod : Node :=
  .voidMethod "M" 11 <| .broken <| .tree .block "\x7b ) \x7d" 20
    [.word .openBrace "\x7b" 20, .broken (.tree .error ")" 22 [.word .closeParen ")" 22]),
     .word .closeBrace "\x7d" 24]

/-- The method `void N() { M(); }`. -/
def brokenCaller : Node :=
  .voidMethod "N" 26 <| .tree .block "\x7b M(); \x7d" 35
    [.word .openBrace "\x7b" 35,
     .tree (.other "expression_statement") "M();" 37
      [.tree .invocationExpression "M()" 37
        [.tree .identifier "M" 37 [] (some .function),
         { Node.noParameters 38 with kind := .other "argument_list", field := some .arguments }],
       .word (.other ";") ";" 40],
     .word .closeBrace "\x7d" 42]

/-- The file with both methods in a struct. -/
def brokenFile : Node := .structOf [brokenMethod, brokenCaller]

def brokenStruct : Node := (brokenFile.outline.filter (·.isStruct)).head!

def brokenDecl : StructDecl := .ofNode (.ofTree brokenFile) brokenStruct

/-- A call of a malformed method is not suggested, and neither is the struct. -/
theorem a_caller_of_a_broken_method_is_not_suggested :
    ∃ a, brokenDecl.analyze.result? .never = some a ∧ a.resolution.verdict 0 = .mutating ∧
      ∀ options, ∀ found ∈ brokenDecl.suggestions a.resolution options,
        found.rule ≠ .readonlyStruct ∧ found.covers brokenDecl.members[1]! = false := by
  have hdeclares : StructDecl.Declares (.ofTree brokenFile) brokenStruct brokenMethod brokenMethod
      brokenDecl.members[0]! :=
    ⟨_, [], [brokenCaller], rfl, rfl, List.mem_cons_self⟩
  obtain ⟨a, ha, -, hpoison⟩ := a_malformed_member_poisons_what_uses_it (by decide +kernel)
    hdeclares (by decide +kernel)
  obtain ⟨hverdict, hfound⟩ := hpoison rfl
  have huser : brokenDecl.members[1]! ∈ brokenDecl.members :=
    Array.getElem_mem (i := 1) (by decide +kernel)
  have huses : brokenDecl.Uses 1 0 :=
    ⟨by decide +kernel, brokenDecl.analyzeMember brokenDecl.members[1]!, rfl,
      MemberSet.mem_toList.mp (by decide +kernel)⟩
  refine ⟨a, ha, hverdict, fun options found hf => ?_⟩
  exact ⟨(hfound options found hf).1, (hfound options found hf).2 _ huser (.single huses)⟩

/-- The property `public int X { get }`, in which the accessor cannot be read. -/
def unreadableProperty : Node :=
  .broken <| .tree .propertyDeclaration "public int X \x7b get \x7d" 11
    [.tree .modifier "public" 11 [.word (.other "public") "public" 11],
     .tree .predefinedType "int" 18 [] (some .type), .tree .identifier "X" 22 [] (some .name),
     .broken <| .tree (.other "accessor_list") "\x7b get \x7d" 24
      [.word .openBrace "\x7b" 24, .broken (.tree .error "get" 26 [.word .getToken "get" 26]),
       .word .closeBrace "\x7d" 30] (some .accessors)]

def unreadableDecl : StructDecl := (StructDecl.ofTree (.structOf [unreadableProperty])).head!

/-- A malformed property that declares no accessor poisons nothing: the struct is suggested. -/
theorem an_unreadable_property_poisons_nothing :
    unreadableDecl ∈ StructDecl.ofTree (.structOf [unreadableProperty]) ∧
      unreadableProperty.hasError = true ∧ (Modifiers.ofNode unreadableProperty).isStatic = false ∧
      unreadableDecl.isReadonly = false ∧
      ∃ a, unreadableDecl.analyze.result? .never = some a ∧
        (unreadableDecl.suggestions a.resolution {}).map (·.rule) = [.readonlyStruct] := by
  have hrules : (unreadableDecl.suggestions unreadableDecl.verdicts {}).map (·.rule) =
      [.readonlyStruct] := by
    decide +kernel
  exact ⟨List.mem_cons_self, rfl, by decide +kernel, by decide +kernel, _,
    unreadableDecl.result?_analyze_never, hrules⟩

end ReadonlyLint
