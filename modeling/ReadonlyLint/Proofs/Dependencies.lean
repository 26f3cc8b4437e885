import ReadonlyLint.Proofs.Growth
import ReadonlyLint.Proofs.Representation

/-!
Which members a member can depend on. A walk uses members in four ways only: through a name that
means methods, through a name that means a property or an event, and through an indexer. Each of
them leads to members that the same instance has, so the ids that are found are ids of members, and
the call graph loses none of them.
-/
namespace ReadonlyLint

namespace StructDecl

/-! ## Members that can be used -/

/-- Code of the same instance can use the member: a method or an operator by its name, an accessor
through its property or indexer, an accessor of an event through the event. What implements an
interface explicitly has no name there; only an indexer needs none. -/
inductive Offers (d : StructDecl) (m : Member) : Prop
  | byName (kind : m.kind = .method ∨ m.kind = .operator)
      (implicit : m.explicitInterface = none)
  | byGroup (g : PropertyGroup) (owner : d.groupOf? m = some g) (ofInstance : g.isStatic = false)
      (implicit : g.isIndexer = true ∨ g.explicitInterface = none)
  | byEvent (e : CustomEvent) (mem : e ∈ d.events) (ofInstance : e.isStatic = false) (adds : Bool)
      (accessor : e.accessor? adds = some m.id) (kind : m.kind = .eventAccessor adds)
      (implicit : m.explicitInterface = none)

/-- The id is that of a member, which is no field, that code of the same instance can use. -/
def MayBeUsed (d : StructDecl) (id : Nat) : Prop :=
  id < d.members.size ∧ ∃ m, d.member? id = some m ∧ m.isField = false ∧ d.Offers m

theorem mayBeUsed_of_named {d : StructDecl} (hnumbered : d.Numbered) {m : Member}
    (hm : m ∈ d.members) (hnamed : m.isNamed = true) (hfield : m.isField = false) :
    d.MayBeUsed m.id := by
  have hmember := hnumbered.member?_of_mem hm
  unfold Member.isNamed at hnamed
  simp only [Bool.and_eq_true, Option.isNone_iff_eq_none, Bool.not_eq_true'] at hnamed
  obtain ⟨⟨himplicit, hgroup⟩, hevent⟩ := hnamed
  refine ⟨lt_of_member? hmember, m, hmember, hfield, .byName ?_ himplicit⟩
  cases hkind : m.kind with
  | field info => simp [Member.isField, Member.field?, MemberKind.field?, hkind] at hfield
  | method => exact Or.inl rfl
  | operator => exact Or.inr rfl
  | accessor kind group role => simp [MemberKind.group?, hkind] at hgroup
  | eventAccessor adds => simp [MemberKind.isEventAccessor, hkind] at hevent

theorem mayBeUsed_of_accessor {d : StructDecl} (hnumbered : d.Numbered) (hlinked : d.Linked)
    {g : PropertyGroup} (hg : g ∈ d.groups) (hstatic : g.isStatic = false)
    (himplicit : g.isIndexer = true ∨ g.explicitInterface = none) {id : Nat}
    (hid : id ∈ g.accessors) : d.MayBeUsed id := by
  obtain ⟨m, hm, hgroup⟩ := hlinked.accessor g hg id hid
  have howner : d.groupOf? m = some g := by
    rw [groupOf?, hgroup, Option.bind_some, hnumbered.group?_of_mem hg]
  exact ⟨lt_of_member? hm, m, hm, Member.isField_of_group? hgroup,
    .byGroup g howner hstatic himplicit⟩

theorem mayBeUsed_of_event {d : StructDecl} (hnumbered : d.Numbered) (hserved : d.Served)
    {e : CustomEvent} (he : e ∈ d.events) (hstatic : e.isStatic = false) {adds : Bool} {id : Nat}
    (hid : e.accessor? adds = some id) : d.MayBeUsed id := by
  obtain ⟨m, hm, hkind, -, -, himplicit⟩ := hserved e he adds id hid
  have hplace : m.id = id := hnumbered.member hm
  have hfield : m.isField = false := by
    simp [Member.isField, Member.field?, MemberKind.field?, hkind]
  refine ⟨lt_of_member? hm, m, hm, hfield, .byEvent e he hstatic adds ?_ hkind himplicit⟩
  rw [hplace, hid]

end StructDecl

/-! ## What a walk uses -/

/-- The accessors that a write of an event may call are accessors of the event. -/
theorem Access.accessor?_of_mem_eventAccessors {access : Access} {e : CustomEvent} {id : Nat}
    (h : id ∈ access.eventAccessors e.add e.remove) : ∃ adds, e.accessor? adds = some id := by
  have hmem : id ∈ e.add.toList ++ e.remove.toList := by
    cases access with
    | subscribe => exact List.mem_append_left _ h
    | unsubscribe => exact List.mem_append_right _ h
    | _ => exact h
  rcases List.mem_append.mp hmem with hadd | hremove
  · exact ⟨true, Option.mem_toList.mp hadd⟩
  · exact ⟨false, Option.mem_toList.mp hremove⟩

namespace Walk

/-- All that is used in the second state and not in the first may be used. -/
def UsesOffered (d : StructDecl) (w w' : Walk) : Prop :=
  ∀ id ∈ w'.uses, id ∈ w.uses ∨ d.MayBeUsed id

theorem usesOffered_use {d : StructDecl} (w : Walk) {ids : List Nat}
    (h : ∀ id ∈ ids, d.MayBeUsed id) : UsesOffered d w (w.use ids) := by
  intro id hid
  rcases MemberSet.mem_insertAll.mp hid with hid | hid
  · exact Or.inr (h id hid)
  · exact Or.inl hid

theorem composes_usesOffered (d : StructDecl) : Composes fun _ => UsesOffered d where
  refl := fun _ _ hid => Or.inl hid
  trans := fun hab hbc id hid => by
    rcases hbc id hid with hid | hid
    · exact hab id hid
    · exact Or.inr hid
  bindLocal := fun _ _ _ _ _ hid => Or.inl hid
  inBlock := fun _ h => h.elim fun _ h => h
  returning := fun _ _ h => h

theorem usesOffered_useGroup {v : Viewpoint} (hnumbered : v.decl.Numbered)
    (hlinked : v.decl.Linked) {g : PropertyGroup} (hg : g ∈ v.decl.groups)
    (hstatic : g.isStatic = false) (himplicit : g.isIndexer = true ∨ g.explicitInterface = none)
    (w : Walk) (read write : Bool) : UsesOffered v.decl w (useGroup v w g.id read write) := by
  apply usesOffered_use
  intro id hid
  rw [hnumbered.group?_of_mem hg] at hid
  have haccessor : id ∈ g.accessors := (List.mem_filter.mp hid).1
  exact StructDecl.mayBeUsed_of_accessor hnumbered hlinked hg hstatic himplicit haccessor

/-- Whatever a walk through a struct of a file uses may be used. -/
theorem effects_usesOffered {root : Node} {v : Viewpoint} (hd : v.decl ∈ StructDecl.ofTree root) :
    Effects v fun _ => UsesOffered v.decl := by
  have hnumbered := StructDecl.numbered_ofTree hd
  have hlinked := StructDecl.linked_ofTree hd
  have hlogged := StructDecl.logged_ofTree hd
  refine
    { composes_usesOffered v.decl with
      record := fun _ _ _ _ hid => Or.inl hid
      bind := fun _ _ _ _ hid => Or.inl hid
      useMethods := ?_
      useProperty := ?_
      useIndexer := ?_
      useEvent := ?_ }
  · intro name ms hms w
    apply usesOffered_use
    intro id hid
    obtain ⟨m, hm, rfl⟩ := List.mem_map.mp hid
    obtain ⟨hmem, hnamed, hfield⟩ :=
      StructDecl.mem_of_resolve_methods hlogged hms m (List.mem_filter.mp hm).1
    exact StructDecl.mayBeUsed_of_named hnumbered hmem hnamed hfield
  · intro name g hg hstatic w read write
    obtain ⟨hmem, hnamed⟩ := StructDecl.mem_of_resolve_property hlogged hg
    have himplicit : g.explicitInterface = none :=
      Option.isNone_iff_eq_none.mp (Bool.and_eq_true_iff.mp hnamed).1
    exact usesOffered_useGroup hnumbered hlinked hmem hstatic (Or.inr himplicit) w read write
  · intro g hg hstatic w read write
    obtain ⟨hmem, hindexer⟩ := List.mem_filter.mp hg
    exact usesOffered_useGroup hnumbered hlinked (Array.mem_toList_iff.mp hmem) hstatic
      (Or.inl hindexer) w read write
  · intro name e he hstatic w access
    apply usesOffered_use
    intro id hid
    obtain ⟨adds, hadds⟩ := Access.accessor?_of_mem_eventAccessors hid
    exact StructDecl.mayBeUsed_of_event hnumbered (StructDecl.served_ofTree hd)
      (StructDecl.mem_of_resolve_event hlogged he) hstatic hadds

end Walk

/-! ## What a member uses -/

namespace StructDecl

theorem mayBeUsed_of_mem_implementationsOf {root : Node} {d : StructDecl} (hd : d ∈ ofTree root)
    {m : Member} {id : Nat} (hid : id ∈ d.implementationsOf m) : d.MayBeUsed id := by
  have hlogged := logged_ofTree hd
  unfold implementationsOf at hid
  split at hid
  · split at hid
    · rename_i ms hms
      obtain ⟨i, hi, rfl⟩ := List.mem_map.mp hid
      obtain ⟨hmem, hnamed, hfield⟩ :=
        mem_of_resolve_methods hlogged hms i (List.mem_filter.mp hi).1
      exact mayBeUsed_of_named (numbered_ofTree hd) hmem hnamed hfield
    · simp at hid
  · simp at hid

theorem mayBeUsed_of_mem_analyzeBodyless {root : Node} {d : StructDecl} (hd : d ∈ ofTree root)
    {m : Member} {id : Nat} (hid : id ∈ (d.analyzeBodyless m).uses) : d.MayBeUsed id := by
  unfold analyzeBodyless at hid
  split at hid
  · cases hid
  · rcases MemberSet.mem_insertAll.mp hid with hid | hid
    · exact mayBeUsed_of_mem_implementationsOf hd hid
    · cases hid

/-- What a member is seen to use may be used. Only a member with a body and a partial method without
one use anything. -/
theorem mayBeUsed_of_mem_analyzeMember {root : Node} {d : StructDecl} (hd : d ∈ ofTree root)
    {m : Member} {id : Nat} (hid : id ∈ (d.analyzeMember m).uses) : d.MayBeUsed id := by
  unfold analyzeMember at hid
  split at hid
  · cases hid
  split at hid
  · cases hid
  split at hid
  · cases hid
  split at hid
  · split at hid <;> cases hid
  split at hid
  · exact mayBeUsed_of_mem_analyzeBodyless hd hid
  · rename_i body _
    -- The walk starts with no use, so all that it ends with was added on the way.
    have heffects := Walk.effects_usesOffered (v := d.viewpoint m) hd
    rcases heffects.visit [] body (Walk.start m) id hid with hstart | hused
    · cases hstart
    · exact hused

/-! ## The call graph -/

/-- The graph of the analysis has an edge for each use that was found and no other edge, and none of
them leads to or from an unknown member. Asked for two members, it tells whether the one uses the
other. -/
structure Tracks (d : StructDecl) (a : StructAnalysis) : Prop where
  edge : ∀ caller callee, (caller, callee) ∈ a.graph.edges ↔
    ∃ found, a.locals[caller]? = some found ∧ callee ∈ found.uses
  hasEdge : ∀ caller callee, caller < a.graph.memberCount → callee < a.graph.memberCount →
    (a.graph.hasEdge caller callee = true ↔
      ∃ found, a.locals[caller]? = some found ∧ callee ∈ found.uses)
  known : ∀ caller callee found, a.locals[caller]? = some found → callee ∈ found.uses →
    caller < a.graph.memberCount ∧ callee < a.graph.memberCount
  inspected : d.isReadonly = false → ∀ m ∈ d.members, a.locals[m.id]? = some (d.analyzeMember m)
  skipped : d.isReadonly = true → ∀ found ∈ a.locals, found = {}

theorem mayBeUsed_of_mem_locals {root : Node} {d : StructDecl} (hd : d ∈ ofTree root)
    {found : LocalAnalysis} (hfound : found ∈ d.analyzeLocally) {id : Nat} (hid : id ∈ found.uses) :
    d.MayBeUsed id := by
  unfold analyzeLocally at hfound
  split at hfound
  · rw [List.eq_of_mem_replicate hfound] at hid
    cases hid
  · obtain ⟨m, -, rfl⟩ := List.mem_map.mp hfound
    exact mayBeUsed_of_mem_analyzeMember hd hid

theorem tracks_analysis {root : Node} {d : StructDecl} (hd : d ∈ ofTree root) :
    d.Tracks d.analysis := by
  have hknown : ∀ caller callee found, d.analyzeLocally[caller]? = some found →
      callee ∈ found.uses → caller < d.members.size ∧ callee < d.members.size := by
    intro caller callee found hfound hcallee
    have hcaller : caller < d.analyzeLocally.length := (List.getElem?_eq_some_iff.mp hfound).1
    rw [length_analyzeLocally] at hcaller
    exact ⟨hcaller, (mayBeUsed_of_mem_locals hd (List.mem_of_getElem? hfound) hcallee).1⟩
  have hedge : ∀ caller callee, (caller, callee) ∈ d.analysis.graph.edges ↔
      ∃ found, d.analysis.locals[caller]? = some found ∧ callee ∈ found.uses := by
    intro caller callee
    have hcalls : d.callGraph.Calls caller callee ↔ d.Uses caller callee := by rw [calls_callGraph]
    -- `Uses` asks for the callee to be a member, which is no restriction here.
    refine hcalls.trans ⟨fun h => h.2, ?_⟩
    rintro ⟨found, hfound, hcallee⟩
    exact ⟨(hknown caller callee found hfound hcallee).2, found, hfound, hcallee⟩
  refine ⟨hedge, ?_, ?_, ?_, ?_⟩
  · intro caller callee hcaller hcallee
    rw [CallGraph.hasEdge_iff, CallGraph.node_of_lt hcaller, CallGraph.node_of_lt hcallee]
    exact hedge caller callee
  · intro caller callee found hfound hcallee
    have hrange := hknown caller callee found hfound hcallee
    simpa [analysis] using hrange
  · intro hreadonly m hm
    exact getElem?_analyzeLocally hreadonly ((numbered_ofTree hd).member?_of_mem hm)
  · intro hreadonly found hfound
    unfold analysis analyzeLocally at hfound
    rw [if_pos hreadonly] at hfound
    exact List.eq_of_mem_replicate hfound

end StructDecl

/-- In every struct of a file, all that a member is seen to use are members that the same instance
offers, and the graph of every analysis that is not stopped has just these uses as its edges. -/
theorem uses_are_offered_and_all_are_edges (root : Node) :
    ∀ d ∈ StructDecl.ofTree root,
      (∀ m ∈ d.members, ∀ id ∈ (d.analyzeMember m).uses, d.MayBeUsed id) ∧
      ∀ signal a, d.analyze.result? signal = some a → d.Tracks a := by
  intro d hd
  refine ⟨fun m _ id hid => StructDecl.mayBeUsed_of_mem_analyzeMember hd hid, ?_⟩
  intro signal a ha
  rw [d.yields_analyze.eq_of_result? ha]
  exact StructDecl.tracks_analysis hd

/-- The file `struct S { void M() { N(); E += P; } void N() { } int P { get { } } … }` with an event
`E` that has both accessors. -/
def usingFile : Node :=
  let body := .tree .block "\x7b N(); E += P; \x7d" 20
    [.word .openBrace "\x7b" 20,
     .tree (.other "expression_statement") "N();" 22
      [.tree .invocationExpression "N()" 22
        [.tree .identifier "N" 22 [] (some .function),
         .tree (.other "argument_list") "()" 23 [.word .openParen "(" 23, .word .closeParen ")" 24]
          (some .arguments)],
       .word (.other ";") ";" 25],
     .tree (.other "expression_statement") "E += P;" 27
      [.tree .assignmentExpression "E += P" 27
        [.tree .identifier "E" 27 [] (some .left), .word .addAssign "+=" 29 (some .operator),
         .tree .identifier "P" 32 [] (some .right)],
       .word (.other ";") ";" 33],
     .word .closeBrace "\x7d" 35]
  .structOf [.voidMethod "M" 11 body, .voidMethod "N" 37 (.emptyBlock 46),
    .intProperty "P" 50 [.accessor .getToken "get" 58 (.emptyBlock 62)], .customEvent 68]

/-- `M` uses `N`, the getter of `P` and the accessor `add` of `E`, and has an edge to each. -/
theorem a_method_has_an_edge_to_all_it_uses :
    let d := (StructDecl.ofTree usingFile).head!
    d ∈ StructDecl.ofTree usingFile ∧ (d.analyzeMember d.members[0]!).uses.toList = [1, 2, 3] ∧
      d.MayBeUsed 1 ∧ d.MayBeUsed 2 ∧ d.MayBeUsed 3 ∧
      d.analyze.result? .never = some d.analysis ∧ d.Tracks d.analysis := by
  intro d
  have hd : d ∈ StructDecl.ofTree usingFile := List.mem_cons_self
  obtain ⟨hused, htracks⟩ := uses_are_offered_and_all_are_edges usingFile d hd
  have huses : (d.analyzeMember d.members[0]!).uses.toList = [1, 2, 3] := by decide +kernel
  have hfirst : d.members[0]! ∈ d.members := by
    rw [getElem!_pos d.members 0 (by decide +kernel)]
    exact Array.getElem_mem _
  have hmay : ∀ id ∈ [1, 2, 3], d.MayBeUsed id := fun id hid =>
    hused _ hfirst id (MemberSet.mem_toList.mp (huses ▸ hid))
  have hresult : d.analyze.result? .never = some d.analysis := d.result?_analyze_never
  exact ⟨hd, huses, hmay 1 (by decide), hmay 2 (by decide), hmay 3 (by decide), hresult,
    htracks .never _ hresult⟩

end ReadonlyLint
