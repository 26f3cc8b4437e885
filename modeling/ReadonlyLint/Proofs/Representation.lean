import Mathlib.Data.List.Sort
import ReadonlyLint.Proofs.Chains
import ReadonlyLint.Proofs.Names
import ReadonlyLint.Proofs.Reports
import ReadonlyLint.Proofs.Storage
import ReadonlyLint.Proofs.Suggested

/-!
How a struct is represented. Members, properties, indexers and events refer to each other by places
in lists. What a group says of its accessors is true when the group is added (`StructDecl.Fits`),
and stays true as long as members and groups are only added behind the others. So every id leads to
what it is meant for, and no lookup of a member or a group fails.
-/
namespace ReadonlyLint

/-- The member is an accessor of the group and has what the group gives to each of them. -/
structure PropertyGroup.Owns (g : PropertyGroup) (m : Member) : Prop where
  kind : ∃ role, m.kind = .accessor g.kind g.id role
  name : m.name = g.name
  explicitInterface : m.explicitInterface = g.explicitInterface
  isStatic : g.isStatic = true → m.modifiers.isStatic = true
  alreadyReadonly : g.modifiers.isReadonly = true → m.alreadyReadonly = true

namespace StructDecl

/-! ## Groups and their accessors -/

/-- What the group says of its accessors is true in the declaration. -/
structure Fits (d : StructDecl) (g : PropertyGroup) : Prop where
  increasing : g.accessors.Pairwise (· < ·)
  owned : ∀ id ∈ g.accessors, ∃ m, d.member? id = some m ∧ g.Owns m
  synthesized : g.hasSynthesizedAccessor = true ↔
    ∃ id ∈ g.accessors, ∃ m, d.member? id = some m ∧ m.synthesized = true

/-- Members that come later do not matter. -/
theorem Fits.extends {d d' : StructDecl} {g : PropertyGroup} (h : d.Fits g) (hd : d.Extends d') :
    d'.Fits g := by
  refine ⟨h.increasing, ?_, h.synthesized.trans ⟨?_, ?_⟩⟩
  · intro id hid
    obtain ⟨m, hm, howns⟩ := h.owned id hid
    exact ⟨m, hd.member? hm, howns⟩
  · rintro ⟨id, hid, m, hm, hsynthesized⟩
    exact ⟨id, hid, m, hd.member? hm, hsynthesized⟩
  · rintro ⟨id, hid, m, hm, hsynthesized⟩
    obtain ⟨x, hx, -⟩ := h.owned id hid
    rw [hd.member? hx] at hm
    cases hm
    exact ⟨id, hid, m, hx, hsynthesized⟩

theorem owns_toMember (d : StructDecl) (g : PropertyGroup) (parameters : List Parameter)
    (returns : ReturnMode) (specs : List AccessorSpec) (s : AccessorSpec) (id : Nat) :
    (d.filledGroup g specs).Owns { s.toMember d.groups.size g parameters returns with id } where
  kind := ⟨s.role, rfl⟩
  name := rfl
  explicitInterface := rfl
  isStatic := fun h => by
    have hgroup : g.modifiers.isStatic = true := h
    simp [AccessorSpec.toMember, hgroup]
  alreadyReadonly := fun h => by
    have hgroup : g.modifiers.isReadonly = true := h
    simp [AccessorSpec.toMember, hgroup]

/-- A group fits when it is added with its accessors. -/
theorem fits_filledGroup (d : StructDecl) (g : PropertyGroup) (parameters : List Parameter)
    (returns : ReturnMode) (specs : List AccessorSpec) :
    (d.addAccessors g parameters returns specs).Fits (d.filledGroup g specs) := by
  have hplace : ∀ id ∈ (d.filledGroup g specs).accessors, ∃ s ∈ specs,
      (d.addAccessors g parameters returns specs).member? id =
        some { s.toMember d.groups.size g parameters returns with id } := by
    intro id hid
    obtain ⟨hle, hlt⟩ := List.mem_range'_1.mp hid
    have hs : specs[id - d.members.size]? = some specs[id - d.members.size] :=
      List.getElem?_eq_getElem (by omega)
    have hid : d.members.size + (id - d.members.size) = id := by omega
    have hmember := d.member?_addAccessors g parameters returns hs
    rw [hid] at hmember
    exact ⟨_, List.getElem_mem (by omega), hmember⟩
  refine ⟨List.pairwise_lt_range', ?_, ?_⟩
  · intro id hid
    obtain ⟨s, -, hmember⟩ := hplace id hid
    exact ⟨_, hmember, d.owns_toMember g parameters returns specs s id⟩
  · rw [filledGroup, List.any_eq_true]
    constructor
    · rintro ⟨s, hs, hsynthesized⟩
      obtain ⟨k, hk⟩ := List.mem_iff_getElem?.mp hs
      have hlt : k < specs.length := (List.getElem?_eq_some_iff.mp hk).1
      refine ⟨d.members.size + k, List.mem_range'_1.mpr (by omega), _,
        d.member?_addAccessors g parameters returns hk, hsynthesized⟩
    · rintro ⟨id, hid, m, hm, hsynthesized⟩
      obtain ⟨s, hs, hmember⟩ := hplace id hid
      rw [hmember] at hm
      cases hm
      exact ⟨s, hs, hsynthesized⟩

/-- Every group fits. -/
def Grouped (d : StructDecl) : Prop := ∀ g ∈ d.groups, d.Fits g

theorem grouped_ofTree {root : Node} {d : StructDecl} (hd : d ∈ ofTree root) : d.Grouped :=
  allGroups_ofTree (P := Fits) Fits.extends fits_filledGroup hd

/-! ## Events and their accessors -/

/-- The ids in every event are those of its accessors, which implement no interface. -/
def Served (d : StructDecl) : Prop := ∀ e ∈ d.events, d.Serves none e

theorem Serves.extends {d d' : StructDecl} {interface : Option String} {e : CustomEvent}
    (h : d.Serves interface e) (hd : d.Extends d') : d'.Serves interface e := by
  intro adds id hid
  obtain ⟨m, hm, hrest⟩ := h adds id hid
  exact ⟨m, hd.member? hm, hrest⟩

theorem Served.pushMember {d : StructDecl} (h : d.Served) (m : Member) :
    (d.pushMember m).Served := by
  intro e he
  rw [events_pushMember] at he
  exact (h e he).extends ((extends_refl d).pushMember m)

theorem Served.pushGroup {d : StructDecl} (h : d.Served) (g : PropertyGroup) :
    (d.pushGroup g).Served := by
  intro e he
  rw [events_pushGroup] at he
  refine (h e he).extends ⟨?_, ?_⟩
  · rw [members_pushGroup]
  · rw [groups_pushGroup, Array.toList_push]
    exact List.prefix_append _ _

theorem kept_served : Kept Served where
  error := fun d h e he => (h e he).extends ⟨List.prefix_rfl, List.prefix_rfl⟩
  event := fun d e hserves h x hx => by
    rcases Array.mem_push.mp hx with hx | rfl
    · exact (h x hx).extends ⟨List.prefix_rfl, List.prefix_rfl⟩
    · exact hserves.extends ⟨List.prefix_rfl, List.prefix_rfl⟩
  field := fun _ m _ _ h => h.pushMember m
  method := fun _ m _ _ _ _ h => h.pushMember m
  accessors := fun _ _ _ _ specs _ h =>
    kept_foldl (fun _ _ h => h.pushMember _) specs (h.pushGroup _)

theorem served_ofTree {root : Node} {d : StructDecl} (hd : d ∈ ofTree root) : d.Served :=
  kept_ofTree kept_served (fun n e he => by simp [header] at he) hd

/-! ## Well-formed structs -/

/-- The ids of the members that belong to a group, in increasing order. -/
def accessorIds (d : StructDecl) (group : Nat) : List Nat :=
  (List.range d.members.size).filter fun id => (d.member? id).any (·.kind.group? = some group)

/-- The places by which the parts of a struct refer to each other are right. -/
structure WellFormed (d : StructDecl) : Prop where
  memberId : ∀ id m, d.member? id = some m → m.id = id
  groupId : ∀ id g, d.group? id = some g → g.id = id
  accessors : ∀ g ∈ d.groups, g.accessors = d.accessorIds g.id
  owned : ∀ g ∈ d.groups, ∀ id ∈ g.accessors, ∃ m, d.member? id = some m ∧ g.Owns m
  synthesized : ∀ g ∈ d.groups, g.hasSynthesizedAccessor = true ↔
    ∃ id ∈ g.accessors, ∃ m, d.member? id = some m ∧ m.synthesized = true
  bodiless : ∀ m ∈ d.members, m.synthesized = true → m.body = none
  alone : ∀ g ∈ d.groups, ∀ m ∈ d.members, m.kind.group? = some g.id → m.anchor = none →
    g.accessors = [m.id]
  events : ∀ e ∈ d.events, ∀ adds id, e.accessor? adds = some id →
    ∃ m, d.member? id = some m ∧ m.kind = .eventAccessor adds ∧ m.name = e.name

theorem mem_accessorIds {d : StructDecl} {group id : Nat} :
    id ∈ d.accessorIds group ↔ ∃ m, d.member? id = some m ∧ m.kind.group? = some group := by
  unfold accessorIds
  rw [List.mem_filter, List.mem_range]
  constructor
  · rintro ⟨-, hany⟩
    rcases hm : d.member? id with _ | m
    · simp [hm] at hany
    · exact ⟨m, rfl, by simpa [hm] using hany⟩
  · rintro ⟨m, hm, hgroup⟩
    exact ⟨lt_of_member? hm, by simp [hm, hgroup]⟩

theorem accessors_eq {d : StructDecl} (hnumbered : d.Numbered) (hlinked : d.Linked)
    (hgrouped : d.Grouped) {g : PropertyGroup} (hg : g ∈ d.groups) :
    g.accessors = d.accessorIds g.id := by
  have hincreasing : (d.accessorIds g.id).Pairwise (· < ·) := List.pairwise_lt_range.filter _
  -- Both lists increase, so it is enough that they have the same ids.
  refine (hgrouped g hg).increasing.eq_of_mem_iff hincreasing fun id => ?_
  rw [mem_accessorIds]
  constructor
  · exact hlinked.accessor g hg id
  · rintro ⟨m, hm, hgroup⟩
    have hmem : m ∈ d.members := Array.mem_of_getElem? hm
    rw [← hnumbered.member hm]
    exact (mem_accessors_iff hnumbered hlinked hmem hg).mpr hgroup

theorem wellFormed_ofTree {root : Node} {d : StructDecl} (hd : d ∈ ofTree root) :
    d.WellFormed := by
  have hnumbered := numbered_ofTree hd
  have hlinked := linked_ofTree hd
  have hgrouped := grouped_ofTree hd
  have hplaced := placed_ofTree hd
  refine
    { memberId := fun id m hm => hnumbered.member hm
      groupId := fun id g hg => hnumbered.group hg
      accessors := fun g hg => accessors_eq hnumbered hlinked hgrouped hg
      owned := fun g hg => (hgrouped g hg).owned
      synthesized := fun g hg => (hgrouped g hg).synthesized
      bodiless := ?_
      alone := ?_
      events := ?_ }
  · intro m hm hsynthesized
    by_contra hbody
    have hinspected := allMembers_ofTree given_inspected hd m hm
      (Option.isSome_iff_ne_none.mpr hbody)
    rw [hinspected.2] at hsynthesized
    cases hsynthesized
  · intro g hg m hm hgroup hanchor
    obtain ⟨x, hx, hone⟩ := hplaced.alone m hm (Member.isField_of_group? hgroup) hanchor
    rw [groupOf?, hgroup, Option.bind_some, hnumbered.group?_of_mem hg] at hx
    cases hx
    exact hone
  · intro e he adds id hid
    obtain ⟨m, hm, hkind, hname, -, -⟩ := served_ofTree hd e he adds id hid
    exact ⟨m, hm, hkind, hname⟩

end StructDecl

/-! ## Lookups -/

theorem Logs.lt_of_mem {α : Type} {named : α → Bool} {name : α → String} {entries : Array α}
    {log : List (String × Nat)} (h : Logs named name entries log) {p : String × Nat}
    (hp : p ∈ log) : p.2 < entries.size := by
  rw [h] at hp
  obtain ⟨q, hq, rfl⟩ := List.mem_map.mp hp
  have hlt := (List.mem_zipIdx (List.mem_filter.mp hq).1).2.1
  simpa using hlt

/-- The symbol leads to something in the declaration. -/
def Symbol.isBound (d : StructDecl) : Symbol → Bool
  | .member id => (d.member? id).isSome
  | .group id => (d.group? id).isSome
  | .event index => d.events[index]?.isSome

namespace StructDecl

theorem Logged.isBound {d : StructDecl} (h : d.Logged) {name : String} {symbol : Symbol}
    (hsymbol : symbol ∈ d.symbolsOf name) : symbol.isBound d = true := by
  obtain ⟨⟨n, logged⟩, hp, hname⟩ := List.mem_filterMap.mp hsymbol
  obtain ⟨-, rfl⟩ : n = name ∧ logged = symbol := by simpa using hname
  have hlog : ∀ {place? : Symbol → Option Nat} {id : Nat}, place? logged = some id →
      (n, id) ∈ d.log place? := by
    intro place? id hplace
    exact List.mem_filterMap.mpr ⟨(n, logged), hp, by simp [hplace]⟩
  cases logged with
  | member id =>
    have hlt : id < d.members.size := h.members.lt_of_mem (hlog rfl)
    simp [Symbol.isBound, member?, hlt]
  | group id =>
    have hlt : id < d.groups.size := h.groups.lt_of_mem (hlog rfl)
    simp [Symbol.isBound, group?, hlt]
  | event index =>
    have hlt : index < d.events.size := h.events.lt_of_mem (hlog rfl)
    simp [Symbol.isBound, hlt]

/-- Every lookup that the analysis and the report make finds something: of what a name was declared
as, of the property or indexer of an accessor, of one that is read or written, of its accessors, of
the accessors of an event, of what a member shows alone, and of the members of an explanation. -/
structure FindsAll (d : StructDecl) : Prop where
  symbol : ∀ name, ∀ symbol ∈ d.symbolsOf name, symbol.isBound d = true
  owner : ∀ m ∈ d.members, ∀ id, m.kind.group? = some id → (d.group? id).isSome
  resolved : ∀ name g, d.resolve name = some (.property g) → (d.group? g.id).isSome
  stored : ∀ (v : Viewpoint) scope n id, v.decl = d → v.storage scope n = .property id →
    (d.group? id).isSome
  indexer : ∀ g ∈ d.indexers, (d.group? g.id).isSome
  accessor : ∀ g ∈ d.groups, ∀ id ∈ g.accessors, (d.member? id).isSome
  event : ∀ e ∈ d.events, ∀ adds id, e.accessor? adds = some id → (d.member? id).isSome
  self : ∀ m ∈ d.members, (d.member? m.id).isSome
  shown : ∀ signal a, d.analyze.result? signal = some a →
    ∀ m ∈ d.members, a.locals[m.id]?.isSome
  explained : ∀ signal a, d.analyze.result? signal = some a →
    ∀ m ∈ d.members, ∀ id ∈ a.resolution.explain m.id, (d.member? id).isSome

/-- An explanation names members only. -/
theorem lt_of_mem_explain {d : StructDecl} {place id : Nat} (hplace : place < d.members.size)
    (hid : id ∈ d.verdicts.explain place) : id < d.members.size := by
  have hrange := d.inRange_callGraph
  have hcaused := CallGraph.cause_verdicts_isSome_iff hrange (d.analyzeLocally.map (·.mutates))
  by_cases hmutates : d.verdicts.verdict place = .mutating
  · have htraces := (CallGraph.explain_of_mutating hrange _ hmutates).1
    exact lt_of_verdict ((hcaused id).mp (htraces.caused id hid))
  · have hnone : d.verdicts.cause place = none := by
      rw [← Option.not_isSome_iff_eq_none]
      exact fun hsome => hmutates ((hcaused place).mp hsome)
    rw [Resolution.explain_of_cause_none hnone, List.mem_singleton] at hid
    rw [hid]
    exact hplace

theorem isSome_member? {d : StructDecl} {id : Nat} (h : id < d.members.size) :
    (d.member? id).isSome = true := by
  simp [member?, h]

theorem isSome_group?_of_mem {d : StructDecl} (h : d.Numbered) {g : PropertyGroup}
    (hg : g ∈ d.groups) : (d.group? g.id).isSome = true := by
  rw [h.group?_of_mem hg]
  rfl

theorem findsAll_ofTree {root : Node} {d : StructDecl} (hd : d ∈ ofTree root) : d.FindsAll := by
  have hnumbered := numbered_ofTree hd
  have hlinked := linked_ofTree hd
  have hlogged := logged_ofTree hd
  have hplace : ∀ m ∈ d.members, m.id < d.members.size := fun m hm =>
    lt_of_member? (hnumbered.member?_of_mem hm)
  have hresolved : ∀ name g, d.resolve name = some (.property g) → (d.group? g.id).isSome :=
    fun name g hg => isSome_group?_of_mem hnumbered (mem_of_resolve_property hlogged hg).1
  have hanalysis : ∀ signal a, d.analyze.result? signal = some a → a = d.analysis :=
    fun signal a ha => d.yields_analyze.eq_of_result? ha
  refine
    { symbol := fun name symbol hsymbol => hlogged.isBound hsymbol
      owner := ?_
      resolved := hresolved
      stored := ?_
      indexer := ?_
      accessor := ?_
      event := ?_
      self := fun m hm => isSome_member? (hplace m hm)
      shown := ?_
      explained := ?_ }
  · intro m hm id hid
    obtain ⟨g, hg, -⟩ := hlinked.group m hm id hid
    simp [hg]
  · rintro v scope n id rfl hstorage
    obtain ⟨name, hname⟩ := v.exists_memberStorage_of_isAccessed scope n (by rw [hstorage]; rfl)
    obtain ⟨g, hg, -, rfl⟩ := v.resolve_of_memberStorage_property (hname.trans hstorage)
    exact hresolved name g hg
  · intro g hg
    exact isSome_group?_of_mem hnumbered (Array.mem_toList_iff.mp (List.mem_filter.mp hg).1)
  · intro g hg id hid
    obtain ⟨m, hm, -⟩ := hlinked.accessor g hg id hid
    simp [hm]
  · intro e he adds id hid
    obtain ⟨m, hm, -⟩ := served_ofTree hd e he adds id hid
    simp [hm]
  · intro signal a ha m hm
    rw [hanalysis signal a ha]
    simp [analysis, hplace m hm]
  · intro signal a ha m hm id hid
    rw [hanalysis signal a ha] at hid
    exact isSome_member? (lt_of_mem_explain (hplace m hm) hid)

end StructDecl

/-- Every struct of a file, whatever its tree, is well-formed, and no lookup in it fails. -/
theorem every_struct_is_well_formed_and_finds_what_it_looks_up (root : Node) :
    ∀ d ∈ StructDecl.ofTree root, d.WellFormed ∧ d.FindsAll :=
  fun _ hd => ⟨StructDecl.wellFormed_ofTree hd, StructDecl.findsAll_ofTree hd⟩

/-- The file `struct S { int P { get; set { } } int Q => 0; event A E { add { } remove { } } }`. -/
def accessorFile : Node :=
  let getter := .tree .accessorDeclaration "get;" 19
    [.word .getToken "get" 19 (some .name), .word (.other ";") ";" 22]
  let arrow := .tree .propertyDeclaration "int Q => 0;" 34
    [.tree .predefinedType "int" 34 [] (some .type), .tree .identifier "Q" 38 [] (some .name),
     .tree .arrowExpressionClause "=> 0" 40
      [.word (.other "=>") "=>" 40, .tree (.other "integer_literal") "0" 43] (some .value),
     .word (.other ";") ";" 44]
  .structOf [.intProperty "P" 11 [getter, .accessor .setToken "set" 24 (.emptyBlock 28)], arrow,
    .customEvent 46]

/-- The getter of `P` is supplied by the compiler, that of `Q` has no place of its own, and the
event has both of its accessors. -/
theorem the_accessors_of_a_struct_are_found :
    let d := (StructDecl.ofTree accessorFile).head!
    d ∈ StructDecl.ofTree accessorFile ∧ d.WellFormed ∧ d.FindsAll ∧
      d.groups.toList.map (·.accessors) = [[0, 1], [2]] ∧
      d.groups.toList.map (·.hasSynthesizedAccessor) = [true, false] ∧
      d.events.toList.map (fun e => (e.add, e.remove)) = [(some 3, some 4)] := by
  intro d
  have hd : d ∈ StructDecl.ofTree accessorFile := List.mem_cons_self
  obtain ⟨hwell, hfinds⟩ :=
    every_struct_is_well_formed_and_finds_what_it_looks_up accessorFile d hd
  exact ⟨hd, hwell, hfinds, by decide +kernel, by decide +kernel, by decide +kernel⟩

end ReadonlyLint
