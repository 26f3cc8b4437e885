import Mathlib.Data.List.Basic
import ReadonlyLint.Mutation.Analyze
import ReadonlyLint.Proofs.Subtree
import ReadonlyLint.Struct.Reader

/-!
What holds of every struct of a file. The reader changes a declaration in five ways only: it notes
an error, adds a field, a method or the like, a property or indexer with its accessors, or an event.
A property of all headers that the five keep (`StructDecl.Kept`) holds of every struct. So every
member has what its way of being added gives it, members and groups are numbered by their places,
and an accessor and its property or indexer know each other.
-/
namespace ReadonlyLint

namespace Node

/-- The members that a child of a body stands for. -/
def membersAt (c : Node) : List Node :=
  match c.kind with
  | .preprocessor _ => memberNodes c
  | _ => if c.named || c.missing then [c] else []

theorem memberNodes_eq (n : Node) : memberNodes n = n.children.flatMap membersAt := by
  have hall : ∀ l : List Node, memberNodesAll l = l.flatMap membersAt := by
    intro l
    induction l with
    | nil => rw [memberNodesAll, List.flatMap_nil]
    | cons c l ih =>
      rw [memberNodesAll, ih]
      rfl
  cases n
  rw [memberNodes]
  exact hall _

theorem exists_parent_of_mem_memberNodes {n c : Node} (h : c ∈ memberNodes n) :
    ∃ parent : Node, parent.Within n ∧ c ∈ parent.children := by
  induction n using below_induction with
  | step n ih =>
    rw [memberNodes_eq] at h
    obtain ⟨x, hx, hc⟩ := List.mem_flatMap.mp h
    unfold membersAt at hc
    split at hc
    · obtain ⟨parent, hin, hmem⟩ := ih x (below_of_mem hx) hc
      exact ⟨parent, hin.trans (within_of_mem hx), hmem⟩
    · split at hc
      · obtain rfl := List.mem_singleton.mp hc
        exact ⟨n, within_refl n, hx⟩
      · cases hc

end Node

/-- What belongs to a property or indexer is no field. -/
theorem Member.isField_of_group? {m : Member} {id : Nat} (h : m.kind.group? = some id) :
    m.isField = false := by
  cases hkind : m.kind with
  | accessor kind group role => simp [isField, field?, MemberKind.field?, hkind]
  | _ => simp [MemberKind.group?, hkind] at h

/-- The accessor of an event that adds, or else the one that removes. -/
def CustomEvent.accessor? (e : CustomEvent) (adds : Bool) : Option Nat :=
  if adds then e.add else e.remove

/-- The event with the id of an accessor noted. -/
def CustomEvent.withAccessor (e : CustomEvent) (adds : Bool) (id : Nat) : CustomEvent :=
  if adds then { e with add := some id } else { e with remove := some id }

theorem CustomEvent.accessor?_withAccessor (e : CustomEvent) (adds other : Bool) (id : Nat) :
    (e.withAccessor adds id).accessor? other =
      if other = adds then some id else e.accessor? other := by
  cases adds <;> cases other <;> rfl

namespace StructDecl

/-! ## What the reader keeps -/

/-- An accessor without a place of its own has no other beside it. -/
def Anchored (specs : List AccessorSpec) : Prop := ∀ s ∈ specs, s.anchor = none → specs = [s]

/-- The ids in the event are those of accessors of it, which implement the given interface. -/
def Serves (d : StructDecl) (interface : Option String) (e : CustomEvent) : Prop :=
  ∀ adds id, e.accessor? adds = some id → ∃ m, d.member? id = some m ∧
    m.kind = .eventAccessor adds ∧ m.name = e.name ∧ m.modifiers.isStatic = e.isStatic ∧
    m.explicitInterface = interface

/-- Everything that the reader adds keeps the property. -/
structure Kept (P : StructDecl → Prop) : Prop where
  error : ∀ d : StructDecl, P d → P { d with hasBodyErrors := true }
  event : ∀ (d : StructDecl) (e : CustomEvent), d.Serves none e → P d → P (d.pushEvent e)
  field : ∀ (d : StructDecl) (m : Member), m.isField → m.body = none → P d → P (d.pushMember m)
  /-- Methods, operators and accessors of events. -/
  method : ∀ (d : StructDecl) (m : Member), m.isField = false → m.kind.group? = none →
    m.synthesized = false → m.anchor.isSome → P d → P (d.pushMember m)
  accessors : ∀ (d : StructDecl) (g : PropertyGroup) (parameters : List Parameter)
    (returns : ReturnMode) (specs : List AccessorSpec), Anchored specs → P d →
    P (d.addAccessors g parameters returns specs)

theorem kept_foldl {P : StructDecl → Prop} {α : Type} {f : StructDecl → α → StructDecl}
    (hf : ∀ d a, P d → P (f d a)) (l : List α) {d : StructDecl} (hd : P d) : P (l.foldl f d) := by
  induction l generalizing d with
  | nil => exact hd
  | cons a l ih => exact ih (hf d a hd)

/-- One step is enough for what each step gives and every step keeps. -/
theorem foldl_of_step {P : StructDecl → Prop} {α : Type} {f : StructDecl → α → StructDecl}
    (hkeep : ∀ d a, P d → P (f d a)) {l : List α} {a : α} (ha : a ∈ l)
    (hstep : ∀ d, P (f d a)) (d : StructDecl) : P (l.foldl f d) := by
  obtain ⟨before, after, rfl⟩ := List.append_of_mem ha
  rw [List.foldl_append, List.foldl_cons]
  exact kept_foldl hkeep after (hstep _)

theorem anchored_of_isSome {specs : List AccessorSpec} (h : ∀ s ∈ specs, s.anchor.isSome) :
    Anchored specs := by
  intro s hs hnone
  have hsome := h s hs
  simp [hnone] at hsome

theorem anchored_written (accessors : List Node) :
    Anchored (accessors.filterMap fun accessor =>
      (accessor.child? .name).bind (accessorSpec? accessor)) := by
  apply anchored_of_isSome
  intro s hs
  obtain ⟨accessor, -, hspec⟩ := List.mem_filterMap.mp hs
  obtain ⟨keyword, -, hspec⟩ := Option.bind_eq_some_iff.mp hspec
  obtain ⟨role, -, hspec⟩ := Option.bind_eq_some_iff.mp hspec
  cases hspec
  rfl

theorem member?_pushMember {d : StructDecl} {id : Nat} {x : Member} (h : d.member? id = some x)
    (m : Member) : (d.pushMember m).member? id = some x := by
  have hlt : id < d.members.size := (Array.getElem?_eq_some_iff.mp h).1
  have hpush : (d.pushMember m).member? id =
      (d.members.push { m with id := d.members.size })[id]? := rfl
  rw [hpush, Array.getElem?_push, if_neg (by omega)]
  exact h

theorem member?_pushMember_self (d : StructDecl) (m : Member) :
    (d.pushMember m).member? d.members.size = some { m with id := d.members.size } :=
  Array.getElem?_push_size

theorem serves_of_none {d : StructDecl} {interface : Option String} {e : CustomEvent}
    (h : ∀ adds, e.accessor? adds = none) : d.Serves interface e := by
  intro adds id hid
  rw [h adds] at hid
  cases hid

theorem Serves.cast {d : StructDecl} {interface interface' : Option String} {e : CustomEvent}
    (h : d.Serves interface e) (heq : interface = interface') : d.Serves interface' e := by
  subst heq
  exact h

/-- A new accessor of an event is the one that its id then stands for. -/
theorem Serves.withAccessor {d : StructDecl} {interface : Option String} {e : CustomEvent}
    (h : d.Serves interface e) {adds : Bool} {m : Member} (hkind : m.kind = .eventAccessor adds)
    (hname : m.name = e.name) (hstatic : m.modifiers.isStatic = e.isStatic)
    (hinterface : m.explicitInterface = interface) :
    (d.pushMember m).Serves interface (e.withAccessor adds d.members.size) := by
  have hsame : (e.withAccessor adds d.members.size).name = e.name ∧
      (e.withAccessor adds d.members.size).isStatic = e.isStatic := by
    cases adds <;> exact ⟨rfl, rfl⟩
  intro other id hid
  rw [CustomEvent.accessor?_withAccessor] at hid
  rw [hsame.1, hsame.2]
  by_cases hother : other = adds
  · subst hother
    rw [if_pos rfl] at hid
    cases hid
    exact ⟨_, d.member?_pushMember_self m, hkind, hname, hstatic, hinterface⟩
  · rw [if_neg hother] at hid
    obtain ⟨x, hx, hrest⟩ := h other id hid
    exact ⟨x, member?_pushMember hx m, hrest⟩

theorem serves_addEventAccessor {modifiers : Modifiers} {interface : Option String}
    {start : StructDecl × CustomEvent} (accessor : Node) (h : start.1.Serves interface start.2)
    (hstatic : start.2.isStatic = modifiers.isStatic) :
    (addEventAccessor modifiers interface start accessor).1.Serves interface
        (addEventAccessor modifiers interface start accessor).2 ∧
      (addEventAccessor modifiers interface start accessor).2.isStatic = modifiers.isStatic := by
  obtain ⟨d, event⟩ := start
  rw [addEventAccessor]
  split
  · exact ⟨h, hstatic⟩
  · split
    · exact ⟨h, hstatic⟩
    · rename_i adds _
      refine ⟨h.withAccessor rfl rfl hstatic.symm rfl, ?_⟩
      cases adds <;> exact hstatic

section Adding

variable {P : StructDecl → Prop} (hP : Kept P) {d : StructDecl} (hd : P d)
include hP hd

theorem kept_addGroup (n : Node) (kind : GroupKind) : P (d.addGroup n kind) := by
  unfold addGroup
  dsimp only
  split
  · exact hP.accessors d _ _ _ _ (by simp [Anchored]) hd
  · exact hP.accessors d _ _ _ _ (anchored_written _) hd
  · exact hP.accessors d _ _ _ _ (by simp [Anchored]) hd

theorem kept_addFields (types : TypeTable) (generics : Bindings TypeCategory) (n : Node)
    (isEvent : Bool) : P (d.addFields types generics n isEvent) := by
  unfold addFields
  split
  · exact hP.error d hd
  · exact kept_foldl (fun d name hd => hP.field d _ rfl rfl hd) _ hd

theorem kept_addEvent (n : Node) : P (d.addEvent n) := by
  -- the fold carries the event along with the declaration
  have hfold : ∀ (modifiers : Modifiers) (interface : Option String) (l : List Node)
      (start : StructDecl × CustomEvent), P start.1 → start.1.Serves interface start.2 →
      start.2.isStatic = modifiers.isStatic →
      P (l.foldl (addEventAccessor modifiers interface) start).1 ∧
        (l.foldl (addEventAccessor modifiers interface) start).1.Serves interface
          (l.foldl (addEventAccessor modifiers interface) start).2 := by
    intro modifiers interface l
    induction l with
    | nil => exact fun _ h hserves _ => ⟨h, hserves⟩
    | cons a l ih =>
      intro start hstart hserves hstatic
      obtain ⟨hserves', hstatic'⟩ := serves_addEventAccessor a hserves hstatic
      refine ih _ ?_ hserves' hstatic'
      obtain ⟨d, event⟩ := start
      rw [addEventAccessor]
      split
      · exact hstart
      · split
        · exact hstart
        · exact hP.method d _ rfl rfl rfl rfl hstart
  unfold addEvent
  split
  · exact hP.error d hd
  · dsimp only
    rename_i name _
    obtain ⟨hkept, hserves⟩ := hfold (.ofNode n) (explicitInterface? n) _
      (d, { name := name.text, isStatic := (Modifiers.ofNode n).isStatic }) hd
      (serves_of_none fun adds => by cases adds <;> rfl) rfl
    split
    · rename_i hnone
      exact hP.event _ _ (hserves.cast (Option.isNone_iff_eq_none.mp hnone)) hkept
    · exact hkept

theorem kept_addMember (types : TypeTable) (generics : Bindings TypeCategory) (n : Node) :
    P (d.addMember types generics n) := by
  unfold addMember
  split
  · exact kept_addFields hP hd types generics n false
  · exact kept_addFields hP hd types generics n true
  · exact kept_addEvent hP hd n
  · exact hP.method d _ rfl rfl rfl rfl hd
  · exact hP.method d _ rfl rfl rfl rfl hd
  · exact hP.method d _ rfl rfl rfl rfl hd
  · exact kept_addGroup hP hd n .property
  · exact kept_addGroup hP hd n .indexer
  · exact hP.error d hd
  · split
    · exact hP.error d hd
    · exact hd

end Adding

/-- The declaration with what its primary constructor adds. -/
def withConstructor (types : TypeTable) (generics : Bindings TypeCategory) (n : Node) :
    StructDecl :=
  match n.childOfKind? .parameterList with
  | some list =>
    if (header n).isRecord then (header n).addPositionalProperties list
    else (header n).addConstructorStorage types generics list
  | none => header n

theorem ofNode_eq (types : TypeTable) (n : Node) :
    ofNode types n =
      match n.child? .body with
      | some body =>
        (memberNodes body).foldl (addMember types (genericCategories n))
          (withConstructor types (genericCategories n) n)
      | none => withConstructor types (genericCategories n) n :=
  rfl

section Reading

variable {P : StructDecl → Prop} (hP : Kept P)
include hP

/-- What the constructor leaves, the members of the body keep. -/
theorem kept_ofNode_of_constructor {types : TypeTable} {n : Node}
    (h : P (withConstructor types (genericCategories n) n)) : P (ofNode types n) := by
  rw [ofNode_eq]
  split
  · exact kept_foldl (P := P) (fun d n hd => kept_addMember hP hd types _ n) _ h
  · exact h

/-- What holds as soon as some node of the body is read holds of the struct. -/
theorem kept_ofNode_of_addMember {types : TypeTable} {s body n : Node}
    (hbody : s.child? .body = some body) (hn : n ∈ memberNodes body)
    (h : ∀ d : StructDecl, P (d.addMember types (genericCategories s) n)) :
    P (ofNode types s) := by
  rw [ofNode_eq, hbody]
  exact foldl_of_step (P := P) (fun d n hd => kept_addMember hP hd types _ n) hn h _

theorem kept_withConstructor {n : Node} (hheader : P (header n)) (types : TypeTable)
    (generics : Bindings TypeCategory) : P (withConstructor types generics n) := by
  unfold withConstructor
  split
  · split
    · exact kept_foldl (fun d param hd =>
        hP.accessors d _ _ _ _ (anchored_of_isSome (by simp)) hd) _ hheader
    · exact kept_foldl (fun d param hd => hP.field d _ rfl rfl hd) _ hheader
  · exact hheader

/-- What holds of the header holds of the struct. -/
theorem kept_ofNode_of_header {n : Node} (hheader : P (header n)) (types : TypeTable) :
    P (ofNode types n) :=
  kept_ofNode_of_constructor hP (kept_withConstructor hP hheader types _)

variable (hheader : ∀ n : Node, P (header n))
include hheader

theorem kept_ofNode (types : TypeTable) (n : Node) : P (ofNode types n) :=
  kept_ofNode_of_header hP (hheader n) types

/-- What holds of every header and is kept holds of every struct of a file. -/
theorem kept_ofTree {root : Node} {d : StructDecl} (hd : d ∈ ofTree root) : P d := by
  obtain ⟨n, -, rfl⟩ := List.mem_map.mp hd
  exact kept_ofNode hP hheader _ n

end Reading

/-! ## What is added -/

@[simp] theorem members_pushMember (d : StructDecl) (m : Member) :
    (d.pushMember m).members = d.members.push { m with id := d.members.size } := rfl

@[simp] theorem groups_pushMember (d : StructDecl) (m : Member) :
    (d.pushMember m).groups = d.groups := by
  unfold pushMember addSymbol
  dsimp only
  split <;> rfl

@[simp] theorem members_pushGroup (d : StructDecl) (g : PropertyGroup) :
    (d.pushGroup g).members = d.members := by
  unfold pushGroup addSymbol
  dsimp only
  split <;> rfl

@[simp] theorem groups_pushGroup (d : StructDecl) (g : PropertyGroup) :
    (d.pushGroup g).groups = d.groups.push { g with id := d.groups.size } := rfl

@[simp] theorem members_pushEvent (d : StructDecl) (e : CustomEvent) :
    (d.pushEvent e).members = d.members := rfl

@[simp] theorem groups_pushEvent (d : StructDecl) (e : CustomEvent) :
    (d.pushEvent e).groups = d.groups := rfl

/-- Members that are added one after the other stand at the end in their order. -/
theorem members_pushAll {α : Type} (f : α → Member) (l : List α) (d : StructDecl) :
    (l.foldl (fun d a => d.pushMember (f a)) d).members.toList =
      d.members.toList ++ (l.zipIdx d.members.size).map fun p => { f p.1 with id := p.2 } := by
  induction l generalizing d with
  | nil => simp
  | cons a l ih => simp [ih]

theorem groups_pushAll {α : Type} (f : α → Member) (l : List α) (d : StructDecl) :
    (l.foldl (fun d a => d.pushMember (f a)) d).groups = d.groups := by
  induction l generalizing d with
  | nil => rfl
  | cons a l ih => rw [List.foldl_cons, ih, groups_pushMember]

/-- The group as it is added with its accessors. -/
def filledGroup (d : StructDecl) (g : PropertyGroup) (specs : List AccessorSpec) : PropertyGroup :=
  { g with
    id := d.groups.size
    accessors := List.range' d.members.size specs.length
    hasSynthesizedAccessor := specs.any (·.synthesized)
    hasMutableBacking := specs.any (·.writesBacking) }

theorem members_addAccessors (d : StructDecl) (g : PropertyGroup) (parameters : List Parameter)
    (returns : ReturnMode) (specs : List AccessorSpec) :
    (d.addAccessors g parameters returns specs).members.toList =
      d.members.toList ++ (specs.zipIdx d.members.size).map fun p =>
        { p.1.toMember d.groups.size g parameters returns with id := p.2 } := by
  unfold addAccessors
  dsimp only
  rw [members_pushAll, members_pushGroup]
  rfl

theorem groups_addAccessors (d : StructDecl) (g : PropertyGroup) (parameters : List Parameter)
    (returns : ReturnMode) (specs : List AccessorSpec) :
    (d.addAccessors g parameters returns specs).groups =
      d.groups.push (d.filledGroup g specs) := by
  unfold addAccessors
  dsimp only
  rw [groups_pushAll, groups_pushGroup]
  rfl

theorem member?_addAccessors (d : StructDecl) (g : PropertyGroup) (parameters : List Parameter)
    (returns : ReturnMode) {specs : List AccessorSpec} {k : Nat} {s : AccessorSpec}
    (hs : specs[k]? = some s) :
    (d.addAccessors g parameters returns specs).member? (d.members.size + k) =
      some { s.toMember d.groups.size g parameters returns with id := d.members.size + k } := by
  rw [member?, ← Array.getElem?_toList, members_addAccessors, List.getElem?_append_right (by simp)]
  simp [hs]

/-! ## What a node declares -/

/-- The accessors that are written in a list. -/
def writtenSpecs (list : Node) : List AccessorSpec :=
  (list.namedOfKind .accessorDeclaration).filterMap fun accessor =>
    (accessor.child? .name).bind (accessorSpec? accessor)

/-- A property or indexer before its accessors are added. -/
def groupHeader (n : Node) (kind : GroupKind) : PropertyGroup :=
  let name := if kind = .indexer then n.childOfKind? .thisToken else n.child? .name
  { name := if kind = .indexer then "this" else (name.map (·.text)).getD ""
    kind
    modifiers := .ofNode n
    explicitInterface := explicitInterface? n
    anchor := (name.getD n).span
    fixOffset := memberFixOffset n (n.child? .type)
    malformed := n.hasError }

theorem addGroup_eq (d : StructDecl) (n : Node) (kind : GroupKind) :
    d.addGroup n kind =
      let g := groupHeader n kind
      let parameters := if kind = .indexer then Parameter.ofList? (n.child? .parameters) else []
      let returns := ReturnMode.ofType? (n.child? .type)
      match (n.child? .value).filter (·.kind = .arrowExpressionClause), n.child? .accessors with
      | some body, _ =>
        d.addAccessors g parameters returns
          [{ role := .get, body := some body, anchor := none, fixOffset := g.fixOffset,
             malformed := n.hasError }]
      | none, some list =>
        let unreadable := (list.namedOfKind .accessorDeclaration).any fun accessor =>
          (accessor.child? .name).isNone
        d.addAccessors { g with malformed := g.malformed || unreadable } parameters returns
          (writtenSpecs list)
      | none, none => d.addAccessors { g with malformed := true } parameters returns [] :=
  rfl

/-- The accessors that a property, an indexer or an event lists. -/
def listedAccessors (n : Node) : List Node :=
  match n.child? .accessors with
  | some list => list.namedOfKind .accessorDeclaration
  | none => []

theorem addEvent_eq (d : StructDecl) (n : Node) :
    d.addEvent n =
      match n.child? .name with
      | none => { d with hasBodyErrors := true }
      | some name =>
        let p := (listedAccessors n).foldl (addEventAccessor (.ofNode n) (explicitInterface? n))
          (d, { name := name.text, isStatic := (Modifiers.ofNode n).isStatic })
        if (explicitInterface? n).isNone then p.1.pushEvent p.2 else p.1 :=
  rfl

/-! ## Nothing is lost -/

/-- The second declaration starts with the members and groups of the first. -/
structure Extends (d d' : StructDecl) : Prop where
  members : d.members.toList <+: d'.members.toList
  groups : d.groups.toList <+: d'.groups.toList

theorem extends_refl (d : StructDecl) : d.Extends d := ⟨List.prefix_rfl, List.prefix_rfl⟩

theorem Extends.pushMember {d d' : StructDecl} (h : d.Extends d') (m : Member) :
    d.Extends (d'.pushMember m) := by
  refine ⟨h.members.trans ?_, ?_⟩
  · simp
  · rw [groups_pushMember]
    exact h.groups

theorem kept_extends (d : StructDecl) : Kept d.Extends where
  error := fun _ h => ⟨h.members, h.groups⟩
  event := fun _ _ _ h => ⟨h.members, h.groups⟩
  field := fun _ m _ _ h => h.pushMember m
  method := fun _ m _ _ _ _ h => h.pushMember m
  accessors := fun d' g parameters returns specs _ h => by
    refine ⟨h.members.trans ?_, h.groups.trans ?_⟩
    · simp [members_addAccessors]
    · simp [groups_addAccessors]

theorem Extends.mem {d d' : StructDecl} (h : d.Extends d') {m : Member} (hm : m ∈ d.members) :
    m ∈ d'.members :=
  Array.mem_toList_iff.mp (h.members.subset (Array.mem_toList_iff.mpr hm))

theorem Extends.member? {d d' : StructDecl} (h : d.Extends d') {id : Nat} {m : Member}
    (hm : d.member? id = some m) : d'.member? id = some m := by
  obtain ⟨rest, hrest⟩ := h.members
  rw [StructDecl.member?, ← Array.getElem?_toList] at hm ⊢
  rw [← hrest, List.getElem?_append_left (List.getElem?_eq_some_iff.mp hm).1]
  exact hm

theorem Extends.group? {d d' : StructDecl} (h : d.Extends d') {id : Nat} {g : PropertyGroup}
    (hg : d.group? id = some g) : d'.group? id = some g := by
  obtain ⟨rest, hrest⟩ := h.groups
  rw [StructDecl.group?, ← Array.getElem?_toList] at hg ⊢
  rw [← hrest, List.getElem?_append_left (List.getElem?_eq_some_iff.mp hg).1]
  exact hg

theorem Extends.groupOf? {d d' : StructDecl} (h : d.Extends d') {m : Member} {g : PropertyGroup}
    (hg : d.groupOf? m = some g) : d'.groupOf? m = some g := by
  obtain ⟨id, hid, hg⟩ := Option.bind_eq_some_iff.mp hg
  exact Option.bind_eq_some_iff.mpr ⟨id, hid, h.group? hg⟩

/-- What a group has when it is added with its accessors every group of a file has, if adding more
does not undo it. -/
theorem allGroups_ofTree {P : StructDecl → PropertyGroup → Prop}
    (hextends : ∀ {d d' : StructDecl} {g : PropertyGroup}, P d g → d.Extends d' → P d' g)
    (hadded : ∀ (d : StructDecl) (g : PropertyGroup) (parameters : List Parameter)
      (returns : ReturnMode) (specs : List AccessorSpec),
      P (d.addAccessors g parameters returns specs) (d.filledGroup g specs))
    {root : Node} {d : StructDecl} (hd : d ∈ ofTree root) : ∀ g ∈ d.groups, P d g := by
  have hmember : ∀ (d : StructDecl) (m : Member), (∀ g ∈ d.groups, P d g) →
      ∀ g ∈ (d.pushMember m).groups, P (d.pushMember m) g := by
    intro d m h g hg
    rw [groups_pushMember] at hg
    exact hextends (h g hg) ((extends_refl d).pushMember m)
  refine kept_ofTree (P := fun d => ∀ g ∈ d.groups, P d g) ?_ (fun n g hg => ?_) hd
  · exact
      { error := fun d h g hg => hextends (h g hg) ⟨List.prefix_rfl, List.prefix_rfl⟩
        event := fun d e _ h g hg => hextends (h g hg) ⟨List.prefix_rfl, List.prefix_rfl⟩
        field := fun d m _ _ h => hmember d m h
        method := fun d m _ _ _ _ h => hmember d m h
        accessors := fun d g parameters returns specs hanchored h x hx => by
          have hnew := (kept_extends d).accessors d g parameters returns specs hanchored
            (extends_refl d)
          rw [groups_addAccessors] at hx
          rcases Array.mem_push.mp hx with hx | rfl
          · exact hextends (h x hx) hnew
          · exact hadded d g parameters returns specs }
  · simp [header] at hg

/-- What depends only on the name and the places of the struct is kept. -/
theorem kept_of_place {P : String → Span → Nat → Prop} :
    Kept fun d => P d.name d.anchor d.fixOffset := by
  have hsymbol : ∀ (d : StructDecl) (named : Bool) (name : String) (symbol : Symbol),
      P d.name d.anchor d.fixOffset → P (d.addSymbol named name symbol).name
        (d.addSymbol named name symbol).anchor (d.addSymbol named name symbol).fixOffset := by
    intro d named name symbol hd
    cases named <;> exact hd
  refine
    { error := fun d hd => hd
      event := fun d e _ hd => hsymbol d _ _ _ hd
      field := fun d m _ _ hd => hsymbol d _ _ _ hd
      method := fun d m _ _ _ _ hd => hsymbol d _ _ _ hd
      accessors := fun d g parameters returns specs _ hd => ?_ }
  unfold addAccessors
  refine kept_foldl (P := fun d => P d.name d.anchor d.fixOffset) (fun d s hd => ?_) specs ?_
  · exact hsymbol d _ _ _ hd
  · exact hsymbol d _ _ _ hd

theorem name_ofNode (types : TypeTable) (n : Node) :
    (ofNode types n).name = ((n.child? .name).map (·.text)).getD "<unnamed>" :=
  kept_ofNode_of_header (kept_of_place (P := fun name _ _ =>
    name = ((n.child? .name).map (·.text)).getD "<unnamed>")) rfl types

/-! ## Every member -/

/-- Every way of adding a member gives the property, whatever id the member then has. -/
structure Given (p : Member → Prop) : Prop where
  renumber : ∀ (m : Member) (id : Nat), p m → p { m with id }
  field : ∀ m : Member, m.isField → m.body = none → p m
  accessor : ∀ (s : AccessorSpec) (id : Nat) (g : PropertyGroup) (parameters : List Parameter)
    (returns : ReturnMode), p (s.toMember id g parameters returns)
  /-- Methods, operators and accessors of events. -/
  method : ∀ m : Member, m.isField = false → m.synthesized = false → p m

/-- Every member of the declaration has the property. -/
def AllMembers (p : Member → Prop) (d : StructDecl) : Prop := ∀ m ∈ d.members, p m

theorem kept_allMembers {p : Member → Prop} (hp : Given p) : Kept (AllMembers p) := by
  have hpush : ∀ (d : StructDecl) (m : Member), p m → d.AllMembers p →
      (d.pushMember m).AllMembers p := by
    intro d m hm hd x hx
    rcases Array.mem_push.mp hx with hx | rfl
    · exact hd x hx
    · exact hp.renumber m _ hm
  refine
    { error := fun d hd => hd
      event := fun d e _ hd => hd
      field := fun d m hfield hbody hd => hpush d m (hp.field m hfield hbody) hd
      method := fun d m hfield _ hsyn _ hd => hpush d m (hp.method m hfield hsyn) hd
      accessors := fun d g parameters returns specs _ hd m hm => ?_ }
  rw [← Array.mem_toList_iff, members_addAccessors, List.mem_append] at hm
  rcases hm with hm | hm
  · exact hd m (Array.mem_toList_iff.mp hm)
  · obtain ⟨p, -, rfl⟩ := List.mem_map.mp hm
    exact hp.renumber _ _ (hp.accessor p.1 _ _ _ _)

/-- A property that every way of adding a member gives holds of every member of a file. -/
theorem allMembers_ofTree {p : Member → Prop} (hp : Given p) {root : Node} {d : StructDecl}
    (hd : d ∈ ofTree root) : d.AllMembers p :=
  kept_ofTree (kept_allMembers hp) (fun n m hm => by simp [header] at hm) hd

/-- A member with a body is no field, and the compiler does not supply it. -/
theorem given_inspected :
    Given fun m => m.body.isSome → m.isField = false ∧ m.synthesized = false where
  renumber := fun _ _ h => h
  field := fun m _ hm hbody => by simp [hm] at hbody
  accessor := fun s id g parameters returns hbody => by
    refine ⟨rfl, ?_⟩
    simpa [AccessorSpec.toMember, AccessorSpec.synthesized] using hbody
  method := fun m h1 h2 _ => ⟨h1, h2⟩

/-! ## Places -/

/-- Members and groups are numbered by their places. -/
structure Numbered (d : StructDecl) : Prop where
  member : ∀ {id : Nat} {m : Member}, d.member? id = some m → m.id = id
  group : ∀ {id : Nat} {g : PropertyGroup}, d.group? id = some g → g.id = id

theorem Numbered.member?_of_mem {d : StructDecl} (h : d.Numbered) {m : Member}
    (hm : m ∈ d.members) : d.member? m.id = some m := by
  obtain ⟨id, hid⟩ := Array.mem_iff_getElem?.mp hm
  rw [h.member hid]
  exact hid

theorem Numbered.group?_of_mem {d : StructDecl} (h : d.Numbered) {g : PropertyGroup}
    (hg : g ∈ d.groups) : d.group? g.id = some g := by
  obtain ⟨id, hid⟩ := Array.mem_iff_getElem?.mp hg
  rw [h.group hid]
  exact hid

theorem lt_of_member? {d : StructDecl} {id : Nat} {m : Member} (h : d.member? id = some m) :
    id < d.members.size := (Array.getElem?_eq_some_iff.mp h).1

theorem Numbered.pushMember {d : StructDecl} (h : d.Numbered) (m : Member) :
    (d.pushMember m).Numbered := by
  refine ⟨fun {id x} hx => ?_, fun {id g} hg => h.group (by simpa [group?] using hg)⟩
  rw [member?, members_pushMember, Array.getElem?_push] at hx
  split at hx
  · cases hx
    exact Eq.symm ‹_›
  · exact h.member hx

theorem kept_numbered : Kept Numbered where
  error := fun _ h => ⟨h.member, h.group⟩
  event := fun _ _ _ h => ⟨h.member, h.group⟩
  field := fun _ m _ _ h => h.pushMember m
  method := fun _ m _ _ _ _ h => h.pushMember m
  accessors := fun d g parameters returns specs _ h => by
    unfold addAccessors
    refine kept_foldl (fun d s h => h.pushMember _) specs ⟨fun hm => ?_, fun {id x} hx => ?_⟩
    · rw [member?, members_pushGroup] at hm
      exact h.member hm
    · rw [group?, groups_pushGroup, Array.getElem?_push] at hx
      split at hx
      · cases hx
        exact Eq.symm ‹_›
      · exact h.group hx

theorem numbered_header (n : Node) : (header n).Numbered :=
  ⟨fun h => by simp [member?, header] at h, fun h => by simp [group?, header] at h⟩

/-- Accessors and their groups know each other. -/
structure Linked (d : StructDecl) : Prop where
  group : ∀ m ∈ d.members, ∀ id ∈ m.kind.group?, ∃ g, d.group? id = some g ∧ m.id ∈ g.accessors
  accessor : ∀ g ∈ d.groups, ∀ id ∈ g.accessors,
    ∃ m, d.member? id = some m ∧ m.kind.group? = some g.id

theorem Linked.pushMember {d : StructDecl} (h : d.Linked) {m : Member} (hm : m.kind.group? = none) :
    (d.pushMember m).Linked := by
  refine ⟨fun x hx id hid => ?_, fun g hg id hid => ?_⟩
  · rw [group?, groups_pushMember]
    rcases Array.mem_push.mp hx with hx | rfl
    · exact h.group x hx id hid
    · simp [hm] at hid
  · rw [groups_pushMember] at hg
    obtain ⟨x, hx, hkind⟩ := h.accessor g hg id hid
    have hlt := lt_of_member? hx
    refine ⟨x, ?_, hkind⟩
    rw [member?, members_pushMember, Array.getElem?_push, if_neg (by omega)]
    exact hx

theorem kept_linked : Kept Linked where
  error := fun _ h => ⟨h.group, h.accessor⟩
  event := fun _ _ _ h => ⟨h.group, h.accessor⟩
  field := fun _ m hm _ h => h.pushMember (by
    obtain ⟨id, name, kind⟩ := m
    cases kind <;> first | rfl | cases hm)
  method := fun _ _ _ hm _ _ h => h.pushMember hm
  accessors := fun d g parameters returns specs _ h => by
    refine ⟨fun m hm id hid => ?_, fun x hx id hid => ?_⟩
    · rw [group?, groups_addAccessors, Array.getElem?_push]
      rw [← Array.mem_toList_iff, members_addAccessors, List.mem_append] at hm
      rcases hm with hm | hm
      · obtain ⟨x, hx, hin⟩ := h.group m (Array.mem_toList_iff.mp hm) id hid
        have hlt : id < d.groups.size := (Array.getElem?_eq_some_iff.mp hx).1
        rw [if_neg (by omega)]
        exact ⟨x, hx, hin⟩
      · -- a new accessor belongs to the new group, in which its place is listed
        obtain ⟨⟨s, place⟩, hs, rfl⟩ := List.mem_map.mp hm
        obtain ⟨hle, hlt, -⟩ := List.mem_zipIdx hs
        have hgroup : id = d.groups.size := by
          simpa [AccessorSpec.toMember, MemberKind.group?] using hid.symm
        rw [if_pos hgroup]
        refine ⟨_, rfl, ?_⟩
        simp only [filledGroup, List.mem_range'_1]
        exact ⟨hle, hlt⟩
    · rw [groups_addAccessors] at hx
      rw [member?, ← Array.getElem?_toList, members_addAccessors]
      rcases Array.mem_push.mp hx with hx | rfl
      · obtain ⟨m, hm, hkind⟩ := h.accessor x hx id hid
        have hlt := lt_of_member? hm
        rw [List.getElem?_append_left (by simpa using hlt), Array.getElem?_toList]
        exact ⟨m, hm, hkind⟩
      · simp only [filledGroup, List.mem_range'_1] at hid
        rw [List.getElem?_append_right (by simpa using hid.1), List.getElem?_map,
          List.getElem?_zipIdx, Array.length_toList, List.getElem?_eq_getElem (by omega)]
        exact ⟨_, rfl, rfl⟩

theorem linked_header (n : Node) : (header n).Linked :=
  ⟨fun m hm => by simp [header] at hm, fun g hg => by simp [header] at hg⟩

theorem numbered_ofTree {root : Node} {d : StructDecl} (hd : d ∈ ofTree root) : d.Numbered :=
  kept_ofTree kept_numbered numbered_header hd

theorem linked_ofTree {root : Node} {d : StructDecl} (hd : d ∈ ofTree root) : d.Linked :=
  kept_ofTree kept_linked linked_header hd

/-- The members of a file that mutate by themselves. -/
def mutatingNames (root : Node) : List String :=
  (ofTree root).flatMap fun d =>
    (d.members.toList.filter fun m => (d.analyzeMember m).mutates).map (·.name)

end StructDecl

end ReadonlyLint
