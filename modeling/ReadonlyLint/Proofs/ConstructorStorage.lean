import ReadonlyLint.Proofs.DeclaredStorage
import ReadonlyLint.Proofs.Names
import ReadonlyLint.Proofs.Writes

/-!
The parameters of primary constructors are storage of the instance. A struct gains a mutable field
for each, a record struct a property whose accessors the compiler supplies. The members of the body
are added after them, so the name of a parameter means that storage: its writes are seen, and the
struct is not suggested as a whole. There is one exception: a parameter `params T[] name`, which the
parser spreads over the list, is read as a parameter and gives no storage.
-/
namespace ReadonlyLint

open Node Walk

/-! ## Two readers of one list -/

/-- The node is the name of a parameter `params T[] name`, whose parts stand in the list itself. -/
def Node.isSpreadName (n : Node) : Bool := n.kind = .identifier && n.field = some .name

/-- The names of the parameters of a list. -/
def Parameter.namesOf (list : Node) : List String := (Parameter.ofList list).map (·.name)

/-- The list less the names of parameters that are spread over it. -/
def Node.withoutSpread (list : Node) : Node :=
  { list with children := list.children.filter (!·.isSpreadName) }

theorem Parameter.isSome_ofChild?_of_isSpreadName {c : Node} (h : c.isSpreadName = true) :
    (Parameter.ofChild? c).isSome := by
  simp only [Node.isSpreadName, Bool.and_eq_true, decide_eq_true_eq] at h
  simp [Parameter.ofChild?, h.1, h.2]

/-- Nothing is lost from a list just when there is nothing to leave out. -/
theorem filterMap_filter_eq_iff {α β : Type} {p : α → Bool} {f : α → Option β}
    (hf : ∀ a, p a = true → (f a).isSome) (l : List α) :
    (l.filter (!p ·)).filterMap f = l.filterMap f ↔ ∀ a ∈ l, p a = false := by
  constructor
  · intro heq a ha
    by_contra hp
    obtain ⟨before, after, rfl⟩ := List.append_of_mem ha
    obtain ⟨b, hb⟩ := Option.isSome_iff_exists.mp (hf a (by simpa using hp))
    have hlength := congrArg List.length heq
    have hbefore := ((List.filter_sublist (p := (!p ·)) (l := before)).filterMap f).length_le
    have hafter := ((List.filter_sublist (p := (!p ·)) (l := after)).filterMap f).length_le
    simp [List.filter_append, List.filterMap_append, hb, hp] at hlength
    omega
  · intro hall
    rw [List.filter_eq_self.mpr fun a ha => by simp [hall a ha]]

theorem Parameter.namesOf_eq (list : Node) :
    Parameter.namesOf list = list.children.filterMap fun c => (Parameter.ofChild? c).map (·.name) :=
  List.map_filterMap

namespace StructDecl

/-- A primary constructor gives storage to all names of the list but the spread ones. -/
theorem names_primaryParameters {list : Node}
    (hnamed : ∀ c ∈ list.children, c.kind = .parameter → c.named = true) :
    (primaryParameters list).map (·.2.text) = Parameter.namesOf list.withoutSpread := by
  rw [Parameter.namesOf_eq, primaryParameters, Node.namedOfKind, Node.namedChildren,
    List.map_filterMap, Node.withoutSpread, List.filterMap_filter, List.filterMap_filter,
    List.filterMap_filter]
  apply List.filterMap_congr
  intro c hc
  by_cases hparameter : c.kind = .parameter
  · have hnamed := hnamed c hc hparameter
    have hspread : c.isSpreadName = false := by simp [Node.isSpreadName, hparameter]
    rw [hnamed, hspread, Parameter.ofChild?, hparameter]
    unfold Parameter.ofNode?
    cases hname : c.child? .name <;> simp
  · by_cases hspread : c.isSpreadName = true
    · simp [hparameter, hspread]
    · -- no other child is read as a parameter
      have hnone : Parameter.ofChild? c = none := by
        unfold Parameter.ofChild?
        split
        · contradiction
        · rename_i hkind
          simpa [Node.isSpreadName, hkind] using hspread
        · rfl
      simp [hparameter, hnone]

/-! ## What a primary constructor adds -/

/-- The field for a parameter of a struct. -/
def constructorField (types : TypeTable) (generics : Bindings TypeCategory) (p : Node × Node) :
    Member :=
  let info := typeInfo types generics (p.1.child? .type)
  { name := p.2.text
    kind := .field { typeName := info.1, category := info.2 }
    anchor := some p.2.span
    fixOffset := p.1.span.start
    malformed := p.1.hasError }

/-- The property for a parameter of a record struct, before its accessors are added. -/
def positionalGroup (p : Node × Node) : PropertyGroup :=
  { name := p.2.text
    kind := .property
    anchor := p.2.span
    fixOffset := p.1.span.start
    malformed := p.1.hasError }

def positionalSpec (p : Node × Node) (role : AccessorRole) : AccessorSpec :=
  { role, body := none, anchor := some p.2.span, fixOffset := p.1.span.start, malformed := false }

/-- Adds the property for a parameter of a record struct. -/
def addPositional (setter : AccessorRole) (d : StructDecl) (p : Node × Node) : StructDecl :=
  d.addAccessors (positionalGroup p) [] (.ofType? (p.1.child? .type))
    [positionalSpec p .get, positionalSpec p setter]

/-- The accessor of a record struct that writes a parameter. -/
def positionalSetter (d : StructDecl) : AccessorRole := if d.isReadonly then .init else .set

theorem addConstructorStorage_eq (types : TypeTable) (generics : Bindings TypeCategory)
    (d : StructDecl) (list : Node) :
    d.addConstructorStorage types generics list =
      (primaryParameters list).foldl
        (fun d p => d.pushMember (constructorField types generics p)) d :=
  rfl

theorem addPositionalProperties_eq (d : StructDecl) (list : Node) :
    d.addPositionalProperties list =
      (primaryParameters list).foldl (addPositional d.positionalSetter) d :=
  rfl

/-- The declaration has a mutable field for each of the names, in their order, and nothing else. -/
structure HasFieldsOnly (d : StructDecl) (names : List String) : Prop where
  listed : d.members.toList.map (·.name) = names
  fields : ∀ m ∈ d.members, m.isMutableField = true ∧ m.isNamed = true
  groups : d.groups = #[]

/-- The member is an accessor of the property that the compiler supplies. -/
def Supplies (d : StructDecl) (id : Nat) (g : PropertyGroup) (role : AccessorRole) : Prop :=
  ∃ m, d.member? id = some m ∧ m.kind = .accessor .property g.id role ∧ m.synthesized = true ∧
    m.malformed = false ∧ m.isStatic = false

/-- The property has a getter and a setter, both of which the compiler supplies. -/
structure IsPositional (d : StructDecl) (setter : AccessorRole) (g : PropertyGroup) : Prop where
  named : g.isNamed = true
  ofInstance : g.isStatic = false
  synthesized : g.hasSynthesizedAccessor = true
  accessors : ∃ get set, g.accessors = [get, set] ∧ d.Supplies get g .get ∧ d.Supplies set g setter

/-- The declaration has a property with supplied accessors for each of the names, in their order,
and nothing else. -/
structure HasPropertiesOnly (d : StructDecl) (setter : AccessorRole) (names : List String) :
    Prop where
  listed : d.groups.toList.map (·.name) = names
  properties : ∀ g ∈ d.groups, d.IsPositional setter g
  members : d.members.size = 2 * names.length

theorem hasFieldsOnly_addConstructorStorage (types : TypeTable)
    (generics : Bindings TypeCategory) (n list : Node) :
    ((header n).addConstructorStorage types generics list).HasFieldsOnly
      ((primaryParameters list).map (·.2.text)) := by
  rw [addConstructorStorage_eq]
  have hmembers := members_pushAll (constructorField types generics) (primaryParameters list)
    (header n)
  refine ⟨?_, ?_, groups_pushAll _ _ _⟩
  · rw [hmembers, List.map_append, List.map_map]
    have hfirst := List.zipIdx_map_fst (header n).members.size (primaryParameters list)
    nth_rewrite 2 [← hfirst]
    rw [List.map_map]
    rfl
  · intro m hm
    rw [← Array.mem_toList_iff, hmembers] at hm
    obtain ⟨p, -, rfl⟩ := List.mem_map.mp hm
    exact ⟨rfl, rfl⟩

theorem Extends.isPositional {d d' : StructDecl} (h : d.Extends d') {setter : AccessorRole}
    {g : PropertyGroup} (hg : d.IsPositional setter g) : d'.IsPositional setter g := by
  obtain ⟨get, set, haccessors, hget, hset⟩ := hg.accessors
  have hsupplies : ∀ {id role}, d.Supplies id g role → d'.Supplies id g role := by
    rintro id role ⟨m, hm, hsupplied⟩
    exact ⟨m, h.member? hm, hsupplied⟩
  exact ⟨hg.named, hg.ofInstance, hg.synthesized, get, set, haccessors, hsupplies hget,
    hsupplies hset⟩

/-- Each parameter of a record struct adds its property. -/
theorem HasPropertiesOnly.addPositional {d : StructDecl} {setter : AccessorRole}
    {names : List String} (h : d.HasPropertiesOnly setter names) (p : Node × Node) :
    (d.addPositional setter p).HasPropertiesOnly setter (names ++ [p.2.text]) := by
  have hextends : d.Extends (d.addPositional setter p) :=
    (kept_extends d).accessors d _ _ _ _ (anchored_of_isSome (by simp [positionalSpec]))
      (extends_refl d)
  have hmembers := members_addAccessors d (positionalGroup p) [] (.ofType? (p.1.child? .type))
    [positionalSpec p .get, positionalSpec p setter]
  have hgroups := groups_addAccessors d (positionalGroup p) [] (.ofType? (p.1.child? .type))
    [positionalSpec p .get, positionalSpec p setter]
  have hsize : (d.addPositional setter p).members.size = d.members.size + 2 := by
    rw [← Array.length_toList]
    unfold StructDecl.addPositional
    rw [hmembers]
    simp
  refine ⟨?_, ?_, ?_⟩
  · unfold StructDecl.addPositional
    rw [hgroups, Array.toList_push, List.map_append, h.listed]
    rfl
  · intro g hg
    unfold StructDecl.addPositional at hg
    rw [hgroups, Array.mem_push] at hg
    rcases hg with hg | rfl
    · exact hextends.isPositional (h.properties g hg)
    · refine ⟨rfl, rfl, rfl, d.members.size, d.members.size + 1, rfl, ?_, ?_⟩
      · exact ⟨_, member?_addAccessors d _ _ _ (k := 0) rfl, rfl, rfl, rfl, rfl⟩
      · exact ⟨_, member?_addAccessors d _ _ _ (k := 1) rfl, rfl, rfl, rfl, rfl⟩
  · rw [hsize, h.members, List.length_append, List.length_singleton]
    omega

theorem HasPropertiesOnly.foldl {setter : AccessorRole} (ps : List (Node × Node))
    {d : StructDecl} {names : List String} (h : d.HasPropertiesOnly setter names) :
    (ps.foldl (StructDecl.addPositional setter) d).HasPropertiesOnly setter
      (names ++ ps.map (·.2.text)) := by
  induction ps generalizing d names with
  | nil => simpa using h
  | cons p ps ih =>
    have hrest := ih (h.addPositional p)
    rwa [List.append_assoc] at hrest

/-- A struct gains a field for each name. -/
theorem hasFieldsOnly_withConstructor (types : TypeTable) (generics : Bindings TypeCategory)
    {s list : Node} (hlist : s.childOfKind? .parameterList = some list)
    (hkind : s.kind ≠ .recordDeclaration) :
    (withConstructor types generics s).HasFieldsOnly ((primaryParameters list).map (·.2.text)) := by
  have hrecord : (header s).isRecord = false := decide_eq_false hkind
  unfold withConstructor
  rw [hlist]
  dsimp only
  rw [if_neg (by simp [hrecord])]
  exact hasFieldsOnly_addConstructorStorage types generics s list

/-- A record struct gains a property for each name. -/
theorem hasPropertiesOnly_withConstructor (types : TypeTable) (generics : Bindings TypeCategory)
    {s list : Node} (hlist : s.childOfKind? .parameterList = some list)
    (hkind : s.kind = .recordDeclaration) :
    (withConstructor types generics s).HasPropertiesOnly (header s).positionalSetter
      ((primaryParameters list).map (·.2.text)) := by
  have hrecord : (header s).isRecord = true := decide_eq_true hkind
  have hheader : (header s).HasPropertiesOnly (header s).positionalSetter [] :=
    ⟨rfl, fun g hg => by simp [header] at hg, rfl⟩
  unfold withConstructor
  rw [hlist]
  dsimp only
  rw [if_pos hrecord, addPositionalProperties_eq]
  exact hheader.foldl (primaryParameters list)

/-! ## What the names mean -/

/-- What is first in a list is first when more is added after it. -/
theorem exists_find?_of_prefix {α : Type} {l l' : List α} (h : l <+: l') {p : α → Bool} {x : α}
    (hx : x ∈ l) (hp : p x = true) : ∃ a ∈ l, l'.find? p = some a := by
  obtain ⟨rest, rfl⟩ := h
  obtain ⟨a, ha⟩ := Option.isSome_iff_exists.mp (List.find?_isSome.mpr ⟨x, hx, hp⟩)
  refine ⟨a, List.mem_of_find?_eq_some ha, ?_⟩
  rw [List.find?_append, ha, Option.some_or]

/-- The name of a gained field means such a field, unless a property or an event takes it. -/
theorem HasFieldsOnly.resolve {d d' : StructDecl} {names : List String}
    (h : d.HasFieldsOnly names) (hextends : d.Extends d') (hlogged : d'.Logged) {name : String}
    (hname : name ∈ names) (hgroups : ∀ g ∈ d'.groups, g.isNamed = true → g.name ≠ name)
    (hevents : ∀ e ∈ d'.events, e.name ≠ name) :
    ∃ m ∈ d.members, d'.resolve name = some (.field m) := by
  rw [← h.listed] at hname
  obtain ⟨x, hx, hxname⟩ := List.mem_map.mp hname
  obtain ⟨hmutable, hnamed⟩ := h.fields x (Array.mem_toList_iff.mp hx)
  simp only [Member.isMutableField, Bool.and_eq_true] at hmutable
  -- the gained fields come first, so that no member of the body is found before them
  obtain ⟨m, hm, hfield⟩ := exists_find?_of_prefix
    (hextends.members.filter fun m => m.isNamed && m.name = name)
    (List.mem_filter.mpr ⟨hx, by simp [hnamed, hxname]⟩) hmutable.1.1
  refine ⟨m, Array.mem_toList_iff.mp (List.mem_filter.mp hm).1, ?_⟩
  have hnogroup : (d'.groups.toList.filter fun g => g.isNamed && g.name = name) = [] := by
    rw [List.filter_eq_nil_iff]
    intro g hg
    simpa using hgroups g (Array.mem_toList_iff.mp hg)
  have hnoevent : (d'.events.toList.filter fun e => e.name = name) = [] := by
    rw [List.filter_eq_nil_iff]
    intro e he
    simpa using hevents e (Array.mem_toList_iff.mp he)
  rw [resolve_eq_preferred hlogged, hnogroup, hnoevent]
  exact preferred_of_field hfield

/-- The name of a gained property means such a property. -/
theorem HasPropertiesOnly.resolve {d d' : StructDecl} {setter : AccessorRole} {names : List String}
    (h : d.HasPropertiesOnly setter names) (hextends : d.Extends d') (hlogged : d'.Logged)
    {name : String} (hname : name ∈ names) :
    ∃ g ∈ d.groups, d'.resolve name = some (.property g) := by
  rw [← h.listed] at hname
  obtain ⟨x, hx, hxname⟩ := List.mem_map.mp hname
  have hnamed := (h.properties x (Array.mem_toList_iff.mp hx)).named
  obtain ⟨g, hg, hfirst⟩ := exists_find?_of_prefix hextends.groups hx
    (p := fun g => g.isNamed && g.name = name) (by simp [hnamed, hxname])
  refine ⟨g, Array.mem_toList_iff.mp hg, ?_⟩
  rw [resolve_eq_preferred hlogged]
  exact preferred_of_group (by rw [List.head?_filter, hfirst]) _ _

/-! ## Writes of the names -/

/-- Every write of the name, where nothing binds it or through `this`, is noted as one of the field
of the name, and a member that assigns `this.name` mutates. -/
structure NotesWrites (d : StructDecl) (name : String) : Prop where
  noted : ∀ v : Viewpoint, v.decl = d →
    ∀ (use : Use) (access : Access) (x : Node) (outer : List Node) (w : Walk),
      use.Fits → use.access? = some access → ¬ x.IsName "_" →
      x.Names (use.reached v outer x w).scope name →
        ∃ found, (visit v outer (use.fill x) w).evidence = w.evidence ++ found ∧
          { mutation := if access = .reference then .referenceEscape name else .fieldWrite name
            span := some x.span } ∈ found
  mutates : d.isReadonly = false → ∀ m ∈ d.members, m.AssignsThis name →
    d.verdicts.verdict m.id = .mutating

/-- Every write of the name, where nothing binds it or through `this`, uses a setter that the
compiler supplies. If the struct is not `readonly`, the setter mutates and so does a member that
assigns `this.name`. -/
structure UsesSetter (d : StructDecl) (name : String) : Prop where
  setter : ∃ id, (∀ v : Viewpoint, v.decl = d →
    ∀ (use : Use) (access : Access) (x : Node) (outer : List Node) (w : Walk),
      use.Fits → use.access? = some access → ¬ x.IsName "_" →
      x.Names (use.reached v outer x w).scope name → id ∈ (visit v outer (use.fill x) w).uses) ∧
    (d.isReadonly = false → d.verdicts.verdict id = .mutating)
  mutates : d.isReadonly = false → ∀ m ∈ d.members, m.AssignsThis name →
    d.verdicts.verdict m.id = .mutating

section Written

variable {d : StructDecl} (hnumbered : d.Numbered)
  (hinspected : d.AllMembers fun m => m.body.isSome → m.isField = false ∧ m.synthesized = false)
include hnumbered hinspected

theorem notesWrites_of_resolve {name : String} {field : Member}
    (hfield : d.resolve name = some (.field field)) (hstatic : field.isStatic = false) :
    d.NotesWrites name := by
  have hstorage : ∀ v : Viewpoint, v.decl = d → v.memberStorage name = .field name := by
    intro v hv
    simp [Viewpoint.memberStorage, hv, hfield, hstatic]
  refine ⟨?_, ?_⟩
  · intro v hv use access x outer w hfits hwrites hdiscard hx
    exact Use.evidence_fill_of_writes (hstorage v hv) use outer w hfits hwrites hdiscard hx
  · intro hreadonly m hm hassigns
    refine verdict_of_mutates hreadonly hnumbered hm ?_
    refine analyzeMember_of_assignsThis (hinspected m hm) hassigns lasting_mutates ?_
    intro n slot x outer w hx
    obtain ⟨found, hfound, hmem⟩ := Use.evidence_fill_of_writes (hstorage (d.viewpoint m) rfl)
      (.assigned n slot) outer w trivial rfl (hx.not_isName "_") (Or.inr hx)
    simp [LocalAnalysis.mutates, Walk.analysis, hfound, List.ne_nil_of_mem hmem]

omit hinspected in
/-- The supplied setter of a struct that is not `readonly` mutates. -/
theorem verdict_of_supplies (hreadonly : d.isReadonly = false) {id : Nat} {g : PropertyGroup}
    (hset : d.Supplies id g .set) : d.verdicts.verdict id = .mutating := by
  obtain ⟨m, hm, hkind, hsynthesized, hmalformed, hstatic⟩ := hset
  have hverdict := verdict_of_mutates hreadonly hnumbered (Array.mem_of_getElem? hm) (by
    simp [analyzeMember, Member.isField, Member.field?, MemberKind.field?, hkind, hstatic,
      hmalformed, MemberKind.isInitOnly, hsynthesized, MemberKind.isSetter, unseen,
      LocalAnalysis.mutates])
  rwa [hnumbered.member hm] at hverdict

theorem usesSetter_of_resolve {name : String} {g : PropertyGroup} (hg : g ∈ d.groups)
    (hresolve : d.resolve name = some (.property g))
    (hpositional : d.IsPositional d.positionalSetter g) : d.UsesSetter name := by
  obtain ⟨get, id, haccessors, -, hset⟩ := hpositional.accessors
  have hstorage : ∀ v : Viewpoint, v.decl = d → v.memberStorage name = .property g.id := by
    intro v hv
    simp [Viewpoint.memberStorage, hv, hresolve, hpositional.ofInstance]
  have huses : ∀ v : Viewpoint, v.decl = d → ∀ (w : Walk) (read : Bool),
      id ∈ (useGroup v w g.id read true).uses := by
    rintro v rfl w read
    obtain ⟨m, hm, hkind, -⟩ := hset
    have hsets : m.kind.isSetter = true := by
      rw [hkind, positionalSetter]
      split <;> rfl
    refine MemberSet.mem_insertAll.mpr (Or.inl ?_)
    rw [hnumbered.group?_of_mem hg]
    simp [haccessors, hm, hsets]
  have hmutating : d.isReadonly = false → d.verdicts.verdict id = .mutating := by
    intro hreadonly
    rw [positionalSetter, hreadonly] at hset
    exact verdict_of_supplies hnumbered hreadonly hset
  refine ⟨⟨id, ?_, hmutating⟩, ?_⟩
  · intro v hv use access x outer w hfits hwrites hdiscard hx
    exact Use.mem_uses_fill_of_writes (hstorage v hv) (huses v hv) use outer w hfits hwrites
      hdiscard hx
  · intro hreadonly m hm hassigns
    refine verdict_of_use hnumbered hm ?_ (hmutating hreadonly)
    refine analyzeMember_of_assignsThis (hinspected m hm) hassigns (lasting_uses id) ?_
    intro n slot x outer w hx
    exact Use.mem_uses_fill_of_writes (hstorage (d.viewpoint m) rfl) (huses (d.viewpoint m) rfl)
      (.assigned n slot) outer w trivial rfl (hx.not_isName "_") (Or.inr hx)

end Written

theorem extends_ofNode (types : TypeTable) (n : Node) :
    (withConstructor types (genericCategories n) n).Extends (ofNode types n) :=
  kept_ofNode_of_constructor (kept_extends _) (extends_refl _)

theorem inspected_ofNode (types : TypeTable) (n : Node) : (ofNode types n).AllMembers
    fun m => m.body.isSome → m.isField = false ∧ m.synthesized = false :=
  kept_ofNode (kept_allMembers given_inspected) (fun n m hm => by simp [header] at hm) types n

theorem positionalSetter_header (n : Node) :
    (header n).positionalSetter = if "readonly" ∈ n.modifierTexts then .init else .set := by
  have hreadonly : (header n).isReadonly = decide ("readonly" ∈ n.modifierTexts) := rfl
  unfold positionalSetter
  rw [hreadonly]
  simp only [decide_eq_true_eq]

theorem positionalSetter_ofNode (types : TypeTable) (n : Node) :
    (ofNode types n).positionalSetter = (header n).positionalSetter := by
  unfold positionalSetter isReadonly
  rw [modifiers_ofNode]
  rfl

end StructDecl

/-- A struct with storage from its constructor is not suggested as a whole. -/
theorem StructDecl.rule_of_primaryParameters {types : TypeTable} {s list : Node}
    (hlist : s.childOfKind? .parameterList = some list) (hsome : primaryParameters list ≠ [])
    {r : Resolution} {options : SuggestionOptions} {found : Suggestion}
    (hfound : found ∈ (ofNode types s).suggestions r options) : found.rule ≠ .readonlyStruct := by
  intro hrule
  obtain ⟨hreadonly, -, -, hstorage⟩ := of_canBeReadonly
    (canBeReadonly_of_mem_suggestions hfound hrule)
  rw [isReadonly, modifiers_ofNode] at hreadonly
  obtain ⟨p, hp⟩ := List.exists_mem_of_ne_nil _ hsome
  obtain ⟨parameter, hparameter, hname⟩ := List.mem_filterMap.mp hp
  obtain ⟨name, hname, -⟩ := Option.map_eq_some_iff.mp hname
  have hconstructor := hasMutableStorage_withConstructor types (genericCategories s)
    (of_decide_eq_false hreadonly) hlist hparameter (by rw [hname]; rfl)
  rw [kept_ofNode_of_constructor kept_hasMutableStorage hconstructor] at hstorage
  cases hstorage

/-- The parameters of a primary constructor are storage of the instance: each that is a node of its
own becomes a mutable field of a struct, or a property with supplied accessors of a record struct,
in order. The names mean that storage, so that their writes are seen, and the struct is never
suggested as a whole. A parameter `params T[] name` that is spread over the list is overlooked, and
only that. -/
theorem constructor_parameters_are_storage (types : TypeTable) {s list : Node}
    (hlist : s.childOfKind? .parameterList = some list)
    (hnamed : ∀ c ∈ list.children, c.kind = .parameter → c.named = true) :
    let d := StructDecl.ofNode types s
    let gained := StructDecl.withConstructor types (genericCategories s) s
    let names := Parameter.namesOf list.withoutSpread
    gained.Extends d ∧
    (s.kind ≠ .recordDeclaration → gained.HasFieldsOnly names ∧ ∀ name ∈ names,
      (∀ g ∈ d.groups, g.isNamed = true → g.name ≠ name) → (∀ e ∈ d.events, e.name ≠ name) →
        (∃ m ∈ gained.members, d.resolve name = some (.field m)) ∧ d.NotesWrites name) ∧
    (s.kind = .recordDeclaration →
      gained.HasPropertiesOnly (if "readonly" ∈ s.modifierTexts then .init else .set) names ∧
      ∀ name ∈ names,
        (∃ g ∈ gained.groups, d.resolve name = some (.property g)) ∧ d.UsesSetter name) ∧
    (names ≠ [] → ∀ (r : Resolution) (options : SuggestionOptions),
      ∀ found ∈ d.suggestions r options, found.rule ≠ .readonlyStruct) ∧
    (names = Parameter.namesOf list ↔ ∀ c ∈ list.children, c.isSpreadName = false) := by
  have hextends := StructDecl.extends_ofNode types s
  have hlogged := StructDecl.kept_ofNode StructDecl.kept_logged StructDecl.logged_header types s
  have hnumbered :=
    StructDecl.kept_ofNode StructDecl.kept_numbered StructDecl.numbered_header types s
  have hinspected := StructDecl.inspected_ofNode types s
  have hnames := StructDecl.names_primaryParameters hnamed
  refine ⟨hextends, ?_, ?_, ?_, ?_⟩
  · intro hkind
    have hfields := StructDecl.hasFieldsOnly_withConstructor types (genericCategories s) hlist hkind
    rw [hnames] at hfields
    refine ⟨hfields, fun name hname hgroups hevents => ?_⟩
    obtain ⟨m, hm, hresolve⟩ := hfields.resolve hextends hlogged hname hgroups hevents
    have hmutable := (hfields.fields m hm).1
    simp only [Member.isMutableField, Bool.and_eq_true, Bool.not_eq_true'] at hmutable
    exact ⟨⟨m, hm, hresolve⟩,
      StructDecl.notesWrites_of_resolve hnumbered hinspected hresolve hmutable.1.2⟩
  · intro hkind
    have hproperties :=
      StructDecl.hasPropertiesOnly_withConstructor types (genericCategories s) hlist hkind
    rw [hnames] at hproperties
    refine ⟨StructDecl.positionalSetter_header s ▸ hproperties, fun name hname => ?_⟩
    obtain ⟨g, hg, hresolve⟩ := hproperties.resolve hextends hlogged hname
    have hpositional := hextends.isPositional (hproperties.properties g hg)
    rw [← StructDecl.positionalSetter_ofNode types] at hpositional
    have hmem : g ∈ (StructDecl.ofNode types s).groups :=
      Array.mem_toList_iff.mp (hextends.groups.subset (Array.mem_toList_iff.mpr hg))
    exact ⟨⟨g, hg, hresolve⟩,
      StructDecl.usesSetter_of_resolve hnumbered hinspected hmem hresolve hpositional⟩
  · intro hsome r options found hfound
    rw [← hnames, ne_eq, List.map_eq_nil_iff] at hsome
    exact StructDecl.rule_of_primaryParameters hlist hsome hfound
  · have hiff := filterMap_filter_eq_iff
      (f := fun c => (Parameter.ofChild? c).map (·.name)) (p := Node.isSpreadName)
      (fun c hc => by simpa using Parameter.isSome_ofChild?_of_isSpreadName hc) list.children
    rw [Parameter.namesOf_eq, Parameter.namesOf_eq]
    exact hiff

/-- The file `struct S… { void M() { p = null; } }` with the given parameter list. -/
def assigningFile (list : Node) : Node :=
  let start := list.span.stop + 1
  let block := .tree .block "\x7b p = null; \x7d" (start + 11)
    [.word .openBrace "\x7b" (start + 11),
     .tree (.other "expression_statement") "p = null;" (start + 13)
      [.tree .assignmentExpression "p = null" (start + 13)
        [.tree .identifier "p" (start + 13) [] (some .left),
         .word .assign "=" (start + 15) (some .operator),
         .tree (.other "null_literal") "null" (start + 17) [] (some .right)],
       .word (.other ";") ";" (start + 21)],
     .word .closeBrace "\x7d" (start + 23)]
  let method := Node.voidMethod "M" (start + 2) block
  let body := .tree (.other "declaration_list") ("\x7b " ++ method.text ++ " \x7d") start
    [.word .openBrace "\x7b" start, method, .word .closeBrace "\x7d" (start + 25)] (some .body)
  let declaration := .tree .structDeclaration ("struct S" ++ list.text ++ " " ++ body.text) 0
    [.word .structToken "struct" 0, .tree .identifier "S" 7 [] (some .name), list, body]
  .tree (.other "compilation_unit") declaration.text 0 [declaration]

def assigningStruct (list : Node) : Node :=
  ((assigningFile list).outline.filter (·.isStruct)).head!

def assigningStructDecl (list : Node) : StructDecl :=
  .ofNode (.ofTree (assigningFile list)) (assigningStruct list)

/-- The type `int[]`. -/
def intArray (start : Nat) : Node :=
  .tree .arrayType "int[]" start
    [.tree .predefinedType "int" start [] (some .type),
     .tree (.other "array_rank_specifier") "[]" (start + 3)
      [.word (.other "[") "[" (start + 3), .word (.other "]") "]" (start + 4)]
      (some (.other "rank"))]
    (some .type)

/-- The list `(int[] p)`. -/
def ordinaryList : Node :=
  .tree .parameterList "(int[] p)" 8
    [.word .openParen "(" 8,
     .tree .parameter "int[] p" 9 [intArray 9, .tree .identifier "p" 15 [] (some .name)],
     .word .closeParen ")" 16]

/-- In `struct S(int[] p)` the parameter is a field, which `M` writes, and `S` is not suggested. -/
theorem an_assigned_parameter_is_storage :
    (StructDecl.withConstructor (.ofTree (assigningFile ordinaryList))
        (genericCategories (assigningStruct ordinaryList))
        (assigningStruct ordinaryList)).HasFieldsOnly (Parameter.namesOf ordinaryList) ∧
      Parameter.namesOf ordinaryList = ["p"] ∧
      (assigningStructDecl ordinaryList).NotesWrites "p" ∧
      (assigningStructDecl ordinaryList).verdicts.verdict 1 = .mutating ∧
      ∀ options, ∀ found ∈ (assigningStructDecl ordinaryList).suggestions
        (assigningStructDecl ordinaryList).verdicts options, found.rule ≠ .readonlyStruct := by
  have hlist : (assigningStruct ordinaryList).childOfKind? .parameterList = some ordinaryList := rfl
  obtain ⟨-, hstruct, -, hwhole, hall⟩ := constructor_parameters_are_storage
    (.ofTree (assigningFile ordinaryList)) hlist (by decide +kernel)
  have hnames : Parameter.namesOf ordinaryList = ["p"] := by decide +kernel
  rw [hall.mpr (by decide +kernel)] at hstruct hwhole
  obtain ⟨hfields, hwrites⟩ := hstruct (by decide +kernel)
  have hnotes := (hwrites "p" (by simp [hnames]) (by decide +kernel) (by decide +kernel)).2
  exact ⟨hfields, hnames, hnotes, by decide +kernel, hwhole (by simp [hnames]) _⟩

/-- The list `(params int[] p)`. -/
def spreadList : Node :=
  .tree .parameterList "(params int[] p)" 8
    [.word .openParen "(" 8, .word (.other "params") "params" 9, intArray 16,
     .tree .identifier "p" 22 [] (some .name), .word .closeParen ")" 23]

/-- In `struct S(params int[] p)` the parameter is no storage: `M` is not taken to mutate, and `S`
is suggested. -/
theorem a_spread_parameter_is_overlooked :
    Parameter.namesOf spreadList = ["p"] ∧
      (assigningStruct spreadList).childOfKind? .parameterList = some spreadList ∧
      (assigningStructDecl spreadList).members.toList.map (·.name) = ["M"] ∧
      (assigningStructDecl spreadList).verdicts.verdict 0 = .notMutating ∧
      ((assigningStructDecl spreadList).suggestions (assigningStructDecl spreadList).verdicts
        {}).map (·.rule) = [.readonlyStruct] :=
  ⟨by decide +kernel, rfl, by decide +kernel, by decide +kernel, by decide +kernel⟩

end ReadonlyLint
