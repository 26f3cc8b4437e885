import ReadonlyLint.Proofs.Subtree
import ReadonlyLint.Proofs.Verdicts

/-!
Storage as it is written. Each node of a struct that declares storage of the instance that stays
writable, or that cannot be read, leaves a trace in the declaration: mutable storage, or an error.
The reader never takes such a trace back. So a struct that is suggested as a whole has no such node,
also not inside of preprocessor regions.
-/
namespace ReadonlyLint

namespace Node

/-! ## Nodes without storage -/

/-- The second node is a member of the body: it stands there itself or in regions of the
preprocessor. Keywords and marks are no members, unless the parser supplied them. -/
inductive HasMember : Node → Node → Prop where
  | child {body c : Node} : c ∈ body.children → (∀ name, c.kind ≠ .preprocessor name) →
      c.named = true ∨ c.missing = true → HasMember body c
  | region {body part c : Node} {name : String} : part ∈ body.children →
      part.kind = .preprocessor name → HasMember part c → HasMember body c

/-- A declaration of fields, or of events stored as fields. -/
def declaresFields (n : Node) : Bool :=
  n.kind = .fieldDeclaration || n.kind = .eventFieldDeclaration

/-- A declaration of a property or indexer by the accessors in a list. -/
def listsAccessors (n : Node) : Bool :=
  (n.kind = .propertyDeclaration || n.kind = .indexerDeclaration) &&
    !(n.child? .value).any (·.kind = .arrowExpressionClause)

/-- A member of a body can be read and adds no storage of the instance that stays writable. -/
structure AddsNoStorage (n : Node) : Prop where
  readable : n.kind ≠ .error
  declared : n.declaresFields → (n.childOfKind? .variableDeclaration).isSome
  fields : n.declaresFields → ∀ declaration ∈ n.childOfKind? .variableDeclaration,
    ∀ declarator ∈ declaration.namedOfKind .variableDeclarator, (declarator.child? .name).isSome →
      "readonly" ∈ n.modifierTexts ∨ "static" ∈ n.modifierTexts ∨ "const" ∈ n.modifierTexts
  setters : n.listsAccessors → "static" ∉ n.modifierTexts → ∀ list ∈ n.child? .accessors,
    ∀ accessor ∈ list.namedOfKind .accessorDeclaration,
      (accessor.child? .name).any (·.kind = .setToken) → (accessor.child? .body).isSome

/-- A struct can be read and declares no storage of the instance that stays writable. -/
structure DeclaresNoStorage (s : Node) : Prop where
  notReadonly : "readonly" ∉ s.modifierTexts
  notPartial : "partial" ∉ s.modifierTexts
  readable : ∀ c ∈ s.children, c.kind ≠ .error ∧ c.missing = false
  members : ∀ body ∈ s.child? .body, ∀ c, body.HasMember c → c.AddsNoStorage
  parameters : ∀ list ∈ s.childOfKind? .parameterList,
    ∀ parameter ∈ list.namedOfKind .parameter, parameter.child? .name = none

/-- The reader looks at the members of a body. -/
theorem mem_memberNodes_iff {body c : Node} : c ∈ memberNodes body ↔ body.HasMember c := by
  induction body using below_induction with
  | step body ih =>
    rw [memberNodes_eq, List.mem_flatMap]
    constructor
    · rintro ⟨part, hpart, hc⟩
      unfold membersAt at hc
      split at hc
      · exact .region hpart ‹_› ((ih part (below_of_mem hpart)).mp hc)
      · split at hc
        · cases List.mem_singleton.mp hc
          exact .child hpart ‹_› (by simpa using ‹(c.named || c.missing) = true›)
        · cases hc
    · intro h
      cases h with
      | child hc hkind hseen =>
        refine ⟨c, hc, ?_⟩
        unfold membersAt
        split
        · exact absurd ‹_› (hkind _)
        · simp [hseen]
      | region hpart hkind h =>
        rename_i part name
        refine ⟨part, hpart, ?_⟩
        simp only [membersAt, hkind]
        exact (ih part (below_of_mem hpart)).mpr h

end Node

namespace StructDecl

/-! ## What the reader never takes back -/

@[simp] theorem modifiers_addSymbol (d : StructDecl) (named : Bool) (name : String)
    (symbol : Symbol) : (d.addSymbol named name symbol).modifiers = d.modifiers := by
  unfold addSymbol
  split <;> rfl

@[simp] theorem hasBodyErrors_addSymbol (d : StructDecl) (named : Bool) (name : String)
    (symbol : Symbol) : (d.addSymbol named name symbol).hasBodyErrors = d.hasBodyErrors := by
  unfold addSymbol
  split <;> rfl

/-- What depends only on modifiers and errors, and stays with more errors, is kept. -/
theorem kept_of_header {P : Modifiers → Bool → Prop} (h : ∀ modifiers errors,
    P modifiers errors → P modifiers true) : Kept fun d => P d.modifiers d.hasBodyErrors where
  error := fun d hd => h _ _ hd
  event := fun d e _ hd => by simpa [pushEvent] using hd
  field := fun d m _ _ hd => by simpa [pushMember] using hd
  method := fun d m _ _ _ _ hd => by simpa [pushMember] using hd
  accessors := fun d g parameters returns specs _ hd => by
    unfold addAccessors
    refine kept_foldl (P := fun d => P d.modifiers d.hasBodyErrors) ?_ specs ?_
    · intro d s hd
      simpa [pushMember] using hd
    · simpa [pushGroup] using hd

theorem modifiers_ofNode (types : TypeTable) (n : Node) :
    (ofNode types n).modifiers = .ofNode n :=
  kept_ofNode_of_header (kept_of_header (P := fun modifiers _ => modifiers = .ofNode n)
    fun _ _ h => h) rfl types

theorem kept_hasBodyErrors : Kept fun d => d.hasBodyErrors = true :=
  kept_of_header (P := fun _ errors => errors = true) fun _ _ _ => rfl

theorem hasMutableStorage_iff {d : StructDecl} :
    d.hasMutableStorage = true ↔ (∃ m ∈ d.members, m.isMutableField) ∨
      ∃ g ∈ d.groups, g.hasMutableBacking = true ∧ g.isStatic = false := by
  unfold hasMutableStorage mutableStorage
  simp only [Bool.not_eq_true', List.isEmpty_eq_false_iff, ne_eq, List.append_eq_nil_iff,
    List.map_eq_nil_iff, List.filter_eq_nil_iff, Array.mem_toList_iff, not_and_or, not_forall,
    not_not, not_or, exists_prop, Bool.and_eq_true]

theorem Extends.hasMutableStorage {d d' : StructDecl} (h : d.Extends d')
    (hd : d.hasMutableStorage = true) : d'.hasMutableStorage = true := by
  rw [hasMutableStorage_iff] at *
  rcases hd with ⟨m, hm, hmutable⟩ | ⟨g, hg, hmutable⟩
  · exact Or.inl ⟨m, h.mem hm, hmutable⟩
  · refine Or.inr ⟨g, ?_, hmutable⟩
    rw [← Array.mem_toList_iff] at *
    exact h.groups.subset hg

theorem kept_hasMutableStorage : Kept fun d => d.hasMutableStorage = true where
  error := fun _ hd => hd
  event := fun _ _ _ hd => hd
  field := fun d m hfield hbody hd =>
    ((kept_extends d).field d m hfield hbody (extends_refl d)).hasMutableStorage hd
  method := fun d m hfield hgroup hsyn hanchor hd =>
    ((kept_extends d).method d m hfield hgroup hsyn hanchor (extends_refl d)).hasMutableStorage hd
  accessors := fun d g parameters returns specs hanchored hd =>
    ((kept_extends d).accessors d g parameters returns specs hanchored
      (extends_refl d)).hasMutableStorage hd

/-! ## What adds mutable storage -/

theorem hasMutableStorage_pushMember (d : StructDecl) {m : Member} (hm : m.isMutableField) :
    (d.pushMember m).hasMutableStorage = true := by
  rw [hasMutableStorage_iff, members_pushMember]
  exact Or.inl ⟨_, Array.mem_push_self, hm⟩

theorem hasMutableStorage_addAccessors (d : StructDecl) {g : PropertyGroup}
    (hg : g.isStatic = false) (parameters : List Parameter) (returns : ReturnMode)
    {specs : List AccessorSpec} {s : AccessorSpec} (hs : s ∈ specs) (hwrites : s.writesBacking) :
    (d.addAccessors g parameters returns specs).hasMutableStorage = true := by
  rw [hasMutableStorage_iff, groups_addAccessors]
  refine Or.inr ⟨_, Array.mem_push_self, ?_, hg⟩
  exact List.any_eq_true.mpr ⟨s, hs, hwrites⟩

theorem hasMutableStorage_addFields (types : TypeTable) (generics : Bindings TypeCategory)
    (d : StructDecl) {n declaration declarator : Node} (isEvent : Bool)
    (hdeclaration : n.childOfKind? .variableDeclaration = some declaration)
    (hdeclarator : declarator ∈ declaration.namedOfKind .variableDeclarator)
    (hname : (declarator.child? .name).isSome)
    (hmutable : "readonly" ∉ n.modifierTexts ∧ "static" ∉ n.modifierTexts ∧
      "const" ∉ n.modifierTexts) :
    (d.addFields types generics n isEvent).hasMutableStorage = true := by
  obtain ⟨name, hname⟩ := Option.isSome_iff_exists.mp hname
  obtain ⟨hreadonly, hstatic, hconst⟩ := hmutable
  unfold addFields
  rw [hdeclaration]
  refine foldl_of_step (P := fun d => d.hasMutableStorage = true) ?_
    (List.mem_filterMap.mpr ⟨declarator, hdeclarator, hname⟩) ?_ d
  · intro d name hd
    exact kept_hasMutableStorage.field d _ rfl rfl hd
  · intro d
    apply hasMutableStorage_pushMember
    simp [Member.isMutableField, Member.isField, Member.field?, MemberKind.field?, Member.isStatic,
      Modifiers.ofNode, Modifiers.ofTexts, hreadonly, hstatic, hconst]

theorem hasMutableStorage_addGroup (d : StructDecl) {n list accessor keyword : Node}
    (kind : GroupKind) (hvalue : (n.child? .value).any (·.kind = .arrowExpressionClause) = false)
    (hstatic : "static" ∉ n.modifierTexts) (hlist : n.child? .accessors = some list)
    (haccessor : accessor ∈ list.namedOfKind .accessorDeclaration)
    (hkeyword : accessor.child? .name = some keyword) (hset : keyword.kind = .setToken)
    (hbody : accessor.child? .body = none) : (d.addGroup n kind).hasMutableStorage = true := by
  have hnone : (n.child? .value).filter (·.kind = .arrowExpressionClause) = none := by
    rw [← Option.isSome_filter] at hvalue
    exact Option.not_isSome_iff_eq_none.mp (Bool.not_eq_true _ ▸ hvalue)
  have hspec : accessorSpec? accessor keyword = some
      { role := .set, modifiers := .ofNode accessor, body := none, anchor := some keyword.span,
        fixOffset := keyword.span.start, malformed := accessor.hasError } := by
    simp [accessorSpec?, hset, hbody, AccessorRole.ofKind?]
  rw [addGroup_eq, hnone, hlist]
  apply hasMutableStorage_addAccessors
  · exact decide_eq_false hstatic
  · exact List.mem_filterMap.mpr ⟨accessor, haccessor, by rw [hkeyword]; exact hspec⟩
  · rfl

theorem hasMutableStorage_withConstructor (types : TypeTable) (generics : Bindings TypeCategory)
    {s list parameter : Node} (hreadonly : "readonly" ∉ s.modifierTexts)
    (hlist : s.childOfKind? .parameterList = some list)
    (hparameter : parameter ∈ list.namedOfKind .parameter)
    (hname : (parameter.child? .name).isSome) :
    (withConstructor types generics s).hasMutableStorage = true := by
  obtain ⟨name, hname⟩ := Option.isSome_iff_exists.mp hname
  have hmem : (parameter, name) ∈ primaryParameters list :=
    List.mem_filterMap.mpr ⟨parameter, hparameter, by rw [hname]; rfl⟩
  have hsetter : (header s).isReadonly = false := decide_eq_false hreadonly
  unfold withConstructor
  rw [hlist]
  dsimp only
  split
  · unfold addPositionalProperties
    refine foldl_of_step (P := fun d => d.hasMutableStorage = true) ?_ hmem ?_ _
    · intro d p hd
      exact kept_hasMutableStorage.accessors d _ _ _ _ (anchored_of_isSome (by simp)) hd
    · intro d
      rw [hsetter]
      exact hasMutableStorage_addAccessors d rfl _ _ (List.mem_cons_of_mem _ List.mem_cons_self) rfl
  · unfold addConstructorStorage
    refine foldl_of_step (P := fun d => d.hasMutableStorage = true) ?_ hmem ?_ _
    · intro d p hd
      exact kept_hasMutableStorage.field d _ rfl rfl hd
    · intro d
      exact hasMutableStorage_pushMember d rfl

/-! ## Each member of a body -/

/-- What holds of a struct that can be marked as a whole. -/
theorem of_canBeReadonly {d : StructDecl} {r : Resolution} (h : d.canBeReadonly r = true) :
    d.isReadonly = false ∧ d.isPartial = false ∧ d.hasBodyErrors = false ∧
      d.hasMutableStorage = false := by
  simp only [canBeReadonly, Bool.and_eq_true, Bool.not_eq_true'] at h
  exact ⟨h.1.1.1.1, h.1.1.1.2, h.1.1.2, h.1.2⟩

theorem addsNoStorage_of_hasMember {types : TypeTable} {s body n : Node}
    (hbody : s.child? .body = some body) (hn : body.HasMember n)
    (herrors : (ofNode types s).hasBodyErrors = false)
    (hstorage : (ofNode types s).hasMutableStorage = false) : n.AddsNoStorage := by
  rw [← Node.mem_memberNodes_iff] at hn
  have hread : ¬ ∀ d : StructDecl,
      (d.addMember types (genericCategories s) n).hasBodyErrors = true := by
    intro h
    rw [kept_ofNode_of_addMember kept_hasBodyErrors hbody hn h] at herrors
    cases herrors
  have hstore : ¬ ∀ d : StructDecl,
      (d.addMember types (genericCategories s) n).hasMutableStorage = true := by
    intro h
    rw [kept_ofNode_of_addMember kept_hasMutableStorage hbody hn h] at hstorage
    cases hstorage
  have hfields : n.declaresFields → ∃ isEvent, ∀ d : StructDecl,
      d.addMember types (genericCategories s) n =
        d.addFields types (genericCategories s) n isEvent := by
    intro hkind
    rcases Bool.or_eq_true _ _ ▸ hkind with hkind | hkind
    · exact ⟨false, fun d => by simp only [addMember, of_decide_eq_true hkind]⟩
    · exact ⟨true, fun d => by simp only [addMember, of_decide_eq_true hkind]⟩
  constructor
  · intro hkind
    refine hread fun d => ?_
    simp only [addMember, hkind]
  · intro hkind
    obtain ⟨isEvent, hadd⟩ := hfields hkind
    by_contra hnone
    refine hread fun d => ?_
    rw [hadd, addFields, Option.not_isSome_iff_eq_none.mp hnone]
  · intro hkind declaration hdeclaration declarator hdeclarator hname
    obtain ⟨isEvent, hadd⟩ := hfields hkind
    by_contra hmutable
    refine hstore fun d => ?_
    rw [hadd]
    exact hasMutableStorage_addFields types _ d isEvent hdeclaration hdeclarator hname
      (by simpa [not_or] using hmutable)
  · intro hlists hstatic list hlist accessor haccessor hset
    obtain ⟨keyword, hkeyword, hset⟩ := (Option.any_eq_true _ _).mp hset
    obtain ⟨hkind, hvalue⟩ := Bool.and_eq_true _ _ ▸ hlists
    obtain ⟨kind, hadd⟩ : ∃ kind, ∀ d : StructDecl,
        d.addMember types (genericCategories s) n = d.addGroup n kind := by
      rcases Bool.or_eq_true _ _ ▸ hkind with hkind | hkind
      · exact ⟨.property, fun d => by simp only [addMember, of_decide_eq_true hkind]⟩
      · exact ⟨.indexer, fun d => by simp only [addMember, of_decide_eq_true hkind]⟩
    by_contra hnone
    refine hstore fun d => ?_
    rw [hadd]
    exact hasMutableStorage_addGroup d kind (by simpa using hvalue) hstatic hlist haccessor hkeyword
      (of_decide_eq_true hset) (Option.not_isSome_iff_eq_none.mp hnone)

end StructDecl

/-! ## The law -/

/-- A suggestion for a whole struct has seen all its storage: the struct is neither `readonly` nor
`partial` nor broken, and none of its members and none of the parameters of its constructor is
storage of the instance that stays writable, as far as they are written there. -/
theorem a_suggested_struct_declares_no_storage {types : TypeTable} {s : Node} {r : Resolution}
    {options : SuggestionOptions} {found : Suggestion}
    (hfound : found ∈ (StructDecl.ofNode types s).suggestions r options)
    (hrule : found.rule = .readonlyStruct) : s.DeclaresNoStorage := by
  obtain ⟨hreadonly, hpartial, herrors, hstorage⟩ := StructDecl.of_canBeReadonly
    (StructDecl.canBeReadonly_of_mem_suggestions hfound hrule)
  rw [StructDecl.isReadonly, StructDecl.modifiers_ofNode] at hreadonly
  rw [StructDecl.isPartial, StructDecl.modifiers_ofNode] at hpartial
  have hreadonly : "readonly" ∉ s.modifierTexts := of_decide_eq_false hreadonly
  constructor
  · exact hreadonly
  · exact of_decide_eq_false hpartial
  · intro c hc
    by_contra hbroken
    have hheader : (StructDecl.header s).hasBodyErrors = true := by
      refine List.any_eq_true.mpr ⟨c, hc, ?_⟩
      by_cases hkind : c.kind = .error
      · simp [hkind]
      · simpa [hkind] using hbroken
    rw [StructDecl.kept_ofNode_of_header StructDecl.kept_hasBodyErrors hheader types] at herrors
    cases herrors
  · intro body hbody c hc
    exact StructDecl.addsNoStorage_of_hasMember hbody hc herrors hstorage
  · intro list hlist parameter hparameter
    by_contra hname
    have hconstructor := StructDecl.hasMutableStorage_withConstructor types (genericCategories s)
      hreadonly hlist hparameter (Option.isSome_iff_ne_none.mpr hname)
    rw [StructDecl.kept_ofNode_of_constructor StructDecl.kept_hasMutableStorage hconstructor]
      at hstorage
    cases hstorage

/-- The field `readonly int f;`. -/
def readonlyField : Node :=
  .tree .fieldDeclaration "readonly int f;" 11
    [.tree .modifier "readonly" 11 [.word .readonlyToken "readonly" 11],
     .tree .variableDeclaration "int f" 20
      [.tree .predefinedType "int" 20 [] (some .type),
       .tree .variableDeclarator "f" 24 [.tree .identifier "f" 24 [] (some .name)]],
     .word (.other ";") ";" 25]

/-- The file `struct S { readonly int f; int X { set { } } }`. -/
def frozenFile : Node :=
  .structOf [readonlyField, .intProperty "X" 27 [.accessor .setToken "set" 35 (.emptyBlock 39)]]

def frozenStruct : Node := (frozenFile.outline.filter (·.isStruct)).head!

def frozenDecl : StructDecl := .ofNode (.ofTree frozenFile) frozenStruct

/-- A field that is `readonly` and a `set` with a body are no storage that stays writable. -/
theorem a_struct_with_a_readonly_field_declares_no_storage :
    ∃ a, frozenDecl.analyze.result? .never = some a ∧
      (frozenDecl.suggestions a.resolution {}).map (·.rule) = [.readonlyStruct] ∧
      frozenStruct.DeclaresNoStorage := by
  have hrules : (frozenDecl.suggestions frozenDecl.verdicts {}).map (·.rule) =
      [.readonlyStruct] := by
    decide +kernel
  obtain ⟨found, hfound, hrule⟩ :=
    List.mem_map.mp (hrules ▸ List.mem_cons_self : Rule.readonlyStruct ∈ _)
  exact ⟨_, frozenDecl.result?_analyze_never, hrules,
    a_suggested_struct_declares_no_storage hfound hrule⟩

end ReadonlyLint
