import Mathlib.Data.Set.Insert
import ReadonlyLint.Proofs.Members

/-!
What the table of types says of a name. It depends on the categories with which the file declares
the name and on nothing else: with one category that is the answer, with two of them nothing is
known, and with none the well-known names decide. So neither the order of the declarations nor their
number matters, and the name of a struct of the file is never taken for a reference type.
-/
namespace ReadonlyLint

/-! ## Joins of categories -/

namespace TypeCategory

/-- What is known of a name after one more declaration of it. -/
def noted (known : Option TypeCategory) (c : TypeCategory) : Option TypeCategory :=
  some (known.elim c (·.join c))

@[simp] theorem join_self (c : TypeCategory) : c.join c = c := if_pos rfl

theorem join_of_ne {a b : TypeCategory} (h : a ≠ b) : a.join b = .unknown := if_neg h

/-- Nothing makes an unknown category known again. -/
theorem foldl_noted_unknown (l : List TypeCategory) :
    l.foldl noted (some .unknown) = some .unknown := by
  induction l with
  | nil => rfl
  | cons c l ih =>
    have hstep : noted (some .unknown) c = some .unknown := by
      cases c <;> rfl
    rw [List.foldl_cons, hstep, ih]

/-- A repeated declaration adds nothing. -/
theorem foldl_noted_of_eq {l : List TypeCategory} {c : TypeCategory} (h : ∀ x ∈ l, x = c) :
    l.foldl noted (some c) = some c := by
  induction l with
  | nil => rfl
  | cons x l ih =>
    obtain ⟨hx, hl⟩ := List.forall_mem_cons.mp h
    subst hx
    have hstep : noted (some x) x = some x := by simp [noted]
    rw [List.foldl_cons, hstep, ih hl]

/-- Two different declarations leave the category unknown, however many are between them. -/
theorem foldl_noted_of_ne {l : List TypeCategory} {c x : TypeCategory} (hx : x ∈ l) (hne : x ≠ c) :
    l.foldl noted (some c) = some .unknown := by
  induction l with
  | nil => cases hx
  | cons y l ih =>
    rw [List.foldl_cons]
    by_cases hy : y = c
    · subst hy
      have hstep : noted (some y) y = some y := by simp [noted]
      have hin : x ∈ l := (List.mem_cons.mp hx).resolve_left hne
      rw [hstep, ih hin]
    · have hstep : noted (some c) y = some .unknown := by
        simp [noted, join_of_ne (Ne.symm hy)]
      rw [hstep, foldl_noted_unknown]

theorem foldl_noted_of_one {l : List TypeCategory} {c : TypeCategory} (hc : c ∈ l)
    (h : ∀ x ∈ l, x = c) : l.foldl noted none = some c := by
  obtain ⟨first, rest, rfl⟩ := List.exists_cons_of_ne_nil (List.ne_nil_of_mem hc)
  obtain ⟨hfirst, hrest⟩ := List.forall_mem_cons.mp h
  subst hfirst
  exact foldl_noted_of_eq hrest

theorem foldl_noted_of_two {l : List TypeCategory} {a b : TypeCategory} (ha : a ∈ l) (hb : b ∈ l)
    (hne : a ≠ b) : l.foldl noted none = some .unknown := by
  obtain ⟨first, rest, rfl⟩ := List.exists_cons_of_ne_nil (List.ne_nil_of_mem ha)
  change rest.foldl noted (some first) = some .unknown
  -- one of the two is not the first
  by_cases hfirst : a = first
  · subst hfirst
    exact foldl_noted_of_ne ((List.mem_cons.mp hb).resolve_left (Ne.symm hne)) (Ne.symm hne)
  · exact foldl_noted_of_ne ((List.mem_cons.mp ha).resolve_left hfirst) hfirst

end TypeCategory

/-! ## The declarations of a file -/

namespace Node

/-- Nodes that are reached from the root through named nodes, none of them a body. -/
inductive Outlined (root : Node) : Node → Prop
  | root : root.isBody = false → Outlined root root
  | child {n c : Node} : Outlined root n → c ∈ n.namedChildren → c.isBody = false → Outlined root c

/-- What is reached from a child of the root is reached from the root. -/
theorem Outlined.of_child {root c n : Node} (h : c.Outlined n) (hroot : root.isBody = false)
    (hc : c ∈ root.namedChildren) : root.Outlined n := by
  induction h with
  | root hbody => exact .child (.root hroot) hc hbody
  | child _ hx hbody ih => exact .child ih hx hbody

theorem outline_eq (n : Node) :
    n.outline = if n.isBody then [] else n :: n.namedChildren.flatMap outline := by
  unfold outline
  rw [reach_eq]
  cases n.isBody <;> rfl

theorem outlined_of_mem_outline {root n : Node} (h : n ∈ root.outline) : root.Outlined n := by
  induction root using below_induction with
  | step root ih =>
    rw [outline_eq] at h
    split at h
    · cases h
    · rename_i hbody
      have hroot : root.isBody = false := by simpa using hbody
      rcases List.mem_cons.mp h with rfl | h
      · exact .root hroot
      · obtain ⟨c, hc, hn⟩ := List.mem_flatMap.mp h
        exact (ih c (below_of_mem (mem_children_of_namedChildren hc)) hn).of_child hroot hc

/-- The outline goes on below every node in it. -/
theorem mem_outline_of_child {root n c : Node} (hn : n ∈ root.outline) (hc : c ∈ n.namedChildren)
    (hbody : c.isBody = false) : c ∈ root.outline := by
  induction root using below_induction with
  | step root ih =>
    rw [outline_eq] at hn ⊢
    split at hn
    · cases hn
    · rename_i hroot
      rw [if_neg hroot]
      refine List.mem_cons_of_mem _ ?_
      rcases List.mem_cons.mp hn with rfl | hn
      · refine List.mem_flatMap.mpr ⟨c, hc, ?_⟩
        rw [outline_eq, if_neg (by simp [hbody])]
        exact List.mem_cons_self
      · obtain ⟨x, hx, hin⟩ := List.mem_flatMap.mp hn
        exact List.mem_flatMap.mpr
          ⟨x, hx, ih x (below_of_mem (mem_children_of_namedChildren hx)) hin⟩

theorem mem_outline {root n : Node} : n ∈ root.outline ↔ root.Outlined n := by
  refine ⟨outlined_of_mem_outline, fun h => ?_⟩
  induction h with
  | root hbody =>
    rw [outline_eq, if_neg (by simp [hbody])]
    exact List.mem_cons_self
  | child _ hc hbody ih => exact mem_outline_of_child ih hc hbody

/-- The node declares a type of the name with the category. -/
def DeclaresType (n : Node) (name : String) (category : TypeCategory) : Prop :=
  n.declaredCategory? = some category ∧ (n.child? .name).map (·.text) = some name

theorem declaredType?_eq_some {n : Node} {name : String} {category : TypeCategory} :
    n.declaredType? = some (name, category) ↔ n.DeclaresType name category := by
  unfold declaredType? DeclaresType
  cases n.declaredCategory? <;> cases n.child? .name <;> simp [and_comm]

theorem category_of_declaredCategory? {n : Node} {category : TypeCategory}
    (h : n.declaredCategory? = some category) : category = .value ∨ category = .reference := by
  unfold declaredCategory? at h
  split at h
  all_goals cases h
  all_goals simp

theorem declaredCategory?_of_isStruct {n : Node} (h : n.isStruct = true) :
    n.declaredCategory? = some .value := by
  unfold isStruct at h
  by_cases hkind : n.kind = .structDeclaration
  · simp [declaredCategory?, hkind]
  · have hrecord : n.isRecordStruct = true := by simpa [hkind] using h
    have hkind : n.kind = .recordDeclaration := by
      simp only [isRecordStruct, Bool.and_eq_true, decide_eq_true_eq] at hrecord
      exact hrecord.1
    simp [declaredCategory?, hkind, hrecord]

/-- The categories with which a file declares types of the name outside of bodies. -/
def declaredCategories (root : Node) (name : String) : Set TypeCategory :=
  { category | ∃ n, root.Outlined n ∧ n.DeclaresType name category }

theorem declaredCategories_subset (root : Node) (name : String) :
    root.declaredCategories name ⊆ {.value, .reference} := by
  rintro category ⟨n, -, hcategory, -⟩
  simpa using category_of_declaredCategory? hcategory

/-- A type that is written with the name: as the name, with type arguments or qualifiers, and under
any number of `?`, `ref` and `scoped`. -/
inductive Spells (name : String) : Node → Prop
  | plain {n : Node} : n.kind = .identifier ∨ n.kind = .genericName ∨ n.kind = .qualifiedName ∨
      n.kind = .aliasQualifiedName → n.simpleName? = some name → Spells name n
  | wrapped {n inner : Node} : n.kind = .nullableType ∨ n.kind = .refType ∨ n.kind = .scopedType →
      n.child? .type = some inner → Spells name inner → Spells name n

end Node

/-! ## The table -/

namespace TypeTable

theorem lookup_record (t : TypeTable) (name other : String) (category : TypeCategory) :
    (t.record other category).declared.lookup name =
      if other = name then TypeCategory.noted (t.declared.lookup name) category
      else t.declared.lookup name := by
  unfold record
  by_cases hname : other = name
  · subst hname
    cases hknown : t.declared.lookup other <;> simp [insert, TypeCategory.noted]
  · have hbeq : (name == other) = false := by simpa using Ne.symm hname
    cases hknown : t.declared.lookup other <;> simp [insert, List.lookup_cons, hbeq, hname]

/-- The category of a name comes from the declarations of that name. -/
theorem lookup_foldl_record (l : List (String × TypeCategory)) (t : TypeTable) (name : String) :
    (l.foldl (fun t d => t.record d.1 d.2) t).declared.lookup name =
      ((l.filter (·.1 = name)).map (·.2)).foldl TypeCategory.noted (t.declared.lookup name) := by
  induction l generalizing t with
  | nil => rfl
  | cons d l ih =>
    rw [List.foldl_cons, ih, lookup_record]
    by_cases hname : d.1 = name
    · simp [hname]
    · simp [hname]

/-- The categories of a name, in the order of its declarations. -/
def categoriesIn (root : Node) (name : String) : List TypeCategory :=
  ((root.outline.filterMap (·.declaredType?)).filter (·.1 = name)).map (·.2)

theorem mem_categoriesIn {root : Node} {name : String} {category : TypeCategory} :
    category ∈ categoriesIn root name ↔ category ∈ root.declaredCategories name := by
  simp only [categoriesIn, List.mem_map, List.mem_filter, List.mem_filterMap, decide_eq_true_eq]
  constructor
  · rintro ⟨⟨_, _⟩, ⟨⟨n, hn, htype⟩, rfl⟩, rfl⟩
    exact ⟨n, Node.mem_outline.mp hn, Node.declaredType?_eq_some.mp htype⟩
  · rintro ⟨n, hn, hdeclares⟩
    exact ⟨(name, category), ⟨⟨n, Node.mem_outline.mpr hn, Node.declaredType?_eq_some.mpr hdeclares⟩,
      rfl⟩, rfl⟩

theorem lookup_ofTree (root : Node) (name : String) :
    (ofTree root).declared.lookup name = (categoriesIn root name).foldl TypeCategory.noted none :=
  lookup_foldl_record _ empty name

theorem lookup_ofTree_of_one {root : Node} {name : String} {category : TypeCategory}
    (h : root.declaredCategories name = {category}) :
    (ofTree root).declared.lookup name = some category := by
  rw [lookup_ofTree]
  refine TypeCategory.foldl_noted_of_one (mem_categoriesIn.mpr (by simp [h])) fun x hx => ?_
  simpa [h] using mem_categoriesIn.mp hx

theorem lookup_ofTree_of_two {root : Node} {name : String}
    (h : root.declaredCategories name = {.value, .reference}) :
    (ofTree root).declared.lookup name = some .unknown := by
  rw [lookup_ofTree]
  exact TypeCategory.foldl_noted_of_two (a := .value) (b := .reference)
    (mem_categoriesIn.mpr (by simp [h])) (mem_categoriesIn.mpr (by simp [h])) (by decide)

theorem lookup_ofTree_of_none {root : Node} {name : String}
    (h : root.declaredCategories name = ∅) : (ofTree root).declared.lookup name = none := by
  have hnone : categoriesIn root name = [] := by
    refine List.eq_nil_iff_forall_not_mem.mpr fun x hx => ?_
    simpa [h] using mem_categoriesIn.mp hx
  rw [lookup_ofTree, hnone]
  rfl

/-- Whatever else they hold, two files with the same categories of a name agree on it. -/
theorem lookup_ofTree_congr {root other : Node} {name : String}
    (h : other.declaredCategories name = root.declaredCategories name) :
    (ofTree other).declared.lookup name = (ofTree root).declared.lookup name := by
  rcases Set.subset_pair_iff_eq.mp (root.declaredCategories_subset name) with hS | hS | hS | hS
  · rw [lookup_ofTree_of_none hS, lookup_ofTree_of_none (h.trans hS)]
  · rw [lookup_ofTree_of_one hS, lookup_ofTree_of_one (h.trans hS)]
  · rw [lookup_ofTree_of_one hS, lookup_ofTree_of_one (h.trans hS)]
  · rw [lookup_ofTree_of_two hS, lookup_ofTree_of_two (h.trans hS)]

theorem lookup_ofTree_ne_reference {root : Node} {name : String}
    (h : .value ∈ root.declaredCategories name) :
    ∃ category, (ofTree root).declared.lookup name = some category ∧ category ≠ .reference := by
  rcases Set.subset_pair_iff_eq.mp (root.declaredCategories_subset name) with hS | hS | hS | hS
  · rw [hS] at h
    exact absurd h (Set.notMem_empty _)
  · exact ⟨_, lookup_ofTree_of_one hS, by decide⟩
  · rw [hS] at h
    cases h
  · exact ⟨_, lookup_ofTree_of_two hS, by decide⟩

/-! ## Written types -/

theorem categorize_eq (t : TypeTable) (generics : Bindings TypeCategory) (type : Node) :
    t.categorize generics type =
      match type.kind with
      | .predefinedType =>
        if type.text ∈ ["string", "object", "dynamic"] then .reference else .value
      | .arrayType => .reference
      | .pointerType | .functionPointerType | .tupleType => .value
      | .nullableType | .refType | .scopedType =>
        ((type.child? .type).map (t.categorize generics)).getD .unknown
      | .identifier | .genericName | .qualifiedName | .aliasQualifiedName =>
        (type.simpleName?.map (t.categorizeName generics)).getD .unknown
      | _ => .unknown := by
  fun_cases categorize t generics type <;> simp [*]

/-- A written type has the category of the name that it is written with. -/
theorem categorize_of_spells (t : TypeTable) (generics : Bindings TypeCategory) {type : Node}
    {name : String} (h : type.Spells name) :
    t.categorize generics type = t.categorizeName generics name := by
  induction h with
  | @plain n hkind hname =>
    rw [categorize_eq]
    rcases hkind with hkind | hkind | hkind | hkind <;>
      simp only [hkind, hname, Option.map_some, Option.getD_some]
  | @wrapped n inner hkind hinner _ ih =>
    rw [← ih, categorize_eq]
    rcases hkind with hkind | hkind | hkind <;>
      simp only [hkind, hinner, Option.map_some, Option.getD_some]

theorem categorize_of_free (t : TypeTable) {generics : Bindings TypeCategory} {type : Node}
    {name : String} (h : type.Spells name) (hfree : generics.lookup name = none) :
    t.categorize generics type = (t.declared.lookup name).getD (.ofWellKnown name) := by
  rw [categorize_of_spells t generics h]
  simp only [categorizeName, hfree]

end TypeTable

theorem Node.declaresType_of_isStruct {n id : Node} (h : n.isStruct = true)
    (hname : n.child? .name = some id) : n.DeclaresType id.text .value :=
  ⟨declaredCategory?_of_isStruct h, by rw [hname, Option.map_some]⟩

/-- A type that is written with a name that is no type parameter has the one category with which the
file declares the name. With both categories it is unknown, and without a declaration the well-known
names decide. So files that declare the name with the same categories agree on the type, and a type
that is written with the name of a struct of the file is never a reference type. -/
theorem the_type_table_joins_all_declarations (root : Node) {name : String}
    {generics : Bindings TypeCategory} (hfree : generics.lookup name = none) {type : Node}
    (htype : type.Spells name) :
    root.declaredCategories name ⊆ {.value, .reference} ∧
    (∀ category, root.declaredCategories name = {category} →
      (TypeTable.ofTree root).categorize generics type = category) ∧
    (root.declaredCategories name = {.value, .reference} →
      (TypeTable.ofTree root).categorize generics type = .unknown) ∧
    (root.declaredCategories name = ∅ →
      (TypeTable.ofTree root).categorize generics type = .ofWellKnown name) ∧
    (∀ other : Node, other.declaredCategories name = root.declaredCategories name →
      (TypeTable.ofTree other).categorize generics type =
        (TypeTable.ofTree root).categorize generics type) ∧
    ∀ d ∈ StructDecl.ofTree root, ∃ n : Node, root.Outlined n ∧ n.isStruct = true ∧
      d = .ofNode (.ofTree root) n ∧ ∀ id, n.child? .name = some id → d.name = id.text ∧
        (d.name = name → (TypeTable.ofTree root).categorize generics type ≠ .reference) := by
  have hcategory := fun root => (TypeTable.ofTree root).categorize_of_free htype hfree
  refine ⟨root.declaredCategories_subset name, ?_, ?_, ?_, ?_, ?_⟩
  · intro category h
    rw [hcategory, TypeTable.lookup_ofTree_of_one h, Option.getD_some]
  · intro h
    rw [hcategory, TypeTable.lookup_ofTree_of_two h, Option.getD_some]
  · intro h
    rw [hcategory, TypeTable.lookup_ofTree_of_none h, Option.getD_none]
  · intro other h
    rw [hcategory, hcategory, TypeTable.lookup_ofTree_congr h]
  · intro d hd
    obtain ⟨n, hn, rfl⟩ := List.mem_map.mp hd
    obtain ⟨houtline, hstruct⟩ := List.mem_filter.mp hn
    have houtlined := Node.mem_outline.mp houtline
    refine ⟨n, houtlined, hstruct, rfl, fun id hid => ?_⟩
    have hname : (StructDecl.ofNode (TypeTable.ofTree root) n).name = id.text := by
      rw [StructDecl.name_ofNode, hid, Option.map_some, Option.getD_some]
    refine ⟨hname, fun hsame => ?_⟩
    -- the struct itself is one of the declarations of the name
    have hvalue : .value ∈ root.declaredCategories name :=
      ⟨n, houtlined, hsame ▸ hname ▸ Node.declaresType_of_isStruct hstruct hid⟩
    obtain ⟨category, hlookup, hne⟩ := TypeTable.lookup_ofTree_ne_reference hvalue
    rw [hcategory, hlookup, Option.getD_some]
    exact hne

/-- The declaration `keyword A { }`. -/
def emptyType (kind token : Kind) (keyword name : String) (start : Nat) : Node :=
  let after := start + keyword.utf8ByteSize + 1
  .tree kind (keyword ++ " " ++ name ++ " \x7b \x7d") start
    [.word token keyword start, .tree .identifier name after [] (some .name),
     .tree (.other "declaration_list") "\x7b \x7d" (after + 2)
      [.word .openBrace "\x7b" (after + 2), .word .closeBrace "\x7d" (after + 4)] (some .body)]

/-- The file `class A { } struct A { } class A { } struct B { }`. -/
def repeatedTypes : Node :=
  .tree (.other "compilation_unit")
    "class A \x7b \x7d struct A \x7b \x7d class A \x7b \x7d struct B \x7b \x7d" 0
    [emptyType .classDeclaration .classToken "class" "A" 0,
     emptyType .structDeclaration .structToken "struct" "A" 12,
     emptyType .classDeclaration .classToken "class" "A" 25,
     emptyType .structDeclaration .structToken "struct" "B" 37]

/-- The type `name?` for a name of one letter. -/
def nullableOf (name : String) : Node :=
  .tree .nullableType (name ++ "?") 0
    [.tree .identifier name 0 [] (some .type), .word (.other "?") "?" 1]

theorem spells_nullableOf (name : String) : (nullableOf name).Spells name := by
  refine .wrapped (.inl rfl) rfl (.plain (.inl rfl) ?_)
  rw [Node.simpleName?_eq]
  rfl

/-- The two classes do not outvote the struct: `A?` stays unknown, and `B?` is a value. -/
theorem the_type_table_joins_repeated_types :
    ([] : Bindings TypeCategory).lookup "A" = none ∧ (nullableOf "A").Spells "A" ∧
      repeatedTypes.declaredCategories "A" = {.value, .reference} ∧
      (TypeTable.ofTree repeatedTypes).categorize [] (nullableOf "A") = .unknown ∧
      repeatedTypes.declaredCategories "B" = {.value} ∧
      (TypeTable.ofTree repeatedTypes).categorize [] (nullableOf "B") = .value := by
  have hA : repeatedTypes.declaredCategories "A" = {.value, .reference} := by
    have hlist : TypeTable.categoriesIn repeatedTypes "A" = [.reference, .value, .reference] := by
      decide +kernel
    ext category
    rw [← TypeTable.mem_categoriesIn, hlist]
    cases category <;> simp
  have hB : repeatedTypes.declaredCategories "B" = {.value} := by
    have hlist : TypeTable.categoriesIn repeatedTypes "B" = [.value] := by
      decide +kernel
    ext category
    rw [← TypeTable.mem_categoriesIn, hlist, List.mem_singleton, Set.mem_singleton_iff]
  have hfree : ∀ name, ([] : Bindings TypeCategory).lookup name = none := fun _ => rfl
  obtain ⟨-, -, hboth, -⟩ :=
    the_type_table_joins_all_declarations repeatedTypes (hfree "A") (spells_nullableOf "A")
  obtain ⟨-, hone, -⟩ :=
    the_type_table_joins_all_declarations repeatedTypes (hfree "B") (spells_nullableOf "B")
  exact ⟨hfree "A", spells_nullableOf "A", hA, hboth hA, hB, hone .value hB⟩

end ReadonlyLint
