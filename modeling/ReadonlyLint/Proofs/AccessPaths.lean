import ReadonlyLint.Proofs.Qualified

/-!
Paths of accesses. Where the storage of `r.a[i].b` lives is decided by its root `r`: the first
access may leave the instance through a reference, and every further one stays where that led
(`Viewpoint.storage_of_path`). Any step of a path may stand in parentheses, as long as no comment
comes first in them: the rules take such a comment for what the parentheses hold.
-/
namespace ReadonlyLint

namespace Node

/-! ## Paths -/

/-- The node is the other in any number of parentheses, in each of which it comes first. -/
inductive Wraps : Node → Node → Prop
  | bare (t : Node) : Wraps t t
  | parens {n c t : Node} (kind : n.kind = .parenthesizedExpression) (first : n.inner? = some c)
      (inside : Wraps c t) : Wraps n t

/-- The node is an access to a member of the base, and not through `->`, or to an element of it. -/
def Accesses (t base : Node) : Prop :=
  t.child? .expression = some base ∧
    (t.kind = .memberAccessExpression ∧ t.hasChildOfKind .pointerArrow = false ∨
      t.kind = .elementAccessExpression)

/-- So many accesses lead from the root to the node. -/
inductive AccessPath (root : Node) : Nat → Node → Prop
  | root {n : Node} (parens : n.Wraps root) : AccessPath root 0 n
  | access {k : Nat} {base t n : Node} (path : AccessPath root k base) (on : t.Accesses base)
      (parens : n.Wraps t) : AccessPath root (k + 1) n

theorem Wraps.unparenthesize_eq {n t : Node} (h : n.Wraps t) :
    n.unparenthesize = t.unparenthesize := by
  induction h with
  | bare t => rfl
  | @parens n c t hkind hfirst _ ih =>
    rw [Node.unparenthesize_eq n, if_pos hkind, hfirst]
    exact ih

end Node

namespace Viewpoint

variable (v : Viewpoint) (scope : Scope)

/-! ## Storage along a path -/

/-- Where so many accesses lead from storage that is not the instance itself. -/
def along (s : Storage) : Nat → Storage
  | 0 => s
  | _ + 1 => v.select s .outside

/-- Through a field an access leads into it or out of the instance. -/
theorem throughField_eq_or (name : String) :
    v.throughField name = .inner name ∨ v.throughField name = .outside :=
  ite_eq_or_eq ..

/-- One access more leads from what the accesses so far have led to. -/
theorem select_along {s : Storage} (hs : s ≠ .self) (k : Nat) (onSelf : Storage) :
    v.select (v.along s k) onSelf = v.along s (k + 1) := by
  cases k with
  | zero =>
    cases s with
    | self => exact absurd rfl hs
    | _ => rfl
  | succ k =>
    cases s with
    | self => exact absurd rfl hs
    | field name =>
      rcases v.throughField_eq_or name with h | h
      · simp [along, select, h]
      · simp [along, select, h]
    | _ => rfl

theorem storage_of_wraps {n t : Node} (h : n.Wraps t) : v.storage scope n = v.storage scope t := by
  rw [v.storage_eq scope n, v.storage_eq scope t, h.unparenthesize_eq]

theorem storage_of_accesses {t base : Node} (h : t.Accesses base) :
    ∃ onSelf, v.storage scope t = v.select (v.storage scope base) onSelf := by
  obtain ⟨hbase, ⟨hk, harrow⟩ | hk⟩ := h
  · refine ⟨v.accessedMember t, ?_⟩
    rw [v.storage_eq scope t, Node.unparenthesize_of_ne (by simp [hk])]
    simp [storageOf, hk, harrow, hbase]
  · refine ⟨.indexer, ?_⟩
    rw [v.storage_eq scope t, Node.unparenthesize_of_ne (by simp [hk])]
    simp [storageOf, hk, hbase]

/-- The storage of a path follows from that of its root. -/
theorem storage_of_path {root n : Node} {k : Nat} (h : root.AccessPath k n)
    (hroot : v.storage scope root ≠ .self) :
    v.storage scope n = v.along (v.storage scope root) k := by
  induction h with
  | root parens => exact v.storage_of_wraps scope parens
  | access _ on parens ih =>
    obtain ⟨onSelf, haccess⟩ := v.storage_of_accesses scope on
    rw [v.storage_of_wraps scope parens, haccess, ih, v.select_along hroot]

end Viewpoint

/-! ## Roots -/

theorem StructDecl.field?_of_resolve {d : StructDecl} {name : String} {m : Member}
    (h : d.resolve name = some (.field m)) : ∃ info, m.field? = some info := by
  unfold resolve at h
  dsimp only at h
  split at h
  · cases h
  · cases h
  · rename_i hfirst
    cases h
    have hfield : m.isField = true := List.find?_some hfirst
    exact Option.isSome_iff_exists.mp hfield
  · cases h
  · cases h

/-- The storage of a local of the name. -/
def LocalKind.storage (name : String) : LocalKind → Storage
  | .plain | .ref false => .outside
  | .ref true => .inner name
  | .pointer intoInstance => .pointerVariable intoInstance

/-- An access through the field stays in the struct: its type is stored inline, or may be. -/
def FieldInfo.IsInline (info : FieldInfo) : Prop :=
  info.isFixedBuffer = true ∨ info.category ≠ .reference

/-- The storage is the one that the root decides, after so many accesses: a field, a local or a
property that it names, or the comment that hides what it holds. -/
structure Viewpoint.Decides (v : Viewpoint) (scope : Scope) (root : Node) (k : Nat) (s : Storage) :
    Prop where
  field : ∀ name m, root.Names scope name → v.decl.resolve name = some (.field m) →
    m.isStatic = false →
    (k = 0 → s = .field name) ∧
    (k ≠ 0 → ∃ info, m.field? = some info ∧
      (info.IsInline → s = .inner name) ∧ (¬ info.IsInline → s = .outside))
  staticField : ∀ name m, root.Names scope name → v.decl.resolve name = some (.field m) →
    m.isStatic = true → s = .outside
  property : ∀ name g, root.Names scope name → v.decl.resolve name = some (.property g) →
    g.isStatic = false → k ≠ 0 → s = .outside
  plain : ∀ name, root.IsName name → scope.lookup name = some .plain → s = .outside
  ref : ∀ name, root.IsName name → scope.lookup name = some (.ref false) → s = .outside
  aliasing : ∀ name, root.IsName name → scope.lookup name = some (.ref true) → s = .inner name
  pointer : ∀ name intoInstance, root.IsName name →
    scope.lookup name = some (.pointer intoInstance) → k ≠ 0 → s = .pointer
  comment : ∀ c, root.kind = .parenthesizedExpression → root.inner? = some c →
    c.kind = .comment → s = .unknown "comment"

namespace Viewpoint

variable (v : Viewpoint) (scope : Scope)

theorem throughField_of_resolve {name : String} {m : Member} {info : FieldInfo}
    (hresolved : v.decl.resolve name = some (.field m)) (hinfo : m.field? = some info) :
    (info.IsInline → v.throughField name = .inner name) ∧
      (¬ info.IsInline → v.throughField name = .outside) := by
  have hinline : (info.isFixedBuffer || info.category.mayBeInline) = true ↔ info.IsInline := by
    simp [FieldInfo.IsInline, TypeCategory.mayBeInline]
  unfold throughField
  rw [hresolved]
  dsimp only
  rw [hinfo, Option.any_some]
  exact ⟨fun h => if_pos (hinline.mpr h), fun h => if_neg (mt hinline.mp h)⟩

theorem memberStorage_ne_self (name : String) : v.memberStorage name ≠ .self := by
  have hunresolved : foreignName.unresolved v name ≠ .self := by
    unfold foreignName.unresolved
    split
    · simp
    · split <;> simp
  unfold memberStorage
  split
  · split <;> simp
  · split <;> simp
  · simp
  · split <;> simp
  · unfold foreignName
    split
    · split
      · simp
      · exact hunresolved
    · exact hunresolved

section Path

variable {v scope} {root n : Node} {k : Nat} (h : root.AccessPath k n)
include h

theorem storage_of_path_of_member {name : String} (hname : root.Names scope name) :
    v.storage scope n = v.along (v.memberStorage name) k := by
  have hroot : v.storage scope root = v.memberStorage name := hname.storage_eq
  rw [← hroot]
  exact v.storage_of_path scope h (hroot ▸ v.memberStorage_ne_self name)

theorem storage_of_path_of_local {name : String} {kind : LocalKind} (hname : root.IsName name)
    (hlookup : scope.lookup name = some kind) :
    v.storage scope n = v.along (kind.storage name) k := by
  have hroot : v.storage scope root = kind.storage name := by
    rw [v.storage_eq, Node.unparenthesize_of_ne (by simp [hname.1])]
    simp only [storageOf, hname.1, hname.2, nameStorage, hlookup]
    rcases kind with _ | intoInstance | toInstance
    · rfl
    · rfl
    · cases toInstance <;> rfl
  rw [← hroot]
  refine v.storage_of_path scope h ?_
  rw [hroot]
  rcases kind with _ | intoInstance | toInstance
  · simp [LocalKind.storage]
  · simp [LocalKind.storage]
  · cases toInstance <;> simp [LocalKind.storage]

theorem storage_of_path_of_comment {c : Node} (hkind : root.kind = .parenthesizedExpression)
    (hfirst : root.inner? = some c) (hc : c.kind = .comment) :
    v.storage scope n = v.along (.unknown "comment") k := by
  have hroot : v.storage scope root = .unknown "comment" := by
    rw [v.storage_eq, Node.unparenthesize_eq, if_pos hkind, hfirst]
    simp [Node.unparenthesize_of_ne, hc, storageOf, Kind.name]
  rw [← hroot]
  exact v.storage_of_path scope h (by simp [hroot])

end Path

end Viewpoint

/-- The root of a path decides the storage of the whole path, however long the path is and whatever
accesses it is made of. -/
theorem the_root_of_a_path_decides_its_storage (v : Viewpoint) (scope : Scope) {root n : Node}
    {k : Nat} (h : root.AccessPath k n) : v.Decides scope root k (v.storage scope n) where
  field := by
    intro name m hname hresolved hstatic
    rw [Viewpoint.storage_of_path_of_member h hname, Viewpoint.memberStorage, hresolved]
    simp only [hstatic, Bool.false_eq_true, if_false]
    refine ⟨fun hk => hk ▸ rfl, fun hk => ?_⟩
    obtain ⟨info, hinfo⟩ := StructDecl.field?_of_resolve hresolved
    obtain ⟨j, rfl⟩ := Nat.exists_eq_succ_of_ne_zero hk
    exact ⟨info, hinfo, v.throughField_of_resolve hresolved hinfo⟩
  staticField := by
    intro name m hname hresolved hstatic
    rw [Viewpoint.storage_of_path_of_member h hname, Viewpoint.memberStorage, hresolved]
    simp only [hstatic, if_true]
    cases k <;> rfl
  property := by
    intro name g hname hresolved hstatic hk
    rw [Viewpoint.storage_of_path_of_member h hname, Viewpoint.memberStorage, hresolved]
    simp only [hstatic, Bool.false_eq_true, if_false]
    obtain ⟨j, rfl⟩ := Nat.exists_eq_succ_of_ne_zero hk
    rfl
  plain := by
    intro name hname hlookup
    rw [Viewpoint.storage_of_path_of_local h hname hlookup]
    cases k <;> rfl
  ref := by
    intro name hname hlookup
    rw [Viewpoint.storage_of_path_of_local h hname hlookup]
    cases k <;> rfl
  aliasing := by
    intro name hname hlookup
    rw [Viewpoint.storage_of_path_of_local h hname hlookup]
    cases k <;> rfl
  pointer := by
    intro name intoInstance hname hlookup hk
    rw [Viewpoint.storage_of_path_of_local h hname hlookup]
    obtain ⟨j, rfl⟩ := Nat.exists_eq_succ_of_ne_zero hk
    rfl
  comment := by
    intro c hkind hfirst hc
    rw [Viewpoint.storage_of_path_of_comment h hkind hfirst hc]
    cases k <;> rfl

/-- The access `base.x`, of which the base stands at the start of the source. -/
def Node.memberX (base : Node) : Node :=
  let stop := base.span.stop
  .tree .memberAccessExpression (base.text ++ ".x") 0
    [base.filling (some .expression), .word (.other ".") "." stop,
     .tree .identifier "x" (stop + 1) [] (some .name)]

/-- The parentheses `(…)` at the start of the source, with the given children between the marks. -/
def Node.inParens (text : String) (inside : List Node) : Node :=
  .tree .parenthesizedExpression text 0
    (.word .openParen "(" 0 :: inside ++ [.word .closeParen ")" (text.utf8ByteSize - 1)])

/-- The expression `(this.f)[0]`. -/
def firstOfField : Node :=
  .tree .elementAccessExpression "(this.f)[0]" 0
    [(Node.inParens "(this.f)" [.thisAccess "f" 1]).filling (some .expression),
     .tree (.other "bracketed_argument_list") "[0]" 8
      [.word (.other "[") "[" 8,
       .tree .argument "0" 9 [.tree (.other "integer_literal") "0" 9], .word (.other "]") "]" 10]
      (some .subscript)]

/-- Where `int f` is a field, `(this.f)[0].x` is storage inside of it. -/
theorem two_accesses_stay_inside_a_field :
    (Node.thisAccess "f" 1).AccessPath 2 firstOfField.memberX ∧
      (fieldOnly "f").storage .empty firstOfField.memberX = .inner "f" := by
  have hpath : (Node.thisAccess "f" 1).AccessPath 2 firstOfField.memberX :=
    .access (.access (.root (.parens rfl rfl (.bare _))) ⟨rfl, Or.inr rfl⟩ (.bare _))
      ⟨rfl, Or.inl ⟨rfl, rfl⟩⟩ (.bare _)
  refine ⟨hpath, ?_⟩
  have hname : (Node.thisAccess "f" 1).Names .empty "f" :=
    Or.inr ⟨isThisAccess_thisAccess "f" 1 none, rfl⟩
  have hresolved : (fieldOnly "f").decl.resolve "f" =
      some (.field (fieldOnly "f").decl.members[0]!) := rfl
  obtain ⟨-, hbeyond⟩ :=
    (the_root_of_a_path_decides_its_storage (fieldOnly "f") .empty hpath).field "f" _ hname
      hresolved rfl
  obtain ⟨info, hinfo, hinline, -⟩ := hbeyond (by decide)
  cases hinfo
  exact hinline (Or.inr (by decide +kernel))

/-- The expression `(/*c*/ f)`. -/
def commentedField : Node :=
  Node.inParens "(/*c*/ f)" [.tree .comment "/*c*/" 1, .tree .identifier "f" 7]

/-- A comment that comes first in parentheses hides what they hold: `(/*c*/ f)` is not known to be
the field and `(/*c*/ f).x` not to be inside of it. -/
theorem a_comment_in_parentheses_hides_the_root :
    (Node.tree .identifier "f" 7).Names .empty "f" ∧
      (∃ m info, (fieldOnly "f").decl.resolve "f" = some (.field m) ∧ m.isStatic = false ∧
        m.field? = some info ∧ info.IsInline) ∧
      commentedField.Holds (.tree .identifier "f" 7) ∧
      commentedField.memberX.Accesses (commentedField.filling (some .expression)) ∧
      (fieldOnly "f").storage .empty commentedField = .unknown "comment" ∧
      (fieldOnly "f").storage .empty commentedField.memberX = .unknown "comment" := by
  have hname : (Node.tree .identifier "f" 7).Names .empty "f" := Or.inl ⟨⟨rfl, rfl⟩, by decide⟩
  have hholds : commentedField.Holds (.tree .identifier "f" 7) := by
    refine .inside rfl ?_ rfl (.self (by decide))
    exact List.mem_cons_of_mem _ (List.mem_cons_of_mem _ List.mem_cons_self)
  refine ⟨hname, ?_, hholds, ⟨rfl, Or.inl ⟨rfl, rfl⟩⟩, by decide +kernel, by decide +kernel⟩
  exact ⟨(fieldOnly "f").decl.members[0]!, _, rfl, rfl, rfl, Or.inr (by decide +kernel)⟩

end ReadonlyLint
