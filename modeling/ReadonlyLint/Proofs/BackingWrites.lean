import ReadonlyLint.Proofs.Comments
import ReadonlyLint.Proofs.EvaluatedParts
import ReadonlyLint.Proofs.Noticed
import ReadonlyLint.Proofs.SplitGroups

/-!
Two looks at the storage behind a property. When a property is read, its bodies are scanned for
writes of the word `field`, wherever they stand; when an accessor is analyzed, the walk over its
body notes the writes that it comes by. Where the word means the storage, a write that the scan
finds and the walk comes by is noted, so a property whose accessors all leave it alone has no
mutable storage. The one write for the scan that is none for the walk is `field!`.
-/
namespace ReadonlyLint

namespace Node

/-! ## What the scan takes for a write -/

/-- The node by itself writes the storage behind a property, as far as the scan tells. -/
def writesStorage (n : Node) : Bool := n.backingTarget?.any (·.namesBackingField)

theorem writesBackingField_iff {body : Node} :
    body.writesBackingField = true ↔ ∃ n ∈ body.reach fun _ => true, n.writesStorage = true :=
  List.any_eq_true

/-- A postfix expression that counts neither up nor down, such as `field!`. -/
def isAssertion (n : Node) : Bool :=
  n.kind = .postfixUnaryExpression && !n.hasChildOfKind .increment && !n.hasChildOfKind .decrement

/-- No other operator stands before `++` or `--`, and no `in` before `ref` or `out`; what a tuple
holds are arguments, with leaves between them. -/
def isRegular (n : Node) : Bool :=
  match n.kind with
  | .prefixUnaryExpression | .postfixUnaryExpression =>
    !(n.hasChildOfKind .increment || n.hasChildOfKind .decrement) ||
      (n.operatorToken? = some .increment || n.operatorToken? = some .decrement)
  | .argument =>
    !(n.hasChildOfKind .refToken || n.hasChildOfKind .outToken) ||
      (Walk.passing? n = some .refToken || Walk.passing? n = some .outToken)
  | .tupleExpression => n.namedChildren.all fun c => c.kind = .argument || c.children.isEmpty
  | _ => true

/-- Every node of the tree is regular. -/
def Regular (n : Node) : Prop := ∀ c ∈ n.preorder, c.isRegular

instance (n : Node) : Decidable n.Regular := inferInstanceAs (Decidable (∀ c ∈ n.preorder, _))

theorem Regular.of_within {n c : Node} (h : n.Regular) (hc : c.Within n) : c.Regular :=
  fun x hx => h x (hc.mem_preorder hx)

theorem Regular.self {n : Node} (h : n.Regular) : n.isRegular :=
  h n (self_mem_preorder n)

/-- A target that names the storage has the word `field` among its single targets. -/
theorem exists_singleTarget {target : Node} (hregular : target.Regular)
    (h : target.namesBackingField = true) :
    ∃ t ∈ target.singleTargets, t.kind = .identifier ∧ t.text = backingFieldName := by
  induction target using below_induction with
  | step target ih =>
    rw [namesBackingField_eq] at h
    split at h
    · rename_i hk
      refine ⟨target.unparenthesize, ?_, hk, by simpa using h⟩
      simp [singleTargets, targets_eq, hk]
    · rename_i hk
      obtain ⟨c, hc, hnames⟩ := List.any_eq_true.mp h
      obtain ⟨e, he, hnames⟩ := (Option.any_eq_true _ _).mp hnames
      have hin := within_unparenthesize target
      have hmem := mem_children_of_namedChildren hc
      -- a leaf has no last child, so the element is an argument
      have hargument : c.kind = .argument := by
        have hself := (hregular.of_within hin).self
        simp only [isRegular, hk, List.all_eq_true, Bool.or_eq_true, decide_eq_true_eq,
          List.isEmpty_iff] at hself
        rcases hself c hc with hkind | hleaf
        · exact hkind
        · simp [lastChild?, hleaf] at he
      have hbelow : e.Below target :=
        (below_of_lastChild? he).of_within ((within_of_mem hmem).trans hin)
      obtain ⟨t, ht, hword⟩ := ih e hbelow (hregular.of_within hbelow.within) hnames
      refine ⟨t, ?_, hword⟩
      rw [e.singleTargets_eq [c, target.unparenthesize]] at ht
      rw [singleTargets, targets_eq, if_pos hk, List.map_flatMap]
      refine List.mem_flatMap.mpr ⟨c, List.mem_filter.mpr ⟨hc, by simpa using hargument⟩, ?_⟩
      simpa [he] using ht
    · cases h

/-- What the scan takes for a write the walk does, unless it is an assertion. -/
theorem writing?_of_writesStorage {n : Node} (hregular : n.Regular) (h : n.writesStorage = true)
    (hcounts : n.isAssertion = false) :
    ∃ access target, n.writing? = some (access, target) ∧ target.namesBackingField = true ∧
      (access = .reference ↔ n.kind = .argument) := by
  obtain ⟨target, htarget, hnames⟩ := (Option.any_eq_true _ _).mp h
  have hself := hregular.self
  unfold backingTarget? at htarget
  unfold isRegular at hself
  unfold isAssertion at hcounts
  unfold writing?
  split at htarget
  · rename_i hk
    simp only [hk, htarget, Option.map_some]
    refine ⟨_, target, rfl, hnames, ?_⟩
    unfold Access.ofOperator
    split <;> simp
  · -- the scan takes every postfix expression; that it is no assertion gives the operator
    rename_i hk
    simp only [hk, decide_true, Bool.true_and, Bool.and_eq_false_iff, Bool.not_eq_false',
      Bool.or_eq_true, Bool.not_eq_true', Bool.or_eq_false_iff, decide_eq_true_eq] at hself hcounts
    have hoperator := hself.resolve_left (by
      rintro ⟨hup, hdown⟩
      simp [hup, hdown] at hcounts)
    refine ⟨.compound, target, ?_, hnames, by simp [hk]⟩
    simp [hk, hoperator, Walk.unaryOperand?, htarget]
  · rename_i hk
    split at htarget
    · rename_i hmark
      simp only [hk, hmark, Bool.not_true, Bool.false_or, Bool.or_eq_true,
        decide_eq_true_eq] at hself
      refine ⟨.compound, target, ?_, hnames, by simp [hk]⟩
      simp [hk, hself, Walk.unaryOperand?, htarget]
    · cases htarget
  · rename_i hk
    split at htarget
    · rename_i hword
      simp only [hk, hword, Bool.not_true, Bool.false_or, Bool.or_eq_true,
        decide_eq_true_eq] at hself
      refine ⟨.reference, target, ?_, hnames, by simp [hk]⟩
      simp [hk, hself, htarget]
    · cases htarget
  · cases htarget

/-- A write has a rule of its own in the walk, which nothing goes around. -/
theorem noticeable_of_writesStorage {q : Position} (hrole : q.role = .code)
    (hregular : q.node.Regular) (h : q.node.writesStorage = true)
    (huntupled : q.node.kind = .argument →
      ∀ parent ∈ q.path.head?, parent.kind ≠ .tupleExpression) : Walk.Noticeable q := by
  obtain ⟨target, htarget, -⟩ := (Option.any_eq_true _ _).mp h
  have hself := hregular.self
  refine ⟨hrole, ?_, ?_, fun hk => ?_, huntupled⟩
  · unfold backingTarget? at htarget
    split at htarget
    all_goals first
      | cases htarget
      | simp [Walk.soughtKinds, *]
  · -- the target is below the node, so the node has a child
    obtain ⟨c, -, hc⟩ := Relation.TransGen.tail'_iff.mp (below_of_backingTarget? htarget)
    exact List.ne_nil_of_mem hc
  · simp only [backingTarget?, hk] at htarget
    split at htarget
    · rename_i hmark
      simpa [isRegular, hk, hmark] using hself
    · cases htarget

end Node

/-! ## Where the word `field` means the storage -/

/-- In the member, which belongs to the instance, the word `field` is left to the storage behind its
property, and the body is regular. -/
structure Member.LeavesField (m : Member) : Prop where
  ofInstance : m.isStatic = false
  parameters : ∀ p ∈ m.parameters, p.name ≠ backingFieldName
  spared : ∀ body ∈ m.body, body.Spares backingFieldName
  regular : ∀ body ∈ m.body, body.Regular

instance (m : Member) : Decidable m.LeavesField :=
  decidable_of_iff (m.isStatic = false ∧ (∀ p ∈ m.parameters, p.name ≠ backingFieldName) ∧
      (∀ body ∈ m.body, body.Spares backingFieldName) ∧ ∀ body ∈ m.body, body.Regular)
    ⟨fun ⟨h1, h2, h3, h4⟩ => ⟨h1, h2, h3, h4⟩, fun ⟨h1, h2, h3, h4⟩ => ⟨h1, h2, h3, h4⟩⟩

theorem Member.LeavesField.free {m : Member} (h : m.LeavesField) :
    (Walk.start m).Free backingFieldName :=
  Walk.free_start h.parameters

/-- The name under which the storage behind the group is reported. -/
def PropertyGroup.backingName (g : PropertyGroup) : String := g.name ++ "." ++ backingFieldName

/-- How a node that writes the storage of that name is reported. -/
def Node.storageMutation (n : Node) (storage : String) : Mutation :=
  if n.kind = .argument then .referenceEscape storage else .fieldWrite storage

theorem StructDecl.memberStorage_field {d : StructDecl} (hfield : d.resolve backingFieldName = none)
    {g : PropertyGroup} (hg : d.group? g.id = some g) {m : Member}
    (hm : m.kind.group? = some g.id) :
    (d.viewpoint m).memberStorage backingFieldName = .field g.backingName := by
  simp [Viewpoint.memberStorage, StructDecl.viewpoint, hfield, Viewpoint.foreignName, hm, hg,
    PropertyGroup.backingName]

/-- A write of the storage shows wherever the word `field` is free. -/
theorem Walk.reveals_of_writesStorage {v : Viewpoint} {storage : String}
    (hstorage : v.memberStorage backingFieldName = .field storage) {n : Node}
    (hregular : n.Regular) (hspared : n.Spares backingFieldName) (h : n.writesStorage = true)
    (hcounts : n.isAssertion = false) :
    ∃ t : Node, t.Within n ∧ t.kind = .identifier ∧ t.text = backingFieldName ∧
      Reveals v backingFieldName (fun a =>
        { mutation := n.storageMutation storage, span := some t.span } ∈ a.evidence) n := by
  obtain ⟨access, target, hwriting, hnames, haccess⟩ :=
    Node.writing?_of_writesStorage hregular h hcounts
  have hbelow := Node.below_of_writing? hwriting
  obtain ⟨t, ht, hkind, htext⟩ :=
    Node.exists_singleTarget (hregular.of_within hbelow.within) hnames
  refine ⟨t, (Node.within_of_mem_singleTargets ht).trans hbelow.within, hkind, htext, ?_⟩
  have hreveals := reveals_of_writing? hstorage (by decide) hkind htext hwriting ht hspared
  simpa only [Node.storageMutation, evidenceOf, haccess] using hreveals

/-! ## Which accessors make the storage mutable -/

/-- The accessor shows that the storage behind its property stays writable: it is a setter that the
compiler supplies, or the scan finds a write in its body. -/
def Member.writesBacking (m : Member) : Bool :=
  !m.kind.isInitOnly &&
    ((m.synthesized && m.kind.isSetter) || m.body.any (·.writesBackingField))

namespace StructDecl

theorem AccessorSpec.writesBacking_toMember (s : AccessorSpec) (id place : Nat) (g : PropertyGroup)
    (parameters : List Parameter) (returns : ReturnMode) :
    { s.toMember id g parameters returns with id := place }.writesBacking = s.writesBacking := by
  obtain ⟨role, modifiers, body, anchor, fixOffset, malformed⟩ := s
  cases body <;> cases role <;>
    simp [Member.writesBacking, AccessorSpec.writesBacking, AccessorSpec.toMember,
      AccessorSpec.synthesized, MemberKind.isInitOnly, MemberKind.isSetter]

theorem Extends.mem_accessorsOf {d d' : StructDecl} (h : d.Extends d') {g : PropertyGroup}
    {m : Member} (hm : m ∈ d.accessorsOf g) : m ∈ d'.accessorsOf g := by
  obtain ⟨id, hid, hmember⟩ := List.mem_filterMap.mp hm
  exact List.mem_filterMap.mpr ⟨id, hid, h.member? hmember⟩

/-- Where a group has mutable storage, one of its accessors shows it. -/
theorem exists_writesBacking {root : Node} {d : StructDecl} (hd : d ∈ ofTree root) :
    ∀ g ∈ d.groups, g.hasMutableBacking = true →
      ∃ m ∈ d.accessorsOf g, m.writesBacking = true := by
  refine allGroups_ofTree (P := fun d g => g.hasMutableBacking = true →
    ∃ m ∈ d.accessorsOf g, m.writesBacking = true) ?_ ?_ hd
  · intro d d' g h hextends hmutable
    obtain ⟨m, hm, hwrites⟩ := h hmutable
    exact ⟨m, hextends.mem_accessorsOf hm, hwrites⟩
  · intro d g parameters returns specs hmutable
    obtain ⟨s, hs, hwrites⟩ := List.any_eq_true.mp hmutable
    -- the member of the accessor is listed at its place behind the members that were there before
    obtain ⟨k, hk⟩ := List.mem_iff_getElem?.mp hs
    have hlt : k < specs.length := (List.getElem?_eq_some_iff.mp hk).1
    have hplace : d.members.size + k ∈ (d.filledGroup g specs).accessors :=
      List.mem_range'_1.mpr (by omega)
    refine ⟨_, List.mem_filterMap.mpr
      ⟨_, hplace, d.member?_addAccessors g parameters returns hk⟩, ?_⟩
    rw [s.writesBacking_toMember]
    exact hwrites

/-! ## The walk comes by what the scan finds -/

section Accessors

variable {root : Node} {d : StructDecl} (hd : d ∈ ofTree root) {g : PropertyGroup}
  (hg : g ∈ d.groups) (hfield : d.resolve backingFieldName = none) {m : Member}
  (hm : m ∈ d.accessorsOf g) (hleaves : m.LeavesField)
include hd hg hfield hm hleaves

/-- An accessor shows every write of the storage that the walk over its body comes by. -/
theorem evidence_of_writesStorage {body : Node} (hbody : m.body = some body)
    (hinit : m.kind.isInitOnly = false) (hmalformed : m.malformed = false) {n : Node}
    (hn : body.Visits n) (hwrites : n.writesStorage = true) (hcounts : n.isAssertion = false) :
    ∃ t : Node, t.Within n ∧ t.kind = .identifier ∧ t.text = backingFieldName ∧
      { mutation := n.storageMutation g.backingName, span := some t.span } ∈
        (d.analyzeMember m).evidence := by
  obtain ⟨hmember, hgroup⟩ := of_mem_accessorsOf (linked_ofTree hd) hg hm
  obtain ⟨hkind, hsynthesized⟩ := allMembers_ofTree given_inspected hd m hmember (by simp [hbody])
  have hstorage := memberStorage_field hfield ((numbered_ofTree hd).group?_of_mem hg) hgroup
  have hspared := hleaves.spared body hbody
  have hregular := hleaves.regular body hbody
  obtain ⟨t, ht, hword, htext, hreveals⟩ := Walk.reveals_of_writesStorage hstorage
    (hregular.of_within hn.within) (hspared.of_within hn.within) hwrites hcounts
  refine ⟨t, ht, hword, htext, ?_⟩
  rw [analyzeMember_of_body hbody hkind hsynthesized hleaves.ofInstance hinit hmalformed]
  exact (hreveals.of_visits hn hspared).visited [] _ hleaves.free

/-- An accessor that shows mutable storage mutates, if the walk comes by all that the scan finds. -/
theorem mutates_of_writesBacking (hwrites : m.writesBacking = true)
    (hfound : ∀ body ∈ m.body, ∀ n ∈ body.reach fun _ => true, n.writesStorage = true →
      body.Visits n ∧ n.isAssertion = false) :
    (d.analyzeMember m).mutates = true := by
  obtain ⟨hmember, hgroup⟩ := of_mem_accessorsOf (linked_ofTree hd) hg hm
  have hkind := Member.isField_of_group? hgroup
  have hstatic := hleaves.ofInstance
  simp only [Member.writesBacking, Bool.and_eq_true, Bool.not_eq_true', Bool.or_eq_true] at hwrites
  obtain ⟨hinit, hwrites⟩ := hwrites
  by_cases hmalformed : m.malformed = true
  · -- a malformed accessor mutates whatever its body holds
    simp [analyzeMember, hkind, hstatic, hmalformed, unseen, LocalAnalysis.mutates]
  · rcases hwrites with ⟨hsynthesized, hsetter⟩ | hscan
    · simp [analyzeMember, hkind, hstatic, hmalformed, hinit, hsynthesized, hsetter, unseen,
        LocalAnalysis.mutates]
    · obtain ⟨body, hbody, hscan⟩ := (Option.any_eq_true _ _).mp hscan
      obtain ⟨n, hn, hstorage⟩ := Node.writesBackingField_iff.mp hscan
      obtain ⟨hvisits, hcounts⟩ := hfound body hbody n hn hstorage
      obtain ⟨t, -, -, -, he⟩ := evidence_of_writesStorage hd hg hfield hm hleaves hbody hinit
        (by simpa using hmalformed) hvisits hstorage hcounts
      simpa [LocalAnalysis.mutates] using List.ne_nil_of_mem he

end Accessors

end StructDecl

/-- Evaluated writes are visited, unless they are taken for storage themselves. -/
theorem Node.visits_of_writesStorage {body : Node} (htidy : body.Tidy) (hregular : body.Regular)
    {mode : ReturnMode} {q : Position} (hq : (Position.ofBody mode body).Reaches q)
    (hrole : q.role = .code) (hwrites : q.node.writesStorage = true)
    (hreferred : q.node.kind = .prefixUnaryExpression →
      ∀ p, body.Visits p → q.node ∉ p.referents)
    (huntupled : q.node.kind = .argument →
      ∀ parent ∈ q.path.head?, parent.kind ≠ .tupleExpression) : body.Visits q.node := by
  have hnoticeable :=
    Node.noticeable_of_writesStorage hrole (hregular.of_within hq.within) hwrites huntupled
  rcases Node.sees_of_leadsTo hnoticeable htidy ⟨[], mode, hq⟩ with hvisits | ⟨hk, p, hp, hreferent⟩
  · exact hvisits
  · exact absurd hreferent (hreferred hk p hp)

/-- Where the word `field` is left to the storage behind a property, an accessor shows every write
of it that the walk over its body comes by, `field!` apart. In code without comments the walk comes
by every such write that is evaluated. So a property whose accessors all leave the instance alone
counts as mutable storage only for a write that the walk does not come by, or for `field!`. -/
theorem visited_backing_writes_are_noticed {root : Node} {d : StructDecl}
    (hd : d ∈ StructDecl.ofTree root) {g : PropertyGroup} (hg : g ∈ d.groups)
    (hfield : d.resolve backingFieldName = none)
    (hleaves : ∀ m ∈ d.accessorsOf g, m.LeavesField) :
    (∀ m ∈ d.accessorsOf g, ∀ body, m.body = some body → m.kind.isInitOnly = false →
      m.malformed = false →
      (∀ n, body.Visits n → n.writesStorage = true → n.isAssertion = false →
        ∃ t : Node, t.Within n ∧ t.kind = .identifier ∧ t.text = backingFieldName ∧
          { mutation := n.storageMutation g.backingName, span := some t.span } ∈
            (d.analyzeMember m).evidence) ∧
      (body.Tidy → ∀ q, (Position.ofBody m.returns body).Reaches q → q.role = .code →
        q.node.writesStorage = true →
        (q.node.kind = .prefixUnaryExpression → ∀ p, body.Visits p → q.node ∉ p.referents) →
        (q.node.kind = .argument → ∀ parent ∈ q.path.head?, parent.kind ≠ .tupleExpression) →
        body.Visits q.node)) ∧
    (d.isReadonly = false →
      (∀ m ∈ d.accessorsOf g, m.kind.isInitOnly = false → ∀ body, m.body = some body →
        ∀ n ∈ body.reach fun _ => true, n.writesStorage = true →
          body.Visits n ∧ n.isAssertion = false) →
      (∀ m ∈ d.accessorsOf g, d.verdicts.verdict m.id = .notMutating) →
      g.hasMutableBacking = false) := by
  refine ⟨fun m hm body hbody hinit hmalformed => ⟨fun n hn hwrites hcounts => ?_,
    fun htidy q hq hrole hwrites hreferred huntupled => ?_⟩, fun hreadonly hfound hverdicts => ?_⟩
  · exact StructDecl.evidence_of_writesStorage hd hg hfield hm (hleaves m hm) hbody hinit hmalformed
      hn hwrites hcounts
  · exact Node.visits_of_writesStorage htidy ((hleaves m hm).regular body hbody) hq hrole hwrites
      hreferred huntupled
  · by_contra hmutable
    obtain ⟨m, hm, hwrites⟩ := StructDecl.exists_writesBacking hd g hg (by simpa using hmutable)
    have hinit : m.kind.isInitOnly = false := by
      simp only [Member.writesBacking, Bool.and_eq_true, Bool.not_eq_true'] at hwrites
      exact hwrites.1
    have hmutates := StructDecl.mutates_of_writesBacking hd hg hfield hm (hleaves m hm) hwrites
      (hfound m hm hinit)
    have hmember := (StructDecl.of_mem_accessorsOf (StructDecl.linked_ofTree hd) hg hm).1
    have hmutating := StructDecl.verdict_of_mutates hreadonly (StructDecl.numbered_ofTree hd) hmember
      hmutates
    rw [hverdicts m hm] at hmutating
    cases hmutating

/-- The assignment `field = value` at the offset 25. -/
def storageAssignment : Node :=
  .tree .assignmentExpression "field = value" 25
    [.tree .identifier "field" 25 [] (some .left), .word .assign "=" 31 (some .operator),
     .tree .identifier "value" 33 [] (some .right)]

/-- The body `{ field = value; }` at the offset 23. -/
def storageSetter : Node :=
  .tree .block "\x7b field = value; \x7d" 23
    [.word .openBrace "\x7b" 23,
     .tree (.other "expression_statement") "field = value;" 25
      [storageAssignment, .word (.other ";") ";" 38],
     .word .closeBrace "\x7d" 40] (some .body)

/-- The body `{ return field; }` at the offset 56. -/
def storageGetter : Node :=
  .tree .block "\x7b return field; \x7d" 56
    [.word .openBrace "\x7b" 56,
     .tree .returnStatement "return field;" 58
      [.word (.other "return") "return" 58, .tree .identifier "field" 65,
       .word (.other ";") ";" 70],
     .word .closeBrace "\x7d" 72] (some .body)

/-- The file `struct S { int P { set { field = value; } } int Q { get { return field; } } }`. -/
def storageFile : Node :=
  .structOf
    [.intProperty "P" 11 [.accessor .setToken "set" 19 storageSetter],
     .intProperty "Q" 44 [.accessor .getToken "get" 52 storageGetter]]

/-- The struct of that file. -/
def storageDecl : StructDecl := (StructDecl.ofTree storageFile).head!

/-- The setter of `P` shows its write, and `Q`, whose getter reads only, is no mutable storage. -/
theorem a_write_is_noticed_and_a_read_is_not :
    (∃ e ∈ (storageDecl.analyzeMember storageDecl.members[0]!).evidence,
      e.mutation = .fieldWrite "P.field") ∧
    storageDecl.verdicts.verdict 1 = .notMutating ∧
    storageDecl.groups[1]!.hasMutableBacking = false := by
  have hd : storageDecl ∈ StructDecl.ofTree storageFile := List.mem_cons_self
  have hp : storageDecl.groups[0]! ∈ storageDecl.groups :=
    Array.getElem_mem (i := 0) (by decide +kernel)
  have hq : storageDecl.groups[1]! ∈ storageDecl.groups :=
    Array.getElem_mem (i := 1) (by decide +kernel)
  have hfield : storageDecl.resolve backingFieldName = none := rfl
  obtain ⟨hnoticed, -⟩ := visited_backing_writes_are_noticed hd hp hfield (by decide +kernel)
  obtain ⟨-, hstorage⟩ := visited_backing_writes_are_noticed hd hq hfield (by decide +kernel)
  have htidy : storageSetter.Tidy := by
    unfold Node.Tidy
    decide +kernel
  have hwrites : storageAssignment.writesStorage = true := by decide +kernel
  have hreads : ∀ n ∈ storageGetter.reach fun _ => true, n.writesStorage = false := by
    decide +kernel
  obtain ⟨hshown, hvisits⟩ := hnoticed storageDecl.members[0]! List.mem_cons_self storageSetter rfl
    rfl rfl
  refine ⟨?_, by decide +kernel, hstorage rfl ?_ ?_⟩
  · -- the assignment is the expression of the one statement
    have hvisited : storageSetter.Visits storageAssignment :=
      hvisits htidy _ (.of_part (.tail _ (.head _)) rfl <| .of_part (.head _) rfl (.refl _)) rfl
        hwrites (fun h => absurd h (by decide)) (fun h => absurd h (by decide))
    obtain ⟨t, -, -, -, he⟩ := hshown _ hvisited hwrites (by decide +kernel)
    exact ⟨_, he, rfl⟩
  · intro m hm _ body hbody n hn hwrite
    obtain rfl := List.mem_singleton.mp hm
    cases hbody
    rw [hreads n hn] at hwrite
    cases hwrite
  · intro m hm
    obtain rfl := List.mem_singleton.mp hm
    decide +kernel

/-- The accessor `get => field!;` at the offset 19. -/
def assertingGetter : Node :=
  .tree .accessorDeclaration "get => field!;" 19
    [.word .getToken "get" 19 (some .name),
     .tree .arrowExpressionClause "=> field!" 23
      [.word (.other "=>") "=>" 23,
       .tree .postfixUnaryExpression "field!" 26
        [.tree .identifier "field" 26, .word .bang "!" 31]] (some .body),
     .word (.other ";") ";" 32]

/-- The struct of the file `struct S { int Z { get => field!; } }`. -/
def assertingDecl : StructDecl :=
  (StructDecl.ofTree (.structOf [.intProperty "Z" 11 [assertingGetter]])).head!

/-- The scan takes `field!` for a write, of which the getter shows nothing; so the struct is not
suggested although nothing in it mutates. -/
theorem an_assertion_counts_as_mutable_storage :
    assertingDecl.resolve backingFieldName = none ∧
      (∀ m ∈ assertingDecl.accessorsOf assertingDecl.groups[0]!, m.LeavesField ∧
        m.malformed = false ∧ m.body.any (·.writesBackingField) = true ∧
        (assertingDecl.analyzeMember m).evidence = [] ∧
        assertingDecl.verdicts.verdict m.id = .notMutating) ∧
      assertingDecl.groups[0]!.hasMutableBacking = true ∧
      assertingDecl.canBeReadonly assertingDecl.verdicts = false := by
  refine ⟨rfl, by decide +kernel, by decide +kernel, by decide +kernel⟩

end ReadonlyLint
