import ReadonlyLint.Proofs.EvaluatedParts

/-!
The getter behind a use. Whoever reads a property or an indexer of the instance, counts it up or
down, assigns it with an operator, passes it on or refers to it uses its getter, so that a getter
which gives out a writable reference makes its users mutate. There are exceptions: a plain
assignment, `&` and the header of a `fixed` statement use no getter, although a property without a
setter is written through the reference of its getter.
-/
namespace ReadonlyLint

open Node Walk

/-! ## Properties and indexers of the instance -/

namespace StructDecl

/-- The expression is `this.P` for the property, or `this[…]` for the indexer. -/
def IsReachedThroughThis (d : StructDecl) (g : PropertyGroup) (x : Node) : Prop :=
  (∃ name, d.resolve name = some (.property g) ∧ x.IsThisMember name) ∨
    (g ∈ d.indexers ∧ x.IsThisElement)

/-- The expression denotes the property or indexer: also `P` where nothing binds `P`. -/
def IsReachedAs (d : StructDecl) (g : PropertyGroup) (scope : Scope) (x : Node) : Prop :=
  (∃ name, d.resolve name = some (.property g) ∧ x.IsName name ∧ scope.binds name = false) ∨
    d.IsReachedThroughThis g x

/-- The member is a getter of the property or indexer, which belongs to the instance. -/
structure HasGetter (d : StructDecl) (g : PropertyGroup) (id : Nat) : Prop where
  ofInstance : g.isStatic = false
  group : d.group? g.id = some g
  accessor : id ∈ g.accessors
  getter : (d.member? id).any (·.kind.isGetter) = true

theorem IsReachedAs.filling {d : StructDecl} {g : PropertyGroup} {scope : Scope} {x : Node}
    (h : d.IsReachedAs g scope x) (field : Option Field) :
    d.IsReachedAs g scope (x.filling field) := h

/-- Either a name of the property or an access to an element of the instance. -/
theorem IsReachedAs.cases {d : StructDecl} {g : PropertyGroup} {scope : Scope} {x : Node}
    (h : d.IsReachedAs g scope x) :
    (∃ name, d.resolve name = some (.property g) ∧ x.Names scope name) ∨
      (g ∈ d.indexers ∧ x.IsThisElement) := by
  rcases h with ⟨name, hname, hx, hfree⟩ | ⟨name, hname, hx⟩ | helement
  · exact Or.inl ⟨name, hname, Or.inl ⟨hx, hfree⟩⟩
  · exact Or.inl ⟨name, hname, Or.inr hx⟩
  · exact Or.inr helement

theorem IsReachedAs.isPath {d : StructDecl} {g : PropertyGroup} {scope : Scope} {x : Node}
    (h : d.IsReachedAs g scope x) : x.IsPath := by
  rcases h.cases with ⟨name, -, hx⟩ | ⟨-, hx⟩
  · exact hx.isPath
  · simp [IsPath, hx.1]

end StructDecl

namespace Walk

section Getter

variable {v : Viewpoint} {g : PropertyGroup} {id : Nat} (hg : v.decl.HasGetter g id)
include hg

theorem mem_uses_useGroup (w : Walk) (write : Bool) : id ∈ (useGroup v w g.id true write).uses := by
  have hgetter := hg.getter
  refine MemberSet.mem_insertAll.mpr (Or.inl ?_)
  simp only [hg.group, Option.map_some, Option.getD_some, List.mem_filter]
  refine ⟨hg.accessor, ?_⟩
  rcases hm : v.decl.member? id with _ | m
  · simp [hm] at hgetter
  · simp only [hm, Option.any_some] at hgetter ⊢
    simp [hgetter]

/-- Which indexer is meant is not decided, so the getters of all are used. -/
theorem mem_uses_useIndexers (hmem : g ∈ v.decl.indexers) (w : Walk) (write : Bool) :
    id ∈ (useIndexers v w true write).uses := by
  have hin : g ∈ v.decl.indexers.filter (!·.isStatic) := by simp [hmem, hg.ofInstance]
  have hgrows : ∀ w : Walk, ∀ other ∈ v.decl.indexers.filter (!·.isStatic),
      w.GrowsTo (useGroup v w other.id true write) :=
    fun w other _ => growsTo_useGroup v w other.id true write
  exact (lasting_uses id).foldl (R := fun _ => True) (fun _ h => h) hgrows hin
    (fun w _ => mem_uses_useGroup hg w write) trivial

variable {x : Node}

theorem storage_of_isReachedAs {scope : Scope} (hx : v.decl.IsReachedAs g scope x) :
    v.storage scope x = .property g.id ∨
      (v.storage scope x = .indexer ∧ g ∈ v.decl.indexers) := by
  rcases hx.cases with ⟨name, hname, hnames⟩ | ⟨hmem, hk, base, hbase, hthis⟩
  · rw [hnames.storage_eq]
    simp [Viewpoint.memberStorage, hname, hg.ofInstance]
  · have hself := v.storage_of_isThis scope hthis
    refine Or.inr ⟨?_, hmem⟩
    rw [Viewpoint.storage_eq, unparenthesize_of_ne (by simp [hk])]
    simp [Viewpoint.storageOf, hk, hbase, hself, Viewpoint.select]

variable {w : Walk} (hx : v.decl.IsReachedAs g w.scope x)
include hx

theorem mem_uses_visit (outer : List Node) : id ∈ (visit v outer x w).uses := by
  rcases hx.cases with ⟨name, hname, hnames⟩ | ⟨hmem, hk, base, hbase, hthis⟩
  · rw [hnames.visit_eq outer rfl]
    simp only [useName, hname, hg.ofInstance]
    exact mem_uses_useGroup hg w false
  · rw [visit_eq]
    simp only [step, hk, visitElementAccess, hbase, hthis, if_true]
    apply (growsTo_visitPart (grows_visit v) _ _ _).uses
    exact mem_uses_useIndexers hg hmem w false

theorem mem_uses_noteRef (outer : List Node) (n : Node) : id ∈ (noteRef v outer n x w).uses := by
  unfold noteRef
  rcases storage_of_isReachedAs hg hx with hstorage | ⟨hstorage, hmem⟩
  · rw [hstorage, if_neg (by simp [Storage.isInstance])]
    exact mem_uses_useGroup hg w false
  · rw [hstorage, if_neg (by simp [Storage.isInstance])]
    exact mem_uses_useIndexers hg hmem w false

/-- A write that may read the old value uses the getter. -/
theorem mem_uses_writeTarget (hdiscard : ¬ x.IsName "_") {access : Access}
    (hreads : access.reads = true) (outer : List Node) :
    id ∈ (writeTarget v (visit v) access outer x w).uses := by
  rw [writeTarget_of_kept (hx.isPath.kind_ne (by decide)) fun hk ht => absurd ⟨hk, ht⟩ hdiscard]
  apply (growsTo_visitOperands (grows_visit v) _ _ _).uses
  rcases storage_of_isReachedAs hg hx with hstorage | ⟨hstorage, hmem⟩
  · rw [hstorage, writeStorage, hreads]
    exact mem_uses_useGroup hg w true
  · rw [hstorage, writeStorage, hreads]
    exact mem_uses_useIndexers hg hmem w true

end Getter

end Walk

/-! ## Every use that may read -/

namespace Use

/-- Whether the use may read what the expression denotes: any but a plain assignment and `&`. -/
def mayRead : Use → Bool
  | .assigned n _ => (accessOf n).reads
  | .addressed _ => false
  | _ => true

theorem scope_checkCall (v : Viewpoint) (function : Node) (w : Walk) :
    (checkCall v function w).scope = w.scope := by
  unfold checkCall
  rcases calledName? function.unparenthesize with _ | ⟨name, throughThis⟩
  · rfl
  · dsimp only
    split <;> try rfl
    split <;> try rfl
    split <;> try rfl
    split <;> rfl

theorem mem_uses_fill {v : Viewpoint} {g : PropertyGroup} {id : Nat} (hg : v.decl.HasGetter g id)
    {x : Node} {use : Use} (hfits : use.Fits) (hread : use.mayRead = true)
    (hdiscard : use.access?.isSome → ¬ x.IsName "_") {outer : List Node} {w : Walk}
    (hx : v.decl.IsReachedAs g (use.reached v outer x w).scope x) :
    id ∈ (visit v outer (use.fill x) w).uses := by
  have hpath := hx.isPath
  cases use with
  | read => exact mem_uses_visit hg hx outer
  | called n =>
    rw [visit_called]
    apply (growsTo_foldl _ _ (fun w c _ => growsTo_visitChild v _ c w) _).uses
    refine mem_uses_visit hg ?_ _
    rw [scope_checkCall]
    exact hx.filling _
  | assigned n slot =>
    obtain ⟨field, htarget⟩ := slot.target_split (some .left) (fill (.assigned n slot) x :: outer) x
    rw [visit_assigned v outer n w hpath slot]
    dsimp only
    -- what comes after the target adds to what its write uses
    apply (growsTo_visitPart (grows_visit v) _ _ _).uses
    apply (growsTo_foldl _ _
      (fun w p _ => growsTo_writeTarget (grows_visit v) _ p.1 p.2 w) _).uses
    rw [htarget]
    exact mem_uses_writeTarget hg (hx.filling field) (hdiscard rfl) hread _
  | countedFirst n =>
    rw [visit_countedFirst v outer n w hpath hfits]
    exact mem_uses_writeTarget hg (hx.filling none) (hdiscard rfl) rfl _
  | countedAfter n =>
    rw [visit_countedAfter v outer n w hpath hfits]
    exact mem_uses_writeTarget hg (hx.filling none) (hdiscard rfl) rfl _
  | passed n =>
    rcases hwrites : access? (.passed n) with _ | access
    · rw [visit_passed_of_reads v outer n w hpath hwrites]
      -- evidence may be noted first, which leaves the scope as it is
      refine mem_uses_visit hg ?_ _
      split
      · exact hx.filling none
      · exact hx.filling none
    · have hreads : access.reads = true := by
        simp only [access?] at hwrites
        split at hwrites
        · cases hwrites
          rfl
        · cases hwrites
      rw [visit_passed_of_writes v outer n w hpath hwrites]
      exact mem_uses_writeTarget hg (hx.filling none) (hdiscard (by simp [hwrites])) hreads _
  | referred n =>
    rw [visit_referred]
    apply (growsTo_visitOperands (grows_visit v) _ _ _).uses
    exact mem_uses_noteRef hg (hx.filling none) outer _
  | addressed n => cases hread

end Use

/-! ## Members that use a getter -/

theorem StructDecl.IsReachedThroughThis.not_isName {d : StructDecl} {g : PropertyGroup} {x : Node}
    (h : d.IsReachedThroughThis g x) (name : String) : ¬ x.IsName name := by
  rintro ⟨hk, -⟩
  rcases h with ⟨_, -, hx⟩ | ⟨-, hx⟩
  · have := hx.1.1
    simp [hk] at this
  · have := hx.1
    simp [hk] at this

theorem Node.IsName.isReachedAs {d : StructDecl} {g : PropertyGroup} {name : String} {x : Node}
    (hx : x.IsName name) (hname : d.resolve name = some (.property g)) {w : Walk}
    (hw : w.Free name) : d.IsReachedAs g w.scope x := by
  have hw : w.scope.lookup name = none := hw
  exact Or.inl ⟨name, hname, hx, by simp [Scope.binds, hw]⟩

namespace Use

section Evaluated

variable {use : Use} {x : Node} (huse : use ≠ .read) (hread : use.mayRead = true)
include huse hread

/-- Of the uses that may read, only increments and decrements are prefix expressions. -/
theorem eq_countedFirst (hk : (use.fill x).kind = .prefixUnaryExpression) :
    ∃ n, use = .countedFirst n := by
  cases use with
  | countedFirst n => exact ⟨n, rfl⟩
  | addressed n => cases hread
  | read => exact absurd rfl huse
  | _ => simp [fill] at hk

theorem lastChild?_of_prefix (hk : (use.fill x).kind = .prefixUnaryExpression) :
    (use.fill x).lastChild? = some (x.filling none) := by
  obtain ⟨n, rfl⟩ := eq_countedFirst huse hread hk
  exact lastChild?_endingIn n _ x

theorem noticeable (hfits : use.Fits) {q : Position} (hq : q.node = use.fill x)
    (hrole : q.role = .code)
    (htuple : q.node.kind = .argument → ∀ parent ∈ q.path.head?, parent.kind ≠ .tupleExpression) :
    Noticeable q := by
  refine
    { role := hrole
      kind := ?_
      branches := ?_
      counts := fun hk => ?_
      untupled := htuple }
  · rw [hq]
    cases use with
    | read => exact absurd rfl huse
    | _ => simp [fill, soughtKinds]
  · rw [hq]
    cases use with
    | read => exact absurd rfl huse
    | _ => simp [fill, endingIn, startingWith]
  · rw [hq] at hk ⊢
    obtain ⟨n, rfl⟩ := eq_countedFirst huse hread hk
    exact hfits.imp (operatorToken?_endingIn · _ x) (operatorToken?_endingIn · _ x)

end Evaluated

/-- A use of an expression in code that does not bind a name leaves the name free until the
expression is come to. -/
theorem retains_reached {v : Viewpoint} {name : String} {use : Use} {x : Node} (hx : x.IsPath)
    (hspares : (use.fill x).Spares name) (outer : List Node) (w : Walk) :
    Retains name ∅ w (use.reached v outer x w) := by
  cases use with
  | assigned n slot =>
    -- only the targets before it in a tuple come first
    refine retains_foldl (fun w p hp => retains_writeTarget ?_ _ _ w) w
    have hmem : p ∈ (slot.fill (some .left) x).targets (fill (.assigned n slot) x :: outer) := by
      rw [slot.targets_fill _ _ hx]
      exact List.mem_append_left _ hp
    have hleft : slot.fill (some .left) x ∈ (fill (.assigned n slot) x).children :=
      List.mem_cons_self
    exact hspares.of_within ((within_of_mem_targets hmem).trans (within_of_mem hleft))
  | _ => exact retains_refl name w

end Use

namespace Walk

section Members

variable {v : Viewpoint} {g : PropertyGroup} {id : Nat} (hg : v.decl.HasGetter g id)
  {use : Use} (hfits : use.Fits) (hread : use.mayRead = true) {x : Node}
include hg hfits hread

/-- Every visit notices the use of a getter through `this`. Of a prefix expression only the operand
may be visited, which is a read. -/
theorem sought_use (hx : v.decl.IsReachedThroughThis g x) (huse : use ≠ .read) {q : Position}
    (hq : q.node = use.fill x) (hrole : q.role = .code)
    (htuple : q.node.kind = .argument → ∀ parent ∈ q.path.head?, parent.kind ≠ .tupleExpression) :
    Sought v (fun a => id ∈ a.uses) q := by
  have hoperand : q.node.kind = .prefixUnaryExpression →
      OperandShows v (fun a => id ∈ a.uses) q.node := by
    intro hk operand hlast outer w
    rw [hq] at hk hlast
    rw [use.lastChild?_of_prefix huse hread hk] at hlast
    cases hlast
    have hreached : v.decl.IsReachedAs g w.scope (x.filling none) := Or.inr hx
    exact mem_uses_visit hg hreached outer
  refine
    { toNoticeable := use.noticeable huse hread hfits hq hrole htuple
      lasting := lasting_uses id
      visited := fun w => ?_
      recorded := fun hk => Or.inl (hoperand hk)
      referred := fun h => hoperand h.1 }
  rw [hq]
  exact Use.mem_uses_fill hg hfits hread (fun _ => hx.not_isName "_") (Or.inr hx)

/-- Where nothing binds the name of the property, the visit of a use of the name notices it. -/
theorem reveals_use {name : String} (hname : v.decl.resolve name = some (.property g))
    (hx : x.IsName name) (hdiscard : use.access?.isSome → name ≠ "_")
    (hspares : (use.fill x).Spares name) :
    Reveals v name (fun a => id ∈ a.uses) (use.fill x) := by
  refine ⟨lasting_uses id, fun outer w hw => ?_⟩
  have hpath : x.IsPath := by simp [IsPath, hx.1]
  have hfree := (use.retains_reached (v := v) hpath hspares outer w).free hw
  refine Use.mem_uses_fill hg hfits hread (fun hwrites hunderscore => ?_)
    (hx.isReachedAs hname hfree)
  exact hdiscard hwrites (hx.2.symm.trans hunderscore.2)

end Members

/-- The visit of the body notices a use of the name that is visited itself or evaluated. -/
theorem mem_uses_of_name {v : Viewpoint} {g : PropertyGroup} {id : Nat}
    (hg : v.decl.HasGetter g id) {name : String} (hname : v.decl.resolve name = some (.property g))
    {use : Use} (hfits : use.Fits) (hread : use.mayRead = true)
    (hdiscard : use.access?.isSome → name ≠ "_") {x : Node} (hx : x.IsName name) {body : Node}
    (hbody : body.Tidy) (hspares : body.Spares name)
    (hevaluated : body.Visits (use.fill x) ∨
      use ≠ .read ∧ ∃ q : Position, body.LeadsTo q ∧ q.node = use.fill x ∧ q.role = .code ∧
        (q.node.kind = .argument → ∀ parent ∈ q.path.head?, parent.kind ≠ .tupleExpression))
    (outer : List Node) {w : Walk} (hw : w.Free name) : id ∈ (visit v outer body w).uses := by
  have hvisited : body.Visits (use.fill x) → id ∈ (visit v outer body w).uses := by
    intro h
    have hreveals := reveals_use hg hfits hread hname hx hdiscard (hspares.of_within h.within)
    exact (hreveals.of_visits h hspares).visited outer w hw
  rcases hevaluated with h | ⟨huse, q, hr, hq, hrole, htuple⟩
  · exact hvisited h
  · have hsees := sees_of_leadsTo (use.noticeable huse hread hfits hq hrole htuple) hbody hr
    rw [hq] at hsees
    by_cases hk : (use.fill x).kind = .prefixUnaryExpression
    · rcases hsees.visits hk (use.lastChild?_of_prefix huse hread hk) with h | h
      · exact hvisited h
      · -- the operand alone is visited, which is a read
        have hoperand : (x.filling none).IsName name := hx
        have hreads : Use.read.Fits := trivial
        have hreveals := reveals_use hg hreads rfl hname hoperand (fun h => by cases h)
          (hspares.of_within h.within)
        exact (hreveals.of_visits h hspares).visited outer w hw
    · rcases hsees with h | ⟨h, -⟩
      · exact hvisited h
      · exact absurd h hk

end Walk

/-- Every use of a property or an indexer of the instance that may read it depends on its getter,
from any state. So a member whose code writes through a getter uses it, and mutates if the getter
does: on `this` wherever that is evaluated, and by its name wherever that is evaluated or visited,
if no parameter has the name and nothing in the code binds it. Plain assignments, `&` and `fixed`
are excepted. -/
theorem a_use_that_may_read_depends_on_the_getter {root : Node} {d : StructDecl}
    (hd : d ∈ StructDecl.ofTree root) {g : PropertyGroup} (hg : g ∈ d.groups)
    (hstatic : g.isStatic = false) {getter : Member} (hgetter : getter ∈ d.members)
    (haccessor : getter.id ∈ g.accessors) (hkind : getter.kind.isGetter = true) :
    (∀ v : Viewpoint, v.decl = d → ∀ (use : Use) (x : Node) (outer : List Node) (w : Walk),
      use.Fits → use.mayRead = true → (use.access?.isSome → ¬ x.IsName "_") →
      d.IsReachedAs g (use.reached v outer x w).scope x →
        getter.id ∈ (visit v outer (use.fill x) w).uses) ∧
    (∀ m ∈ d.members, ∀ body, m.HasCode body → ∀ q : Position,
      (Position.ofBody m.returns body).Reaches q → q.role = .code →
      (q.node.kind = .argument → ∀ parent ∈ q.path.head?, parent.kind ≠ .tupleExpression) →
      ∀ (use : Use) (x : Node), q.node = use.fill x → use ≠ .read → use.Fits →
        use.mayRead = true → d.IsReachedThroughThis g x →
        getter.id ∈ (d.analyzeMember m).uses ∧
        (d.verdicts.verdict getter.id = .mutating → d.verdicts.verdict m.id = .mutating)) ∧
    ∀ m ∈ d.members, ∀ body, m.HasCode body → ∀ name, d.resolve name = some (.property g) →
      (∀ p ∈ m.parameters, p.name ≠ name) → body.Spares name →
      ∀ (use : Use) (x : Node), x.IsName name → use.Fits → use.mayRead = true →
        (use.access?.isSome → name ≠ "_") →
        (body.Visits (use.fill x) ∨ use ≠ .read ∧ ∃ q : Position,
          (Position.ofBody m.returns body).Reaches q ∧ q.node = use.fill x ∧ q.role = .code ∧
          (q.node.kind = .argument → ∀ parent ∈ q.path.head?, parent.kind ≠ .tupleExpression)) →
        getter.id ∈ (d.analyzeMember m).uses ∧
        (d.verdicts.verdict getter.id = .mutating → d.verdicts.verdict m.id = .mutating) := by
  have hnumbered := StructDecl.numbered_ofTree hd
  have hhas : d.HasGetter g getter.id :=
    { ofInstance := hstatic
      group := hnumbered.group?_of_mem hg
      accessor := haccessor
      getter := by simp [hnumbered.member?_of_mem hgetter, hkind] }
  have hanalyze : ∀ m ∈ d.members, ∀ body, m.HasCode body →
      d.analyzeMember m = (visit (d.viewpoint m) [] body (Walk.start m)).analysis := by
    intro m hm body hcode
    obtain ⟨hfield, hsynthesized⟩ := StructDecl.allMembers_ofTree StructDecl.given_inspected hd m hm
      (by simp [hcode.body])
    exact StructDecl.analyzeMember_of_body hcode.body hfield hsynthesized hcode.ofInstance
      hcode.notInit hcode.wellFormed
  refine ⟨?_, ?_, ?_⟩
  · rintro v rfl use x outer w hfits hread hdiscard hx
    exact Use.mem_uses_fill hhas hfits hread hdiscard hx
  · intro m hm body hcode q hreach hrole htuple use x hq huse hfits hread hx
    have hsought := sought_use (v := d.viewpoint m) hhas hfits hread hx huse hq hrole htuple
    have huses : getter.id ∈ (d.analyzeMember m).uses := by
      rw [hanalyze m hm body hcode]
      exact shown hsought hcode.tidy [] m.returns hreach (Walk.start m) rfl
    exact ⟨huses, StructDecl.verdict_of_use hnumbered hm huses⟩
  · intro m hm body hcode name hname hparameters hspares use x hx hfits hread hdiscard hevaluated
    have huses : getter.id ∈ (d.analyzeMember m).uses := by
      rw [hanalyze m hm body hcode]
      refine mem_uses_of_name (v := d.viewpoint m) hhas hname hfits hread hdiscard hx hcode.tidy
        hspares (hevaluated.imp_right ?_) [] (free_start hparameters)
      rintro ⟨huse, q, hreach, hq⟩
      exact ⟨huse, q, ⟨[], m.returns, hreach⟩, hq⟩
    exact ⟨huses, StructDecl.verdict_of_use hnumbered hm huses⟩

/-- The property `ref int P => ref f;`. -/
def refProperty : Node :=
  .tree .propertyDeclaration "ref int P => ref f;" 11
    [.tree .refType "ref int" 11
      [.word .refToken "ref" 11, .tree .predefinedType "int" 15 [] (some .type)] (some .type),
     .tree .identifier "P" 19 [] (some .name),
     .tree .arrowExpressionClause "=> ref f" 21
      [.word (.other "=>") "=>" 21,
       .tree .refExpression "ref f" 24 [.word .refToken "ref" 24, .tree .identifier "f" 28]]
      (some .value),
     .word (.other ";") ";" 29]

/-- The assignment `… = z` with the given operator, of which the left side is left open. -/
def assignedBy (operator : Kind) (text : String) (left : Node) : Use :=
  .assigned
    (.tree .assignmentExpression (left.text ++ " " ++ text ++ " z") left.span.start
      [.word operator text (left.span.stop + 1) (some .operator),
       .tree .identifier "z" (left.span.stop + 2 + text.utf8ByteSize) [] (some .right)])
    .whole

/-- The body `{ … = z; }` with the given operator and left side. -/
def bodyAssigning (operator : Kind) (text : String) (left : Node) : Node :=
  let assignment := (assignedBy operator text left).fill left
  .tree .block ("\x7b " ++ assignment.text ++ "; \x7d") (assignment.span.start - 2)
    [.word .openBrace "\x7b" (assignment.span.start - 2),
     .tree (.other "expression_statement") (assignment.text ++ ";") assignment.span.start
      [assignment, .word (.other ";") ";" assignment.span.stop],
     .word .closeBrace "\x7d" (assignment.span.stop + 2)] (some .body)

/-- The file with the property, the field `f`, a method that assigns `this.P` and one that assigns
`P`. -/
def refPropertyFile (operator : Kind) (text : String) : Node :=
  .structOf [refProperty, .intField "f" 31,
    .voidMethod "M" 38 (bodyAssigning operator text (.thisAccess "P" 49)),
    .voidMethod "N" 64 (bodyAssigning operator text (.tree .identifier "P" 75))]

def refPropertyDecl (operator : Kind) (text : String) : StructDecl :=
  (StructDecl.ofTree (refPropertyFile operator text)).head!

/-- The struct whose methods have the bodies `{ this.P += z; }` and `{ P += z; }`. -/
def addingDecl : StructDecl := refPropertyDecl .addAssign "+="

/-- The methods of `addingDecl` mutate, since the getter does. -/
theorem an_added_assignment_uses_the_ref_getter :
    addingDecl.verdicts.verdict 0 = .mutating ∧ addingDecl.verdicts.verdict 2 = .mutating ∧
      addingDecl.verdicts.verdict 3 = .mutating := by
  have hd : addingDecl ∈ StructDecl.ofTree (refPropertyFile .addAssign "+=") := List.mem_cons_self
  have hg : addingDecl.groups[0]! ∈ addingDecl.groups :=
    Array.getElem_mem (i := 0) (by decide +kernel)
  have hgetter : addingDecl.members[0]! ∈ addingDecl.members :=
    Array.getElem_mem (i := 0) (by decide +kernel)
  have hM : addingDecl.members[2]! ∈ addingDecl.members :=
    Array.getElem_mem (i := 2) (by decide +kernel)
  have hN : addingDecl.members[3]! ∈ addingDecl.members :=
    Array.getElem_mem (i := 3) (by decide +kernel)
  have hmutating : addingDecl.verdicts.verdict 0 = .mutating := by decide +kernel
  have hcodeM : addingDecl.members[2]!.HasCode
      (bodyAssigning .addAssign "+=" (.thisAccess "P" 49)) :=
    { body := rfl
      ofInstance := by decide +kernel
      notInit := by decide +kernel
      wellFormed := by decide +kernel
      tidy := by unfold Node.Tidy; decide +kernel }
  have hcodeN : addingDecl.members[3]!.HasCode
      (bodyAssigning .addAssign "+=" (.tree .identifier "P" 75)) :=
    { body := rfl
      ofInstance := by decide +kernel
      notInit := by decide +kernel
      wellFormed := by decide +kernel
      tidy := by unfold Node.Tidy; decide +kernel }
  have hreached : addingDecl.IsReachedThroughThis addingDecl.groups[0]! (.thisAccess "P" 49) :=
    Or.inl ⟨"P", rfl, isThisAccess_thisAccess "P" 49 none, rfl⟩
  obtain ⟨-, hthis, hname⟩ := a_use_that_may_read_depends_on_the_getter hd hg (by decide +kernel)
    hgetter (by decide +kernel) (by decide +kernel)
  refine ⟨hmutating, ?_, ?_⟩
  · -- the assignment is the expression of the one statement
    exact (hthis _ hM _ hcodeM _
      (.of_part (.tail _ (.head _)) rfl <| .of_part (.head _) rfl (.refl _)) rfl
      (fun h => absurd h (by decide)) (assignedBy .addAssign "+=" (.thisAccess "P" 49))
      (.thisAccess "P" 49) rfl (by simp [assignedBy]) trivial rfl hreached).2 hmutating
  · refine (hname _ hN _ hcodeN "P" rfl (by decide +kernel) (by decide +kernel)
      (assignedBy .addAssign "+=" (.tree .identifier "P" 75)) (.tree .identifier "P" 75)
      ⟨rfl, rfl⟩ trivial rfl (fun _ => by decide) (Or.inr ⟨by simp [assignedBy], _,
        .of_part (.tail _ (.head _)) rfl <| .of_part (.head _) rfl (.refl _), rfl, rfl,
        fun h => absurd h (by decide)⟩)).2 hmutating

/-- The struct whose methods have the bodies `{ this.P = z; }` and `{ P = z; }`. -/
def assigningDecl : StructDecl := refPropertyDecl .assign "="

/-- The methods of `assigningDecl` are not taken to mutate, although `P` has no setter and its
getter gives out a writable reference. -/
theorem a_plain_assignment_overlooks_the_ref_getter :
    (∃ g ∈ assigningDecl.groups, g.isStatic = false ∧ g.accessors = [0] ∧
      assigningDecl.resolve "P" = some (.property g)) ∧
      assigningDecl.members[0]!.kind.isGetter = true ∧
      assigningDecl.members[0]!.returns = .ref ∧
      assigningDecl.verdicts.verdict 0 = .mutating ∧
      assigningDecl.members[2]!.body = some (bodyAssigning .assign "=" (.thisAccess "P" 49)) ∧
      assigningDecl.verdicts.verdict 2 = .notMutating ∧
      assigningDecl.members[3]!.body = some (bodyAssigning .assign "=" (.tree .identifier "P" 75)) ∧
      assigningDecl.verdicts.verdict 3 = .notMutating := by
  have hg : assigningDecl.groups[0]! ∈ assigningDecl.groups :=
    Array.getElem_mem (i := 0) (by decide +kernel)
  exact ⟨⟨_, hg, by decide +kernel, by decide +kernel, rfl⟩, by decide +kernel, by decide +kernel,
    by decide +kernel, rfl, by decide +kernel, rfl, by decide +kernel⟩

end ReadonlyLint
