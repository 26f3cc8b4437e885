import ReadonlyLint.Proofs.Noticed
import ReadonlyLint.Proofs.Usage
import ReadonlyLint.Proofs.Verdicts

/-!
Writes of a name. A use that writes `N` where nothing binds `N`, or `this.N`, writes the member of
the name: a field leaves evidence at the place of the name, a property has its setter used. Whatever
every assignment of `this.N` establishes is then shown by each member whose code makes one.
-/
namespace ReadonlyLint

open Node Walk

/-! ## Nodes that write -/

/-- The visit of a node that writes starts with its target. -/
theorem Walk.growsTo_of_writing? {v : Viewpoint} {n target : Node} {access : Access}
    (h : n.writing? = some (access, target)) (outer : List Node) (w : Walk) :
    (write v (visit v) access (n :: outer) target w).GrowsTo (visit v outer n w) := by
  have haround : n.around outer = n :: outer := by
    apply around_of_ne
    intro hk
    simp [writing?, hk] at h
  rw [visit_eq]
  unfold writing? at h
  split at h
  case h_1 hk =>
    obtain ⟨left, hleft, hpair⟩ := Option.map_eq_some_iff.mp h
    cases hpair
    simp only [step, hk, visitAssignment, hleft, haround]
    exact growsTo_visitPart (grows_visit v) _ _ _
  case h_2 hk | h_3 hk =>
    split at h
    · rename_i hcounts
      obtain ⟨operand, hoperand, hpair⟩ := Option.map_eq_some_iff.mp h
      cases hpair
      simp only [step, hk, visitUnary, hoperand, hcounts, haround, if_true]
      exact .refl _
    · cases h
  case h_4 hk =>
    split at h
    · rename_i hword
      obtain ⟨value, hvalue, hpair⟩ := Option.map_eq_some_iff.mp h
      cases hpair
      simp only [step, hk, visitArgument, hvalue, hword, haround, if_true]
      exact .refl _
    · cases h
  case h_5 => cases h

/-! ## Writes of a name -/

namespace Use

theorem growsTo_reached (use : Use) (v : Viewpoint) (outer : List Node) (x : Node) (w : Walk) :
    w.GrowsTo (use.reached v outer x w) := by
  cases use with
  | assigned n slot =>
    exact growsTo_foldl _ _ (fun w p _ => growsTo_writeTarget (grows_visit v) _ p.1 p.2 w) w
  | _ => exact .refl w

/-- A use that writes a name of the instance writes the member, and then only adds to that. -/
theorem growsTo_fill_of_writes {v : Viewpoint} {use : Use} {access : Access} {x : Node}
    {name : String} {outer : List Node} {w : Walk} (hfits : use.Fits)
    (hwrites : use.access? = some access) (hdiscard : ¬ x.IsName "_")
    (hx : x.Names (use.reached v outer x w).scope name) :
    ∃ field, (writeStorage v (use.reached v outer x w) access (v.memberStorage name)
      (x.filling field)).GrowsTo (visit v outer (use.fill x) w) := by
  have hpath := hx.isPath
  have hwrite : ∀ field access around, writeTarget v (visit v) access around (x.filling field)
      (use.reached v outer x w) =
        writeStorage v (use.reached v outer x w) access (v.memberStorage name) (x.filling field) :=
    fun field access around =>
      (hx.filling field).writeTarget_eq (fun h => absurd h hdiscard) _ access around rfl
  cases use with
  | assigned n slot =>
    obtain ⟨field, htarget⟩ := slot.target_split (some .left) (fill (.assigned n slot) x :: outer) x
    cases hwrites
    refine ⟨field, ?_⟩
    rw [visit_assigned v outer n w hpath slot]
    dsimp only
    rw [htarget, hwrite]
    -- then come the targets after it and the right side
    exact (growsTo_foldl _ _ (fun w p _ => growsTo_writeTarget (grows_visit v) _ p.1 p.2 w) _).trans
      (growsTo_visitPart (grows_visit v) _ _ _)
  | countedFirst n =>
    cases hwrites
    refine ⟨none, ?_⟩
    rw [visit_countedFirst v outer n w hpath hfits, ← hwrite]
    exact .refl _
  | countedAfter n =>
    cases hwrites
    refine ⟨none, ?_⟩
    rw [visit_countedAfter v outer n w hpath hfits, ← hwrite]
    exact .refl _
  | passed n =>
    refine ⟨none, ?_⟩
    rw [visit_passed_of_writes v outer n w hpath hwrites, ← hwrite]
    exact .refl _
  | read => cases hwrites
  | called n => cases hwrites
  | referred n => cases hwrites
  | addressed n => cases hwrites

/-- A written field is noted, at the place of the name. -/
theorem evidence_fill_of_writes {v : Viewpoint} {access : Access} {x : Node} {name : String}
    (hfield : v.memberStorage name = .field name) (use : Use) (outer : List Node) (w : Walk)
    (hfits : use.Fits) (hwrites : use.access? = some access) (hdiscard : ¬ x.IsName "_")
    (hx : x.Names (use.reached v outer x w).scope name) :
    ∃ found, (visit v outer (use.fill x) w).evidence = w.evidence ++ found ∧
      { mutation := if access = .reference then .referenceEscape name else .fieldWrite name
        span := some x.span } ∈ found := by
  obtain ⟨field, hgrows⟩ := growsTo_fill_of_writes hfits hwrites hdiscard hx
  rw [hfield] at hgrows
  obtain ⟨before, hbefore⟩ := (use.growsTo_reached v outer x w).evidence
  obtain ⟨after, hafter⟩ := hgrows.evidence
  refine ⟨before ++ [_] ++ after, ?_, List.mem_append_left _ List.mem_concat_self⟩
  rw [← hafter, ← List.append_assoc, ← List.append_assoc, hbefore]
  rfl

/-- A written property has its setter used. -/
theorem mem_uses_fill_of_writes {v : Viewpoint} {access : Access} {x : Node} {name : String}
    {group id : Nat}
    (hproperty : v.memberStorage name = .property group)
    (hsetter : ∀ (w : Walk) (read : Bool), id ∈ (useGroup v w group read true).uses)
    (use : Use) (outer : List Node) (w : Walk) (hfits : use.Fits)
    (hwrites : use.access? = some access) (hdiscard : ¬ x.IsName "_")
    (hx : x.Names (use.reached v outer x w).scope name) :
    id ∈ (visit v outer (use.fill x) w).uses := by
  obtain ⟨field, hgrows⟩ := growsTo_fill_of_writes hfits hwrites hdiscard hx
  rw [hproperty] at hgrows
  exact hgrows.uses id (hsetter _ _)

end Use

/-! ## Members that assign a name -/

/-- The member has a body that is looked at, without comments in it. -/
structure Member.HasCode (m : Member) (code : Node) : Prop where
  body : m.body = some code
  ofInstance : m.isStatic = false
  notInit : m.kind.isInitOnly = false
  wellFormed : m.malformed = false
  tidy : code.Tidy

/-- The code of the member assigns `this.name`, alone or in a tuple. -/
def Member.AssignsThis (m : Member) (name : String) : Prop :=
  ∃ body q n slot x, m.HasCode body ∧ (Position.ofBody m.returns body).Reaches q ∧
    q.role = .code ∧ q.node = (Use.assigned n slot).fill x ∧ x.IsThisMember name

theorem Node.IsThisMember.not_isName {x : Node} {name : String} (h : x.IsThisMember name)
    (other : String) : ¬ x.IsName other := by
  rintro ⟨hk, -⟩
  have haccess := h.1.1
  rw [hk] at haccess
  cases haccess

theorem Walk.sought_assigned {v : Viewpoint} {Q : LocalAnalysis → Prop} (hQ : Lasting Q)
    {q : Position} {n x : Node} {slot : Slot} (hrole : q.role = .code)
    (hq : q.node = (Use.assigned n slot).fill x)
    (hvisited : ∀ w : Walk, Q (visit v (bare q.path) q.node w).analysis) : Sought v Q q := by
  have hkind : q.node.kind = .assignmentExpression := by rw [hq]; rfl
  refine
    { lasting := hQ
      role := hrole
      kind := by simp [soughtKinds, hkind]
      branches := by simp [hq, Use.fill]
      visited := hvisited
      counts := fun hk => by simp [hkind] at hk
      recorded := fun hk => by simp [hkind] at hk
      referred := fun h => by
        have hk := h.1
        simp [hkind] at hk
      untupled := fun hk => by simp [hkind] at hk }

/-- What every assignment of `this.name` establishes is shown by a member that makes one. -/
theorem StructDecl.analyzeMember_of_assignsThis {d : StructDecl} {m : Member} {name : String}
    (hinspected : m.body.isSome → m.isField = false ∧ m.synthesized = false)
    (hassigns : m.AssignsThis name) {Q : LocalAnalysis → Prop} (hQ : Lasting Q)
    (h : ∀ n slot x outer w, x.IsThisMember name →
      Q (visit (d.viewpoint m) outer ((Use.assigned n slot).fill x) w).analysis) :
    Q (d.analyzeMember m) := by
  obtain ⟨body, q, n, slot, x, hcode, hreach, hrole, hq, hx⟩ := hassigns
  obtain ⟨hfield, hsynthesized⟩ := hinspected (by simp [hcode.body])
  have hsought := sought_assigned (v := d.viewpoint m) hQ hrole hq fun w => by
    rw [hq]
    exact h n slot x _ w hx
  rw [analyzeMember_of_body hcode.body hfield hsynthesized hcode.ofInstance hcode.notInit
    hcode.wellFormed]
  exact shown hsought hcode.tidy [] m.returns hreach (Walk.start m) rfl

end ReadonlyLint
