import ReadonlyLint.Proofs.Noticed
import ReadonlyLint.Proofs.Resemblance
import ReadonlyLint.Proofs.Usage

/-!
A name and its qualified form are one reference. Where nothing binds `N`, every use of `N` shows the
same as the same use of `this.N`: evidence of the same kinds in the same order, and uses of the same
members. There is one exception: a write of the name `_` is a discard, even in a struct that has a
member of that name.
-/
namespace ReadonlyLint

open Node Walk

/-! ## Two expressions in one place -/

/-- Nodes of one kind with one type frame alike. -/
theorem framesLike_of_type {n n' : Node} (hkind : n'.kind = n.kind)
    (htype : n'.child? .type = n.child? .type) : n.FramesLike n' := by
  refine ⟨hkind, ?_⟩
  rw [hasReadonlyRefType, hasReadonlyRefType, htype]

theorem framesLike_startingWith (n : Node) (kind : Kind) {x y : Node} (hfield : y.field = x.field)
    (htype : x.field ≠ some .type) :
    (n.startingWith kind x).FramesLike (n.startingWith kind y) := by
  refine framesLike_of_type (by simp) ?_
  rw [child?_startingWith_of_ne n kind htype, child?_startingWith_of_ne n kind (hfield ▸ htype)]

theorem framesLike_endingIn (n : Node) (kind : Kind) (x y : Node) :
    (n.endingIn kind x).FramesLike (n.endingIn kind y) := by
  refine framesLike_of_type (by simp) ?_
  simp [child?, endingIn, List.find?_append]

/-- What stands around an expression in a use does not tell which expression it is. -/
theorem Use.framesLike_fill (use : Use) (hread : use ≠ .read) (x y : Node) :
    (use.fill x).FramesLike (use.fill y) := by
  cases use with
  | read => exact absurd rfl hread
  | called n => exact framesLike_startingWith n _ rfl (by simp)
  | assigned n slot => exact framesLike_startingWith n _ (by simp) (by simp)
  | countedFirst n => exact framesLike_endingIn n _ x y
  | countedAfter n => exact framesLike_startingWith n _ rfl (by simp)
  | passed n => exact framesLike_endingIn n _ x y
  | referred n => exact framesLike_endingIn n _ x y
  | addressed n => exact framesLike_endingIn n _ x y

theorem forall₂_elementTargets {outer outer' : List Node} (h : AroundLike outer outer')
    (elements : List Node) :
    List.Forall₂ PartLike (elementTargets outer elements) (elementTargets outer' elements) := by
  refine List.rel_flatMap (R := Eq) (List.forall₂_same.mpr fun _ _ => rfl) ?_
  rintro a _ rfl
  refine List.rel_flatMap (R := Eq) (List.forall₂_same.mpr fun _ _ => rfl) ?_
  rintro e _ rfl
  exact forall₂_targets (.cons (framesLike_refl a) h) e

/-- The other targets of an assignment are alike, whichever expression stands in the slot. -/
theorem Slot.split_like (slot : Slot) (field : Option Field) {outer outer' : List Node}
    (h : AroundLike outer outer') (x y : Node) :
    List.Forall₂ PartLike (slot.split field outer x).before (slot.split field outer' y).before ∧
      List.Forall₂ PartLike (slot.split field outer x).after (slot.split field outer' y).after := by
  induction slot generalizing field outer outer' with
  | whole => exact ⟨.nil, .nil⟩
  | element tuple argument rest after ih =>
    -- the tuple and its element differ only in a child that fills no field
    have htuple : (fill (.element tuple argument rest after) field x).FramesLike
        (fill (.element tuple argument rest after) field y) := by
      refine framesLike_of_type (by simp [fill]) ?_
      simp [child?, fill, elementOf, List.find?_append]
    have hargument : (argument.elementOf (rest.fill none x)).FramesLike
        (argument.elementOf (rest.fill none y)) :=
      framesLike_endingIn argument _ _ _
    have houter := List.Forall₂.cons htuple h
    obtain ⟨hbefore, hafter⟩ := ih none (.cons hargument houter)
    exact ⟨List.rel_append (forall₂_elementTargets houter tuple.children) hbefore,
      List.rel_append hafter (forall₂_elementTargets houter after)⟩

theorem Use.resembles_reached (use : Use) (v : Viewpoint) (outer : List Node) (x y : Node)
    (w : Walk) : (use.reached v outer x w).Resembles (use.reached v outer y w) := by
  cases use with
  | assigned n slot =>
    have houter : AroundLike (fill (.assigned n slot) x :: outer)
        (fill (.assigned n slot) y :: outer) :=
      .cons (framesLike_fill _ (by simp) x y) (aroundLike_refl outer)
    exact resembles_writeTargets (blind_visit v) (resembles_refl w) _
      (slot.split_like (some .left) houter x y).1
  | _ => exact resembles_refl w

/-! ## Two names of one member -/

theorem Node.Names.eq_of_isName {x : Node} {scope : Scope} {name other : String}
    (h : x.Names scope name) (hother : x.IsName other) : name = other := by
  rcases h with ⟨hself, -⟩ | hthis
  · exact hself.2.symm.trans hother.2
  · have hk := hthis.1.1
    rw [hother.1] at hk
    cases hk

/-- Two names of one member show the same as targets. -/
theorem resembles_writeTarget_of_names {v : Viewpoint} {x y : Node} {name : String} {w w' : Walk}
    (hx : x.Names w.scope name) (hy : y.Names w.scope name)
    (hdiscard : name = "_" → v.memberStorage name = .outside) (access : Access)
    (outer outer' : List Node) (h : w.Resembles w') :
    (writeTarget v (visit v) access outer x w).Resembles
      (writeTarget v (visit v) access outer' y w') := by
  rw [hx.writeTarget_eq (fun hname => hdiscard (hx.eq_of_isName hname)) _ _ _ rfl,
    hy.writeTarget_eq (fun hname => hdiscard (hy.eq_of_isName hname)) _ _ _ h.scope]
  exact resembles_writeStorage h v access _ x y

namespace Use

theorem aroundLike_fill (use : Use) (hread : use ≠ .read) (x y : Node) (outer : List Node) :
    AroundLike (use.fill x :: outer) (use.fill y :: outer) :=
  .cons (use.framesLike_fill hread x y) (aroundLike_refl outer)

section Ways

variable {v : Viewpoint} {name : String} {x y : Node} {w : Walk} (hx : x.Names w.scope name)
  (hy : y.Names w.scope name) (outer : List Node) (n : Node)
include hx hy

theorem resembles_read : (visit v outer x w).Resembles (visit v outer y w) := by
  rw [hx.visit_eq outer rfl, hy.visit_eq outer rfl]
  exact resembles_refl _

theorem resembles_called (hresolved : (v.decl.resolve name).isSome) :
    (visit v outer (fill (.called n) x) w).Resembles (visit v outer (fill (.called n) y) w) := by
  have haround := aroundLike_fill (.called n) (by simp) x y outer
  rw [visit_called, visit_called, (hx.filling _).checkCall_eq hresolved,
    (hy.filling _).checkCall_eq hresolved, (hx.filling _).visit_eq _ rfl,
    (hy.filling _).visit_eq _ rfl]
  apply resembles_foldl (resembles_refl _)
  intro c a a' ha
  exact resembles_visitChild (blind_visit v) haround ha c

theorem resembles_countedFirst (hfits : Fits (.countedFirst n))
    (hdiscard : name = "_" → v.memberStorage name = .outside) :
    (visit v outer (fill (.countedFirst n) x) w).Resembles
      (visit v outer (fill (.countedFirst n) y) w) := by
  rw [visit_countedFirst v outer n w hx.isPath hfits,
    visit_countedFirst v outer n w hy.isPath hfits]
  exact resembles_writeTarget_of_names (hx.filling none) (hy.filling none) hdiscard _ _ _
    (resembles_refl w)

theorem resembles_countedAfter (hfits : Fits (.countedAfter n))
    (hdiscard : name = "_" → v.memberStorage name = .outside) :
    (visit v outer (fill (.countedAfter n) x) w).Resembles
      (visit v outer (fill (.countedAfter n) y) w) := by
  rw [visit_countedAfter v outer n w hx.isPath hfits,
    visit_countedAfter v outer n w hy.isPath hfits]
  exact resembles_writeTarget_of_names (hx.filling none) (hy.filling none) hdiscard _ _ _
    (resembles_refl w)

theorem resembles_passed (hdiscard : (access? (.passed n)).isSome → name = "_" →
      v.memberStorage name = .outside) :
    (visit v outer (fill (.passed n) x) w).Resembles (visit v outer (fill (.passed n) y) w) := by
  rcases hwrites : access? (.passed n) with _ | access
  · -- passed by value, which only a pointer into the instance is evidence for
    rw [visit_passed_of_reads v outer n w hx.isPath hwrites,
      visit_passed_of_reads v outer n w hy.isPath hwrites,
      (hx.filling none).isInstancePointer_eq, (hy.filling none).isInstancePointer_eq,
      if_neg (by simp), if_neg (by simp), (hx.filling none).visit_eq _ rfl,
      (hy.filling none).visit_eq _ rfl]
    exact resembles_refl _
  · rw [visit_passed_of_writes v outer n w hx.isPath hwrites,
      visit_passed_of_writes v outer n w hy.isPath hwrites]
    exact resembles_writeTarget_of_names (hx.filling none) (hy.filling none)
      (hdiscard (by simp [hwrites])) _ _ _ (resembles_refl w)

theorem resembles_referred :
    (visit v outer (fill (.referred n) x) w).Resembles
      (visit v outer (fill (.referred n) y) w) := by
  rw [visit_referred, visit_referred, (hx.filling none).visitOperands_eq,
    (hy.filling none).visitOperands_eq]
  apply resembles_noteRef (aroundLike_refl outer) (resembles_refl w)
  rw [(hx.filling none).storage_eq, (hy.filling none).storage_eq]

theorem resembles_addressed (hfits : Fits (.addressed n)) :
    (visit v outer (fill (.addressed n) x) w).Resembles
      (visit v outer (fill (.addressed n) y) w) := by
  rw [visit_addressed v outer n w hfits, visit_addressed v outer n w hfits,
    (hx.filling none).visitOperands_eq, (hy.filling none).visitOperands_eq,
    (hx.filling none).storage_eq, (hy.filling none).storage_eq]
  exact resembles_ite (resembles_record (resembles_refl w) rfl _ _) (resembles_refl w)

end Ways

/-- An element of a tuple is written in the state that the elements before it leave. -/
theorem resembles_assigned {v : Viewpoint} {name : String} {x y : Node} {outer : List Node}
    {w : Walk} {n : Node} {slot : Slot}
    (hx : x.Names (reached (.assigned n slot) v outer x w).scope name)
    (hy : y.Names (reached (.assigned n slot) v outer x w).scope name)
    (hdiscard : name = "_" → v.memberStorage name = .outside) :
    (visit v outer (fill (.assigned n slot) x) w).Resembles
      (visit v outer (fill (.assigned n slot) y) w) := by
  have haround := aroundLike_fill (.assigned n slot) (by simp) x y outer
  obtain ⟨-, hafter⟩ := slot.split_like (some .left) haround x y
  obtain ⟨field, htarget⟩ := slot.target_split (some .left) (fill (.assigned n slot) x :: outer) x
  obtain ⟨field', htarget'⟩ :=
    slot.target_split (some .left) (fill (.assigned n slot) y :: outer) y
  rw [visit_assigned v outer n w hx.isPath slot, visit_assigned v outer n w hy.isPath slot]
  dsimp only
  rw [htarget, htarget']
  -- from the back: the right side, the targets after the slot, the target in it
  apply resembles_visitPart (blind_visit v) haround
  refine resembles_writeTargets (blind_visit v) ?_ _ hafter
  exact resembles_writeTarget_of_names (hx.filling field) (hy.filling field') hdiscard _ _ _
    (resembles_reached _ v outer x y w)

/-- Two names of one member show the same in every use. -/
theorem resembles_fill {v : Viewpoint} {name : String} (hresolved : (v.decl.resolve name).isSome)
    {x y : Node} {outer : List Node} {w : Walk} (use : Use) (hfits : use.Fits)
    (hdiscard : use.access?.isSome → name = "_" → v.memberStorage name = .outside)
    (hx : x.Names (use.reached v outer x w).scope name)
    (hy : y.Names (use.reached v outer x w).scope name) :
    (visit v outer (use.fill x) w).Resembles (visit v outer (use.fill y) w) := by
  cases use with
  | read => exact resembles_read hx hy outer
  | called n => exact resembles_called hx hy outer n hresolved
  | assigned n slot => exact resembles_assigned hx hy (hdiscard rfl)
  | countedFirst n => exact resembles_countedFirst hx hy outer n hfits (hdiscard rfl)
  | countedAfter n => exact resembles_countedAfter hx hy outer n hfits (hdiscard rfl)
  | passed n => exact resembles_passed hx hy outer n hdiscard
  | referred n => exact resembles_referred hx hy outer n
  | addressed n => exact resembles_addressed hx hy outer n hfits

end Use

/-- Where nothing binds a name that the struct declares, every use of the name and the same use of
it through `this` show evidence of the same kinds in the same order and the same uses of members. A
write of `_` is excepted, unless no write of the member of that name shows anything. -/
theorem a_name_and_its_qualified_form_are_one_reference (v : Viewpoint) {name : String}
    (hresolved : (v.decl.resolve name).isSome) {simple qualified : Node}
    (hsimple : simple.IsName name) (hqualified : qualified.IsThisMember name) (use : Use)
    (hfits : use.Fits)
    (hdiscard : use.access?.isSome → name = "_" → v.memberStorage name = .outside)
    (outer : List Node) (w : Walk)
    (hfree : (use.reached v outer simple w).scope.binds name = false) :
    ∃ found found' : List Evidence,
      (visit v outer (use.fill simple) w).evidence = w.evidence ++ found ∧
      (visit v outer (use.fill qualified) w).evidence = w.evidence ++ found' ∧
      found'.map (·.mutation.label) = found.map (·.mutation.label) ∧
      (visit v outer (use.fill qualified) w).uses = (visit v outer (use.fill simple) w).uses := by
  obtain ⟨found, hfound⟩ := (grows_visit v outer (use.fill simple) w).evidence
  obtain ⟨found', hfound'⟩ := (grows_visit v outer (use.fill qualified) w).evidence
  have hresembles := use.resembles_fill hresolved hfits hdiscard (Or.inl ⟨hsimple, hfree⟩)
    (Or.inr hqualified)
  refine ⟨found, found', hfound.symm, hfound'.symm, ?_, hresembles.uses⟩
  have hlabels := hresembles.labels
  rw [← hfound, ← hfound', List.map_append, List.map_append] at hlabels
  exact List.append_cancel_left hlabels

/-- The assignment `(…, y) = z`, of which the first element of the tuple is left open. -/
def assignedInTuple : Use :=
  .assigned
    (.tree .assignmentExpression "" 18
      [.word .assign "=" 27 (some .operator), .tree .identifier "z" 29 [] (some .right)])
    (.element (.tree .tupleExpression "" 18 [.word .openParen "(" 18]) (.tree .argument "" 19)
      .whole
      [.word .comma "," 23,
       .tree .argument "y" 25 [.tree .identifier "y" 25], .word .closeParen ")" 26])

/-- The struct `struct S { int name; }`, looked at from a method of it. -/
def fieldOnly (name : String) : Viewpoint :=
  { decl := (StructDecl.ofTree (.structOf [.intField name 11])).head!, accessorOf := none }

/-- The state in which nothing is bound and nothing was found. -/
def Walk.blank : Walk := { scope := .empty, returnModes := [] }

/-- Both `(f, y) = z` and `(this.f, y) = z` write the field. -/
theorem a_field_is_written_in_a_tuple_with_or_without_this :
    (visit (fieldOnly "f") [] (assignedInTuple.fill (.tree .identifier "f" 19))
        Walk.blank).evidence.map (·.mutation.label) = ["field-write"] ∧
      (visit (fieldOnly "f") [] (assignedInTuple.fill (.thisAccess "f" 19))
        Walk.blank).evidence.map (·.mutation.label) = ["field-write"] := by
  have hwritten : (visit (fieldOnly "f") [] (assignedInTuple.fill (.tree .identifier "f" 19))
      Walk.blank).evidence.map (·.mutation.label) = ["field-write"] := by
    decide +kernel
  have hsimple : (Node.tree .identifier "f" 19).IsName "f" := ⟨rfl, rfl⟩
  have hqualified : (Node.thisAccess "f" 19).IsThisMember "f" :=
    ⟨isThisAccess_thisAccess "f" 19 none, rfl⟩
  obtain ⟨found, found', hfound, hfound', hlabels, -⟩ :=
    a_name_and_its_qualified_form_are_one_reference (fieldOnly "f") (by decide +kernel) hsimple
      hqualified assignedInTuple trivial (by decide) [] Walk.blank (by decide +kernel)
  refine ⟨hwritten, ?_⟩
  rw [hfound] at hwritten
  rw [hfound']
  exact hlabels.trans hwritten

/-- The assignment `… = z`, of which the left side is left open. -/
def assignedAlone : Use :=
  .assigned
    (.tree .assignmentExpression "" 18
      [.word .assign "=" 20 (some .operator), .tree .identifier "z" 22 [] (some .right)])
    .whole

/-- In a struct with the field `_`, `this._ = z` writes the field and `_ = z` does not. -/
theorem a_write_of_an_underscore_is_a_discard :
    ((fieldOnly "_").decl.resolve "_").isSome = true ∧ Walk.blank.scope.binds "_" = false ∧
      assignedAlone.Fits ∧
      (visit (fieldOnly "_") [] (assignedAlone.fill (.tree .identifier "_" 18))
        Walk.blank).evidence = [] ∧
      (visit (fieldOnly "_") [] (assignedAlone.fill (.thisAccess "_" 18))
        Walk.blank).evidence.map (·.mutation.label) = ["field-write"] :=
  ⟨by decide +kernel, by decide +kernel, trivial, by decide +kernel, by decide +kernel⟩

end ReadonlyLint
