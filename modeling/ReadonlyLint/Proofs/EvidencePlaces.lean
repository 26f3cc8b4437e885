import ReadonlyLint.Proofs.Noticed
import ReadonlyLint.Proofs.Suggested

/-!
Where evidence points. A body that is looked at is the only source of what a walk notes, and every
note of it is at a node of the body. A member whose body is not looked at shows at most one thing,
why that is so, and it shows it where the member is reported.
-/
namespace ReadonlyLint

namespace Walk

/-! ## The notes of a walk -/

/-- What the second state has found beyond the first is of kinds that walks note, at nodes within
the given one. -/
def NotesWithin (body : Node) (w w' : Walk) : Prop :=
  ∃ found : List Evidence, w'.evidence = w.evidence ++ found ∧
    ∀ e ∈ found, e.mutation.isSeen = true ∧ ∃ n : Node, n.Within body ∧ e.span = some n.span

namespace NotesWithin

variable {body : Node}

/-- Nothing is noted where the evidence stays. -/
theorem of_eq {w w' : Walk} (h : w'.evidence = w.evidence) : NotesWithin body w w' :=
  ⟨[], by rw [h, List.append_nil], fun _ he => absurd he List.not_mem_nil⟩

theorem trans {a b c : Walk} (hab : NotesWithin body a b) (hbc : NotesWithin body b c) :
    NotesWithin body a c := by
  obtain ⟨first, hfirst, hfirstAt⟩ := hab
  obtain ⟨second, hsecond, hsecondAt⟩ := hbc
  refine ⟨first ++ second, by rw [hsecond, hfirst, List.append_assoc], ?_⟩
  intro e he
  rcases List.mem_append.mp he with he | he
  · exact hfirstAt e he
  · exact hsecondAt e he

theorem record {n : Node} (hn : n.Within body) (w : Walk) {mutation : Mutation}
    (hseen : mutation.isSeen = true) : NotesWithin body w (w.record mutation n) := by
  refine ⟨[{ mutation, span := some n.span }], rfl, ?_⟩
  intro e he
  rw [List.mem_singleton.mp he]
  exact ⟨hseen, n, hn, rfl⟩

end NotesWithin

theorem composes_notesWithin (body : Node) : Composes fun _ => NotesWithin body where
  refl := fun _ => .of_eq rfl
  trans := .trans
  bindLocal := fun _ _ _ _ => .of_eq rfl
  -- blocks and return modes come and go, the evidence stays with the walk
  inBlock := by
    rintro f w ⟨_, found, hfound, hat⟩
    exact ⟨found, hfound, hat⟩
  returning := by
    rintro _ f mode w ⟨found, hfound, hat⟩
    exact ⟨found, hfound, hat⟩

theorem uses_notesWithin (v : Viewpoint) (body : Node) : Uses v fun _ => NotesWithin body where
  toComposes := composes_notesWithin body
  useMethods := fun _ _ => .of_eq rfl
  useProperty := fun _ _ _ _ _ => .of_eq rfl
  useIndexer := fun _ _ _ _ _ => .of_eq rfl
  useEvent := fun _ _ _ _ => .of_eq rfl

/-- The visit of a tree notes only nodes of the tree. -/
theorem notesWithin_visit (v : Viewpoint) (outer : List Node) (body : Node) (w : Walk) :
    NotesWithin body w (visit v outer body w) := by
  have huses := uses_notesWithin v body
  refine huses.visit (P := (·.Within body)) (fun n hn => ?_) (fun n hn c hc => ?_)
    (Node.within_refl body) outer w
  · exact huses.notes (fun t ht w _ hseen => .record (ht.trans hn) w hseen)
      (fun _ _ _ => .of_eq rfl)
  · exact (Node.below_of_mem_visitedParts hc).within.trans hn

end Walk

/-! ## Members -/

/-- The body that is looked at for a member. -/
def Member.walkedBody? (m : Member) : Option Node :=
  if m.isField || m.isStatic || m.malformed || m.kind.isInitOnly || m.synthesized then none
  else m.body

namespace StructDecl

variable (d : StructDecl) {m : Member}

theorem analyzeMember_of_walkedBody? {body : Node} (h : m.walkedBody? = some body) :
    d.analyzeMember m = (Walk.visit (d.viewpoint m) [] body (Walk.start m)).analysis := by
  unfold Member.walkedBody? at h
  split at h
  · cases h
  · rename_i hplain
    simp only [Bool.or_eq_true, not_or, Bool.not_eq_true] at hplain
    obtain ⟨⟨⟨⟨hfield, hstatic⟩, hmalformed⟩, hinit⟩, hsynthesized⟩ := hplain
    exact analyzeMember_of_body h hfield hsynthesized hstatic hinit hmalformed

/-- A member whose body is not looked at shows nothing, or one thing where it is reported. -/
theorem evidence_of_unwalked (h : m.walkedBody? = none) :
    (d.analyzeMember m).evidence = [] ∨ ∃ mutation : Mutation, mutation.isSeen = false ∧
      (d.analyzeMember m).evidence = [{ mutation, span := d.anchorOf? m }] := by
  have hunseen : ∀ mutation : Mutation, mutation.isSeen = false →
      (d.unseen m mutation).evidence = [] ∨ ∃ mutation' : Mutation, mutation'.isSeen = false ∧
        (d.unseen m mutation).evidence = [{ mutation := mutation', span := d.anchorOf? m }] :=
    fun mutation hkind => .inr ⟨mutation, hkind, rfl⟩
  unfold analyzeMember
  split
  · exact .inl rfl
  · rename_i hlooked
    split
    · exact hunseen _ rfl
    · rename_i hmalformed
      split
      · exact hunseen _ rfl
      · rename_i hinit
        split
        · split
          · exact hunseen _ rfl
          · exact .inl rfl
        · rename_i hsynthesized
          have hbody : m.body = none := by simpa [Member.walkedBody?, *] using h
          rw [hbody]
          dsimp only
          unfold analyzeBodyless
          split
          · exact hunseen _ rfl
          · exact .inl rfl

theorem analyzeMember_of_isField (h : m.isField = true) : d.analyzeMember m = {} := by
  simp [analyzeMember, h]

/-- Every member of a file that is no field is reported somewhere. -/
theorem Placed.anchorOf?_isSome {d : StructDecl} (h : d.Placed) (hm : m ∈ d.members)
    (hfield : m.isField = false) : (d.anchorOf? m).isSome = true := by
  unfold anchorOf?
  cases hanchor : m.anchor with
  | some place => rfl
  | none =>
    obtain ⟨g, hg, -⟩ := h.alone m hm hfield hanchor
    rw [hg]
    rfl

end StructDecl

/-- What a member shows without a look at its body is one thing, at the place where the member or
its property or indexer is reported. All other evidence is of the kinds that a walk notes, which it
is exactly when the body is looked at, and it points at the body or at a node below it. The evidence
of a member of a file always has a place. -/
theorem evidence_points_into_the_member (d : StructDecl) (m : Member) :
    (∀ e ∈ (d.analyzeMember m).evidence, e.mutation.isSeen = false →
      (d.analyzeMember m).evidence = [e] ∧ e.span = d.anchorOf? m) ∧
    (∀ e ∈ (d.analyzeMember m).evidence, e.mutation.isSeen = m.walkedBody?.isSome) ∧
    (∀ body, m.walkedBody? = some body → ∀ e ∈ (d.analyzeMember m).evidence,
      ∃ n : Node, n.Within body ∧ e.span = some n.span) ∧
    (∀ root, d ∈ StructDecl.ofTree root → m ∈ d.members →
      ∀ e ∈ (d.analyzeMember m).evidence, e.span.isSome = true) := by
  cases hwalked : m.walkedBody? with
  | some body =>
    -- the walk starts without evidence, so all of it is noted in the body
    obtain ⟨found, hfound, hat⟩ := Walk.notesWithin_visit (d.viewpoint m) [] body (Walk.start m)
    have hevidence : (d.analyzeMember m).evidence = found := by
      rw [d.analyzeMember_of_walkedBody? hwalked]
      exact hfound
    rw [hevidence]
    refine ⟨fun e he hunseen => ?_, fun e he => (hat e he).1, ?_, fun _ _ _ e he => ?_⟩
    · rw [(hat e he).1] at hunseen
      cases hunseen
    · rintro _ ⟨⟩ e he
      exact (hat e he).2
    · obtain ⟨-, n, -, hspan⟩ := hat e he
      rw [hspan]
      rfl
  | none =>
    rcases d.evidence_of_unwalked hwalked with hnone | ⟨mutation, hkind, hone⟩
    · simp [hnone]
    · rw [hone]
      refine ⟨fun e he _ => ?_, fun e he => ?_, (fun _ h => by cases h), fun root hd hm e he => ?_⟩
      all_goals rw [List.mem_singleton.mp he]
      · exact ⟨rfl, rfl⟩
      · exact hkind
      · refine (StructDecl.placed_ofTree hd).anchorOf?_isSome hm ?_
        -- a field shows nothing
        refine Bool.eq_false_iff.mpr fun hfield => ?_
        rw [d.analyzeMember_of_isField hfield] at hone
        cases hone

/-- The file `struct S { int f; void M() { this.f++; } void B() { } }`, with a syntax error in the
last method. -/
def halfBroken : Node :=
  .structOf [.intField "f" 11, .voidMethod "M" 18 (.incrementBlock 27),
    .voidMethod "B" 41 (Node.emptyBlock 50).broken]

def halfBrokenDecl : StructDecl := (StructDecl.ofTree halfBroken).head!

/-- `M` shows the write at a node of its body, `B` shows at its name that it cannot be read. -/
theorem evidence_points_into_whole_and_broken_methods :
    (∃ m ∈ halfBrokenDecl.members, ∃ e ∈ (halfBrokenDecl.analyzeMember m).evidence,
      e.mutation = .fieldWrite "f" ∧ ∃ body, m.walkedBody? = some body ∧
        ∃ n : Node, n.Within body ∧ e.span = some n.span) ∧
    (∃ m ∈ halfBrokenDecl.members, ∃ e ∈ (halfBrokenDecl.analyzeMember m).evidence,
      e.mutation = .malformedSyntax ∧ (halfBrokenDecl.analyzeMember m).evidence = [e] ∧
        e.span = m.anchor ∧ e.span.isSome = true) := by
  have hd : halfBrokenDecl ∈ StructDecl.ofTree halfBroken := List.mem_cons_self
  have hwhole : halfBrokenDecl.members[1]! ∈ halfBrokenDecl.members :=
    Array.getElem_mem (i := 1) (by decide +kernel)
  have hbroken : halfBrokenDecl.members[2]! ∈ halfBrokenDecl.members :=
    Array.getElem_mem (i := 2) (by decide +kernel)
  constructor
  · obtain ⟨-, -, hinside, -⟩ :=
      evidence_points_into_the_member halfBrokenDecl halfBrokenDecl.members[1]!
    have hevidence : ∃ e ∈ (halfBrokenDecl.analyzeMember halfBrokenDecl.members[1]!).evidence,
        e.mutation = .fieldWrite "f" := by decide +kernel
    obtain ⟨e, he, hwrite⟩ := hevidence
    exact ⟨_, hwhole, e, he, hwrite, _, rfl, hinside _ rfl e he⟩
  · obtain ⟨hsingle, -, -, hplace⟩ :=
      evidence_points_into_the_member halfBrokenDecl halfBrokenDecl.members[2]!
    have hevidence : ∃ e ∈ (halfBrokenDecl.analyzeMember halfBrokenDecl.members[2]!).evidence,
        e.mutation = .malformedSyntax := by decide +kernel
    obtain ⟨e, he, hmalformed⟩ := hevidence
    obtain ⟨hone, hspan⟩ := hsingle e he (by rw [hmalformed]; rfl)
    have hanchor : halfBrokenDecl.anchorOf? halfBrokenDecl.members[2]! =
        halfBrokenDecl.members[2]!.anchor := by decide +kernel
    exact ⟨_, hbroken, e, he, hmalformed, hone, hspan.trans hanchor,
      hplace halfBroken hd hbroken e he⟩

end ReadonlyLint
