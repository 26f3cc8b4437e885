import ReadonlyLint.Proofs.Subtree
import ReadonlyLint.Proofs.Verdicts

/-!
Every member that may be marked is suggested exactly once: with its whole property or indexer when
all accessors of that may be marked, and else by itself. Only the accessors of events, which take no
such mark, are left out.

Nothing is lost on the way because a member without a place of its own to report is the one accessor
of a property without a list (`StructDecl.Placed`), which is reported as the property. Nothing is
said twice because members, groups and the accessors of a group are all listed once.
-/
namespace ReadonlyLint

/-! ## Lists in which one entry counts -/

/-- What satisfies `p` comes from one entry, if no other entry gives any such thing. -/
theorem filter_flatMap_of_unique {α β : Type} {l : List α} (hl : l.Nodup) {a : α} (ha : a ∈ l)
    {f : α → List β} {p : β → Bool} (h : ∀ b ∈ l, b ≠ a → (f b).filter p = []) :
    (l.flatMap f).filter p = (f a).filter p := by
  obtain ⟨before, after, rfl⟩ := List.append_of_mem ha
  obtain ⟨-, hnodup, hapart⟩ := List.nodup_append.mp hl
  have hbefore : (before.flatMap f).filter p = [] := by
    rw [List.filter_flatMap, List.flatMap_eq_nil_iff]
    intro b hb
    exact h b (List.mem_append_left _ hb) (hapart b hb a List.mem_cons_self)
  have hafter : (after.flatMap f).filter p = [] := by
    rw [List.filter_flatMap, List.flatMap_eq_nil_iff]
    intro b hb
    refine h b (by simp [hb]) ?_
    rintro rfl
    exact (List.nodup_cons.mp hnodup).1 hb
  simp [hbefore, hafter]

/-- What is numbered by its places is listed once. -/
theorem nodup_of_numbered {α : Type} {l : Array α} {number : α → Nat}
    (h : ∀ {i : Nat} {a : α}, l[i]? = some a → number a = i) : l.toList.Nodup := by
  rw [List.nodup_iff_getElem?_ne_getElem?]
  intro i j hij hj hsame
  rw [Array.length_toList] at hj
  simp only [Array.getElem?_toList] at hsame
  -- one thing at two places would have both as its number
  have hlast : l[j]? = some l[j] := Array.getElem?_eq_getElem hj
  have hi := h (hsame.trans hlast)
  have hj := h hlast
  omega

namespace StructDecl

/-! ## Where members are reported -/

/-- The accessors of a group are listed once, and a member without a place of its own is a field or
the one accessor of its group. -/
structure Placed (d : StructDecl) : Prop where
  nodup : ∀ g ∈ d.groups, g.accessors.Nodup
  alone : ∀ m ∈ d.members, m.isField = false → m.anchor = none →
    ∃ g, d.groupOf? m = some g ∧ g.accessors = [m.id]

theorem Placed.pushMember {d : StructDecl} (h : d.Placed) {m : Member}
    (hm : m.isField = false → m.anchor.isSome) : (d.pushMember m).Placed := by
  refine ⟨fun g hg => h.nodup g (by simpa using hg), fun x hx hfield hnone => ?_⟩
  rcases Array.mem_push.mp hx with hx | rfl
  · obtain ⟨g, hg, hone⟩ := h.alone x hx hfield hnone
    exact ⟨g, ((extends_refl d).pushMember m).groupOf? hg, hone⟩
  · have hsome : m.anchor.isSome := hm hfield
    rw [show m.anchor = none from hnone] at hsome
    cases hsome

theorem kept_placed : Kept Placed where
  error := fun _ h => ⟨h.nodup, h.alone⟩
  event := fun _ _ _ h => ⟨h.nodup, h.alone⟩
  field := fun _ m hfield _ h => h.pushMember (by simp [hfield])
  method := fun _ m _ _ _ hanchor h => h.pushMember fun _ => hanchor
  accessors := fun d g parameters returns specs hanchored h => by
    refine ⟨fun x hx => ?_, fun m hm hfield hnone => ?_⟩
    · rw [groups_addAccessors] at hx
      rcases Array.mem_push.mp hx with hx | rfl
      · exact h.nodup x hx
      · exact List.nodup_range'
    · rw [← Array.mem_toList_iff, members_addAccessors, List.mem_append] at hm
      rcases hm with hm | hm
      · obtain ⟨x, hx, hone⟩ := h.alone m (Array.mem_toList_iff.mp hm) hfield hnone
        have hextends := (kept_extends d).accessors d g parameters returns specs hanchored
          (extends_refl d)
        exact ⟨x, hextends.groupOf? hx, hone⟩
      · -- an accessor without a place has no other beside it
        obtain ⟨⟨s, place⟩, hs, rfl⟩ := List.mem_map.mp hm
        have hspecs : specs = [s] := hanchored s (List.fst_mem_of_mem_zipIdx hs) hnone
        have hplace : place = d.members.size := by
          simpa [hspecs] using hs
        refine ⟨d.filledGroup g specs, ?_, ?_⟩
        · simp [groupOf?, group?, groups_addAccessors, AccessorSpec.toMember, MemberKind.group?]
        · simp [filledGroup, hspecs, hplace]

theorem placed_ofTree {root : Node} {d : StructDecl} (hd : d ∈ ofTree root) : d.Placed :=
  kept_ofTree kept_placed
    (fun n => ⟨fun g hg => by simp [header] at hg, fun m hm => by simp [header] at hm⟩) hd

/-! ## What is suggested for one member -/

instance (d : StructDecl) (r : Resolution) (g : PropertyGroup) : Decidable (d.AllEligible r g) :=
  decidable_of_iff _ length_eligibleAccessors_iff

/-- What a suggestion for a member asks to mark: its whole property or indexer if all accessors may
be marked, and else the member. -/
def targetFor (d : StructDecl) (r : Resolution) (m : Member) : SuggestionTarget :=
  match d.groupOf? m with
  | some g => if d.AllEligible r g then .group g.id else .member m.id
  | none => .member m.id

/-- The members outside of groups that may be marked. -/
def eligibleSingles (d : StructDecl) (r : Resolution) : List Member :=
  d.members.toList.filter fun m => m.kind.group?.isNone && d.isEligible r m

theorem mem_eligibleSingles {d : StructDecl} {r : Resolution} {m : Member} :
    m ∈ d.eligibleSingles r ↔ m ∈ d.members ∧ m.kind.group? = none ∧ d.isEligible r m := by
  simp [eligibleSingles]

theorem memberSuggestions_perm (d : StructDecl) (r : Resolution) :
    (d.memberSuggestions r).Perm ((d.eligibleSingles r).filterMap memberSuggestion? ++
      d.groups.toList.flatMap (d.groupSuggestions r)) :=
  List.mergeSort_perm _ _

theorem groupSuggestions_eq (d : StructDecl) (r : Resolution) (g : PropertyGroup) :
    d.groupSuggestions r g =
      if d.eligibleAccessors r g = [] then []
      else if d.AllEligible r g then [groupSuggestion g]
      else (d.eligibleAccessors r g).filterMap memberSuggestion? := by
  simp only [← length_eligibleAccessors_iff, ← List.isEmpty_iff]
  rfl

theorem targets_memberSuggestion? {m : Member} (hanchor : m.anchor.isSome) :
    (memberSuggestion? m).toList.map (·.target) =
      if (FindingKind.ofMember? m.kind).isSome then [.member m.id] else [] := by
  obtain ⟨span, hspan⟩ := Option.isSome_iff_exists.mp hanchor
  unfold memberSuggestion?
  rw [hspan]
  rcases FindingKind.ofMember? m.kind with _ | kind <;> rfl

theorem filter_covers_memberSuggestion? (x m : Member) :
    (memberSuggestion? x).toList.filter (·.covers m) =
      if m.id = x.id then (memberSuggestion? x).toList else [] := by
  rcases hx : memberSuggestion? x with _ | s
  · simp
  · have hcovers := covers_iff_of_memberSuggestion? (m := m) hx
    by_cases hid : m.id = x.id
    · simp [hid, hcovers.mpr hid]
    · simp [hid, Bool.eq_false_iff.mpr (hid ∘ hcovers.mp)]

section Covering

variable {d : StructDecl} (hnumbered : d.Numbered) (hlinked : d.Linked) (hplaced : d.Placed)
  (r : Resolution) {m : Member} (hm : m ∈ d.members)

include hnumbered hm in
/-- Of the suggestions for single members, the member's own covers it. -/
theorem filter_covers_each {l : List Member} (hl : l.Nodup) (hmembers : ∀ x ∈ l, x ∈ d.members)
    {p : Prop} [Decidable p] (hp : m ∈ l ↔ p) :
    (l.filterMap memberSuggestion?).filter (·.covers m) =
      if p then (memberSuggestion? m).toList else [] := by
  -- ids are places, so what is suggested for another member names another id
  have hother : ∀ x ∈ l, x ≠ m → (memberSuggestion? x).toList.filter (·.covers m) = [] := by
    intro x hx hne
    rw [filter_covers_memberSuggestion?, if_neg]
    intro hid
    have hsame := hnumbered.member?_of_mem hm
    rw [hid, hnumbered.member?_of_mem (hmembers x hx)] at hsame
    exact hne (Option.some.inj hsame)
  rw [List.filterMap_eq_flatMap_toList]
  by_cases hin : m ∈ l
  · rw [if_pos (hp.mp hin), filter_flatMap_of_unique hl hin hother,
      filter_covers_memberSuggestion?, if_pos rfl]
  · rw [if_neg (mt hp.mpr hin), List.filter_flatMap, List.flatMap_eq_nil_iff]
    intro x hx
    apply hother x hx
    rintro rfl
    exact hin hx

include hnumbered hplaced hm in
/-- A member that may be marked can be reported where it stands, unless all of its group is. -/
theorem anchor_isSome (heligible : d.isEligible r m)
    (hgroup : ∀ g, d.groupOf? m = some g → ¬ d.AllEligible r g) : m.anchor.isSome := by
  rw [Option.isSome_iff_ne_none]
  intro hnone
  obtain ⟨g, hg, hone⟩ := hplaced.alone m hm (isField_of_isEligible heligible) hnone
  refine hgroup g hg fun id hid => ⟨m, ?_, heligible⟩
  rw [hone, List.mem_singleton] at hid
  rw [hid, hnumbered.member?_of_mem hm]

include hnumbered hm in
theorem filter_covers_eligibleSingles :
    ((d.eligibleSingles r).filterMap memberSuggestion?).filter (·.covers m) =
      if m.kind.group? = none ∧ d.isEligible r m then (memberSuggestion? m).toList else [] := by
  have hnodup : (d.eligibleSingles r).Nodup := (nodup_of_numbered hnumbered.member).filter _
  apply filter_covers_each hnumbered hm hnodup
  · intro x hx
    exact (mem_eligibleSingles.mp hx).1
  · exact mem_eligibleSingles.trans (and_iff_right hm)

include hnumbered hplaced hm in
/-- A member outside of groups is suggested if it may be marked, unless it belongs to an event. -/
theorem targets_eligibleSingles :
    (((d.eligibleSingles r).filterMap memberSuggestion?).filter (·.covers m)).map (·.target) =
      if m.kind.group? = none ∧ d.isEligible r m ∧ m.kind.isEventAccessor = false then
        [.member m.id]
      else [] := by
  rw [filter_covers_eligibleSingles hnumbered r hm]
  by_cases h : m.kind.group? = none ∧ d.isEligible r m = true
  · obtain ⟨hgroup, heligible⟩ := h
    have hanchor := anchor_isSome hnumbered hplaced r hm heligible (by simp [groupOf?, hgroup])
    -- fields and accessors of events have no kind to report, and a field may not be marked
    have hkind : (FindingKind.ofMember? m.kind).isSome = !m.kind.isEventAccessor := by
      have hfield := isField_of_isEligible heligible
      rw [Member.isField, Member.field?] at hfield
      cases hkind : m.kind with
      | field info => simp [hkind, MemberKind.field?] at hfield
      | accessor kind id role => simp [hkind, MemberKind.group?] at hgroup
      | _ => rfl
    rw [if_pos ⟨hgroup, heligible⟩, targets_memberSuggestion? hanchor, hkind]
    simp [hgroup, heligible]
  · rw [if_neg h, if_neg (fun hall => h ⟨hall.1, hall.2.1⟩), List.map_nil]

include hnumbered hlinked hm in
theorem mem_accessors_iff {g : PropertyGroup} (hg : g ∈ d.groups) :
    m.id ∈ g.accessors ↔ m.kind.group? = some g.id := by
  constructor
  · intro hid
    obtain ⟨x, hx, hgroup⟩ := hlinked.accessor g hg m.id hid
    rw [hnumbered.member?_of_mem hm] at hx
    cases hx
    exact hgroup
  · intro hgroup
    obtain ⟨x, hx, hin⟩ := hlinked.group m hm g.id hgroup
    rw [hnumbered.group?_of_mem hg] at hx
    cases hx
    exact hin

include hnumbered hlinked hm in
theorem mem_eligibleAccessors_iff {g : PropertyGroup} (hg : g ∈ d.groups) :
    m ∈ d.eligibleAccessors r g ↔ m.kind.group? = some g.id ∧ d.isEligible r m := by
  rw [mem_eligibleAccessors, ← mem_accessors_iff hnumbered hlinked hm hg]
  apply and_congr_left'
  constructor
  · rintro ⟨id, hid, hmember⟩
    rwa [hnumbered.member hmember]
  · intro hid
    exact ⟨m.id, hid, hnumbered.member?_of_mem hm⟩

include hnumbered hlinked hplaced hm in
theorem filter_covers_eligibleAccessors {g : PropertyGroup} (hg : g ∈ d.groups) :
    ((d.eligibleAccessors r g).filterMap memberSuggestion?).filter (·.covers m) =
      if m.kind.group? = some g.id ∧ d.isEligible r m then (memberSuggestion? m).toList
      else [] := by
  have hnodup : (d.eligibleAccessors r g).Nodup := by
    refine List.Nodup.filter _ (List.Nodup.filterMap ?_ (hplaced.nodup g hg))
    intro id id' x hx hx'
    rw [← hnumbered.member hx, hnumbered.member hx']
  apply filter_covers_each hnumbered hm hnodup
  · intro x hx
    obtain ⟨⟨id, -, hmember⟩, -⟩ := mem_eligibleAccessors.mp hx
    exact Array.mem_of_getElem? hmember
  · exact mem_eligibleAccessors_iff hnumbered hlinked r hm hg

include hnumbered hlinked hplaced hm in
/-- The suggestions for a group cover none but its accessors. -/
theorem filter_covers_of_other_group {g : PropertyGroup} (hg : g ∈ d.groups)
    (hgroup : m.kind.group? ≠ some g.id) :
    (d.groupSuggestions r g).filter (·.covers m) = [] := by
  rw [groupSuggestions_eq]
  split
  · rfl
  · split
    · simp [Suggestion.covers, groupSuggestion, hgroup]
    · rw [filter_covers_eligibleAccessors hnumbered hlinked hplaced r hm hg]
      simp [hgroup]

include hnumbered hlinked hplaced hm in
/-- An accessor that may be marked is covered once by the suggestions for its group. -/
theorem targets_groupSuggestions {g : PropertyGroup} (hg : g ∈ d.groups)
    (hgroup : m.kind.group? = some g.id) :
    ((d.groupSuggestions r g).filter (·.covers m)).map (·.target) =
      if d.isEligible r m then [d.targetFor r m] else [] := by
  have hmember := hnumbered.member?_of_mem hm
  have hown : d.groupOf? m = some g := by
    rw [groupOf?, hgroup, Option.bind_some, hnumbered.group?_of_mem hg]
  have hin := mem_eligibleAccessors_iff hnumbered hlinked r hm hg
  rw [groupSuggestions_eq, targetFor, hown]
  by_cases hall : d.AllEligible r g
  · have heligible : d.isEligible r m = true := by
      have hid := (mem_accessors_iff hnumbered hlinked hm hg).mpr hgroup
      obtain ⟨x, hx, heligible⟩ := hall m.id hid
      rw [hmember] at hx
      cases hx
      exact heligible
    have hsome : d.eligibleAccessors r g ≠ [] :=
      List.ne_nil_of_mem (hin.mpr ⟨hgroup, heligible⟩)
    simp [hall, heligible, hsome, Suggestion.covers, groupSuggestion, hgroup]
  · have hcovers := filter_covers_eligibleAccessors hnumbered hlinked hplaced r hm hg
    by_cases heligible : d.isEligible r m = true
    · -- the accessor has a place of its own, or it would be all of its group
      have hanchor : m.anchor.isSome := by
        apply anchor_isSome hnumbered hplaced r hm heligible
        intro x hx
        rw [hown] at hx
        cases hx
        exact hall
      have hsome : d.eligibleAccessors r g ≠ [] :=
        List.ne_nil_of_mem (hin.mpr ⟨hgroup, heligible⟩)
      rw [if_neg hsome, if_neg hall, hcovers, if_pos ⟨hgroup, heligible⟩,
        targets_memberSuggestion? hanchor]
      simp [ofMember?_of_group? hgroup, heligible, hall]
    · have hnone : ¬ (m.kind.group? = some g.id ∧ d.isEligible r m = true) :=
        fun h => heligible h.2
      rw [if_neg hnone] at hcovers
      rw [if_neg hall, if_neg heligible]
      split
      · rfl
      · rw [hcovers, List.map_nil]

include hnumbered hlinked hplaced hm in
/-- Only the group of a member has suggestions that cover it. -/
theorem targets_groups :
    ((d.groups.toList.flatMap (d.groupSuggestions r)).filter (·.covers m)).map (·.target) =
      if m.kind.group? ≠ none ∧ d.isEligible r m then [d.targetFor r m] else [] := by
  rcases hgroup : m.kind.group? with _ | id
  · have hnone : (d.groups.toList.flatMap (d.groupSuggestions r)).filter (·.covers m) = [] := by
      rw [List.filter_flatMap, List.flatMap_eq_nil_iff]
      intro g hg
      apply filter_covers_of_other_group hnumbered hlinked hplaced r hm (Array.mem_toList_iff.mp hg)
      simp [hgroup]
    simp [hnone]
  · obtain ⟨g, hg, -⟩ := hlinked.group m hm id hgroup
    have hmem : g ∈ d.groups := Array.mem_of_getElem? hg
    have hown : m.kind.group? = some g.id := by rw [hgroup, hnumbered.group hg]
    -- groups are numbered by their places too, so no other has the id that the member knows
    have hother : ∀ x ∈ d.groups.toList, x ≠ g →
        (d.groupSuggestions r x).filter (·.covers m) = [] := by
      intro x hx hne
      have hx := Array.mem_toList_iff.mp hx
      apply filter_covers_of_other_group hnumbered hlinked hplaced r hm hx
      intro hsame
      rw [hown, Option.some.injEq] at hsame
      have hgroup? := hnumbered.group?_of_mem hx
      rw [← hsame, hnumbered.group?_of_mem hmem] at hgroup?
      exact hne (Option.some.inj hgroup?).symm
    rw [filter_flatMap_of_unique (nodup_of_numbered hnumbered.group)
        (Array.mem_toList_iff.mpr hmem) hother,
      targets_groupSuggestions hnumbered hlinked hplaced r hm hmem hown]
    simp

include hnumbered hlinked hplaced hm in
/-- Of the suggestions for members, one covers each member that may be marked, unless it belongs to
an event, and none covers any other. -/
theorem targets_memberSuggestions :
    ((d.memberSuggestions r).filter (·.covers m)).map (·.target) =
      if d.isEligible r m && !m.kind.isEventAccessor then [d.targetFor r m] else [] := by
  -- at most one suggestion covers the member, so the order in which they stand does not matter
  have hperm := ((d.memberSuggestions_perm r).filter (·.covers m)).map (·.target)
  rw [List.filter_append, List.map_append, targets_eligibleSingles hnumbered hplaced r hm,
    targets_groups hnumbered hlinked hplaced r hm] at hperm
  rcases hgroup : m.kind.group? with _ | id
  · have htarget : d.targetFor r m = .member m.id := by simp [targetFor, groupOf?, hgroup]
    rw [htarget]
    by_cases h : d.isEligible r m = true ∧ m.kind.isEventAccessor = false
    · simpa [hgroup, h] using hperm
    · simpa [hgroup, h] using hperm
  · have hevent := isEventAccessor_of_group? hgroup
    by_cases heligible : d.isEligible r m = true
    · simpa [hgroup, hevent, heligible] using hperm
    · simpa [hgroup, heligible] using hperm

end Covering

/-! ## All suggestions -/

/-- A suggestion for members covers some member. -/
theorem exists_covered {d : StructDecl} (hlinked : d.Linked) {r : Resolution}
    {options : SuggestionOptions} {s : Suggestion} (hs : s ∈ d.suggestions r options)
    (hwhole : (d.canBeReadonly r && options.structs) = false) :
    ∃ m ∈ d.members, s.covers m = true := by
  rcases mem_suggestions.mp hs with ⟨h, -⟩ | ⟨-, -, ⟨m, hm, -, -, hsome⟩ | ⟨g, hg, hs⟩⟩
  · rw [hwhole] at h
    cases h
  · exact ⟨m, hm, (covers_iff_of_memberSuggestion? hsome).mpr rfl⟩
  · rcases mem_groupSuggestions.mp hs with ⟨-, hsome, rfl⟩ | ⟨-, m, hm, hsome⟩
    · obtain ⟨m, hm⟩ := List.exists_mem_of_ne_nil _ hsome
      obtain ⟨⟨id, hid, hmember⟩, -⟩ := mem_eligibleAccessors.mp hm
      obtain ⟨x, hx, hgroup⟩ := hlinked.accessor g hg id hid
      exact ⟨x, Array.mem_of_getElem? hx, by simp [Suggestion.covers, groupSuggestion, hgroup]⟩
    · obtain ⟨⟨id, -, hmember⟩, -⟩ := mem_eligibleAccessors.mp hm
      exact ⟨m, Array.mem_of_getElem? hmember, (covers_iff_of_memberSuggestion? hsome).mpr rfl⟩

theorem pairwise_suggestions (d : StructDecl) (r : Resolution) (options : SuggestionOptions) :
    (d.suggestions r options).Pairwise fun a b => a.span.start ≤ b.span.start := by
  unfold suggestions
  split
  · simp
  · split
    · refine (List.pairwise_mergeSort ?_ ?_ _).imp (by simp)
      · intro a b c hab hbc
        simp only [decide_eq_true_eq] at hab hbc ⊢
        omega
      · intro a b
        simp only [Bool.or_eq_true, decide_eq_true_eq]
        omega
    · simp

end StructDecl

/-- A struct that can be marked as a whole gets that one suggestion, if it is wanted. Else, if
suggestions for members are wanted, every member that may be marked is covered by exactly one, which
is for its whole property or indexer if all accessors of that may be marked; accessors of events and
members that may not be marked are covered by none. The list has the order of the source. -/
theorem every_eligible_member_is_suggested_once {root : Node} {d : StructDecl}
    (hd : d ∈ StructDecl.ofTree root) (r : Resolution) (options : SuggestionOptions) :
    ((d.canBeReadonly r && options.structs) = true →
      d.suggestions r options = [d.structSuggestion]) ∧
    ((d.canBeReadonly r && options.structs) = false → options.members = false →
      d.suggestions r options = []) ∧
    ((d.canBeReadonly r && options.structs) = false → options.members = true →
      (∀ m ∈ d.members, ((d.suggestions r options).filter (·.covers m)).map (·.target) =
        if d.isEligible r m && !m.kind.isEventAccessor then [d.targetFor r m] else []) ∧
      ∀ s ∈ d.suggestions r options, ∃ m ∈ d.members, s.covers m = true) ∧
    (∀ m, d.isEligible r m = true → r.verdict m.id = .notMutating) ∧
    (d.suggestions r options).Pairwise (fun a b => a.span.start ≤ b.span.start) := by
  have hnumbered := StructDecl.numbered_ofTree hd
  have hlinked := StructDecl.linked_ofTree hd
  have hplaced := StructDecl.placed_ofTree hd
  refine ⟨fun hwhole => ?_, fun hwhole hmembers => ?_, fun hwhole hmembers => ⟨fun m hm => ?_, ?_⟩,
    fun m => StructDecl.verdict_of_isEligible, d.pairwise_suggestions r options⟩
  · simp [StructDecl.suggestions, hwhole]
  · simp [StructDecl.suggestions, hwhole, hmembers]
  · have hsuggestions : d.suggestions r options = d.memberSuggestions r := by
      simp [StructDecl.suggestions, hwhole, hmembers]
    rw [hsuggestions]
    exact StructDecl.targets_memberSuggestions hnumbered hlinked hplaced r hm
  · intro s hs
    exact StructDecl.exists_covered hlinked hs hwhole

/-- The file
`struct S { int f; void M() { } int X { get { } set { this.f++; } } int Y { get { } set { } } }`. -/
def mixedFile : Node :=
  .structOf
    [.intField "f" 11, .voidMethod "M" 18 (.emptyBlock 27),
     .intProperty "X" 31
      [.accessor .getToken "get" 39 (.emptyBlock 43),
       .accessor .setToken "set" 47 (.incrementBlock 51)],
     .intProperty "Y" 67
      [.accessor .getToken "get" 75 (.emptyBlock 79),
       .accessor .setToken "set" 83 (.emptyBlock 87)]]

def mixedDecl : StructDecl := (StructDecl.ofTree mixedFile).head!

/-- A getter beside a setter that mutates is suggested by itself, and two accessors that do not are
suggested together. -/
theorem accessors_are_suggested_alone_or_together :
    ∃ a, mixedDecl.analyze.result? .never = some a ∧
      (mixedDecl.members.toList.map fun m =>
        ((mixedDecl.suggestions a.resolution {}).filter (·.covers m)).map (·.target)) =
          [[], [.member 1], [.member 2], [], [.group 1], [.group 1]] := by
  have hd : mixedDecl ∈ StructDecl.ofTree mixedFile := List.mem_cons_self
  obtain ⟨-, -, honce, -⟩ := every_eligible_member_is_suggested_once hd mixedDecl.verdicts {}
  obtain ⟨htargets, -⟩ := honce (by decide +kernel) rfl
  refine ⟨_, mixedDecl.result?_analyze_never, ?_⟩
  rw [List.map_congr_left fun m hm => htargets m (Array.mem_toList_iff.mp hm)]
  decide +kernel

end ReadonlyLint
