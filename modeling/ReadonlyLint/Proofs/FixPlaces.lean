import ReadonlyLint.Proofs.PartNodes
import ReadonlyLint.Proofs.Suggested

/-!
The fixes of one struct never meet. In a well nested tree the parts of a struct that can be marked
are read at growing offsets, so a part that is read later is marked behind all that were read before
(`StructDecl.Spread`); only a property or indexer and its own accessors may be marked at one place,
and of these either the one or the others are suggested. So every suggestion brings one insertion of
its own.
-/
namespace ReadonlyLint

namespace StructDecl

/-! ## Parts that can be marked -/

/-- The parts that can be marked are marked at different places before the limit: members with
bodies, and properties and indexers of which the compiler supplies nothing. An accessor may be marked
at the place of its own property or indexer. -/
structure Spread (limit : Nat) (d : StructDecl) : Prop where
  members : d.members.toList.Pairwise fun a b =>
    a.body.isSome → b.body.isSome → a.fixOffset < b.fixOffset
  groups : d.groups.toList.Pairwise fun a b =>
    a.hasSynthesizedAccessor = false → b.hasSynthesizedAccessor = false → a.fixOffset < b.fixOffset
  apart : ∀ m ∈ d.members.toList, m.body.isSome → ∀ g ∈ d.groups.toList,
    g.hasSynthesizedAccessor = false → m.kind.group? ≠ some g.id → m.fixOffset ≠ g.fixOffset
  memberBelow : ∀ m ∈ d.members.toList, m.body.isSome → m.fixOffset < limit
  groupBelow : ∀ g ∈ d.groups.toList, g.hasSynthesizedAccessor = false → g.fixOffset < limit

/-- What is read at a node behind the limit is marked behind everything that was read before. -/
theorem Spread.growsBy {limit : Nat} {d d' : StructDecl} (h : d.Spread limit) {ms : List Member}
    {gs : List PropertyGroup} {memberNodes groupNodes : List Node}
    (hgrows : GrowsBy d d' ms gs memberNodes groupNodes)
    (hlink : ∀ m ∈ ms, ∀ g ∈ gs, m.kind.group? = some g.id) {n : Node} (hn : n.WellNested)
    (hmembers : OrderedIn n memberNodes) (hgroups : OrderedIn n groupNodes)
    (hlimit : limit ≤ n.span.start) : d'.Spread n.span.stop := by
  have hnonempty := hn.nested.nonempty
  have hms : ∀ m ∈ ms, m.body.isSome → n.span.start ≤ m.fixOffset ∧ m.fixOffset < n.span.stop := by
    intro m hm hbody
    obtain ⟨c, hc, hat⟩ := exists_mem_of_forall₂ hgrows.membersAt hm
    have hin := hn.inside (hmembers.within c hc)
    have hstart := (hn.of_within (hmembers.within c hc)).lt_of_startsAt (hat.marked hbody)
    omega
  have hgs : ∀ g ∈ gs, n.span.start ≤ g.fixOffset ∧ g.fixOffset < n.span.stop := by
    intro g hg
    obtain ⟨c, hc, hat⟩ := exists_mem_of_forall₂ hgrows.groupsAt hg
    have hin := hn.inside (hgroups.within c hc)
    have hstart := (hn.of_within (hgroups.within c hc)).lt_of_startsAt (hat.marked rfl)
    omega
  refine ⟨?_, ?_, ?_, ?_, ?_⟩
  · rw [hgrows.members, List.pairwise_append]
    refine ⟨h.members, ?_, fun a ha b hb habody hbbody => ?_⟩
    · refine pairwise_of_forall₂ hgrows.membersAt
        ((hmembers.ordered hn).imp_of_mem fun hx hy hbefore =>
          And.intro (hmembers.within _ hx) (And.intro (hmembers.within _ hy) hbefore)) ?_
      rintro a b x y hax hby ⟨hx, hy, hbefore⟩ habody hbbody
      have hstart := (hn.of_within hx).lt_of_startsAt (hax.marked habody)
      have hstart' := (hn.of_within hy).lt_of_startsAt (hby.marked hbbody)
      unfold Node.Before at hbefore
      omega
    · have hbelow := h.memberBelow a ha habody
      have hbehind := hms b hb hbbody
      omega
  · rw [hgrows.groups, List.pairwise_append]
    refine ⟨h.groups, ?_, fun a ha b hb hawritten hbwritten => ?_⟩
    · refine pairwise_of_forall₂ hgrows.groupsAt
        ((hgroups.ordered hn).imp_of_mem fun hx hy hbefore =>
          And.intro (hgroups.within _ hx) (And.intro (hgroups.within _ hy) hbefore)) ?_
      rintro a b x y hax hby ⟨hx, hy, hbefore⟩ - -
      have hstart := (hn.of_within hx).lt_of_startsAt (hax.marked rfl)
      have hstart' := (hn.of_within hy).lt_of_startsAt (hby.marked rfl)
      unfold Node.Before at hbefore
      omega
    · have hbelow := h.groupBelow a ha hawritten
      have hbehind := hgs b hb
      omega
  · rw [hgrows.members, hgrows.groups]
    intro m hm hbody g hg hwritten hother
    rcases List.mem_append.mp hm with hm | hm <;> rcases List.mem_append.mp hg with hg | hg
    · exact h.apart m hm hbody g hg hwritten hother
    · have hbelow := h.memberBelow m hm hbody
      have hbehind := hgs g hg
      omega
    · have hbelow := h.groupBelow g hg hwritten
      have hbehind := hms m hm hbody
      omega
    · exact absurd (hlink m hm g hg) hother
  · rw [hgrows.members]
    intro m hm hbody
    rcases List.mem_append.mp hm with hm | hm
    · have hbelow := h.memberBelow m hm hbody
      omega
    · exact (hms m hm hbody).2
  · rw [hgrows.groups]
    intro g hg hwritten
    rcases List.mem_append.mp hg with hg | hg
    · have hbelow := h.groupBelow g hg hwritten
      omega
    · exact (hgs g hg).2

/-- Nodes that stand one after the other are read one after the other. -/
theorem Spread.foldl_addMember (types : TypeTable) (generics : Bindings TypeCategory)
    {l : List Node} (hordered : l.Pairwise Node.Before) {limit : Nat}
    (hl : ∀ c ∈ l, c.WellNested ∧ limit ≤ c.span.start) {d : StructDecl} (h : d.Spread limit) :
    ∃ limit', (l.foldl (addMember types generics) d).Spread limit' := by
  induction l generalizing limit d with
  | nil => exact ⟨limit, h⟩
  | cons c l ih =>
    obtain ⟨hfirst, hordered⟩ := List.pairwise_cons.mp hordered
    obtain ⟨hc, hlimit⟩ := hl c List.mem_cons_self
    obtain ⟨ms, gs, hgrows, hlink⟩ := growsBy_addMember types generics d c
    have hstep := h.growsBy hgrows hlink hc (orderedIn_sourcesAt c) (orderedIn_groupsAt c) hlimit
    exact ih hordered (fun x hx => ⟨(hl x (List.mem_cons_of_mem c hx)).1, hfirst x hx⟩) hstep

/-- What a primary constructor adds can not be marked. -/
theorem spread_withConstructor (types : TypeTable) (generics : Bindings TypeCategory) (n : Node)
    (limit : Nat) : (withConstructor types generics n).Spread limit := by
  have hbodyless : (∀ m ∈ (withConstructor types generics n).members.toList, m.body = none) ∧
      ∀ g ∈ (withConstructor types generics n).groups.toList, g.hasSynthesizedAccessor = true := by
    have hheader : (∀ m ∈ (header n).members.toList, m.body = none) ∧
        ∀ g ∈ (header n).groups.toList, g.hasSynthesizedAccessor = true :=
      ⟨fun m hm => absurd hm List.not_mem_nil, fun g hg => absurd hg List.not_mem_nil⟩
    unfold withConstructor
    split
    · split
      · refine kept_foldl (P := fun d => (∀ m ∈ d.members.toList, m.body = none) ∧
          ∀ g ∈ d.groups.toList, g.hasSynthesizedAccessor = true) (fun d param hd => ?_) _ hheader
        dsimp only
        rw [members_addAccessors, groups_addAccessors, Array.toList_push]
        refine ⟨fun m hm => ?_, fun g hg => ?_⟩
        · rcases List.mem_append.mp hm with hm | hm
          · exact hd.1 m hm
          · obtain ⟨p, hp, rfl⟩ := List.mem_map.mp hm
            have hspec := List.fst_mem_of_mem_zipIdx hp
            simp only [List.mem_cons, List.not_mem_nil, or_false] at hspec
            rcases hspec with hspec | hspec <;> rw [hspec] <;> rfl
        · rcases List.mem_append.mp hg with hg | hg
          · exact hd.2 g hg
          · rw [List.mem_singleton.mp hg]
            rfl
      · refine kept_foldl (P := fun d => (∀ m ∈ d.members.toList, m.body = none) ∧
          ∀ g ∈ d.groups.toList, g.hasSynthesizedAccessor = true) (fun d param hd => ?_) _ hheader
        dsimp only
        rw [members_pushMember, groups_pushMember, Array.toList_push]
        refine ⟨fun m hm => ?_, hd.2⟩
        rcases List.mem_append.mp hm with hm | hm
        · exact hd.1 m hm
        · rw [List.mem_singleton.mp hm]
    · exact hheader
  obtain ⟨hmembers, hgroups⟩ := hbodyless
  have hnobody : ∀ m ∈ (withConstructor types generics n).members.toList, ¬ m.body.isSome := by
    intro m hm
    simp [hmembers m hm]
  have hsupplied : ∀ g ∈ (withConstructor types generics n).groups.toList,
      ¬ g.hasSynthesizedAccessor = false := by
    intro g hg
    simp [hgroups g hg]
  exact
    { members := List.pairwise_of_forall_mem_list fun a ha b _ habody => absurd habody (hnobody a ha)
      groups := List.pairwise_of_forall_mem_list fun a ha b _ hwritten =>
        absurd hwritten (hsupplied a ha)
      apart := fun m hm hbody => absurd hbody (hnobody m hm)
      memberBelow := fun m hm hbody => absurd hbody (hnobody m hm)
      groupBelow := fun g hg hwritten => absurd hwritten (hsupplied g hg) }

/-- In a well nested tree the parts of every struct are spread. -/
theorem spread_ofNode (types : TypeTable) {n : Node} (hn : n.WellNested) :
    ∃ limit, (ofNode types n).Spread limit := by
  rw [ofNode_eq]
  split
  · rename_i body hbody
    have hin := hn.of_within (Node.below_of_child? hbody).within
    refine (spread_withConstructor types _ n 0).foldl_addMember types _ hin.memberNodes ?_
    intro c hc
    exact ⟨hin.of_within (Node.within_of_mem_memberNodes hc), Nat.zero_le _⟩
  · exact ⟨0, spread_withConstructor types _ n 0⟩

/-! ## Different parts are marked at different places -/

/-- What is marked at growing offsets is marked at different ones. -/
theorem ne_of_pairwise_lt {α : Type} {l : List α} {p : α → Prop} {offset : α → Nat}
    (h : l.Pairwise fun a b => p a → p b → offset a < offset b) {a b : α} (ha : a ∈ l) (hb : b ∈ l)
    (hne : a ≠ b) (hpa : p a) (hpb : p b) : offset a ≠ offset b := by
  induction l with
  | nil => cases ha
  | cons x l ih =>
    obtain ⟨hfirst, hrest⟩ := List.pairwise_cons.mp h
    rcases List.mem_cons.mp ha with rfl | hain <;> rcases List.mem_cons.mp hb with rfl | hbin
    · exact absurd rfl hne
    · have := hfirst b hbin hpa hpb
      omega
    · have := hfirst a hain hpb hpa
      omega
    · exact ih hrest hain hbin

theorem Spread.ne_of_members {limit : Nat} {d : StructDecl} (h : d.Spread limit) {m m' : Member}
    (hm : m ∈ d.members) (hm' : m' ∈ d.members) (hne : m ≠ m') (hbody : m.body.isSome = true)
    (hbody' : m'.body.isSome = true) : m.fixOffset ≠ m'.fixOffset :=
  ne_of_pairwise_lt h.members (Array.mem_toList_iff.mpr hm) (Array.mem_toList_iff.mpr hm') hne hbody
    hbody'

theorem body_of_isEligible {d : StructDecl} {r : Resolution} {m : Member}
    (h : d.isEligible r m = true) : m.body.isSome = true := by
  simp only [isEligible, Member.hasInspectableBody, Bool.and_eq_true, Bool.not_eq_true',
    Bool.or_eq_false_iff, Bool.not_eq_false'] at h
  exact h.1.1.1.2.1

theorem hasSynthesizedAccessor_of_isEligible {d : StructDecl} {r : Resolution} {m : Member}
    {g : PropertyGroup} (h : d.isEligible r m = true) (hg : d.groupOf? m = some g) :
    g.hasSynthesizedAccessor = false := by
  simp only [isEligible, groupAllows, hg, Bool.and_eq_true, Bool.not_eq_true',
    Bool.or_eq_false_iff] at h
  exact h.1.2.1.2

/-! ## Suggestions -/

section Suggestions

variable {limit : Nat} {d : StructDecl} (hspread : d.Spread limit) (hnumbered : d.Numbered)
  (hlinked : d.Linked) (hplaced : d.Placed) (r : Resolution)

include hspread in
/-- Suggestions for different members are at different places. -/
theorem pairwise_memberSuggestion? {l : List Member} (hl : l.Nodup)
    (hmembers : ∀ m ∈ l, m ∈ d.members ∧ m.body.isSome = true) :
    (l.filterMap memberSuggestion?).Pairwise fun s s' => s.fixOffset ≠ s'.fixOffset := by
  rw [List.pairwise_filterMap]
  refine hl.imp_of_mem fun {a b} ha hb hne s hs s' hs' => ?_
  rw [fixOffset_of_memberSuggestion? hs, fixOffset_of_memberSuggestion? hs']
  exact hspread.ne_of_members (hmembers a ha).1 (hmembers b hb).1 hne (hmembers a ha).2
    (hmembers b hb).2

include hnumbered hlinked in
theorem of_mem_eligibleAccessors {g : PropertyGroup} (hg : g ∈ d.groups) {m : Member}
    (hm : m ∈ d.eligibleAccessors r g) :
    m ∈ d.members ∧ m.kind.group? = some g.id ∧ m.body.isSome = true ∧
      g.hasSynthesizedAccessor = false := by
  obtain ⟨⟨id, hid, hmember⟩, heligible⟩ := mem_eligibleAccessors.mp hm
  obtain ⟨x, hx, hgroup⟩ := hlinked.accessor g hg id hid
  rw [hmember] at hx
  cases hx
  have hown : d.groupOf? m = some g := by
    rw [groupOf?, hgroup, Option.bind_some, hnumbered.group?_of_mem hg]
  exact ⟨Array.mem_of_getElem? hmember, hgroup, body_of_isEligible heligible,
    hasSynthesizedAccessor_of_isEligible heligible hown⟩

include hnumbered hlinked in
/-- A suggestion for a group is at its place, or at that of an accessor of it. -/
theorem place_of_mem_groupSuggestions {g : PropertyGroup} (hg : g ∈ d.groups) {s : Suggestion}
    (hs : s ∈ d.groupSuggestions r g) :
    (s.fixOffset = g.fixOffset ∧ g.hasSynthesizedAccessor = false) ∨
      ∃ m ∈ d.members, m.kind.group? = some g.id ∧ m.body.isSome = true ∧
        s.fixOffset = m.fixOffset := by
  rcases mem_groupSuggestions.mp hs with ⟨-, hsome, rfl⟩ | ⟨-, m, hm, hsome⟩
  · obtain ⟨m, hm⟩ := List.exists_mem_of_ne_nil _ hsome
    exact .inl ⟨rfl, (of_mem_eligibleAccessors hnumbered hlinked r hg hm).2.2.2⟩
  · obtain ⟨hmember, hgroup, hbody, -⟩ := of_mem_eligibleAccessors hnumbered hlinked r hg hm
    exact .inr ⟨m, hmember, hgroup, hbody, fixOffset_of_memberSuggestion? hsome⟩

include hspread hnumbered hlinked in
/-- A suggestion for a group is at another place than a member that does not belong to it. -/
theorem ne_of_other_member {g : PropertyGroup} (hg : g ∈ d.groups) {s : Suggestion}
    (hs : s ∈ d.groupSuggestions r g) {m : Member} (hm : m ∈ d.members)
    (hbody : m.body.isSome = true) (hother : m.kind.group? ≠ some g.id) :
    m.fixOffset ≠ s.fixOffset := by
  rcases place_of_mem_groupSuggestions hnumbered hlinked r hg hs with
    ⟨hplace, hwritten⟩ | ⟨x, hx, hgroup, hxbody, hplace⟩
  · rw [hplace]
    exact hspread.apart m (Array.mem_toList_iff.mpr hm) hbody g (Array.mem_toList_iff.mpr hg)
      hwritten hother
  · rw [hplace]
    refine hspread.ne_of_members hm hx ?_ hbody hxbody
    rintro rfl
    exact hother hgroup

include hspread hnumbered hlinked in
theorem ne_of_other_group {g g' : PropertyGroup} (hg : g ∈ d.groups) (hg' : g' ∈ d.groups)
    (hne : g ≠ g') {s s' : Suggestion} (hs : s ∈ d.groupSuggestions r g)
    (hs' : s' ∈ d.groupSuggestions r g') : s.fixOffset ≠ s'.fixOffset := by
  -- groups are numbered by their places
  have hids : g.id ≠ g'.id := by
    intro hid
    have hsame := hnumbered.group?_of_mem hg
    rw [hid, hnumbered.group?_of_mem hg'] at hsame
    exact hne (Option.some.inj hsame).symm
  rcases place_of_mem_groupSuggestions hnumbered hlinked r hg hs with
    ⟨hplace, hwritten⟩ | ⟨m, hm, hgroup, hbody, hplace⟩
  · rcases place_of_mem_groupSuggestions hnumbered hlinked r hg' hs' with
      ⟨hplace', hwritten'⟩ | ⟨m', hm', hgroup', hbody', hplace'⟩
    · rw [hplace, hplace']
      exact ne_of_pairwise_lt hspread.groups (Array.mem_toList_iff.mpr hg)
        (Array.mem_toList_iff.mpr hg') hne hwritten hwritten'
    · rw [hplace, hplace']
      refine (hspread.apart m' (Array.mem_toList_iff.mpr hm') hbody' g
        (Array.mem_toList_iff.mpr hg) hwritten ?_).symm
      rw [hgroup']
      exact fun h => hids (Option.some.inj h).symm
  · rw [hplace]
    refine ne_of_other_member hspread hnumbered hlinked r hg' hs' hm hbody ?_
    rw [hgroup]
    exact fun h => hids (Option.some.inj h)

include hspread hnumbered hlinked hplaced in
theorem pairwise_groupSuggestions {g : PropertyGroup} (hg : g ∈ d.groups) :
    (d.groupSuggestions r g).Pairwise fun s s' => s.fixOffset ≠ s'.fixOffset := by
  rw [groupSuggestions_eq]
  split
  · exact .nil
  · split
    · exact List.pairwise_singleton _ _
    · have hnodup : (d.eligibleAccessors r g).Nodup := by
        refine List.Nodup.filter _ (List.Nodup.filterMap ?_ (hplaced.nodup g hg))
        intro id id' x hx hx'
        rw [← hnumbered.member hx, hnumbered.member hx']
      refine pairwise_memberSuggestion? hspread hnodup fun m hm => ?_
      obtain ⟨hmember, -, hbody, -⟩ := of_mem_eligibleAccessors hnumbered hlinked r hg hm
      exact ⟨hmember, hbody⟩

include hspread hnumbered hlinked hplaced in
/-- No two suggestions for members of a struct are at one place. -/
theorem nodup_memberSuggestions : ((d.memberSuggestions r).map (·.fixOffset)).Nodup := by
  rw [((d.memberSuggestions_perm r).map (·.fixOffset)).nodup_iff, List.Nodup, List.pairwise_map,
    List.pairwise_append, List.pairwise_flatMap]
  refine ⟨?_, ⟨fun g hg => ?_, ?_⟩, ?_⟩
  · refine pairwise_memberSuggestion? hspread ((nodup_of_numbered hnumbered.member).filter _)
      fun m hm => ?_
    obtain ⟨hmember, -, heligible⟩ := mem_eligibleSingles.mp hm
    exact ⟨hmember, body_of_isEligible heligible⟩
  · exact pairwise_groupSuggestions hspread hnumbered hlinked hplaced r (Array.mem_toList_iff.mp hg)
  · have hgroups : d.groups.toList.Nodup := nodup_of_numbered hnumbered.group
    refine hgroups.imp_of_mem fun {g g'} hg hg' hne s hs s' hs' => ?_
    exact ne_of_other_group hspread hnumbered hlinked r (Array.mem_toList_iff.mp hg)
      (Array.mem_toList_iff.mp hg') hne hs hs'
  · intro s hs s' hs'
    obtain ⟨m, hm, hsome⟩ := List.mem_filterMap.mp hs
    obtain ⟨hmember, hgroup, heligible⟩ := mem_eligibleSingles.mp hm
    obtain ⟨g, hg, hs'⟩ := List.mem_flatMap.mp hs'
    rw [fixOffset_of_memberSuggestion? hsome]
    exact ne_of_other_member hspread hnumbered hlinked r (Array.mem_toList_iff.mp hg) hs' hmember
      (body_of_isEligible heligible) (by simp [hgroup])

include hspread hnumbered hlinked hplaced in
theorem nodup_suggestions (options : SuggestionOptions) :
    ((d.suggestions r options).map (·.fixOffset)).Nodup := by
  unfold suggestions
  split
  · exact List.nodup_singleton _
  · split
    · exact nodup_memberSuggestions hspread hnumbered hlinked hplaced r
    · exact List.nodup_nil

end Suggestions

/-! ## The nodes of targets -/

theorem fixOffset_ofNode (types : TypeTable) (n : Node) :
    (ofNode types n).fixOffset = structFixOffset n ∧
      (ofNode types n).anchor = ((n.child? .name).getD n).span :=
  kept_ofNode_of_header (kept_of_place (P := fun _ anchor offset =>
    offset = structFixOffset n ∧ anchor = ((n.child? .name).getD n).span)) ⟨rfl, rfl⟩ types

/-- The suggestion is reported, and marks, inside of the node of its target. -/
def PlacedAtTarget (n : Node) (s : Suggestion) : Prop :=
  ∃ t, targetNode? n s.target = some t ∧ PlacedIn t (some s.span) true s.fixOffset

theorem placedAtTarget_of_member {types : TypeTable} {n : Node} {m : Member} {s : Suggestion}
    (hm : m ∈ (ofNode types n).members) (hnumbered : (ofNode types n).Numbered)
    (hbody : m.body.isSome = true) (hs : memberSuggestion? m = some s) : PlacedAtTarget n s := by
  have hplace : (ofNode types n).members.toList[m.id]? = some m := by
    rw [Array.getElem?_toList]
    exact hnumbered.member?_of_mem hm
  obtain ⟨t, ht, hat⟩ := exists_getElem?_of_forall₂ (readAt_ofNode types n).1 hplace
  unfold memberSuggestion? at hs
  split at hs
  · rename_i kind span _ hspan
    cases hs
    exact ⟨t, ht, fun _ h => hat.shown _ (hspan.trans h), fun _ => hat.marked hbody⟩
  · cases hs

theorem placedAtTarget_of_group {types : TypeTable} {n : Node} {g : PropertyGroup}
    (hg : g ∈ (ofNode types n).groups) (hnumbered : (ofNode types n).Numbered) :
    PlacedAtTarget n (groupSuggestion g) := by
  have hplace : (ofNode types n).groups.toList[g.id]? = some g := by
    rw [Array.getElem?_toList]
    exact hnumbered.group?_of_mem hg
  obtain ⟨t, ht, hat⟩ := exists_getElem?_of_forall₂ (readAt_ofNode types n).2 hplace
  exact ⟨t, ht, hat⟩

theorem placedAtTarget_of_mem_suggestions {types : TypeTable} {n : Node} {r : Resolution}
    {options : SuggestionOptions} {s : Suggestion}
    (hnumbered : (ofNode types n).Numbered) (hlinked : (ofNode types n).Linked)
    (hs : s ∈ (ofNode types n).suggestions r options) : PlacedAtTarget n s := by
  rcases mem_suggestions.mp hs with ⟨-, rfl⟩ | ⟨-, -, ⟨m, hm, -, heligible, hsome⟩ | ⟨g, hg, hs⟩⟩
  · obtain ⟨hoffset, hanchor⟩ := fixOffset_ofNode types n
    refine ⟨n, rfl, ?_, fun _ => ?_⟩
    · rintro _ ⟨⟩
      rw [structSuggestion, hanchor]
      exact shown_getD fun c hc => Node.mem_children_of_child? hc
    · rw [structSuggestion, hoffset]
      exact Node.startsAt_structFixOffset (Node.within_refl n)
  · exact placedAtTarget_of_member hm hnumbered (body_of_isEligible heligible) hsome
  · rcases mem_groupSuggestions.mp hs with ⟨-, -, rfl⟩ | ⟨-, m, hm, hsome⟩
    · exact placedAtTarget_of_group hg hnumbered
    · obtain ⟨hmember, -, hbody, -⟩ := of_mem_eligibleAccessors hnumbered hlinked r hg hm
      exact placedAtTarget_of_member hmember hnumbered hbody hsome

end StructDecl

/-! ## Insertions -/

namespace Edit

variable {l : List Suggestion} (h : (l.map (·.fixOffset)).Nodup)
include h

theorem nodup_fixes : (l.map (·.fix)).Nodup := by
  refine List.Nodup.of_map (·.offset) ?_
  rw [List.map_map]
  exact h

/-- Fixes at different places are all applied. -/
theorem ordered_fixes_perm : (ordered (l.map (·.fix))).Perm (l.map (·.fix)) :=
  (List.perm_ext_iff_of_nodup (nodup_ordered _) (nodup_fixes h)).mpr fun _ => mem_ordered

theorem utf8ByteSize_fixes (cs : List Char) :
    (String.ofList ((ordered (l.map (·.fix))).foldl insertInto cs)).utf8ByteSize =
      (String.ofList cs).utf8ByteSize + l.length * Suggestion.readonlyText.utf8ByteSize := by
  have hsum : ∑ e ∈ (l.map (·.fix)).toFinset, e.text.utf8ByteSize =
      l.length * Suggestion.readonlyText.utf8ByteSize := by
    rw [Finset.sum_const_nat (m := Suggestion.readonlyText.utf8ByteSize),
      List.toFinset_card_of_nodup (nodup_fixes h), List.length_map]
    intro e he
    obtain ⟨s, -, rfl⟩ := List.mem_map.mp (List.mem_toFinset.mp he)
    rfl
  rw [utf8ByteSize_foldl_ordered, hsum]

/-- Where something is marked the word goes once, and nothing goes anywhere else. -/
theorem textsAt_fixes (offset : Nat) :
    textsAt (l.map (·.fix)) offset =
      if offset ∈ l.map (·.fixOffset) then [Suggestion.readonlyText] else [] := by
  have hcount : ((ordered (l.map (·.fix))).filter (·.offset = offset)).length =
      if offset ∈ l.map (·.fixOffset) then 1 else 0 := by
    rw [((ordered_fixes_perm h).filter _).length_eq, ← h.count, List.count, ← List.countP_eq_length_filter,
      List.countP_map, List.countP_map]
    rfl
  have htexts : textsAt (l.map (·.fix)) offset =
      List.replicate (if offset ∈ l.map (·.fixOffset) then 1 else 0) Suggestion.readonlyText := by
    rw [← textsAt_eq, List.eq_replicate_iff, List.length_map, List.length_reverse]
    refine ⟨hcount, fun text htext => ?_⟩
    obtain ⟨e, he, rfl⟩ := List.mem_map.mp htext
    have he := mem_ordered.mp (List.mem_filter.mp (List.mem_reverse.mp he)).1
    obtain ⟨s, -, rfl⟩ := List.mem_map.mp he
    rfl
  rw [htexts]
  split <;> rfl

end Edit

/-- In a well nested tree the suggestions for a struct are at different places, each inside of the
node that it asks to mark, in which it is also reported. So in a source whose characters start where
nodes do, the fixes put the word `readonly` once at each of these places and nothing anywhere else,
as many times as there are suggestions. -/
theorem fixes_of_a_struct_never_collide {root : Node} (hnested : root.WellNested) {d : StructDecl}
    (hd : d ∈ StructDecl.ofTree root) (r : Resolution) (options : SuggestionOptions) :
    ∃ n : Node, n ∈ root.outline ∧ n.isStruct = true ∧ d = .ofNode (.ofTree root) n ∧
      (∀ s ∈ d.suggestions r options, ∃ t, StructDecl.targetNode? n s.target = some t ∧
        (∃ x : Node, x.Within t ∧ x.span = s.span) ∧
        t.span.start ≤ s.fixOffset ∧ s.fixOffset < t.span.stop) ∧
      ((d.suggestions r options).map (·.fixOffset)).Nodup ∧
      ∀ source : String, (∀ offset, root.StartsAt offset →
          isBoundary offset source.toList = true) →
        ∃ text, Edit.applyAll source ((d.suggestions r options).map (·.fix)) = .ok text ∧
          utf8Bytes text = weave (fun _ => 1) (fun o =>
            if o ∈ (d.suggestions r options).map (·.fixOffset) then utf8Bytes Suggestion.readonlyText
            else []) 0 (utf8Bytes source) ∧
          text.utf8ByteSize = source.utf8ByteSize +
            (d.suggestions r options).length * Suggestion.readonlyText.utf8ByteSize := by
  have hnumbered := StructDecl.numbered_ofTree hd
  have hlinked := StructDecl.linked_ofTree hd
  have hmarked := StructDecl.markedAt_ofTree hd
  have hplaced := StructDecl.placed_ofTree hd
  obtain ⟨n, hn, rfl⟩ := List.mem_map.mp hd
  obtain ⟨houtline, hstruct⟩ := List.mem_filter.mp hn
  have hin := hnested.of_within (Node.within_of_mem_reach houtline)
  obtain ⟨limit, hspread⟩ := StructDecl.spread_ofNode (TypeTable.ofTree root) hin
  have hnodup := StructDecl.nodup_suggestions hspread hnumbered hlinked hplaced r options
  refine ⟨n, houtline, hstruct, rfl, fun s hs => ?_, hnodup, fun source hsource => ?_⟩
  · obtain ⟨t, ht, hat⟩ := StructDecl.placedAtTarget_of_mem_suggestions hnumbered hlinked hs
    have hnode := hin.of_within (StructDecl.within_of_targetNode? ht)
    exact ⟨t, ht, hat.shown _ rfl, hnode.lt_of_startsAt (hat.marked rfl)⟩
  · -- every place is the start of a node, so none is inside of a character
    rcases Edit.applyAll_cases source
        (((StructDecl.ofNode (TypeTable.ofTree root) n).suggestions r options).map (·.fix)) with
      ⟨hvalid, hok⟩ | ⟨o, hgreatest, -⟩
    · refine ⟨_, hok, ?_, ?_⟩
      · rw [utf8Bytes_eq, String.toList_ofList, Edit.flatMap_foldl_ordered hvalid, ← utf8Bytes_eq]
        apply weave_congr
        intro o _
        rw [Edit.textsAt_fixes hnodup]
        split
        · exact List.flatMap_singleton _ _
        · rfl
      · rw [Edit.utf8ByteSize_fixes hnodup, String.ofList_toList]
    · obtain ⟨⟨e, he, rfl⟩, hinvalid⟩ := hgreatest.1
      obtain ⟨s, hs, rfl⟩ := List.mem_map.mp he
      have hstarts : root.StartsAt s.fix.offset := hmarked.of_mem_suggestions hs
      rw [hsource _ hstarts] at hinvalid
      cases hinvalid

/-- A method, a getter by itself and a whole property are marked in a file, each once. -/
theorem mixed_fixes_never_collide :
    mixedFile.WellNested ∧
      ((mixedDecl.suggestions mixedDecl.verdicts {}).map (·.fixOffset)).Nodup ∧
      ∃ text, Edit.applyAll mixedFile.text
          ((mixedDecl.suggestions mixedDecl.verdicts {}).map (·.fix)) = .ok text ∧
        text.utf8ByteSize = mixedFile.text.utf8ByteSize + 27 := by
  have hnested : mixedFile.WellNested := by decide +kernel
  have hplaced : ∀ offset, mixedFile.StartsAt offset →
      isBoundary offset mixedFile.text.toList = true := by
    have hall : ∀ n ∈ mixedFile.preorder,
        isBoundary n.span.start mixedFile.text.toList = true := by decide +kernel
    rintro _ ⟨n, hn, rfl⟩
    exact hall n (Node.mem_preorder.mpr hn)
  have hcount : (mixedDecl.suggestions mixedDecl.verdicts {}).length = 3 := by
    have hmembers : mixedDecl.suggestions mixedDecl.verdicts {} =
        mixedDecl.memberSuggestions mixedDecl.verdicts := by
      have hwhole : mixedDecl.canBeReadonly mixedDecl.verdicts = false := by decide +kernel
      simp [StructDecl.suggestions, hwhole]
    rw [hmembers, (mixedDecl.memberSuggestions_perm mixedDecl.verdicts).length_eq]
    decide +kernel
  obtain ⟨n, -, -, -, -, hnodup, happly⟩ := fixes_of_a_struct_never_collide hnested
    (d := mixedDecl) List.mem_cons_self mixedDecl.verdicts {}
  obtain ⟨text, hok, -, hsize⟩ := happly mixedFile.text hplaced
  refine ⟨hnested, hnodup, text, hok, ?_⟩
  rw [hsize, hcount]
  rfl

end ReadonlyLint
