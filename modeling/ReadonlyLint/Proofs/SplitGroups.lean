import ReadonlyLint.Proofs.Marked
import ReadonlyLint.Proofs.Suggested

/-!
Marks on single accessors. The language wants the mark on a property or indexer itself rather than
on each of its accessors, so a group whose two or more accessors are all marked one by one does not
compile (`StructDecl.IsSplit`).

Suggestions for accessors lead there in one case only. Whether a group is suggested as a whole turns
on all its accessors being eligible, and one that is marked already is not. So if some accessors of
a group are marked and all the others may be, the others are suggested one by one
(`StructDecl.IsHalfMarked`), and following the suggestions splits the group.
-/
namespace ReadonlyLint

namespace StructDecl

/-- The accessors of a group. -/
def accessorsOf (d : StructDecl) (g : PropertyGroup) : List Member :=
  g.accessors.filterMap d.member?

/-- All accessors of a group are marked one by one. In a group that is marked itself a mark on an
accessor would be its second. -/
def IsSplit (d : StructDecl) (g : PropertyGroup) : Prop :=
  g.modifiers.isReadonly = false ∧ 2 ≤ (d.accessorsOf g).length ∧
    ∀ m ∈ d.accessorsOf g, m.alreadyReadonly = true

instance (d : StructDecl) (g : PropertyGroup) : Decidable (d.IsSplit g) :=
  inferInstanceAs (Decidable (_ ∧ _))

/-- Some accessors of a group are marked, and all the others, of which there are some, may be. -/
def IsHalfMarked (d : StructDecl) (r : Resolution) (g : PropertyGroup) : Prop :=
  g.modifiers.isReadonly = false ∧ (∃ m ∈ d.accessorsOf g, m.alreadyReadonly = true) ∧
    (∃ m ∈ d.accessorsOf g, d.isEligible r m = true) ∧
    ∀ m ∈ d.accessorsOf g, m.alreadyReadonly = true ∨ d.isEligible r m = true

instance (d : StructDecl) (r : Resolution) (g : PropertyGroup) : Decidable (d.IsHalfMarked r g) :=
  inferInstanceAs (Decidable (_ ∧ _))

/-! ## What is marked -/

theorem alreadyReadonly_of_isEligible {d : StructDecl} {r : Resolution} {m : Member}
    (h : d.isEligible r m) : m.alreadyReadonly = false := by
  simp only [isEligible, Bool.and_eq_true, Bool.not_eq_true', Bool.or_eq_false_iff] at h
  exact h.1.1.1.1.1.1.2

theorem eligibleAccessors_of_marked {d : StructDecl} {r : Resolution} {g : PropertyGroup}
    (h : ∀ m ∈ d.accessorsOf g, m.alreadyReadonly = true) : d.eligibleAccessors r g = [] := by
  apply List.filter_eq_nil_iff.mpr
  intro m hm heligible
  have hunmarked := alreadyReadonly_of_isEligible heligible
  rw [h m hm] at hunmarked
  cases hunmarked

/-- An accessor that is marked is another than one that may be. -/
theorem two_le_length {d : StructDecl} {r : Resolution} {g : PropertyGroup} {x m : Member}
    (hx : x ∈ d.accessorsOf g) (hmarked : x.alreadyReadonly = true) (hm : m ∈ d.accessorsOf g)
    (heligible : d.isEligible r m) : 2 ≤ (d.accessorsOf g).length := by
  have hunmarked := alreadyReadonly_of_isEligible heligible
  rcases hl : d.accessorsOf g with _ | ⟨y, _ | ⟨z, rest⟩⟩
  · simp [hl] at hx
  · rw [hl, List.mem_singleton] at hx hm
    rw [hm, ← hx, hmarked] at hunmarked
    cases hunmarked
  · simp

theorem alreadyReadonly_markMember (found : List Suggestion) (m : Member) :
    (markMember found m).alreadyReadonly = (m.alreadyReadonly || isCovered found m) := by
  unfold markMember
  by_cases h : isCovered found m = true
  · simp [h, Member.markReadonly]
  · simp [h]

theorem accessorsOf_marked (d : StructDecl) (found : List Suggestion) (g : PropertyGroup) :
    (d.marked found).accessorsOf (markGroup found g) =
      (d.accessorsOf g).map (markMember found) := by
  have hmember : (d.marked found).member? = fun id => (d.member? id).map (markMember found) :=
    funext (member?_mapParts (markMember found) (markGroup found) d)
  unfold accessorsOf
  rw [(unread_mark found).accessors, hmember, List.map_filterMap]

theorem isSplit_marked_iff (d : StructDecl) (found : List Suggestion) (g : PropertyGroup) :
    (d.marked found).IsSplit (markGroup found g) ↔
      (markGroup found g).modifiers.isReadonly = false ∧ 2 ≤ (d.accessorsOf g).length ∧
        ∀ m ∈ d.accessorsOf g, m.alreadyReadonly = true ∨ isCovered found m = true := by
  unfold IsSplit
  rw [accessorsOf_marked]
  simp [alreadyReadonly_markMember]

/-! ## What is suggested -/

/-- Suggestions for members are made. -/
def SuggestsMembers (d : StructDecl) (r : Resolution) (options : SuggestionOptions) : Prop :=
  (d.canBeReadonly r && options.structs) = false ∧ options.members = true

section Suggested

variable {d : StructDecl} {r : Resolution} {options : SuggestionOptions}

theorem target_of_not_suggestsMembers (h : ¬ d.SuggestsMembers r options) {s : Suggestion}
    (hs : s ∈ d.suggestions r options) : s.target = .struct := by
  rcases mem_suggestions.mp hs with ⟨-, rfl⟩ | ⟨hwhole, hmembers, -⟩
  · rfl
  · exact absurd ⟨hwhole, hmembers⟩ h

variable (hnumbered : d.Numbered) (hlinked : d.Linked) (hplaced : d.Placed)

include hlinked in
theorem of_mem_accessorsOf {g : PropertyGroup} (hg : g ∈ d.groups) {m : Member}
    (hm : m ∈ d.accessorsOf g) : m ∈ d.members ∧ m.kind.group? = some g.id := by
  obtain ⟨id, hid, hmember⟩ := List.mem_filterMap.mp hm
  obtain ⟨x, hx, hgroup⟩ := hlinked.accessor g hg id hid
  rw [hmember] at hx
  cases hx
  exact ⟨Array.mem_of_getElem? hmember, hgroup⟩

include hlinked in
theorem allEligible_iff {g : PropertyGroup} (hg : g ∈ d.groups) :
    d.AllEligible r g ↔ ∀ m ∈ d.accessorsOf g, d.isEligible r m = true := by
  constructor
  · intro hall m hm
    obtain ⟨id, hid, hmember⟩ := List.mem_filterMap.mp hm
    obtain ⟨x, hx, heligible⟩ := hall id hid
    rw [hmember] at hx
    cases hx
    exact heligible
  · intro hall id hid
    obtain ⟨m, hm, -⟩ := hlinked.accessor g hg id hid
    exact ⟨m, hm, hall m (List.mem_filterMap.mpr ⟨id, hid, hm⟩)⟩

include hnumbered hlinked hplaced in
/-- An accessor is covered if suggestions for members are made and it may be marked. -/
theorem isCovered_iff {g : PropertyGroup} (hg : g ∈ d.groups) {m : Member}
    (hm : m ∈ d.accessorsOf g) :
    isCovered (d.suggestions r options) m = true ↔
      d.SuggestsMembers r options ∧ d.isEligible r m = true := by
  obtain ⟨hmember, hgroup⟩ := of_mem_accessorsOf hlinked hg hm
  by_cases h : d.SuggestsMembers r options
  · have hsuggestions : d.suggestions r options = d.memberSuggestions r := by
      simp [suggestions, h.1, h.2]
    have hcovered : isCovered (d.memberSuggestions r) m = true ↔
        ((d.memberSuggestions r).filter (·.covers m)).map (·.target) ≠ [] := by
      simp [isCovered]
    have hevent := isEventAccessor_of_group? hgroup
    rw [hsuggestions, hcovered, targets_memberSuggestions hnumbered hlinked hplaced r hmember]
    simp [h, hevent]
  · have hnone : isCovered (d.suggestions r options) m = false := by
      apply List.any_eq_false.mpr
      intro s hs
      simp [Suggestion.covers, target_of_not_suggestsMembers h hs]
    simp [hnone, h]

include hnumbered in
/-- A group is suggested as a whole if all of its accessors, of which there are some, may be
marked. -/
theorem isSuggested_iff {g : PropertyGroup} (hg : g ∈ d.groups) :
    (d.suggestions r options).any (·.target = .group g.id) = true ↔
      d.SuggestsMembers r options ∧ d.AllEligible r g ∧ d.eligibleAccessors r g ≠ [] := by
  rw [List.any_eq_true]
  constructor
  · rintro ⟨s, hs, htarget⟩
    have htarget : s.target = .group g.id := by simpa using htarget
    rcases mem_suggestions.mp hs with
      ⟨-, rfl⟩ | ⟨hwhole, hmembers, ⟨m, -, -, -, hsome⟩ | ⟨x, hx, hs⟩⟩
    · cases htarget
    · rw [(of_memberSuggestion? hsome).1] at htarget
      cases htarget
    · rcases mem_groupSuggestions.mp hs with ⟨hall, hne, rfl⟩ | ⟨-, m, -, hsome⟩
      · have hid : x.id = g.id := by simpa [groupSuggestion] using htarget
        have hsame := hnumbered.group?_of_mem hx
        rw [hid, hnumbered.group?_of_mem hg] at hsame
        cases hsame
        exact ⟨⟨hwhole, hmembers⟩, hall, hne⟩
      · rw [(of_memberSuggestion? hsome).1] at htarget
        cases htarget
  · rintro ⟨⟨hwhole, hmembers⟩, hall, hne⟩
    have hs := mem_groupSuggestions.mpr (Or.inl ⟨hall, hne, rfl⟩)
    exact ⟨_, mem_suggestions.mpr (Or.inr ⟨hwhole, hmembers, Or.inr ⟨g, hg, hs⟩⟩),
      by simp [groupSuggestion]⟩

include hnumbered in
theorem isReadonly_markGroup_iff {g : PropertyGroup} (hg : g ∈ d.groups) :
    (markGroup (d.suggestions r options) g).modifiers.isReadonly = false ↔
      g.modifiers.isReadonly = false ∧ ¬ (d.SuggestsMembers r options ∧ d.AllEligible r g ∧
        d.eligibleAccessors r g ≠ []) := by
  rw [← isSuggested_iff hnumbered hg]
  unfold markGroup
  split
  · simp [*, PropertyGroup.markReadonly, Modifiers.markReadonly]
  · simp [*]

include hnumbered hlinked hplaced in
/-- A group is split afterwards if it is not suggested as a whole and each accessor was marked before
or is suggested by itself. -/
theorem isSplit_following_iff {g : PropertyGroup} (hg : g ∈ d.groups) :
    (d.marked (d.suggestions r options)).IsSplit (markGroup (d.suggestions r options) g) ↔
      (g.modifiers.isReadonly = false ∧ ¬ (d.SuggestsMembers r options ∧ d.AllEligible r g ∧
        d.eligibleAccessors r g ≠ [])) ∧
      2 ≤ (d.accessorsOf g).length ∧ ∀ m ∈ d.accessorsOf g,
        m.alreadyReadonly = true ∨ d.SuggestsMembers r options ∧ d.isEligible r m = true := by
  rw [isSplit_marked_iff, isReadonly_markGroup_iff hnumbered hg]
  refine and_congr_right' (and_congr_right' (forall₂_congr fun m hm => ?_))
  rw [isCovered_iff hnumbered hlinked hplaced hg hm]

end Suggested

/-- If an accessor is suggested by itself though its group is not, another one is marked already. -/
theorem isHalfMarked_of_isEligible {d : StructDecl} (hlinked : d.Linked) {r : Resolution}
    {g : PropertyGroup} (hg : g ∈ d.groups) (hreadonly : g.modifiers.isReadonly = false)
    (hnot : ¬ d.AllEligible r g)
    (hall : ∀ m ∈ d.accessorsOf g, m.alreadyReadonly = true ∨ d.isEligible r m = true)
    {m : Member} (hm : m ∈ d.accessorsOf g) (heligible : d.isEligible r m = true) :
    d.IsHalfMarked r g := by
  rw [allEligible_iff hlinked hg] at hnot
  push Not at hnot
  obtain ⟨x, hx, hineligible⟩ := hnot
  have hmarked := (hall x hx).resolve_right hineligible
  exact ⟨hreadonly, ⟨x, hx, hmarked⟩, ⟨m, hm, heligible⟩, hall⟩

theorem not_allEligible_of_isHalfMarked {d : StructDecl} (hlinked : d.Linked) {r : Resolution}
    {g : PropertyGroup} (hg : g ∈ d.groups) (h : d.IsHalfMarked r g) : ¬ d.AllEligible r g := by
  obtain ⟨-, ⟨x, hx, hmarked⟩, -⟩ := h
  intro hall
  have hunmarked := alreadyReadonly_of_isEligible ((allEligible_iff hlinked hg).mp hall x hx)
  rw [hmarked] at hunmarked
  cases hunmarked

end StructDecl

/-- Following the suggestions splits a group that was not split before just when suggestions for
members are made and the group was half marked. -/
theorem the_suggestions_split_only_half_marked_groups {root : Node} {d : StructDecl}
    (hd : d ∈ StructDecl.ofTree root) (r : Resolution) (options : SuggestionOptions)
    {g : PropertyGroup} (hg : g ∈ d.groups) :
    (d.marked (d.suggestions r options)).IsSplit
        (StructDecl.markGroup (d.suggestions r options) g) ↔
      d.IsSplit g ∨ (d.SuggestsMembers r options ∧ d.IsHalfMarked r g) := by
  have hnumbered := StructDecl.numbered_ofTree hd
  have hlinked := StructDecl.linked_ofTree hd
  have hplaced := StructDecl.placed_ofTree hd
  rw [StructDecl.isSplit_following_iff hnumbered hlinked hplaced hg]
  constructor
  · rintro ⟨⟨hreadonly, hnot⟩, hlength, hall⟩
    by_cases halready : ∀ m ∈ d.accessorsOf g, m.alreadyReadonly = true
    · exact Or.inl ⟨hreadonly, hlength, halready⟩
    · -- one accessor is marked now and was not before
      push Not at halready
      obtain ⟨m, hm, hunmarked⟩ := halready
      obtain ⟨hsuggests, heligible⟩ := (hall m hm).resolve_left hunmarked
      have hsome : d.eligibleAccessors r g ≠ [] :=
        List.ne_nil_of_mem (List.mem_filter.mpr ⟨hm, heligible⟩)
      have hhalf := StructDecl.isHalfMarked_of_isEligible hlinked hg hreadonly
        (fun h => hnot ⟨hsuggests, h, hsome⟩) (fun y hy => (hall y hy).imp_right And.right) hm
        heligible
      exact Or.inr ⟨hsuggests, hhalf⟩
  · rintro (⟨hreadonly, hlength, halready⟩ | ⟨hsuggests, hhalf⟩)
    · have hnone := StructDecl.eligibleAccessors_of_marked (r := r) halready
      exact ⟨⟨hreadonly, fun h => h.2.2 hnone⟩, hlength, fun m hm => Or.inl (halready m hm)⟩
    · -- the accessor that is marked keeps the group from being suggested as a whole
      have hnot := StructDecl.not_allEligible_of_isHalfMarked hlinked hg hhalf
      obtain ⟨hreadonly, ⟨x, hx, hmarked⟩, ⟨m, hm, heligible⟩, hall⟩ := hhalf
      refine ⟨⟨hreadonly, fun h => hnot h.2.1⟩, ?_, ?_⟩
      · exact StructDecl.two_le_length hx hmarked hm heligible
      · intro y hy
        exact (hall y hy).imp_right fun h => ⟨hsuggests, h⟩

/-- Where the getter of `X` is marked by itself and `Y` as a whole, no group is split. -/
theorem a_getter_beside_a_mutating_setter_splits_nothing :
    ∃ a, mixedDecl.analyze.result? .never = some a ∧
      ∀ g ∈ mixedDecl.groups, ¬ (mixedDecl.marked (mixedDecl.suggestions a.resolution {})).IsSplit
        (StructDecl.markGroup (mixedDecl.suggestions a.resolution {}) g) := by
  have hd : mixedDecl ∈ StructDecl.ofTree mixedFile := List.mem_cons_self
  have hgroups : ∀ g ∈ mixedDecl.groups.toList,
      ¬ mixedDecl.IsSplit g ∧ ¬ mixedDecl.IsHalfMarked mixedDecl.verdicts g := by
    decide +kernel
  refine ⟨_, mixedDecl.result?_analyze_never, fun g hg => ?_⟩
  obtain ⟨hsplit, hhalf⟩ := hgroups g (Array.mem_toList_iff.mpr hg)
  rw [the_suggestions_split_only_half_marked_groups hd mixedDecl.verdicts {} hg]
  simp [hsplit, hhalf]

/-- The accessor `readonly get => f;`. -/
def readonlyGetter : Node :=
  .tree .accessorDeclaration "readonly get => f;" 26
    [.tree .modifier "readonly" 26 [.word .readonlyToken "readonly" 26],
     .word .getToken "get" 35 (some .name),
     .tree .arrowExpressionClause "=> f" 39
      [.word (.other "=>") "=>" 39, .tree .identifier "f" 42] (some .body),
     .word (.other ";") ";" 43]

/-- The struct of the file `struct S { int f; int X { readonly get => f; set { } } }`. -/
def halfMarkedDecl : StructDecl :=
  (StructDecl.ofTree (.structOf
    [.intField "f" 11,
     .intProperty "X" 18 [readonlyGetter, .accessor .setToken "set" 45 (.emptyBlock 49)]])).head!

/-- No group of the struct is split, but one is once its suggestions are followed. -/
theorem the_setter_beside_a_readonly_getter_is_marked_too :
    ∃ a, halfMarkedDecl.analyze.result? .never = some a ∧
      (∀ g ∈ halfMarkedDecl.groups.toList, ¬ halfMarkedDecl.IsSplit g) ∧
      (halfMarkedDecl.suggestions a.resolution {}).map (·.target) = [.member 2] ∧
      ∃ g ∈ (halfMarkedDecl.marked (halfMarkedDecl.suggestions a.resolution {})).groups.toList,
        (halfMarkedDecl.marked (halfMarkedDecl.suggestions a.resolution {})).IsSplit g :=
  ⟨_, halfMarkedDecl.result?_analyze_never, by decide +kernel, by decide +kernel,
    by decide +kernel⟩

end ReadonlyLint
