import ReadonlyLint.Proofs.Parts
import ReadonlyLint.Proofs.Verdicts

/-!
Marking what was suggested. `StructDecl.marked` is a struct as it reads once `readonly` stands where
its suggestions want it. No rule for code reads the word, so unless the struct itself is marked all
verdicts stay; and whatever could be suggested again was suggested, and so marked, the first time.
-/
namespace ReadonlyLint

/-! ## Marks -/

def Modifiers.markReadonly (m : Modifiers) : Modifiers := { m with isReadonly := true }

/-- The member as it reads when `readonly` stands before it, or before its property or indexer. -/
def Member.markReadonly (m : Member) : Member :=
  { m with modifiers := m.modifiers.markReadonly, alreadyReadonly := true }

def PropertyGroup.markReadonly (g : PropertyGroup) : PropertyGroup :=
  { g with modifiers := g.modifiers.markReadonly }

namespace StructDecl

/-- Whether one of the suggestions covers the member. -/
def isCovered (found : List Suggestion) (m : Member) : Bool := found.any (·.covers m)

def markMember (found : List Suggestion) (m : Member) : Member :=
  if isCovered found m then m.markReadonly else m

def markGroup (found : List Suggestion) (g : PropertyGroup) : PropertyGroup :=
  if found.any (·.target = .group g.id) then g.markReadonly else g

/-- The struct with the target of every suggestion marked `readonly`. -/
def marked (d : StructDecl) (found : List Suggestion) : StructDecl :=
  { d.mapParts (markMember found) (markGroup found) with
    modifiers :=
      if found.any (·.target = .struct) then d.modifiers.markReadonly else d.modifiers }

/-! ## A marked struct -/

/-- To a `readonly` struct nothing is suggested. -/
theorem suggestions_of_isReadonly {d : StructDecl} (hd : d.isReadonly = true) (r : Resolution)
    (options : SuggestionOptions) : d.suggestions r options = [] := by
  have hwhole : d.canBeReadonly r = false := by simp [canBeReadonly, hd]
  have heligible : ∀ m, d.isEligible r m = false := by
    intro m
    simp [isEligible, hd]
  apply List.eq_nil_iff_forall_not_mem.mpr
  intro s hs
  rcases mem_suggestions.mp hs with ⟨h, -⟩ | ⟨-, -, ⟨m, -, -, h, -⟩ | ⟨g, -, hs⟩⟩
  · simp [hwhole] at h
  · simp [heligible] at h
  · have hnone : d.eligibleAccessors r g = [] := by simp [eligibleAccessors, heligible]
    rcases mem_groupSuggestions.mp hs with ⟨-, hsome, -⟩ | ⟨-, m, hm, -⟩
    · exact hsome hnone
    · simp [hnone] at hm

/-! ## Marked members -/

theorem marked_of_not_struct {d : StructDecl} {found : List Suggestion}
    (h : ∀ s ∈ found, s.target ≠ .struct) :
    d.marked found = d.mapParts (markMember found) (markGroup found) := by
  have hnone : found.any (·.target = .struct) = false := by simpa using h
  unfold marked
  rw [hnone]
  rfl

/-- No rule for code reads the word `readonly` of a member or group. -/
theorem unread_mark (found : List Suggestion) : Unread (markMember found) (markGroup found) := by
  constructor
  all_goals intro x
  all_goals first | unfold markMember | unfold markGroup
  all_goals split <;> rfl

theorem analyzeMember_markMember (d : StructDecl) (found : List Suggestion) (m : Member) :
    d.analyzeMember (markMember found m) = d.analyzeMember m := by
  unfold markMember
  split <;> rfl

theorem analyze_mark (d : StructDecl) (found : List Suggestion) :
    (d.mapParts (markMember found) (markGroup found)).analyze = d.analyze := by
  have hlocally : (d.mapParts (markMember found) (markGroup found)).analyzeLocally =
      d.analyzeLocally := by
    have hsize : (d.mapParts (markMember found) (markGroup found)).members.size = d.members.size :=
      Array.size_map
    have hmembers : (d.mapParts (markMember found) (markGroup found)).members.toList.map
          (d.mapParts (markMember found) (markGroup found)).analyzeMember =
        d.members.toList.map d.analyzeMember := by
      change (d.members.map (markMember found)).toList.map _ = _
      rw [Array.toList_map, List.map_map]
      apply List.map_congr_left
      intro m _
      rw [Function.comp, analyzeMember_mapParts (unread_mark found), analyzeMember_markMember]
    unfold analyzeLocally
    rw [hsize, hmembers]
    rfl
  unfold analyze
  rw [hlocally]

section Eligible

variable (d : StructDecl) (found : List Suggestion) (r : Resolution)

theorem groupAllows_mark (m : Member) :
    (d.mapParts (markMember found) (markGroup found)).groupAllows m = d.groupAllows m := by
  unfold groupAllows groupOf?
  rcases m.kind.group? with _ | id
  · rfl
  · simp only [Option.bind_some, group?_mapParts]
    rcases d.group? id with _ | g
    · rfl
    · simp only [Option.map_some, markGroup]
      split <;> rfl

/-- Of the members that may be marked, those stay that no suggestion covers. -/
theorem isEligible_mark (m : Member) :
    (d.mapParts (markMember found) (markGroup found)).isEligible r (markMember found m) =
      (d.isEligible r m && !isCovered found m) := by
  by_cases hcovered : isCovered found m = true
  · simp [isEligible, markMember, hcovered, Member.markReadonly]
  · have hsame : markMember found m = m := by simp [markMember, hcovered]
    rw [hsame]
    unfold isEligible
    rw [groupAllows_mark]
    simp [hcovered]
    rfl

theorem canBeReadonly_mark (hfields : ∀ m ∈ d.members, isCovered found m → m.isField = false) :
    (d.mapParts (markMember found) (markGroup found)).canBeReadonly r = d.canBeReadonly r := by
  have hname : ∀ m, (markMember found m).name = m.name := by
    intro m
    unfold markMember
    split <;> rfl
  have hmember : d.members.toList.filter ((·.isMutableField) ∘ markMember found) =
      d.members.toList.filter (·.isMutableField) := by
    apply List.filter_congr
    intro m hm
    unfold Function.comp markMember
    split
    · -- only fields are storage, and no field is covered
      have hfield := hfields m (Array.mem_toList_iff.mp hm) ‹_›
      have hmarked : m.markReadonly.isField = m.isField := rfl
      simp [Member.isMutableField, hmarked, hfield]
    · rfl
  have hgroup : ∀ g, (markGroup found g).hasMutableBacking = g.hasMutableBacking ∧
      (markGroup found g).isStatic = g.isStatic ∧ (markGroup found g).name = g.name := by
    intro g
    unfold markGroup
    split <;> exact ⟨rfl, rfl, rfl⟩
  have hstorage : (d.mapParts (markMember found) (markGroup found)).mutableStorage =
      d.mutableStorage := by
    unfold mutableStorage mapParts
    dsimp only
    rw [Array.toList_map, Array.toList_map, List.filter_map, List.filter_map, List.map_map,
      List.map_map, hmember]
    simp only [Function.comp_def, hname, hgroup]
  unfold canBeReadonly hasMutableStorage
  rw [hstorage]
  rfl

end Eligible

/-! ## Nothing is left -/

theorem covers_of_memberSuggestion? {m : Member} {s : Suggestion}
    (h : memberSuggestion? m = some s) : s.covers m = true :=
  (covers_iff_of_memberSuggestion? h).mpr rfl

/-- An accessor that may be marked is covered, if it or its whole group can be reported. -/
theorem exists_covering {d : StructDecl} {r : Resolution} {g : PropertyGroup} {m : Member}
    (hm : m ∈ d.eligibleAccessors r g) (hgroup : m.kind.group? = some g.id)
    (h : d.AllEligible r g ∨ ∃ s, memberSuggestion? m = some s) :
    ∃ s ∈ d.groupSuggestions r g, s.covers m = true := by
  by_cases hall : d.AllEligible r g
  · refine ⟨groupSuggestion g, mem_groupSuggestions.mpr (Or.inl ⟨hall, ?_, rfl⟩), ?_⟩
    · exact List.ne_nil_of_mem hm
    · simp [Suggestion.covers, groupSuggestion, hgroup]
  · rcases h with h | ⟨s, hs⟩
    · exact absurd h hall
    · exact ⟨s, mem_groupSuggestions.mpr (Or.inr ⟨hall, m, hm, hs⟩), covers_of_memberSuggestion? hs⟩

section Again

variable {d : StructDecl} {r : Resolution} {options : SuggestionOptions}

/-- What may still be marked afterwards might have been marked before, and was not covered. -/
theorem of_isEligible_mark {found : List Suggestion} {m : Member}
    (h : (d.mapParts (markMember found) (markGroup found)).isEligible r (markMember found m)) :
    d.isEligible r m ∧ isCovered found m = false ∧ markMember found m = m := by
  rw [isEligible_mark, Bool.and_eq_true] at h
  have hcovered : isCovered found m = false := by simpa using h.2
  exact ⟨h.1, hcovered, by simp [markMember, hcovered]⟩

theorem of_mem_eligibleAccessors_mark {found : List Suggestion} {g : PropertyGroup} {x : Member}
    (h : x ∈ (d.mapParts (markMember found) (markGroup found)).eligibleAccessors r
      (markGroup found g)) :
    x ∈ d.eligibleAccessors r g ∧ isCovered found x = false := by
  obtain ⟨⟨id, hid, hx⟩, heligible⟩ := mem_eligibleAccessors.mp h
  rw [(unread_mark found).accessors] at hid
  rw [member?_mapParts] at hx
  obtain ⟨m, hm, rfl⟩ := Option.map_eq_some_iff.mp hx
  obtain ⟨heligible, hcovered, hsame⟩ := of_isEligible_mark heligible
  rw [hsame]
  exact ⟨mem_eligibleAccessors.mpr ⟨⟨id, hid, hm⟩, heligible⟩, hcovered⟩

theorem of_allEligible_mark {found : List Suggestion} {g : PropertyGroup}
    (h : (d.mapParts (markMember found) (markGroup found)).AllEligible r (markGroup found g)) :
    d.AllEligible r g := by
  intro id hid
  obtain ⟨x, hx, heligible⟩ := h id (by rw [(unread_mark found).accessors]; exact hid)
  rw [member?_mapParts] at hx
  obtain ⟨m, hm, rfl⟩ := Option.map_eq_some_iff.mp hx
  exact ⟨m, hm, (of_isEligible_mark heligible).1⟩

/-- Once the suggestions for members are followed, there are no others. -/
theorem suggestions_mark (hnumbered : d.Numbered) (hlinked : d.Linked)
    (hstruct : ∀ s ∈ d.suggestions r options, s.target ≠ .struct) :
    (d.mapParts (markMember (d.suggestions r options))
      (markGroup (d.suggestions r options))).suggestions r options = [] := by
  generalize hfound : d.suggestions r options = found at *
  have hfields : ∀ m ∈ d.members, isCovered found m → m.isField = false := by
    intro m hm hcovered
    obtain ⟨s, hs, hcovers⟩ := List.any_eq_true.mp hcovered
    rw [← hfound] at hs
    exact isField_of_isEligible (of_covers hnumbered hlinked hs hm hcovers).1
  -- a suggestion that was made covers what it is for, so it is not made again
  have hcovered : ∀ {m : Member} {s : Suggestion}, isCovered found m = false → s ∈ found →
      s.covers m = true → False := by
    intro m s hnot hs hcovers
    have : isCovered found m = true := List.any_eq_true.mpr ⟨s, hs, hcovers⟩
    rw [hnot] at this
    cases this
  apply List.eq_nil_iff_forall_not_mem.mpr
  intro s hs
  rcases mem_suggestions.mp hs with
    ⟨hwhole, -⟩ | ⟨hwhole, hmembers, ⟨x, hx, hkind, heligible, hsome⟩ | ⟨g', hg', hs⟩⟩
  · rw [canBeReadonly_mark d found r hfields] at hwhole
    have hmem : d.structSuggestion ∈ d.suggestions r options :=
      mem_suggestions.mpr (Or.inl ⟨hwhole, rfl⟩)
    exact hstruct _ (hfound ▸ hmem) rfl
  · rw [canBeReadonly_mark d found r hfields] at hwhole
    obtain ⟨m, hm, rfl⟩ := Array.mem_map.mp hx
    obtain ⟨heligible, hnot, hsame⟩ := of_isEligible_mark heligible
    rw [hsame] at hkind hsome
    have hmem : s ∈ d.suggestions r options :=
      mem_suggestions.mpr (Or.inr ⟨hwhole, hmembers, Or.inl ⟨m, hm, hkind, heligible, hsome⟩⟩)
    exact hcovered hnot (hfound ▸ hmem) (covers_of_memberSuggestion? hsome)
  · rw [canBeReadonly_mark d found r hfields] at hwhole
    obtain ⟨g, hg, rfl⟩ := Array.mem_map.mp hg'
    -- some accessor may still be marked, though it, or all of its group, could be reported before
    obtain ⟨x, hx, hreported⟩ : ∃ x ∈ (d.mapParts (markMember found)
        (markGroup found)).eligibleAccessors r (markGroup found g),
        d.AllEligible r g ∨ ∃ s, memberSuggestion? x = some s := by
      rcases mem_groupSuggestions.mp hs with ⟨hall, hsome, -⟩ | ⟨-, x, hx, hsome⟩
      · obtain ⟨x, hx⟩ := List.exists_mem_of_ne_nil _ hsome
        exact ⟨x, hx, Or.inl (of_allEligible_mark hall)⟩
      · exact ⟨x, hx, Or.inr ⟨s, hsome⟩⟩
    obtain ⟨hx, hnot⟩ := of_mem_eligibleAccessors_mark hx
    obtain ⟨⟨id, hid, hmember⟩, -⟩ := mem_eligibleAccessors.mp hx
    obtain ⟨m, hm, hgroup⟩ := hlinked.accessor g hg id hid
    rw [hmember] at hm
    cases hm
    obtain ⟨s, hs, hcovers⟩ := exists_covering hx hgroup hreported
    have hmem : s ∈ d.suggestions r options :=
      mem_suggestions.mpr (Or.inr ⟨hwhole, hmembers, Or.inr ⟨g, hg, hs⟩⟩)
    exact hcovered hnot (hfound ▸ hmem) hcovers

end Again

end StructDecl

/-- Once every suggestion for a struct of a file is followed, the analysis suggests nothing more;
and unless the struct itself was marked, it finds out the same about every member. -/
theorem following_the_suggestions_leaves_none {root : Node} {d : StructDecl}
    (hd : d ∈ StructDecl.ofTree root) (options : SuggestionOptions) :
    ∃ a a', d.analyze.result? .never = some a ∧
      (d.marked (d.suggestions a.resolution options)).analyze.result? .never = some a' ∧
      (d.marked (d.suggestions a.resolution options)).suggestions a'.resolution options = [] ∧
      ((∀ s ∈ d.suggestions a.resolution options, s.target ≠ .struct) → a' = a) := by
  have hnumbered := StructDecl.numbered_ofTree hd
  have hlinked := StructDecl.linked_ofTree hd
  have ha := d.result?_analyze_never
  by_cases hstruct : ∀ s ∈ d.suggestions d.verdicts options, s.target ≠ .struct
  · have hmarked := StructDecl.marked_of_not_struct (d := d) hstruct
    refine ⟨_, _, ha, ?_, ?_, fun _ => rfl⟩
    · rw [hmarked, StructDecl.analyze_mark]
      exact ha
    · rw [hmarked]
      exact StructDecl.suggestions_mark hnumbered hlinked hstruct
  · refine ⟨_, _, ha, StructDecl.result?_analyze_never _, ?_, fun h => absurd h hstruct⟩
    apply StructDecl.suggestions_of_isReadonly
    have hwhole : (d.suggestions d.verdicts options).any (·.target = .struct) = true := by
      simpa using hstruct
    simp [StructDecl.marked, StructDecl.isReadonly, hwhole, Modifiers.markReadonly]

/-- The body `{ }`. -/
def idleBody : Node :=
  .tree .block "\x7b \x7d" 27 [.word .openBrace "\x7b" 27, .word .closeBrace "\x7d" 29] (some .body)

/-- The struct with that body of its method. -/
def idleDecl : StructDecl := (StructDecl.ofTree (.structWithBody idleBody)).head!

/-- Marking an idle method is suggested once. -/
theorem an_idle_method_is_suggested_once :
    ∃ a a', idleDecl.analyze.result? .never = some a ∧
      (idleDecl.suggestions a.resolution {}).map (·.target) = [.member 1] ∧
      (idleDecl.marked (idleDecl.suggestions a.resolution {})).analyze.result? .never = some a' ∧
      (idleDecl.marked (idleDecl.suggestions a.resolution {})).suggestions a'.resolution {} =
        [] := by
  have hd : idleDecl ∈ StructDecl.ofTree (.structWithBody idleBody) := List.mem_cons_self
  obtain ⟨a, a', ha, ha', hnone, -⟩ := following_the_suggestions_leaves_none hd {}
  have htargets : (idleDecl.analyze.result? .never).map (fun a =>
      (idleDecl.suggestions a.resolution {}).map (·.target)) = some [.member 1] := by
    decide +kernel
  rw [ha, Option.map_some, Option.some.injEq] at htargets
  exact ⟨a, a', ha, htargets, ha', hnone⟩

end ReadonlyLint
