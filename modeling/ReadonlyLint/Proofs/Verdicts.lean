import ReadonlyLint.FileReport
import ReadonlyLint.Proofs.Members
import ReadonlyLint.Proofs.Propagation

/-!
The verdicts of a struct and what they let through. A member mutates when a chain of uses leads from
it to a member that mutates alone; no suggestion covers a mutating member, and the whole struct is
not suggested when any member mutates.
-/
namespace ReadonlyLint

/-! ## Settled verdicts -/

namespace CallGraph

/-- The verdicts that a graph settles on. -/
def verdicts (g : CallGraph) (direct : List Bool) : Resolution :=
  .ofPropagation (.run g direct)

variable {g : CallGraph} (hg : g.InRange) (direct : List Bool)
include hg

theorem size_marks_verdicts : (g.verdicts direct).marks.size = g.memberCount := by
  have hsize := (Propagation.good_run hg direct).listed.size
  simpa [verdicts, Resolution.ofPropagation] using hsize

theorem verdict_verdicts {m : Nat} (hm : m < g.memberCount) :
    ((g.verdicts direct).verdict m = .mutating ↔ g.ReachesDirect direct m) ∧
      ((g.verdicts direct).verdict m = .mutating ∨
        (g.verdicts direct).verdict m = .notMutating) := by
  have hgood := Propagation.good_run hg direct
  have hverdict := Resolution.verdict_ofPropagation (Propagation.run g direct) (m := m)
    (by rw [hgood.listed.size]; exact hm)
  rw [← Propagation.verdict_run_iff hg direct m, verdicts, hverdict]
  by_cases hv : (Propagation.run g direct).verdict m = .mutating
  · simp [hv]
  · simp [hgood.listed.unknown m hv]

end CallGraph

namespace Resolution

theorem lt_of_verdict_eq_mutating {r : Resolution} {id : Nat} (h : r.verdict id = .mutating) :
    id < r.marks.size := by
  by_contra hge
  simp [verdict, Array.getElem?_eq_none (Nat.le_of_not_lt hge)] at h

/-- Nothing counts as mutating just when no member has that verdict. -/
theorem mutatingCount_eq_zero {r : Resolution} :
    r.mutatingCount = 0 ↔ ∀ id, r.verdict id ≠ .mutating := by
  unfold mutatingCount
  rw [List.countP_eq_zero]
  constructor
  · intro h id hid
    have hlt := lt_of_verdict_eq_mutating hid
    refine h r.marks[id] (by simp) ?_
    simpa [verdict, hlt] using hid
  · intro h mark hmark
    obtain ⟨id, hid⟩ := Array.mem_iff_getElem?.mp (Array.mem_toList_iff.mp hmark)
    simpa [verdict, hid] using h id

end Resolution

namespace StructDecl

/-! ## The analysis of a struct -/

/-- Which members use which, from what each shows when it is looked at alone. -/
def callGraph (d : StructDecl) : CallGraph :=
  .ofUses (d.analyzeLocally.map (·.uses.toList))

/-- The settled verdicts of a struct. -/
def verdicts (d : StructDecl) : Resolution :=
  d.callGraph.verdicts (d.analyzeLocally.map (·.mutates))

/-- A run that nothing stops analyzes every struct. -/
theorem result?_analyze_never (d : StructDecl) :
    d.analyze.result? .never =
      some { locals := d.analyzeLocally, graph := d.callGraph, resolution := d.verdicts } := by
  have hresolve := d.callGraph.result?_resolve_never (d.analyzeLocally.map (·.mutates))
  unfold Cancellable.result? at hresolve ⊢
  obtain ⟨p, hp, hresult⟩ := Option.map_eq_some_iff.mp hresolve
  change (((Cancellable.check .never).bind fun q =>
    (d.callGraph.resolve (d.analyzeLocally.map (·.mutates)) q.2).bind fun p =>
      some (StructAnalysis.mk d.analyzeLocally d.callGraph p.1, p.2)).map (·.1)) = _
  have hcheck : Cancellable.check .never = some ((), .never) := rfl
  rw [hcheck, Option.bind_some, hp, Option.bind_some, Option.map_some, hresult]
  rfl

@[simp] theorem length_analyzeLocally (d : StructDecl) :
    d.analyzeLocally.length = d.members.size := by
  unfold analyzeLocally
  split <;> simp

/-- Looked at alone, the one member uses the other. -/
def Uses (d : StructDecl) (caller callee : Nat) : Prop :=
  callee < d.members.size ∧ ∃ a, d.analyzeLocally[caller]? = some a ∧ callee ∈ a.uses

/-- Looked at alone, the member mutates. -/
def MutatesAlone (d : StructDecl) (id : Nat) : Prop :=
  ∃ a, d.analyzeLocally[id]? = some a ∧ a.mutates

theorem inRange_callGraph (d : StructDecl) : d.callGraph.InRange :=
  CallGraph.inRange_ofCount_addEdges _ _

@[simp] theorem memberCount_callGraph (d : StructDecl) :
    d.callGraph.memberCount = d.members.size := by
  unfold callGraph CallGraph.ofUses
  rw [CallGraph.memberCount_addEdges]
  simp [CallGraph.ofCount]

theorem calls_callGraph (d : StructDecl) : d.callGraph.Calls = d.Uses := by
  funext caller callee
  refine propext (CallGraph.calls_ofCount_addEdges.trans ?_)
  simp only [List.mem_flatMap, List.mem_map, Prod.exists, Prod.mk.injEq, List.length_map,
    length_analyzeLocally, List.mk_mem_zipIdx_iff_getElem?, List.getElem?_map,
    Option.map_eq_some_iff]
  constructor
  · rintro ⟨⟨l, place, ⟨a, ha, rfl⟩, used, hused, rfl, rfl⟩, -, hlt⟩
    exact ⟨hlt, a, ha, hused⟩
  · rintro ⟨hlt, a, ha, hused⟩
    have hcaller : caller < d.members.size := by
      simpa using (List.getElem?_eq_some_iff.mp ha).1
    exact ⟨⟨_, caller, ⟨a, ha, rfl⟩, callee, hused, rfl, rfl⟩, hcaller, hlt⟩

@[simp] theorem size_marks_verdicts (d : StructDecl) :
    d.verdicts.marks.size = d.members.size := by
  unfold verdicts
  rw [CallGraph.size_marks_verdicts d.inRange_callGraph, memberCount_callGraph]

theorem lt_of_verdict {d : StructDecl} {id : Nat} (h : d.verdicts.verdict id = .mutating) :
    id < d.members.size := by
  rw [← size_marks_verdicts]
  exact Resolution.lt_of_verdict_eq_mutating h

/-- A member mutates just when a chain of uses leads from it to one that mutates alone. -/
theorem verdict_eq_mutating_iff (d : StructDecl) {id : Nat} (hid : id < d.members.size) :
    d.verdicts.verdict id = .mutating ↔
      ∃ source, Relation.ReflTransGen d.Uses id source ∧ d.MutatesAlone source := by
  have hiff := (CallGraph.verdict_verdicts d.inRange_callGraph (d.analyzeLocally.map (·.mutates))
    (by simpa using hid)).1
  rw [verdicts, hiff, CallGraph.ReachesDirect, calls_callGraph]
  constructor
  · rintro ⟨source, hpath, -, hdirect⟩
    rw [List.getElem?_map] at hdirect
    obtain ⟨a, ha, hmutates⟩ := Option.map_eq_some_iff.mp hdirect
    exact ⟨source, hpath, a, ha, hmutates⟩
  · rintro ⟨source, hpath, a, ha, hmutates⟩
    refine ⟨source, hpath, ?_, by simp [ha, hmutates]⟩
    simpa using (List.getElem?_eq_some_iff.mp ha).1

theorem verdict_settled (d : StructDecl) {id : Nat} (hid : id < d.members.size) :
    d.verdicts.verdict id = .mutating ∨ d.verdicts.verdict id = .notMutating :=
  (CallGraph.verdict_verdicts d.inRange_callGraph _ (by simpa using hid)).2

/-- A member mutates when one mutates that it uses, directly or through others. -/
theorem verdict_of_uses {d : StructDecl} {caller callee : Nat} (hcaller : caller < d.members.size)
    (huses : Relation.ReflTransGen d.Uses caller callee)
    (hcallee : d.verdicts.verdict callee = .mutating) :
    d.verdicts.verdict caller = .mutating := by
  obtain ⟨source, hpath, hmutates⟩ := (d.verdict_eq_mutating_iff (lt_of_verdict hcallee)).mp hcallee
  exact (d.verdict_eq_mutating_iff hcaller).mpr ⟨source, huses.trans hpath, hmutates⟩

/-- What the members of a struct that is not `readonly` show. -/
theorem getElem?_analyzeLocally {d : StructDecl} (hd : d.isReadonly = false) {id : Nat} {m : Member}
    (hm : d.member? id = some m) : d.analyzeLocally[id]? = some (d.analyzeMember m) := by
  unfold analyzeLocally
  rw [hd, if_neg (by simp), List.getElem?_map, Array.getElem?_toList]
  simp [show d.members[id]? = some m from hm]

/-- A member that mutates alone mutates. -/
theorem verdict_of_mutates {d : StructDecl} (hd : d.isReadonly = false) (hnumbered : d.Numbered)
    {m : Member} (hm : m ∈ d.members) (hmutates : (d.analyzeMember m).mutates = true) :
    d.verdicts.verdict m.id = .mutating := by
  have hmember := hnumbered.member?_of_mem hm
  apply (d.verdict_eq_mutating_iff (lt_of_member? hmember)).mpr
  exact ⟨m.id, .refl, _, getElem?_analyzeLocally hd hmember, hmutates⟩

/-- In a `readonly` struct nothing mutates. -/
theorem isReadonly_of_verdict {d : StructDecl} {id : Nat} (h : d.verdicts.verdict id = .mutating) :
    d.isReadonly = false := by
  by_contra hreadonly
  obtain ⟨source, -, a, ha, hmutates⟩ := (d.verdict_eq_mutating_iff (lt_of_verdict h)).mp h
  rw [analyzeLocally, if_pos (by simpa using hreadonly)] at ha
  rw [List.eq_of_mem_replicate (List.mem_of_getElem? ha)] at hmutates
  simp [LocalAnalysis.mutates] at hmutates

/-- A member mutates when one mutates that it uses. -/
theorem verdict_of_use {d : StructDecl} (hnumbered : d.Numbered) {m : Member} {callee : Nat}
    (hm : m ∈ d.members) (huses : callee ∈ (d.analyzeMember m).uses)
    (hcallee : d.verdicts.verdict callee = .mutating) : d.verdicts.verdict m.id = .mutating := by
  have hmember := hnumbered.member?_of_mem hm
  have hlocal := getElem?_analyzeLocally (isReadonly_of_verdict hcallee) hmember
  exact verdict_of_uses (lt_of_member? hmember) (.single ⟨lt_of_verdict hcallee, _, hlocal, huses⟩)
    hcallee

/-! ## What is suggested -/

theorem mem_suggestions {d : StructDecl} {r : Resolution} {options : SuggestionOptions}
    {s : Suggestion} :
    s ∈ d.suggestions r options ↔
      ((d.canBeReadonly r && options.structs) = true ∧ s = d.structSuggestion) ∨
      ((d.canBeReadonly r && options.structs) = false ∧ options.members = true ∧
        ((∃ m ∈ d.members, m.kind.group? = none ∧ d.isEligible r m ∧
            memberSuggestion? m = some s) ∨
          ∃ g ∈ d.groups, s ∈ d.groupSuggestions r g)) := by
  unfold suggestions
  by_cases hwhole : (d.canBeReadonly r && options.structs) = true
  · simp [hwhole]
  · by_cases hmembers : options.members = true
    · unfold memberSuggestions
      simp [hwhole, hmembers, List.mem_mergeSort, List.mem_filterMap, and_assoc]
    · simp [hwhole, hmembers]

theorem of_memberSuggestion? {m : Member} {s : Suggestion} (h : memberSuggestion? m = some s) :
    s.target = .member m.id ∧ s.rule = .readonlyMember ∧
      (FindingKind.ofMember? m.kind).isSome := by
  unfold memberSuggestion? at h
  split at h
  · rename_i hkind _
    cases h
    exact ⟨rfl, rfl, by simp [hkind]⟩
  · cases h

/-- A suggestion for a member on its own covers just what has its id. -/
theorem covers_iff_of_memberSuggestion? {x m : Member} {s : Suggestion}
    (h : memberSuggestion? x = some s) : s.covers m = true ↔ m.id = x.id := by
  rw [Suggestion.covers, (of_memberSuggestion? h).1]
  simp

theorem ofMember?_of_group? {kind : MemberKind} {id : Nat} (h : kind.group? = some id) :
    (FindingKind.ofMember? kind).isSome := by
  cases kind with
  | accessor group id role => cases role <;> rfl
  | _ => cases h

theorem isEventAccessor_of_group? {kind : MemberKind} {id : Nat} (h : kind.group? = some id) :
    kind.isEventAccessor = false := by
  cases kind with
  | eventAccessor adds => cases h
  | _ => rfl

/-- The accessors of a group that may be marked. -/
def eligibleAccessors (d : StructDecl) (r : Resolution) (g : PropertyGroup) : List Member :=
  (g.accessors.filterMap d.member?).filter (d.isEligible r)

/-- All accessors of a group may be marked. -/
def AllEligible (d : StructDecl) (r : Resolution) (g : PropertyGroup) : Prop :=
  ∀ id ∈ g.accessors, ∃ m, d.member? id = some m ∧ d.isEligible r m

theorem mem_eligibleAccessors {d : StructDecl} {r : Resolution} {g : PropertyGroup} {m : Member} :
    m ∈ d.eligibleAccessors r g ↔
      (∃ id ∈ g.accessors, d.member? id = some m) ∧ d.isEligible r m := by
  unfold eligibleAccessors
  rw [List.mem_filter, List.mem_filterMap]

theorem length_eligibleAccessors_iff {d : StructDecl} {r : Resolution} {g : PropertyGroup} :
    (d.eligibleAccessors r g).length = g.accessors.length ↔ d.AllEligible r g := by
  unfold eligibleAccessors AllEligible
  rw [List.filter_filterMap, List.filterMap_length_eq_length]
  simp [Option.any_eq_true]

/-- A group is suggested as a whole when all of its accessors may be marked; else each accessor that
may be is suggested on its own. -/
theorem mem_groupSuggestions {d : StructDecl} {r : Resolution} {g : PropertyGroup}
    {s : Suggestion} :
    s ∈ d.groupSuggestions r g ↔
      (d.AllEligible r g ∧ d.eligibleAccessors r g ≠ [] ∧ s = groupSuggestion g) ∨
      (¬ d.AllEligible r g ∧ ∃ m ∈ d.eligibleAccessors r g, memberSuggestion? m = some s) := by
  change s ∈ (if (d.eligibleAccessors r g).isEmpty then []
    else if (d.eligibleAccessors r g).length = g.accessors.length then [groupSuggestion g]
    else (d.eligibleAccessors r g).filterMap memberSuggestion?) ↔ _
  by_cases hnone : d.eligibleAccessors r g = []
  · simp [hnone]
  · by_cases hall : d.AllEligible r g
    · simp [hnone, hall, length_eligibleAccessors_iff]
    · simp [hnone, hall, length_eligibleAccessors_iff, List.mem_filterMap]

/-- Whatever a suggestion covers may be marked on its own, and can be reported. -/
theorem of_covers {d : StructDecl} (hnumbered : d.Numbered) (hlinked : d.Linked) {r : Resolution}
    {options : SuggestionOptions} {s : Suggestion} (hs : s ∈ d.suggestions r options) {m : Member}
    (hm : m ∈ d.members) (hcovers : s.covers m) :
    d.isEligible r m ∧ (FindingKind.ofMember? m.kind).isSome := by
  -- a suggestion for a member by its id covers just that member
  have hsingle : ∀ x : Member, d.member? x.id = some x → d.isEligible r x →
      memberSuggestion? x = some s →
      d.isEligible r m ∧ (FindingKind.ofMember? m.kind).isSome := by
    intro x hx heligible hsome
    have hsame := hnumbered.member?_of_mem hm
    rw [(covers_iff_of_memberSuggestion? hsome).mp hcovers, hx] at hsame
    cases hsame
    exact ⟨heligible, (of_memberSuggestion? hsome).2.2⟩
  rcases mem_suggestions.mp hs with
    ⟨-, rfl⟩ | ⟨-, -, ⟨x, hx, -, heligible, hsome⟩ | ⟨g, hg, hs⟩⟩
  · simp [Suggestion.covers, structSuggestion] at hcovers
  · exact hsingle x (hnumbered.member?_of_mem hx) heligible hsome
  · rcases mem_groupSuggestions.mp hs with ⟨hall, -, rfl⟩ | ⟨-, x, hx, hsome⟩
    · have hgroup : m.kind.group? = some g.id := by
        simpa [Suggestion.covers, groupSuggestion] using hcovers
      obtain ⟨g', hg', hin⟩ := hlinked.group m hm g.id hgroup
      rw [hnumbered.group?_of_mem hg] at hg'
      cases hg'
      obtain ⟨x, hx, heligible⟩ := hall m.id hin
      rw [hnumbered.member?_of_mem hm] at hx
      cases hx
      exact ⟨heligible, ofMember?_of_group? hgroup⟩
    · obtain ⟨⟨id, -, hid⟩, heligible⟩ := mem_eligibleAccessors.mp hx
      exact hsingle x (by rw [hnumbered.member hid]; exact hid) heligible hsome

theorem verdict_of_isEligible {d : StructDecl} {r : Resolution} {m : Member}
    (h : d.isEligible r m) : r.verdict m.id = .notMutating := by
  unfold isEligible at h
  simp only [Bool.and_eq_true, decide_eq_true_eq] at h
  exact h.2

theorem isField_of_isEligible {d : StructDecl} {r : Resolution} {m : Member}
    (h : d.isEligible r m) : m.isField = false := by
  simp only [isEligible, Bool.and_eq_true, Bool.not_eq_true', Bool.or_eq_false_iff] at h
  exact h.1.1.1.1.1.2

/-- A mutating member is covered by no suggestion. -/
theorem not_covers_of_mutating {d : StructDecl} (hnumbered : d.Numbered) (hlinked : d.Linked)
    {r : Resolution} {options : SuggestionOptions} {s : Suggestion}
    (hs : s ∈ d.suggestions r options) {m : Member} (hm : m ∈ d.members)
    (hmutating : r.verdict m.id = .mutating) : s.covers m = false := by
  by_contra hcovers
  have hverdict := verdict_of_isEligible
    (of_covers hnumbered hlinked hs hm (by simpa using hcovers)).1
  rw [hmutating] at hverdict
  cases hverdict

/-- A suggestion is the one for the whole struct, or follows the rule for members. -/
theorem whole_or_part {d : StructDecl} {r : Resolution} {options : SuggestionOptions}
    {s : Suggestion} (hs : s ∈ d.suggestions r options) :
    ((d.canBeReadonly r && options.structs) = true ∧ s = d.structSuggestion) ∨
      ((d.canBeReadonly r && options.structs) = false ∧ s.rule = .readonlyMember ∧
        s.target ≠ .struct) := by
  rcases mem_suggestions.mp hs with
    hwhole | ⟨hpart, -, ⟨x, -, -, -, hsome⟩ | ⟨g, -, hs⟩⟩
  · exact .inl hwhole
  · exact .inr ⟨hpart, by simp [of_memberSuggestion? hsome]⟩
  · rcases mem_groupSuggestions.mp hs with ⟨-, -, rfl⟩ | ⟨-, x, -, hsome⟩
    · exact .inr ⟨hpart, by simp [groupSuggestion]⟩
    · exact .inr ⟨hpart, by simp [of_memberSuggestion? hsome]⟩

/-- The whole struct is suggested only if it can be marked. -/
theorem canBeReadonly_of_mem_suggestions {d : StructDecl} {r : Resolution}
    {options : SuggestionOptions} {s : Suggestion} (hs : s ∈ d.suggestions r options)
    (hrule : s.rule = .readonlyStruct) : d.canBeReadonly r = true := by
  rcases whole_or_part hs with ⟨hwhole, -⟩ | ⟨-, hpart, -⟩
  · exact (Bool.and_eq_true _ _ ▸ hwhole).1
  · simp [hrule] at hpart

/-- The whole struct is not suggested when a member mutates. -/
theorem not_struct_of_mutating {d : StructDecl} {r : Resolution} {options : SuggestionOptions}
    {s : Suggestion} (hs : s ∈ d.suggestions r options) {id : Nat}
    (hmutating : r.verdict id = .mutating) : s.rule ≠ .readonlyStruct := by
  intro hrule
  have hwhole := canBeReadonly_of_mem_suggestions hs hrule
  simp only [canBeReadonly, Bool.and_eq_true, decide_eq_true_eq] at hwhole
  exact Resolution.mutatingCount_eq_zero.mp hwhole.2 id hmutating

end StructDecl

end ReadonlyLint
