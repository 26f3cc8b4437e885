import ReadonlyLint.Proofs.Chains
import ReadonlyLint.Proofs.Reports
import ReadonlyLint.Proofs.Subtree

/-!
Explanations agree with findings. The evidence of a member, its verdict, its chain of callees and
the mark that it is suggested come from different stages, each of which knows it by its id. A member
has evidence just when it is its own cause, so the chain of any other member ends at one with
evidence; that one is no field, so it is listed too. A suggestion covers a member just when it is
about the member or its group, and then the member does not mutate.
-/
namespace ReadonlyLint

/-! ## What an explanation has to say -/

/-- The ways in which a member comes to its verdict. -/
inductive Account where
  /-- It does not mutate. -/
  | idle
  /-- It mutates by itself. -/
  | direct
  /-- It mutates through another member. -/
  | escalated
  deriving DecidableEq

/-- Whether an explained member, listed with the others of its struct, gives the account. -/
def MemberExplanation.Gives (x : MemberExplanation) (listed : List MemberExplanation) :
    Account → Prop
  | .idle => x.verdict = .notMutating ∧ x.evidence = [] ∧ x.escalatedThrough = []
  | .direct => x.verdict = .mutating ∧ x.evidence ≠ [] ∧ x.escalatedThrough = []
  | .escalated => x.verdict = .mutating ∧ x.evidence = [] ∧
      ∃ last ∈ x.escalatedThrough.getLast?, ∃ y ∈ listed, y.name = last ∧ y.evidence ≠ []

/-- The suggestion is about the member itself or its property or indexer. -/
def Suggestion.IsAbout (s : Suggestion) (m : Member) : Prop :=
  s.target = .member m.id ∨ ∃ id, m.kind.group? = some id ∧ s.target = .group id

theorem Suggestion.covers_iff {s : Suggestion} {m : Member} : s.covers m = true ↔ s.IsAbout m := by
  unfold covers IsAbout
  cases s.target with
  | struct => simp
  | group id => simp [eq_comm]
  | member id => simp [eq_comm]

/-- The explanation of a member agrees with the suggestions for its struct. -/
structure MemberExplanation.Agrees (x : MemberExplanation) (d : StructDecl)
    (found : List Suggestion) (m : Member) : Prop where
  name : x.name = m.name
  verdict : x.verdict = d.verdicts.verdict m.id
  evidence : x.evidence = (d.analyzeLocally[m.id]?.getD {}).evidence
  suggested : x.suggested = true ↔ ∃ s ∈ found, s.rule = .readonlyMember ∧ s.IsAbout m
  harmless : x.suggested = true → x.verdict = .notMutating

/-- The explanation of a struct lists its members, fields aside, each with one account, and agrees
with the suggestions for it. -/
structure StructExplanation.Agrees (e : StructExplanation) (d : StructDecl)
    (found : List Suggestion) : Prop where
  name : e.name = d.name
  members : List.Forall₂ (fun m x => x.Agrees d found m ∧ ∃! account, x.Gives e.members account)
    (d.members.toList.filter (!·.isField)) e.members
  suggested : e.suggested = true ↔ ∃ s ∈ found, s.rule = .readonlyStruct
  alone : e.suggested = true → ∀ x ∈ e.members, x.suggested = false ∧ x.verdict ≠ .mutating

/-- No two accounts are given at once. -/
theorem MemberExplanation.Gives.unique {x : MemberExplanation} {listed : List MemberExplanation}
    {a b : Account} (ha : x.Gives listed a) (hb : x.Gives listed b) : a = b := by
  cases a <;> cases b <;> simp_all [Gives]

/-! ## Chains of causes -/

namespace Resolution.Traces

/-- The chain of a member with a callee for its cause goes on with the chain of the callee. -/
theorem tail {r : Resolution} {m callee : Nat} {chain : List Nat} (h : r.Traces m chain)
    (hcause : r.cause m = some (.calls callee)) :
    ∃ rest, chain = m :: rest ∧ r.Traces callee rest := by
  cases h with
  | direct hm =>
    rw [hm] at hcause
    cases hcause
  | calls hm hrest =>
    rw [hm] at hcause
    cases hcause
    exact ⟨_, rfl, hrest⟩

/-- A chain ends at a member that is its own cause. -/
theorem ends {r : Resolution} {m : Nat} {chain : List Nat} (h : r.Traces m chain) :
    ∃ before last, chain = before ++ [last] ∧ r.cause last = some .direct := by
  induction h with
  | @direct m hm => exact ⟨[], m, rfl, hm⟩
  | @calls m callee chain _ _ ih =>
    obtain ⟨before, last, rfl, hlast⟩ := ih
    exact ⟨m :: before, last, rfl, hlast⟩

end Resolution.Traces

namespace StructDecl

theorem isSome_cause_iff (d : StructDecl) (id : Nat) :
    (d.verdicts.cause id).isSome ↔ d.verdicts.verdict id = .mutating :=
  CallGraph.cause_verdicts_isSome_iff d.inRange_callGraph _ id

/-- The members with evidence are the ones that are their own cause. -/
theorem evidence_ne_nil_iff (d : StructDecl) (id : Nat) :
    (d.analyzeLocally[id]?.getD {}).evidence ≠ [] ↔ d.verdicts.cause id = some .direct := by
  rw [verdicts, CallGraph.cause_verdicts_eq_direct_iff d.inRange_callGraph, List.getElem?_map,
    memberCount_callGraph, ← length_analyzeLocally]
  by_cases hid : id < d.analyzeLocally.length
  · rw [List.getElem?_eq_getElem hid]
    simp [-length_analyzeLocally, hid, LocalAnalysis.mutates]
  · rw [List.getElem?_eq_none (by omega)]
    simp

/-- A member that is its own cause is no field. -/
theorem isField_of_cause {d : StructDecl} {id : Nat} {m : Member} (hm : d.member? id = some m)
    (hcause : d.verdicts.cause id = some .direct) : m.isField = false := by
  have hverdict := (d.isSome_cause_iff id).mp (by simp [hcause])
  have hevidence := (d.evidence_ne_nil_iff id).mpr hcause
  rw [getElem?_analyzeLocally (isReadonly_of_verdict hverdict) hm, Option.getD_some] at hevidence
  by_contra hfield
  apply hevidence
  unfold analyzeMember
  rw [if_pos (by simpa using Or.inl hfield)]

theorem escalation_eq_nil {d : StructDecl} {m : Member}
    (h : ∀ callee, d.verdicts.cause m.id ≠ some (.calls callee)) :
    d.escalation d.verdicts m = [] := by
  unfold escalation
  split
  · rename_i callee hcause
    exact absurd hcause (h callee)
  · rfl

/-- An escalation ends with the name of a member that is its own cause. -/
theorem escalation_of_calls {d : StructDecl} {m : Member} {callee : Nat}
    (h : d.verdicts.cause m.id = some (.calls callee)) :
    ∃ id last, d.member? id = some last ∧ d.verdicts.cause id = some .direct ∧
      (d.escalation d.verdicts m).getLast? = some last.name := by
  have hmutating := (d.isSome_cause_iff m.id).mp (by simp [h])
  have htraces : d.verdicts.Traces m.id (d.verdicts.explain m.id) :=
    (CallGraph.explain_of_mutating d.inRange_callGraph _ hmutating).1
  obtain ⟨rest, hchain, hrest⟩ := htraces.tail h
  obtain ⟨before, id, rfl, hid⟩ := hrest.ends
  have hlt := lt_of_verdict ((d.isSome_cause_iff id).mp (by simp [hid]))
  refine ⟨id, d.members[id], Array.getElem?_eq_getElem hlt, hid, ?_⟩
  unfold escalation
  rw [h, hchain]
  simp [List.filterMap_append, member?, hlt]

/-! ## Accounts -/

/-- A member is listed with the others, fields aside. -/
theorem explainMember_mem {d : StructDecl} {m : Member} (hm : m ∈ d.members)
    (hfield : m.isField = false) (a : StructAnalysis) (found : List Suggestion) :
    d.explainMember a found m ∈ (d.explain a found).members :=
  List.mem_map_of_mem (List.mem_filter.mpr ⟨Array.mem_toList_iff.mpr hm, by simp [hfield]⟩)

/-- The cause of the verdict of a member decides which account it gives. -/
theorem exists_gives {d : StructDecl} (hnumbered : d.Numbered) (found : List Suggestion)
    {m : Member} (hm : m ∈ d.members) :
    ∃ account, (d.explainMember d.analysis found m).Gives (d.explain d.analysis found).members
      account := by
  have hlt := lt_of_member? (hnumbered.member?_of_mem hm)
  have hevidence := d.evidence_ne_nil_iff m.id
  have hmutating := d.isSome_cause_iff m.id
  rcases hcause : d.verdicts.cause m.id with _ | _ | callee
  · have hnot : d.verdicts.verdict m.id ≠ .mutating := by simp [← hmutating, hcause]
    have hnone : (d.analyzeLocally[m.id]?.getD {}).evidence = [] := by
      by_contra hsome
      simp [hevidence.mp hsome] at hcause
    refine ⟨.idle, (d.verdict_settled hlt).resolve_left hnot, hnone, escalation_eq_nil ?_⟩
    simp [hcause]
  · refine ⟨.direct, hmutating.mp (by simp [hcause]), hevidence.mpr hcause, escalation_eq_nil ?_⟩
    simp [hcause]
  · have hnone : (d.analyzeLocally[m.id]?.getD {}).evidence = [] := by
      by_contra hsome
      simp [hevidence.mp hsome] at hcause
    obtain ⟨id, last, hlast, hdirect, hname⟩ := escalation_of_calls hcause
    -- the last of the chain has evidence, so it is no field and is listed
    have hlisted := explainMember_mem (Array.mem_of_getElem? hlast)
      (isField_of_cause hlast hdirect) d.analysis found
    refine ⟨.escalated, hmutating.mp (by simp [hcause]), hnone, last.name, hname, _, hlisted, rfl,
      ?_⟩
    apply (d.evidence_ne_nil_iff last.id).mpr
    rw [hnumbered.member hlast]
    exact hdirect

/-! ## Suggestions -/

theorem target_eq_struct_iff {d : StructDecl} {r : Resolution} {options : SuggestionOptions}
    {s : Suggestion} (hs : s ∈ d.suggestions r options) :
    s.target = .struct ↔ s.rule = .readonlyStruct := by
  rcases whole_or_part hs with ⟨-, rfl⟩ | ⟨-, hrule, htarget⟩
  · simp [structSuggestion]
  · simp [hrule, htarget]

theorem rule_of_isAbout {d : StructDecl} {r : Resolution} {options : SuggestionOptions}
    {s : Suggestion} (hs : s ∈ d.suggestions r options) {m : Member} (h : s.IsAbout m) :
    s.rule = .readonlyMember := by
  rcases whole_or_part hs with ⟨-, rfl⟩ | ⟨-, hrule, -⟩
  · simp [Suggestion.IsAbout, structSuggestion] at h
  · exact hrule

/-- Beside the suggestion of a whole struct there is none for a member. -/
theorem rule_of_whole {d : StructDecl} {r : Resolution} {options : SuggestionOptions}
    {whole s : Suggestion} (hwhole : whole ∈ d.suggestions r options)
    (hrule : whole.rule = .readonlyStruct) (hs : s ∈ d.suggestions r options) :
    s.rule ≠ .readonlyMember := by
  rcases whole_or_part hwhole with ⟨hcan, -⟩ | ⟨-, hpart, -⟩
  · rcases whole_or_part hs with ⟨-, rfl⟩ | ⟨hcannot, -, -⟩
    · simp [structSuggestion]
    · simp [hcan] at hcannot
  · simp [hrule] at hpart

/-- The explanation of a member agrees with what is suggested. -/
theorem agrees_explainMember {d : StructDecl} (hnumbered : d.Numbered) (hlinked : d.Linked)
    (options : AnalysisOptions) {m : Member} (hm : m ∈ d.members) :
    (d.explainMember d.analysis (d.found options) m).Agrees d (d.found options) m := by
  have hsuggested : (d.explainMember d.analysis (d.found options) m).suggested = true ↔
      ∃ s ∈ d.found options, s.IsAbout m := by
    simp [explainMember, List.any_eq_true, Suggestion.covers_iff]
  refine ⟨rfl, rfl, rfl, ?_, ?_⟩
  · rw [hsuggested]
    constructor
    · rintro ⟨s, hs, habout⟩
      exact ⟨s, hs, rule_of_isAbout hs habout, habout⟩
    · rintro ⟨s, hs, -, habout⟩
      exact ⟨s, hs, habout⟩
  · rw [hsuggested]
    rintro ⟨s, hs, habout⟩
    have hcovers := Suggestion.covers_iff.mpr habout
    exact verdict_of_isEligible (of_covers hnumbered hlinked hs hm hcovers).1

/-- The explanation of a struct agrees with what is suggested. -/
theorem agrees_explain {d : StructDecl} (hnumbered : d.Numbered) (hlinked : d.Linked)
    (options : AnalysisOptions) :
    (d.explain d.analysis (d.found options)).Agrees d (d.found options) := by
  have hsuggested : (d.explain d.analysis (d.found options)).suggested = true ↔
      ∃ s ∈ d.found options, s.rule = .readonlyStruct := by
    simp only [explain, List.any_eq_true, decide_eq_true_eq]
    exact exists_congr fun s => and_congr_right target_eq_struct_iff
  refine ⟨rfl, ?_, hsuggested, ?_⟩
  · refine List.forall₂_map_right_iff.mpr (List.forall₂_same.mpr fun m hm => ?_)
    have hm := Array.mem_toList_iff.mp (List.mem_filter.mp hm).1
    obtain ⟨account, haccount⟩ := exists_gives hnumbered (d.found options) hm
    exact ⟨agrees_explainMember hnumbered hlinked options hm, account, haccount,
      fun _ hother => hother.unique haccount⟩
  · intro hwhole x hx
    obtain ⟨whole, hmem, hrule⟩ := hsuggested.mp hwhole
    obtain ⟨m, -, rfl⟩ := List.mem_map.mp hx
    refine ⟨Bool.eq_false_iff.mpr fun hmarked => ?_,
      fun hmutating => not_struct_of_mutating hmem hmutating hrule⟩
    obtain ⟨s, hs, hcovers⟩ := List.any_eq_true.mp hmarked
    exact rule_of_whole hmem hrule hs (rule_of_isAbout hs (Suggestion.covers_iff.mp hcovers))

end StructDecl

/-- The report on any file explains each of its structs, and the explanations agree with the
findings. A run that a signal lets finish gives no other report. -/
theorem explanations_agree_with_findings (path : String) (root : Node) (options : AnalysisOptions)
    (hexplain : options.explain = true) :
    ∃ report, (FileReport.ofTree path root options).result? .never = some report ∧
      (∀ signal other, (FileReport.ofTree path root options).result? signal = some other →
        other = report) ∧
      report.findings = (StructDecl.ofTree root).flatMap (fun d =>
        (d.found options).map (·.toFinding path d.name options)) ∧
      List.Forall₂ (fun d e => e.Agrees d (d.found options)) (StructDecl.ofTree root)
        report.explanations := by
  have hyields := FileReport.yields_ofTree path root options
  refine ⟨_, hyields.result?_never, fun signal other => hyields.eq_of_result?, ?_, ?_⟩
  · rw [FileReport.findings_addFound, List.nil_append]
  · rw [FileReport.explanations_addFound hexplain, List.nil_append]
    refine List.forall₂_map_right_iff.mpr (List.forall₂_same.mpr fun d hd => ?_)
    exact StructDecl.agrees_explain (StructDecl.numbered_ofTree hd) (StructDecl.linked_ofTree hd)
      options

/-- The method `void N() { this.M(); }`. -/
def callingMethod : Node :=
  .voidMethod "N" 41 <| .tree .block "\x7b this.M(); \x7d" 50
    [.word .openBrace "\x7b" 50,
     .tree (.other "expression_statement") "this.M();" 52
      [.tree .invocationExpression "this.M()" 52
        [{ Node.thisAccess "M" 52 with field := some .function },
         { Node.noParameters 58 with kind := .other "argument_list", field := some .arguments }],
       .word (.other ";") ";" 60],
     .word .closeBrace "\x7d" 62]

/-- The file `struct S { int f; void M() { this.f++; } void N() { this.M(); } void O() { } }`. -/
def callingFile : Node :=
  .structOf [.intField "f" 11, .voidMethod "M" 18 (.incrementBlock 27), callingMethod,
    .voidMethod "O" 64 (.emptyBlock 73)]

/-- One member of each account. -/
theorem each_account_is_explained :
    ∃ report, (FileReport.ofTree "S.cs" callingFile { explain := true }).result? .never =
        some report ∧
      List.Forall₂ (fun d e => e.Agrees d (d.found { explain := true }))
        (StructDecl.ofTree callingFile) report.explanations ∧
      report.findings.map (·.name) = ["O"] ∧
      (report.explanations.map fun e => e.members.map fun x =>
          (x.verdict, x.evidence.length, x.escalatedThrough)) =
        [[(.mutating, 1, []), (.mutating, 0, ["M"]), (.notMutating, 0, [])]] := by
  obtain ⟨report, hreport, -, -, hagrees⟩ :=
    explanations_agree_with_findings "S.cs" callingFile { explain := true } rfl
  have hyields := FileReport.yields_ofTree "S.cs" callingFile { explain := true }
  obtain rfl := hyields.eq_of_result? hreport
  exact ⟨_, hreport, hagrees, by decide +kernel, by decide +kernel⟩

end ReadonlyLint
