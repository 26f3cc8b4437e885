import ReadonlyLint.FileReport
import ReadonlyLint.Proofs.Parts

/-!
Structs that differ only in the bodies of their members. What a name means, where storage lives and
which members are used does not depend on the body of any member. So a change of the bodies that no
rule sees, in the sense of `Node.Carries`, changes nothing in the analysis of a struct, in its
suggestions or in the report on it.
-/
namespace ReadonlyLint

/-- The member with another body. -/
def Member.mapBody (f : Node → Node) (m : Member) : Member := { m with body := m.body.map f }

/-- The same struct with other bodies. -/
def StructDecl.mapBodies (f : Node → Node) (d : StructDecl) : StructDecl :=
  { d with members := d.members.map (·.mapBody f) }

/-- No rule sees the difference between the bodies. -/
def StructDecl.Carried (f : Node → Node) (d : StructDecl) : Prop :=
  ∀ m ∈ d.members, ∀ body ∈ m.body, Node.Carries f body

namespace StructDecl

/-! ## Adding to a struct -/

theorem addSymbol_mapBodies (f : Node → Node) (d : StructDecl) (named : Bool) (name : String)
    (symbol : Symbol) :
    (d.mapBodies f).addSymbol named name symbol = (d.addSymbol named name symbol).mapBodies f := by
  unfold addSymbol
  split <;> rfl

theorem pushMember_mapBodies (f : Node → Node) (d : StructDecl) (m : Member) :
    (d.mapBodies f).pushMember (m.mapBody f) = (d.pushMember m).mapBodies f := by
  have hsize : (d.mapBodies f).members.size = d.members.size := Array.size_map
  have hmembers : (d.mapBodies f).members.push { m.mapBody f with id := d.members.size } =
      (d.members.push { m with id := d.members.size }).map (·.mapBody f) := by
    rw [Array.map_push]
    rfl
  unfold pushMember
  dsimp only
  rw [hsize, hmembers, addSymbol_mapBodies]
  rfl

theorem pushGroup_mapBodies (f : Node → Node) (d : StructDecl) (g : PropertyGroup) :
    (d.mapBodies f).pushGroup g = (d.pushGroup g).mapBodies f := by
  unfold pushGroup
  dsimp only
  rw [addSymbol_mapBodies]
  rfl

theorem pushEvent_mapBodies (f : Node → Node) (d : StructDecl) (e : CustomEvent) :
    (d.mapBodies f).pushEvent e = (d.pushEvent e).mapBodies f := by
  unfold pushEvent
  rw [addSymbol_mapBodies]
  rfl

/-! ## What a struct shows -/

theorem mapBodies_eq (f : Node → Node) (d : StructDecl) :
    d.mapBodies f = d.mapParts (·.mapBody f) id := by
  simp [mapBodies, mapParts]

/-- No rule for code reads a body but that of the member it is about. -/
theorem unread_mapBody (f : Node → Node) : Unread (·.mapBody f) id where
  id := fun _ => rfl
  kind := fun _ => rfl
  isStatic := fun _ => rfl
  isPartial := fun _ => rfl
  hasBody := fun _ => Option.isSome_map
  groupId := fun _ => rfl
  groupName := fun _ => rfl
  groupKind := fun _ => rfl
  groupIsStatic := fun _ => rfl
  accessors := fun _ => rfl
  anchor := fun _ => rfl

theorem member?_mapBodies (f : Node → Node) (d : StructDecl) (id : Nat) :
    (d.mapBodies f).member? id = (d.member? id).map (·.mapBody f) :=
  Array.getElem?_map

/-- A member shows the same with a body that no rule tells from its own. -/
theorem analyzeMember_mapBody {f : Node → Node} (d : StructDecl) {m : Member}
    (hm : ∀ body ∈ m.body, Node.Carries f body) :
    d.analyzeMember (m.mapBody f) = d.analyzeMember m := by
  rcases hb : m.body with _ | body
  · have hsame : m.mapBody f = m := by
      unfold Member.mapBody
      rw [hb, Option.map_none, ← hb]
    rw [hsame]
  · have hvisit : Walk.visit (d.viewpoint m) [] (f body) (Walk.start m) =
        Walk.visit (d.viewpoint m) [] body (Walk.start m) :=
      Walk.visit_map (d.viewpoint m) (hm body hb) (List.forall_mem_nil _) _
    have hbody : (m.mapBody f).body = some (f body) := by simp [Member.mapBody, hb]
    unfold analyzeMember
    rw [hbody, hb]
    change (if _ then _ else if _ then _ else if _ then _ else if _ then _ else
      (Walk.visit (d.viewpoint m) [] (f body) (Walk.start m)).analysis) = _
    rw [hvisit]
    rfl

/-- What a member shows does not depend on the bodies of the others. -/
theorem analyzeMember_mapBodies (f : Node → Node) (d : StructDecl) (m : Member) :
    (d.mapBodies f).analyzeMember m = d.analyzeMember m := by
  rw [mapBodies_eq]
  exact analyzeMember_mapParts (unread_mapBody f) d m

theorem analyzeLocally_mapBodies {f : Node → Node} {d : StructDecl} (hd : d.Carried f) :
    (d.mapBodies f).analyzeLocally = d.analyzeLocally := by
  unfold analyzeLocally
  have hmembers : (d.mapBodies f).members.toList.map (d.mapBodies f).analyzeMember =
      d.members.toList.map d.analyzeMember := by
    rw [mapBodies, Array.toList_map, List.map_map]
    refine List.map_congr_left fun m hm => ?_
    rw [Function.comp, ← mapBodies, analyzeMember_mapBodies]
    exact analyzeMember_mapBody d (hd m (Array.mem_toList_iff.mp hm))
  have hsize : (d.mapBodies f).members.size = d.members.size := Array.size_map
  rw [hmembers, hsize]
  rfl

theorem analyze_mapBodies {f : Node → Node} {d : StructDecl} (hd : d.Carried f) :
    (d.mapBodies f).analyze = d.analyze := by
  unfold analyze
  rw [analyzeLocally_mapBodies hd]

/-! ## What is reported -/

/-- Of the members that a test without a look at the body picks, the bodies are mapped. -/
theorem filter_members_mapBodies (f : Node → Node) (d : StructDecl) {p p' : Member → Bool}
    (hp : ∀ m, p' (m.mapBody f) = p m) :
    (d.mapBodies f).members.toList.filter p' =
      (d.members.toList.filter p).map (·.mapBody f) := by
  rw [mapBodies, Array.toList_map, List.filter_map]
  congr 1
  exact List.filter_congr fun m _ => hp m

theorem isEligible_mapBodies (f : Node → Node) (d : StructDecl) (r : Resolution) (m : Member) :
    (d.mapBodies f).isEligible r (m.mapBody f) = d.isEligible r m := by
  have hbody : (m.mapBody f).hasInspectableBody = m.hasInspectableBody := by
    unfold Member.hasInspectableBody Member.mapBody
    rw [Option.isSome_map]
  unfold isEligible
  rw [hbody]
  rfl

theorem groupSuggestions_mapBodies (f : Node → Node) (d : StructDecl) (r : Resolution)
    (g : PropertyGroup) :
    (d.mapBodies f).groupSuggestions r g = d.groupSuggestions r g := by
  have heligible : (g.accessors.filterMap (d.mapBodies f).member?).filter
        ((d.mapBodies f).isEligible r) =
      ((g.accessors.filterMap d.member?).filter (d.isEligible r)).map (·.mapBody f) := by
    have hmembers : g.accessors.filterMap (d.mapBodies f).member? =
        (g.accessors.filterMap d.member?).map (·.mapBody f) := by
      rw [List.map_filterMap]
      exact List.filterMap_congr fun id _ => member?_mapBodies f d id
    rw [hmembers, List.filter_map]
    congr 1
    exact List.filter_congr fun m _ => isEligible_mapBodies f d r m
  unfold groupSuggestions
  dsimp only
  rw [heligible, List.length_map, List.isEmpty_map, List.filterMap_map]
  rfl

theorem suggestions_mapBodies (f : Node → Node) (d : StructDecl) (r : Resolution)
    (options : SuggestionOptions) :
    (d.mapBodies f).suggestions r options = d.suggestions r options := by
  have hstorage : (d.mapBodies f).mutableStorage = d.mutableStorage := by
    unfold mutableStorage
    rw [filter_members_mapBodies f d (p := (·.isMutableField)) fun _ => rfl, List.map_map]
    rfl
  have hwhole : (d.mapBodies f).canBeReadonly r = d.canBeReadonly r := by
    unfold canBeReadonly hasMutableStorage
    rw [hstorage]
    rfl
  have hmembers : (d.mapBodies f).memberSuggestions r = d.memberSuggestions r := by
    have hsingle : ((d.mapBodies f).members.toList.filter fun m =>
          m.kind.group?.isNone && (d.mapBodies f).isEligible r m) =
        (d.members.toList.filter fun m => m.kind.group?.isNone && d.isEligible r m).map
          (·.mapBody f) :=
      filter_members_mapBodies f d fun m =>
        congrArg (m.kind.group?.isNone && ·) (isEligible_mapBodies f d r m)
    have hgroups : (d.mapBodies f).groupSuggestions r = d.groupSuggestions r :=
      funext (groupSuggestions_mapBodies f d r)
    unfold memberSuggestions
    dsimp only
    rw [hsingle, hgroups, List.filterMap_map]
    rfl
  unfold suggestions
  rw [hwhole, hmembers]
  rfl

theorem explain_mapBodies (f : Node → Node) (d : StructDecl) (a : StructAnalysis)
    (suggestions : List Suggestion) :
    (d.mapBodies f).explain a suggestions = d.explain a suggestions := by
  have hmember : ∀ m : Member, (d.mapBodies f).explainMember a suggestions (m.mapBody f) =
      d.explainMember a suggestions m := by
    intro m
    have hescalation : (d.mapBodies f).escalation a.resolution m = d.escalation a.resolution m := by
      unfold escalation
      simp only [member?_mapBodies, Option.map_map]
      rfl
    unfold explainMember
    change { d.explainMember a suggestions m with
      escalatedThrough := (d.mapBodies f).escalation a.resolution m } = _
    rw [hescalation]
    rfl
  unfold explain
  rw [filter_members_mapBodies f d (p := (!·.isField)) fun _ => rfl, List.map_map]
  simp only [Function.comp_def, hmember]
  rfl

end StructDecl

namespace FileReport

theorem add_mapBodies (f : Node → Node) (report : FileReport) (options : AnalysisOptions)
    (d : StructDecl) (a : StructAnalysis) :
    report.add options (d.mapBodies f) a = report.add options d a := by
  unfold add
  dsimp only
  rw [StructDecl.suggestions_mapBodies, StructDecl.explain_mapBodies,
    StructDecl.filter_members_mapBodies f d (p := (!·.isField)) fun _ => rfl, List.length_map]
  rfl

/-- The report is the same on structs whose bodies no rule tells apart. -/
theorem addAll_mapBodies {f : Node → Node} (options : AnalysisOptions) (report : FileReport)
    {decls : List StructDecl} (h : ∀ d ∈ decls, d.Carried f) :
    addAll options report (decls.map (·.mapBodies f)) = addAll options report decls := by
  induction decls generalizing report with
  | nil => rfl
  | cons d decls ih =>
    obtain ⟨hd, hrest⟩ := List.forall_mem_cons.mp h
    rw [List.map_cons, addAll, addAll, StructDecl.analyze_mapBodies hd]
    simp only [add_mapBodies, ih _ hrest]

end FileReport

end ReadonlyLint
