import ReadonlyLint.Proofs.Comments
import ReadonlyLint.Proofs.Insertions
import ReadonlyLint.Proofs.Members
import ReadonlyLint.Proofs.Reports

/-!
Where the word `readonly` goes. Whatever a struct, a member or a property is read from, the place
for the word is the start of a node of the tree. So the fixes of a report can be applied to every
source whose tree has its nodes at characters, and they change the source if there are any.
-/
namespace ReadonlyLint

namespace Node

/-- A node of the tree starts at the offset. -/
def StartsAt (root : Node) (offset : Nat) : Prop :=
  ∃ n : Node, n.Within root ∧ n.span.start = offset

theorem Within.startsAt {n root : Node} (h : n.Within root) : root.StartsAt n.span.start :=
  ⟨n, h, rfl⟩

theorem Within.startsAt_child {n root c : Node} (h : n.Within root) (hc : c ∈ n.children) :
    root.StartsAt c.span.start :=
  ((within_of_mem hc).trans h).startsAt

theorem startsAt_memberFixOffset {n root : Node} (hn : n.Within root) {type : Option Node}
    (htype : ∀ t ∈ type, t ∈ n.children) : root.StartsAt (memberFixOffset n type) := by
  unfold memberFixOffset
  split
  · rename_i modifier hmodifier
    have hlast := (Option.filter_eq_some_iff.mp hmodifier).1
    exact hn.startsAt_child (List.mem_reverse.mp (List.mem_of_find?_eq_some hlast))
  · exact hn.startsAt_child (htype _ rfl)
  · split
    · rename_i hfirst
      exact hn.startsAt_child (List.mem_of_find?_eq_some hfirst)
    · exact hn.startsAt

theorem startsAt_structFixOffset {n root : Node} (hn : n.Within root) :
    root.StartsAt (structFixOffset n) := by
  unfold structFixOffset
  dsimp only
  rcases hplace : (n.childOfKind? .refToken).or _ with _ | place
  · exact hn.startsAt
  · rcases Option.or_eq_some_iff.mp hplace with href | ⟨-, hrest⟩
    · exact hn.startsAt_child (mem_children_of_childOfKind? href)
    rcases Option.or_eq_some_iff.mp hrest with hpartial | ⟨-, hkeyword⟩
    · exact hn.startsAt_child (List.mem_of_find?_eq_some hpartial)
    · exact hn.startsAt_child (List.mem_of_find?_eq_some hkeyword)

end Node

namespace StructDecl

/-! ## Places in a struct -/

/-- Every place for `readonly` in the declaration has the property: that of the struct, those of the
members and those of the properties and indexers. -/
structure MarkedAt (p : Nat → Prop) (d : StructDecl) : Prop where
  struct : p d.fixOffset
  member : ∀ m ∈ d.members, p m.fixOffset
  group : ∀ g ∈ d.groups, p g.fixOffset

namespace MarkedAt

variable {p : Nat → Prop} {d : StructDecl}

theorem pushMember (h : d.MarkedAt p) {m : Member} (hm : p m.fixOffset) :
    (d.pushMember m).MarkedAt p := by
  refine ⟨?_, ?_, ?_⟩
  · have hsame : (d.pushMember m).fixOffset = d.fixOffset := by
      unfold StructDecl.pushMember addSymbol
      dsimp only
      split <;> rfl
    rw [hsame]
    exact h.struct
  · intro x hx
    rcases Array.mem_push.mp hx with hx | rfl
    · exact h.member x hx
    · exact hm
  · rw [groups_pushMember]
    exact h.group

theorem pushGroup (h : d.MarkedAt p) {g : PropertyGroup} (hg : p g.fixOffset) :
    (d.pushGroup g).MarkedAt p := by
  refine ⟨?_, ?_, ?_⟩
  · have hsame : (d.pushGroup g).fixOffset = d.fixOffset := by
      unfold StructDecl.pushGroup addSymbol
      dsimp only
      split <;> rfl
    rw [hsame]
    exact h.struct
  · rw [members_pushGroup]
    exact h.member
  · intro x hx
    rcases Array.mem_push.mp hx with hx | rfl
    · exact h.group x hx
    · exact hg

theorem foldl {α : Type} {f : StructDecl → α → StructDecl} {l : List α} (h : d.MarkedAt p)
    (hstep : ∀ a ∈ l, ∀ d : StructDecl, d.MarkedAt p → (f d a).MarkedAt p) :
    (l.foldl f d).MarkedAt p :=
  List.foldlRecOn l f h fun d hd a ha => hstep a ha d hd

theorem addAccessors (h : d.MarkedAt p) {g : PropertyGroup} (hg : p g.fixOffset)
    (parameters : List Parameter) (returns : ReturnMode) {specs : List AccessorSpec}
    (hspecs : ∀ s ∈ specs, p s.fixOffset) :
    (d.addAccessors g parameters returns specs).MarkedAt p := by
  unfold StructDecl.addAccessors
  have hgroup := h.pushGroup (g := d.filledGroup g specs) hg
  exact hgroup.foldl fun s hs d hd => hd.pushMember (hspecs s hs)

end MarkedAt

/-! ## Reading -/

section Reading

variable {root n : Node} (hn : n.Within root) {d : StructDecl} (hd : d.MarkedAt root.StartsAt)
include hn hd

theorem markedAt_addGroup (kind : GroupKind) : (d.addGroup n kind).MarkedAt root.StartsAt := by
  have hplace : root.StartsAt (memberFixOffset n (n.child? .type)) :=
    Node.startsAt_memberFixOffset hn fun t ht => Node.mem_children_of_child? ht
  rw [addGroup_eq]
  dsimp only
  split
  · refine hd.addAccessors hplace _ _ fun s hs => ?_
    rw [List.mem_singleton.mp hs]
    exact hplace
  · rename_i list _ hlist
    refine hd.addAccessors hplace _ _ fun s hs => ?_
    obtain ⟨accessor, haccessor, hspec⟩ := List.mem_filterMap.mp hs
    obtain ⟨keyword, hkeyword, hspec⟩ := Option.bind_eq_some_iff.mp hspec
    obtain ⟨role, -, hspec⟩ := Option.bind_eq_some_iff.mp hspec
    cases hspec
    have hin := (Node.within_of_mem (Node.mem_children_of_namedOfKind haccessor)).trans
      ((Node.within_of_mem (Node.mem_children_of_child? hlist)).trans hn)
    exact hin.startsAt_child (Node.mem_children_of_child? hkeyword)
  · exact hd.addAccessors hplace _ _ (by simp)

theorem markedAt_addFields (types : TypeTable) (generics : Bindings TypeCategory)
    (isEvent : Bool) : (d.addFields types generics n isEvent).MarkedAt root.StartsAt := by
  unfold addFields
  split
  · exact ⟨hd.struct, hd.member, hd.group⟩
  · exact hd.foldl fun name _ d hd => hd.pushMember hn.startsAt

theorem markedAt_addMethod : (d.addMethod n).MarkedAt root.StartsAt :=
  hd.pushMember (Node.startsAt_memberFixOffset hn fun _ ht => Node.mem_children_of_child? ht)

theorem markedAt_addOperator : (d.addOperator n).MarkedAt root.StartsAt :=
  hd.pushMember (Node.startsAt_memberFixOffset hn fun _ ht => Node.mem_children_of_child? ht)

omit hd in
theorem markedAt_addEventAccessor (modifiers : Modifiers) (interface : Option String)
    {start : StructDecl × CustomEvent} (hstart : start.1.MarkedAt root.StartsAt) :
    (addEventAccessor modifiers interface start n).1.MarkedAt root.StartsAt := by
  obtain ⟨d, event⟩ := start
  rw [addEventAccessor]
  split
  · exact hstart
  · rename_i keyword hkeyword
    split
    · exact hstart
    · exact hstart.pushMember (hn.startsAt_child (Node.mem_children_of_child? hkeyword))

theorem markedAt_addEvent : (d.addEvent n).MarkedAt root.StartsAt := by
  have haccessors : ∀ accessor ∈ listedAccessors n, accessor.Within root := by
    intro accessor haccessor
    unfold listedAccessors at haccessor
    split at haccessor
    · rename_i list hlist
      exact (Node.within_of_mem (Node.mem_children_of_namedOfKind haccessor)).trans
        ((Node.within_of_mem (Node.mem_children_of_child? hlist)).trans hn)
    · cases haccessor
  rw [addEvent_eq]
  split
  · exact ⟨hd.struct, hd.member, hd.group⟩
  · dsimp only
    rename_i name _
    -- the fold carries the event along with the declaration
    have hmarked := List.foldlRecOn (motive := fun start => start.1.MarkedAt root.StartsAt)
      (listedAccessors n) (addEventAccessor (.ofNode n) (explicitInterface? n))
      (b := (d, { name := name.text, isStatic := (Modifiers.ofNode n).isStatic })) hd
      fun _ hstart accessor haccessor =>
        markedAt_addEventAccessor (haccessors accessor haccessor) _ _ hstart
    split
    · exact ⟨hmarked.struct, hmarked.member, hmarked.group⟩
    · exact hmarked

theorem markedAt_addMember (types : TypeTable) (generics : Bindings TypeCategory) :
    (d.addMember types generics n).MarkedAt root.StartsAt := by
  have herror : { d with hasBodyErrors := true }.MarkedAt root.StartsAt :=
    ⟨hd.struct, hd.member, hd.group⟩
  unfold addMember
  split
  · exact markedAt_addFields hn hd types generics false
  · exact markedAt_addFields hn hd types generics true
  · exact markedAt_addEvent hn hd
  · exact markedAt_addMethod hn hd
  · exact markedAt_addOperator hn hd
  · exact markedAt_addOperator hn hd
  · exact markedAt_addGroup hn hd .property
  · exact markedAt_addGroup hn hd .indexer
  · exact herror
  · split
    · exact herror
    · exact hd

end Reading

theorem within_of_mem_primaryParameters {list root : Node} (hlist : list.Within root)
    {param : Node × Node} (hparam : param ∈ primaryParameters list) : param.1.Within root := by
  obtain ⟨node, hnode, hname⟩ := List.mem_filterMap.mp hparam
  obtain ⟨name, -, rfl⟩ := Option.map_eq_some_iff.mp hname
  exact (Node.within_of_mem (Node.mem_children_of_namedOfKind hnode)).trans hlist

theorem markedAt_withConstructor {root n : Node} (hn : n.Within root) (types : TypeTable)
    (generics : Bindings TypeCategory) :
    (withConstructor types generics n).MarkedAt root.StartsAt := by
  have hheader : (header n).MarkedAt root.StartsAt :=
    ⟨Node.startsAt_structFixOffset hn, by simp [header], by simp [header]⟩
  unfold withConstructor
  split
  · rename_i list hlist
    have hin := (Node.within_of_mem (Node.mem_children_of_childOfKind? hlist)).trans hn
    split
    · refine hheader.foldl fun param hparam d hd => ?_
      have hplace := (within_of_mem_primaryParameters hin hparam).startsAt
      exact hd.addAccessors hplace _ _ (by simp [hplace])
    · exact hheader.foldl fun param hparam d hd =>
        hd.pushMember (within_of_mem_primaryParameters hin hparam).startsAt
  · exact hheader

/-- In a struct of a file, every place for `readonly` is the start of a node of the file. -/
theorem markedAt_ofTree {root : Node} {d : StructDecl} (hd : d ∈ ofTree root) :
    d.MarkedAt root.StartsAt := by
  obtain ⟨n, hn, rfl⟩ := List.mem_map.mp hd
  have hin : n.Within root := Node.within_of_mem_reach (List.mem_filter.mp hn).1
  have hstart := markedAt_withConstructor hin (TypeTable.ofTree root) (genericCategories n)
  rw [ofNode_eq]
  split
  · rename_i body hbody
    refine hstart.foldl fun c hc d hd => ?_
    obtain ⟨parent, hparent, hmem⟩ := Node.exists_parent_of_mem_memberNodes hc
    have hc := (Node.within_of_mem hmem).trans (hparent.trans
      ((Node.within_of_mem (Node.mem_children_of_child? hbody)).trans hin))
    exact markedAt_addMember hc hd _ _
  · exact hstart

theorem fixOffset_of_memberSuggestion? {m : Member} {s : Suggestion}
    (h : memberSuggestion? m = some s) : s.fixOffset = m.fixOffset := by
  unfold memberSuggestion? at h
  split at h
  · cases h
    rfl
  · cases h

/-- A suggestion has the place of the struct, of a member or of a property or indexer. -/
theorem MarkedAt.of_mem_suggestions {p : Nat → Prop} {d : StructDecl} (h : d.MarkedAt p)
    {r : Resolution} {options : SuggestionOptions} {s : Suggestion}
    (hs : s ∈ d.suggestions r options) : p s.fixOffset := by
  have hmember : ∀ m ∈ d.members, memberSuggestion? m = some s → p s.fixOffset := by
    intro m hm hsome
    rw [fixOffset_of_memberSuggestion? hsome]
    exact h.member m hm
  rcases mem_suggestions.mp hs with ⟨-, rfl⟩ | ⟨-, -, ⟨m, hm, -, -, hsome⟩ | ⟨g, hg, hs⟩⟩
  · exact h.struct
  · exact hmember m hm hsome
  · unfold groupSuggestions at hs
    dsimp only at hs
    split at hs
    · cases hs
    split at hs
    · rw [List.mem_singleton.mp hs]
      exact h.group g hg
    · obtain ⟨m, hm, hsome⟩ := List.mem_filterMap.mp hs
      obtain ⟨id, -, hid⟩ := List.mem_filterMap.mp (List.mem_filter.mp hm).1
      exact hmember m (Array.mem_of_getElem? hid) hsome

end StructDecl

/-! ## Fixing a source -/

/-- Every edit that a report asks for is at the start of a node. -/
theorem FileReport.startsAt_of_mem_edits {options : AnalysisOptions} {path : String} {root : Node}
    {e : Edit} (he : e ∈ (addFound options { path } (StructDecl.ofTree root)).edits) :
    root.StartsAt e.offset ∧ e.text = Suggestion.readonlyText := by
  obtain ⟨finding, hfinding, rfl⟩ := List.mem_map.mp he
  rw [findings_addFound, List.nil_append] at hfinding
  obtain ⟨d, hd, hfinding⟩ := List.mem_flatMap.mp hfinding
  obtain ⟨s, hs, rfl⟩ := List.mem_map.mp hfinding
  exact ⟨(StructDecl.markedAt_ofTree hd).of_mem_suggestions hs, rfl⟩

/-- The source with edits that insert something is another text. -/
theorem Edit.ne_of_applyAll {source text : String} {edits : List Edit}
    (h : applyAll source edits = .ok text) {e : Edit} (he : e ∈ edits)
    (hadds : 0 < e.text.utf8ByteSize) : text ≠ source := by
  rcases applyAll_cases source edits with ⟨-, hok⟩ | ⟨o, -, herror⟩
  · rw [hok] at h
    have hsize := utf8ByteSize_foldl_ordered edits source.toList
    rw [String.ofList_toList] at hsize
    have hsum := Finset.add_sum_erase edits.toFinset (fun e : Edit => e.text.utf8ByteSize)
      (List.mem_toFinset.mpr he)
    cases h
    intro heq
    rw [heq] at hsize
    omega
  · rw [herror] at h
    cases h

/-- The fixes of a report on a file whose nodes start at characters can be applied, and change the
file if there are any. -/
theorem FileReport.fix_addFound {root : Node} {source : String}
    (hplaced : ∀ offset, root.StartsAt offset → isBoundary offset source.toList = true)
    (options : AnalysisOptions) (path : String) :
    ∃ text, (addFound options { path } (StructDecl.ofTree root)).fix source = .ok text ∧
      ((addFound options { path } (StructDecl.ofTree root)).findings ≠ [] → text ≠ source) := by
  -- An offset without a place would be the start of a node, and all of these have one.
  rcases Edit.applyAll_cases source (addFound options { path } (StructDecl.ofTree root)).edits with
    ⟨-, hok⟩ | ⟨o, hgreatest, -⟩
  · refine ⟨_, hok, fun hfindings => ?_⟩
    obtain ⟨finding, rest, hcons⟩ := List.exists_cons_of_ne_nil hfindings
    have he : finding.fix ∈ (addFound options { path } (StructDecl.ofTree root)).edits := by
      rw [edits, hcons]
      exact List.mem_cons_self
    refine Edit.ne_of_applyAll hok he ?_
    rw [(startsAt_of_mem_edits he).2]
    decide
  · obtain ⟨⟨e, he, rfl⟩, hinvalid⟩ := hgreatest.1
    rw [hplaced e.offset (startsAt_of_mem_edits he).1] at hinvalid
    cases hinvalid

end ReadonlyLint
