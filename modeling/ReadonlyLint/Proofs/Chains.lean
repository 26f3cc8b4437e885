import ReadonlyLint.Proofs.Verdicts

/-!
The chains that explain verdicts. The queue of the propagation goes through the members level by
level, where the level of a member counts the calls from it to a member that mutates by itself
(`Propagation.Layered`). A cause leads one level down. So the chain of causes ends at a member that
mutates by itself, comes to no member twice, and no chain of calls to such a member is shorter.
-/
namespace ReadonlyLint

namespace Propagation

/-! ## What a turn does -/

def cause (p : Propagation) (member : Nat) : Option Cause := (p.marks[member]?.getD {}).cause

theorem cause_mark (p : Propagation) (cause : Cause) {m : Nat} (hm : m < p.marks.size)
    (hv : p.verdict m ≠ .mutating) (x : Nat) :
    (p.mark cause m).cause x = if x = m then some cause else p.cause x := by
  unfold mark
  rw [if_neg hv]
  by_cases hx : x = m
  · simp [Propagation.cause, hx, hm]
  · have hne : m ≠ x := fun h => hx h.symm
    simp [Propagation.cause, hx, hne]

/-- From the first state to the second, the new members are marked with the cause and go to the end
of the queue. -/
structure Adds (cause : Cause) (new : List Nat) (p p' : Propagation) : Prop where
  taken : p'.taken = p.taken
  queue : p'.queue = p.queue ++ new
  cause_of_mem : ∀ x ∈ new, p'.cause x = some cause
  cause_of_not_mem : ∀ x, x ∉ new → p'.cause x = p.cause x

/-- Marks of several members add those that were not marked before. -/
theorem adds_marks {count : Nat} (cause : Cause) (ms : List Nat) (hms : ∀ m ∈ ms, m < count)
    {p : Propagation} (h : Listed count p) :
    ∃ new, Adds cause new p (ms.foldl (mark · cause) p) ∧
      ∀ x, x ∈ new ↔ x ∈ ms ∧ p.verdict x ≠ .mutating := by
  induction ms generalizing p with
  | nil => exact ⟨[], ⟨rfl, by simp, by simp, fun _ _ => rfl⟩, by simp⟩
  | cons m ms ih =>
    have hm : m < count := hms m (by simp)
    have hlt : m < p.marks.size := by rw [h.size]; exact hm
    obtain ⟨new, hadds, hnew⟩ := ih (fun y hy => hms y (by simp [hy])) (listed_mark h cause hm)
    rw [List.foldl_cons]
    by_cases hv : p.verdict m = .mutating
    · have hsame : p.mark cause m = p := by simp [mark, hv]
      rw [hsame] at hadds hnew ⊢
      refine ⟨new, hadds, fun x => ?_⟩
      rw [hnew, List.mem_cons]
      constructor
      · rintro ⟨hx, hxv⟩
        exact ⟨Or.inr hx, hxv⟩
      · rintro ⟨rfl | hx, hxv⟩
        · exact absurd hv hxv
        · exact ⟨hx, hxv⟩
    · have hqueue : (p.mark cause m).queue = p.queue ++ [m] := by simp [mark, hv]
      have hcause := cause_mark p cause hlt hv
      refine ⟨m :: new, ⟨?_, ?_, ?_, ?_⟩, fun x => ?_⟩
      · rw [hadds.taken, taken_mark]
      · rw [hadds.queue, hqueue, List.append_assoc, List.singleton_append]
      · intro x hx
        by_cases hin : x ∈ new
        · exact hadds.cause_of_mem x hin
        · rw [hadds.cause_of_not_mem x hin, hcause, if_pos]
          exact (List.mem_cons.mp hx).resolve_right hin
      · intro x hx
        rw [List.mem_cons, not_or] at hx
        rw [hadds.cause_of_not_mem x hx.2, hcause, if_neg hx.1]
      · rw [List.mem_cons, List.mem_cons, hnew, verdict_mark p cause m x hlt]
        by_cases hx : x = m
        · simp [hx, hv]
        · simp [hx]

/-- A turn takes the first of the queue and adds its callers that were not marked before. -/
theorem adds_turn {g : CallGraph} {direct : List Bool} {p : Propagation} (hg : g.InRange)
    (hgood : Good g direct p) {callee : Nat} {rest : List Nat} (hq : p.queue = callee :: rest) :
    ∃ new, Adds (.calls callee) new { p with queue := rest, taken := p.taken ++ [callee] }
        (p.turn g) ∧
      ∀ x, x ∈ new ↔ g.Calls x callee ∧ x ∉ p.taken ++ p.queue := by
  let q : Propagation := { p with queue := rest, taken := p.taken ++ [callee] }
  have hturn : p.turn g = (g.callers callee).foldl (mark · (.calls callee)) q := by
    simp [turn, hq, q]
  have hlist : q.taken ++ q.queue = p.taken ++ p.queue := by simp [q, hq]
  have hlisted : Listed g.memberCount q :=
    ⟨hgood.listed.size, hlist ▸ hgood.listed.marked_iff, hlist ▸ hgood.listed.nodup,
      hgood.listed.unknown⟩
  have hcalls : ∀ m, m ∈ g.callers callee ↔ g.Calls m callee := fun _ =>
    hgood.listed.mem_callers_iff (by simp [hq])
  obtain ⟨new, hadds, hnew⟩ := adds_marks (.calls callee) (g.callers callee)
    (fun m hm => (hg m callee ((hcalls m).mp hm)).1) hlisted
  refine ⟨new, hturn ▸ hadds, fun x => ?_⟩
  rw [hnew, hcalls, Ne, hlisted.marked_iff, hlist]

/-! ## The levels -/

/-- What holds of causes and levels between two turns. The queue goes up by levels and spans at most
two of them. -/
structure Layered (g : CallGraph) (direct : List Bool) (level : Nat → Nat) (p : Propagation) :
    Prop where
  caused : ∀ m, (p.cause m).isSome ↔ m ∈ p.taken ++ p.queue
  seeded : ∀ m < g.memberCount, direct[m]? = some true → p.cause m = some .direct
  direct : ∀ m, p.cause m = some .direct →
    (m < g.memberCount ∧ direct[m]? = some true) ∧ level m = 0
  calls : ∀ m callee, p.cause m = some (.calls callee) →
    callee ∈ p.taken ∧ g.Calls m callee ∧ level m = level callee + 1
  ordered : (p.taken ++ p.queue).Pairwise fun a b => level a ≤ level b
  narrow : ∀ first ∈ p.queue.head?, ∀ m ∈ p.queue, level m ≤ level first + 1
  /-- A caller of a member that had its turn is at most one level above it. -/
  closed : ∀ callee ∈ p.taken, ∀ caller, g.Calls caller callee → level caller ≤ level callee + 1

/-- At the start every marked member mutates by itself, and its level is zero. -/
theorem layered_start (g : CallGraph) (direct : List Bool) :
    Layered g direct (fun _ => 0) (start g.memberCount direct) := by
  let blank : Propagation := ⟨Array.replicate g.memberCount {}, [], []⟩
  have hblank : ∀ x, blank.cause x = none := by
    intro x
    unfold cause
    rw [Array.getElem?_replicate]
    split <;> rfl
  have hlisted : Listed g.memberCount blank := listed_blank g.memberCount
  obtain ⟨new, hadds, hnew⟩ : ∃ new, Adds .direct new blank (start g.memberCount direct) ∧ _ :=
    adds_marks .direct _ (fun m hm => (mem_directMembers.mp hm).1) hlisted
  have hnew : ∀ x, x ∈ new ↔ x < g.memberCount ∧ direct[x]? = some true := by
    intro x
    rw [hnew, mem_directMembers, Ne, hlisted.marked_iff]
    exact and_iff_left (by simp [blank])
  have hnone : ∀ x, x ∉ new → (start g.memberCount direct).cause x = none := fun x hx =>
    (hadds.cause_of_not_mem x hx).trans (hblank x)
  have hlist : (start g.memberCount direct).taken ++ (start g.memberCount direct).queue = new := by
    rw [hadds.taken, hadds.queue]
    rfl
  refine ⟨fun m => ?_, fun m hm hd => ?_, fun m hm => ?_, fun m callee hm => ?_, ?_, ?_, ?_⟩
  · rw [hlist]
    by_cases hin : m ∈ new
    · simp [hin, hadds.cause_of_mem m hin]
    · simp [hin, hnone m hin]
  · exact hadds.cause_of_mem m ((hnew m).mpr ⟨hm, hd⟩)
  · by_cases hin : m ∈ new
    · exact ⟨(hnew m).mp hin, rfl⟩
    · rw [hnone m hin] at hm
      cases hm
  · by_cases hin : m ∈ new
    · rw [hadds.cause_of_mem m hin] at hm
      cases hm
    · rw [hnone m hin] at hm
      cases hm
  · exact List.pairwise_of_forall fun _ _ => Nat.le_refl 0
  · exact fun _ _ _ _ => Nat.zero_le _
  · exact fun _ _ _ _ => Nat.zero_le _

/-- The levels after a turn: the new members are one level above the callee whose turn it was. -/
def raise (level : Nat → Nat) (callee : Nat) (new : List Nat) (m : Nat) : Nat :=
  if m ∈ new then level callee + 1 else level m

section Turn

variable {g : CallGraph} {direct : List Bool} {level : Nat → Nat} {p : Propagation}
  (h : Layered g direct level p) {callee : Nat} {rest new : List Nat}
  (hq : p.queue = callee :: rest) (hapart : ∀ x ∈ new, x ∉ p.taken ++ p.queue)

include hapart in
/-- Members that were marked keep their level. -/
theorem raise_of_marked {x : Nat} (hx : x ∈ p.taken ++ p.queue) :
    raise level callee new x = level x :=
  if_neg fun hin => hapart x hin hx

include h hq in
/-- The callee whose turn it is has the lowest level that waits, and nothing marked is more than one
level above it. -/
theorem level_le_callee {x : Nat} (hx : x ∈ p.taken ++ p.queue) : level x ≤ level callee + 1 := by
  have hordered := h.ordered
  rw [hq, List.pairwise_append] at hordered
  rcases List.mem_append.mp hx with hx | hx
  · have := hordered.2.2 x hx callee List.mem_cons_self
    omega
  · exact h.narrow callee (by simp [hq]) x hx

include h hq in
theorem raise_le_callee {x : Nat} (hx : x ∈ p.taken ++ p.queue ∨ x ∈ new) :
    raise level callee new x ≤ level callee + 1 := by
  unfold raise
  split
  · exact Nat.le_refl _
  · exact level_le_callee h hq (hx.resolve_right ‹_›)

include h hq hapart in
theorem pairwise_raise : (p.taken ++ p.queue ++ new).Pairwise fun a b =>
    raise level callee new a ≤ raise level callee new b := by
  rw [List.pairwise_append]
  refine ⟨?_, ?_, ?_⟩
  · refine h.ordered.imp_of_mem fun ha hb hab => ?_
    rw [raise_of_marked hapart ha, raise_of_marked hapart hb]
    exact hab
  · refine List.pairwise_of_forall_mem_list fun a ha b hb => ?_
    simp [raise, ha, hb]
  · intro a ha b hb
    rw [raise_of_marked hapart ha, raise, if_pos hb]
    exact level_le_callee h hq ha

include h hq in
theorem raise_le_of_head {first : Nat} (hfirst : first ∈ rest ++ new) :
    level callee ≤ raise level callee new first := by
  have hordered := h.ordered
  rw [hq, List.pairwise_append, List.pairwise_cons] at hordered
  unfold raise
  split
  · omega
  · exact hordered.2.1.1 first ((List.mem_append.mp hfirst).resolve_right ‹_›)

end Turn

/-- A turn keeps the order of the levels: what it adds is the highest level that then waits. -/
theorem layered_turn {g : CallGraph} {direct : List Bool} {level : Nat → Nat} {p : Propagation}
    (hg : g.InRange) (hgood : Good g direct p) (h : Layered g direct level p) :
    ∃ level, Layered g direct level (p.turn g) := by
  rcases hq : p.queue with _ | ⟨callee, rest⟩
  · rw [turn_of_queue_nil g hq]
    exact ⟨level, h⟩
  obtain ⟨new, hadds, hnew⟩ := adds_turn hg hgood hq
  have hapart : ∀ x ∈ new, x ∉ p.taken ++ p.queue := fun x hx => ((hnew x).mp hx).2
  have htaken : (p.turn g).taken = p.taken ++ [callee] := hadds.taken
  have hqueue : (p.turn g).queue = rest ++ new := hadds.queue
  have hlist : (p.turn g).taken ++ (p.turn g).queue = p.taken ++ p.queue ++ new := by
    simp [htaken, hqueue, hq]
  have hold : ∀ x, x ∉ new → (p.turn g).cause x = p.cause x := hadds.cause_of_not_mem
  have hcallee : raise level callee new callee = level callee :=
    raise_of_marked hapart (by simp [hq])
  refine ⟨raise level callee new, fun m => ?_, fun m hm hd => ?_, fun m hm => ?_,
    fun m c hm => ?_, ?_, fun first hfirst m hm => ?_, fun c hc caller hcall => ?_⟩
  · rw [hlist, List.mem_append]
    by_cases hin : m ∈ new
    · simp [hin, hadds.cause_of_mem m hin]
    · rw [hold m hin, h.caused]
      simp [hin]
  · rw [hold m fun hin => hapart m hin ?_, h.seeded m hm hd]
    rw [← hgood.listed.marked_iff]
    exact hgood.seeded m hm hd
  · by_cases hin : m ∈ new
    · rw [hadds.cause_of_mem m hin] at hm
      cases hm
    · rw [hold m hin] at hm
      exact (h.direct m hm).imp_right fun hzero => (if_neg hin).trans hzero
  · rw [htaken]
    by_cases hin : m ∈ new
    · rw [hadds.cause_of_mem m hin] at hm
      cases hm
      refine ⟨by simp, ((hnew m).mp hin).1, ?_⟩
      rw [hcallee]
      exact if_pos hin
    · rw [hold m hin] at hm
      obtain ⟨hc, hcall, hone⟩ := h.calls m c hm
      refine ⟨List.mem_append_left _ hc, hcall, ?_⟩
      rw [raise_of_marked hapart (List.mem_append_left _ hc), ← hone]
      exact if_neg hin
  · rw [hlist]
    exact pairwise_raise h hq hapart
  · rw [hqueue] at hfirst hm
    have hlow := raise_le_of_head h hq (List.mem_of_mem_head? hfirst)
    have hhigh : raise level callee new m ≤ level callee + 1 := by
      refine raise_le_callee h hq ((List.mem_append.mp hm).imp_left fun hm => ?_)
      simp [hq, hm]
    omega
  · have hmarked := (good_turn hg hgood).closed c hc caller hcall
    rw [(good_turn hg hgood).listed.marked_iff, hlist, List.mem_append] at hmarked
    rw [htaken] at hc
    rcases List.mem_append.mp hc with hc | hc
    · have hcaller : caller ∈ p.taken ++ p.queue := by
        rw [← hgood.listed.marked_iff]
        exact hgood.closed c hc caller hcall
      rw [raise_of_marked hapart hcaller, raise_of_marked hapart (List.mem_append_left _ hc)]
      exact h.closed c hc caller hcall
    · rw [List.mem_singleton] at hc
      rw [hc, hcallee]
      exact raise_le_callee h hq hmarked

theorem layered_turns {g : CallGraph} {direct : List Bool} (hg : g.InRange) (n : Nat)
    {level : Nat → Nat} {p : Propagation} (hgood : Good g direct p)
    (h : Layered g direct level p) : ∃ level, Layered g direct level (p.turns g n) := by
  induction n generalizing p level with
  | zero => exact ⟨level, h⟩
  | succ n ih =>
    obtain ⟨level', h'⟩ := layered_turn hg hgood h
    exact ih (good_turn hg hgood) h'

theorem layered_run {g : CallGraph} (hg : g.InRange) (direct : List Bool) :
    ∃ level, Layered g direct level (run g direct) :=
  layered_turns hg _ (good_start g direct) (layered_start g direct)

end Propagation

/-! ## Chains of causes -/

/-- A path of calls from a member to one that mutates by itself. -/
structure CallGraph.IsPathToMutation (g : CallGraph) (direct : List Bool) (m : Nat)
    (path : List Nat) : Prop where
  starts : path.head? = some m
  calls : path.IsChain g.Calls
  ends : ∃ d ∈ path.getLast?, d < g.memberCount ∧ direct[d]? = some true

/-- No path of calls from the member to one that mutates by itself is shorter. -/
structure CallGraph.IsShortestPath (g : CallGraph) (direct : List Bool) (m : Nat)
    (path : List Nat) : Prop extends g.IsPathToMutation direct m path where
  shortest : ∀ other, g.IsPathToMutation direct m other → path.length ≤ other.length

namespace Resolution

/-- The causes lead from the member along the chain to its last member, which mutates by itself. -/
inductive Traces (r : Resolution) : Nat → List Nat → Prop where
  | direct {m : Nat} : r.cause m = some .direct → Traces r m [m]
  | calls {m callee : Nat} {chain : List Nat} : r.cause m = some (.calls callee) →
      Traces r callee chain → Traces r m (m :: chain)

theorem Traces.head? {r : Resolution} {m : Nat} {chain : List Nat} (h : r.Traces m chain) :
    chain.head? = some m := by
  cases h with
  | direct _ => rfl
  | calls _ _ => rfl

theorem Traces.caused {r : Resolution} {m : Nat} {chain : List Nat} (h : r.Traces m chain) :
    ∀ x ∈ chain, (r.cause x).isSome := by
  induction h with
  | direct hm => simp [hm]
  | calls hm _ ih =>
    intro x hx
    rcases List.mem_cons.mp hx with rfl | hx
    · simp [hm]
    · exact ih x hx

/-- A chain of causes that comes to no member twice is followed to its end. -/
theorem follow_of_traces {r : Resolution} {m : Nat} {chain : List Nat} (h : r.Traces m chain)
    {n : Nat} (hn : chain.length ≤ n + 1) {older : List Nat} (hnodup : (chain ++ older).Nodup) :
    r.follow n m (m :: older) = chain.reverse ++ older := by
  induction h generalizing n older with
  | @direct m hm =>
    cases n with
    | zero => rfl
    | succ n => simp [follow, hm]
  | @calls m callee chain hm htail ih =>
    have hcallee : callee ∈ chain := List.mem_of_mem_head? htail.head?
    have hlength := List.length_pos_of_mem hcallee
    obtain ⟨k, rfl⟩ : ∃ k, n = k + 1 := ⟨n - 1, by rw [List.length_cons] at hn; omega⟩
    have hperm : (m :: chain ++ older).Perm (chain ++ m :: older) := List.perm_middle.symm
    have hnodup := hperm.nodup hnodup
    -- the guard lets the callee pass, for it is in the part of the chain that is still to come
    have hnew : callee ∉ m :: older := by
      intro hin
      exact (List.nodup_append.mp hnodup).2.2 _ hcallee _ hin rfl
    have hlength : chain.length ≤ k + 1 := by rw [List.length_cons] at hn; omega
    simp only [follow, hm, List.contains_eq_mem, hnew, decide_false, Bool.false_eq_true, if_false]
    rw [ih hlength hnodup, List.reverse_cons, List.append_assoc, List.singleton_append]

theorem explain_of_traces {r : Resolution} {m : Nat} {chain : List Nat} (h : r.Traces m chain)
    (hnodup : chain.Nodup) (hlength : chain.length ≤ r.marks.size) : r.explain m = chain := by
  unfold explain
  rw [follow_of_traces h (by omega) (by simpa using hnodup), List.append_nil, List.reverse_reverse]

theorem explain_of_cause_none {r : Resolution} {m : Nat} (h : r.cause m = none) :
    r.explain m = [m] := by
  unfold explain
  cases r.marks.size with
  | zero => rfl
  | succ n => simp [follow, h]

theorem cause_ofPropagation (p : Propagation) (m : Nat) :
    (ofPropagation p).cause m = p.cause m := by
  unfold cause ofPropagation Propagation.cause
  rw [Array.getElem?_map]
  rcases p.marks[m]? with _ | mark
  · rfl
  · simp only [Option.map_some, Option.getD_some, settle]
    split <;> rfl

theorem verdict_ofPropagation_eq_mutating_iff (p : Propagation) (m : Nat) :
    (ofPropagation p).verdict m = .mutating ↔ p.verdict m = .mutating := by
  unfold verdict ofPropagation Propagation.verdict
  rw [Array.getElem?_map]
  rcases p.marks[m]? with _ | mark
  · rfl
  · simp only [Option.map_some, Option.getD_some, settle]
    split <;> simp_all

end Resolution

/-! ## The levels of a chain -/

namespace Propagation.Layered

variable {g : CallGraph} {direct : List Bool} {level : Nat → Nat} {p : Propagation}
  (h : Layered g direct level p)
include h

/-- A chain of causes goes down by one level at a time, to the level zero. -/
theorem level_of_traces {m : Nat} {chain : List Nat}
    (ht : (Resolution.ofPropagation p).Traces m chain) :
    chain.length = level m + 1 ∧ ∀ x ∈ chain, level x ≤ level m := by
  induction ht with
  | @direct m hm =>
    rw [Resolution.cause_ofPropagation] at hm
    simp [(h.direct m hm).2]
  | @calls m callee chain hm _ ih =>
    rw [Resolution.cause_ofPropagation] at hm
    obtain ⟨-, -, hone⟩ := h.calls m callee hm
    refine ⟨by rw [List.length_cons, ih.1, hone], fun x hx => ?_⟩
    rcases List.mem_cons.mp hx with rfl | hx
    · exact Nat.le_refl _
    · have := ih.2 x hx
      omega

theorem nodup_of_traces {m : Nat} {chain : List Nat}
    (ht : (Resolution.ofPropagation p).Traces m chain) : chain.Nodup := by
  induction ht with
  | direct hm => simp
  | @calls m callee chain hm htail ih =>
    rw [Resolution.cause_ofPropagation] at hm
    obtain ⟨-, -, hone⟩ := h.calls m callee hm
    refine List.nodup_cons.mpr ⟨fun hin => ?_, ih⟩
    have := (h.level_of_traces htail).2 m hin
    omega

theorem isPath_of_traces {m : Nat} {chain : List Nat}
    (ht : (Resolution.ofPropagation p).Traces m chain) : g.IsPathToMutation direct m chain := by
  induction ht with
  | @direct m hm =>
    rw [Resolution.cause_ofPropagation] at hm
    exact ⟨rfl, .singleton m, m, rfl, (h.direct m hm).1⟩
  | @calls m callee chain hm htail ih =>
    rw [Resolution.cause_ofPropagation] at hm
    obtain ⟨-, hcall, -⟩ := h.calls m callee hm
    obtain ⟨rest, rfl⟩ := List.head?_eq_some_iff.mp htail.head?
    obtain ⟨d, hd, hdirect⟩ := ih.ends
    exact ⟨rfl, .cons_cons hcall ih.calls, d, by rw [List.getLast?_cons, hd]; rfl, hdirect⟩

theorem exists_traces {m : Nat} (hm : (p.cause m).isSome) :
    ∃ chain, (Resolution.ofPropagation p).Traces m chain := by
  induction hlevel : level m generalizing m with
  | zero =>
    obtain ⟨cause, hcause⟩ := Option.isSome_iff_exists.mp hm
    cases cause with
    | direct => exact ⟨[m], .direct (by rw [Resolution.cause_ofPropagation, hcause])⟩
    | calls callee =>
      have := (h.calls m callee hcause).2.2
      omega
  | succ n ih =>
    obtain ⟨cause, hcause⟩ := Option.isSome_iff_exists.mp hm
    cases cause with
    | direct =>
      have := (h.direct m hcause).2
      omega
    | calls callee =>
      obtain ⟨hcallee, -, hone⟩ := h.calls m callee hcause
      have hmarked := (h.caused callee).mpr (List.mem_append_left _ hcallee)
      obtain ⟨chain, hchain⟩ := ih hmarked (by omega)
      exact ⟨m :: chain, .calls (by rw [Resolution.cause_ofPropagation, hcause]) hchain⟩

/-- When nothing waits, no path is shorter than the level of its start. -/
theorem level_lt_of_isPath (hgood : Good g direct p) (hq : p.queue = []) {path : List Nat} :
    ∀ {m : Nat}, g.IsPathToMutation direct m path → m ∈ p.taken ∧ level m < path.length := by
  have htaken : ∀ m, p.verdict m = .mutating → m ∈ p.taken := by
    intro m hm
    rw [hgood.listed.marked_iff, hq, List.append_nil] at hm
    exact hm
  induction path with
  | nil => exact fun hpath => absurd hpath.starts (by simp)
  | cons a path ih =>
    intro m hpath
    obtain ⟨hstart, hcalls, d, hd, hlt, hdirect⟩ := hpath
    cases hstart
    rcases path with _ | ⟨b, path⟩
    · cases hd
      have hzero := (h.direct a (h.seeded a hlt hdirect)).2
      exact ⟨htaken a (hgood.seeded a hlt hdirect), by simp [hzero]⟩
    · obtain ⟨hcall, hcalls⟩ := List.isChain_cons_cons.mp hcalls
      obtain ⟨hb, hlevel⟩ := ih ⟨rfl, hcalls, d, by simpa using hd, hlt, hdirect⟩
      have hone := h.closed b hb a hcall
      refine ⟨htaken a (hgood.closed b hb a hcall), ?_⟩
      rw [List.length_cons]
      omega

end Propagation.Layered

/-! ## Explanations -/

namespace CallGraph

variable {g : CallGraph} (hg : g.InRange) (direct : List Bool)
include hg

/-- The members with a cause are the ones that mutate. -/
theorem cause_verdicts_isSome_iff (m : Nat) :
    ((g.verdicts direct).cause m).isSome ↔ (g.verdicts direct).verdict m = .mutating := by
  obtain ⟨level, h⟩ := Propagation.layered_run hg direct
  rw [verdicts, Resolution.cause_ofPropagation, h.caused,
    Resolution.verdict_ofPropagation_eq_mutating_iff,
    (Propagation.good_run hg direct).listed.marked_iff]

/-- A member mutates by itself just when it is its own cause. -/
theorem cause_verdicts_eq_direct_iff (m : Nat) :
    (g.verdicts direct).cause m = some .direct ↔
      m < g.memberCount ∧ direct[m]? = some true := by
  obtain ⟨level, h⟩ := Propagation.layered_run hg direct
  rw [verdicts, Resolution.cause_ofPropagation]
  exact ⟨fun hm => (h.direct m hm).1, fun hm => h.seeded m hm.1 hm.2⟩

/-- The explanation of a member that mutates is its whole chain of causes, and a shortest path. -/
theorem explain_of_mutating {m : Nat} (hm : (g.verdicts direct).verdict m = .mutating) :
    (g.verdicts direct).Traces m ((g.verdicts direct).explain m) ∧
      ((g.verdicts direct).explain m).Nodup ∧
      g.IsShortestPath direct m ((g.verdicts direct).explain m) := by
  obtain ⟨level, h⟩ := Propagation.layered_run hg direct
  have hgood := Propagation.good_run hg direct
  have hsome := (cause_verdicts_isSome_iff hg direct m).mpr hm
  rw [verdicts, Resolution.cause_ofPropagation] at hsome
  obtain ⟨chain, hchain⟩ := h.exists_traces hsome
  have hnodup := h.nodup_of_traces hchain
  -- the chain has no more members than there are, so that its end is reached
  have hsub : chain ⊆ List.range (g.verdicts direct).marks.size := by
    intro x hx
    have hx := (cause_verdicts_isSome_iff hg direct x).mp (hchain.caused x hx)
    exact List.mem_range.mpr (Resolution.lt_of_verdict_eq_mutating hx)
  have hlength : chain.length ≤ (g.verdicts direct).marks.size := by
    simpa using (hnodup.subperm hsub).length_le
  have hexplain : (g.verdicts direct).explain m = chain :=
    Resolution.explain_of_traces hchain hnodup hlength
  rw [hexplain]
  refine ⟨hchain, hnodup, h.isPath_of_traces hchain, fun other hother => ?_⟩
  have hlevel := (h.level_lt_of_isPath hgood (Propagation.queue_run hg direct) hother).2
  rw [(h.level_of_traces hchain).1]
  exact hlevel

end CallGraph

/-- A run that nothing stops explains every member. One that mutates is explained by its chain of
causes, never cut short: a shortest path of calls to a member that mutates by itself, through
members that mutate, none twice. One that does not mutate is explained by itself alone. -/
theorem an_explanation_is_a_shortest_path_to_a_mutation (count : Nat) (edges : List (Nat × Nat))
    (direct : List Bool) :
    ∃ r, (((CallGraph.ofCount count).addEdges edges).resolve direct).result? .never = some r ∧
      ∀ m < count,
        (r.verdict m = .mutating →
          ((CallGraph.ofCount count).addEdges edges).IsShortestPath direct m (r.explain m) ∧
          (r.explain m).Nodup ∧
          (∀ x ∈ r.explain m, r.verdict x = .mutating) ∧
          r.Traces m (r.explain m)) ∧
        (r.verdict m = .notMutating → r.cause m = none ∧ r.explain m = [m]) := by
  let g := (CallGraph.ofCount count).addEdges edges
  have hg : g.InRange := CallGraph.inRange_ofCount_addEdges count edges
  have hsome := CallGraph.cause_verdicts_isSome_iff hg direct
  refine ⟨g.verdicts direct, g.result?_resolve_never direct, ?_⟩
  intro m _
  refine ⟨fun hm => ?_, fun hm => ?_⟩
  · obtain ⟨htraces, hnodup, hshortest⟩ := CallGraph.explain_of_mutating hg direct hm
    exact ⟨hshortest, hnodup, fun x hx => (hsome x).mp (htraces.caused x hx), htraces⟩
  · have hnone : (g.verdicts direct).cause m = none := by
      rw [← Option.not_isSome_iff_eq_none, hsome, hm]
      decide
    exact ⟨hnone, Resolution.explain_of_cause_none hnone⟩

end ReadonlyLint
