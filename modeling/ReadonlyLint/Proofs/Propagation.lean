import Mathlib.Data.Fintype.Card
import Mathlib.Data.List.Nodup
import Mathlib.Logic.Relation
import ReadonlyLint.Proofs.Questions
import ReadonlyLint.Verdict

/-!
The laws of the propagation. The state keeps the invariant `Propagation.Listed` after every mark
and `Propagation.Good` after every turn. At the end nothing waits, so the marked members are
exactly those from which a chain of calls leads to a member that mutates by itself.
-/
namespace ReadonlyLint

/-! ## The edges of a graph -/

namespace CallGraph

/-- The caller uses the callee. -/
def Calls (g : CallGraph) (caller callee : Nat) : Prop := (caller, callee) ∈ g.edges

/-- Every edge is between members of the graph. -/
def InRange (g : CallGraph) : Prop :=
  ∀ a b, g.Calls a b → a < g.memberCount ∧ b < g.memberCount

@[simp] theorem memberCount_addEdges (g : CallGraph) (edges : List (Nat × Nat)) :
    (g.addEdges edges).memberCount = g.memberCount := by
  unfold addEdges
  induction edges generalizing g with
  | nil => rfl
  | cons e es ih => rw [List.foldl_cons, ih, memberCount_addEdge]

theorem mem_edges_addEdges {g : CallGraph} {edges : List (Nat × Nat)} {e : Nat × Nat} :
    e ∈ (g.addEdges edges).edges ↔
      e ∈ g.edges ∨ (e ∈ edges ∧ e.1 < g.memberCount ∧ e.2 < g.memberCount) := by
  unfold addEdges
  induction edges generalizing g with
  | nil => simp
  | cons x es ih =>
    rw [List.foldl_cons, ih, mem_edges_addEdge, memberCount_addEdge, List.mem_cons]
    constructor
    · rintro ((h | ⟨rfl, h1, h2⟩) | ⟨h, h1, h2⟩)
      · exact Or.inl h
      · exact Or.inr ⟨Or.inl rfl, h1, h2⟩
      · exact Or.inr ⟨Or.inr h, h1, h2⟩
    · rintro (h | ⟨rfl | h, h1, h2⟩)
      · exact Or.inl (Or.inl h)
      · exact Or.inl (Or.inr ⟨rfl, h1, h2⟩)
      · exact Or.inr ⟨h, h1, h2⟩

/-- The edges of a graph that was built by additions are the ones added between members of it. -/
theorem calls_ofCount_addEdges {count : Nat} {edges : List (Nat × Nat)} {a b : Nat} :
    ((ofCount count).addEdges edges).Calls a b ↔
      (a, b) ∈ edges ∧ a < count ∧ b < count := by
  unfold Calls
  rw [mem_edges_addEdges]
  simp [ofCount]

theorem inRange_ofCount_addEdges (count : Nat) (edges : List (Nat × Nat)) :
    ((ofCount count).addEdges edges).InRange := by
  intro a b h
  rw [memberCount_addEdges]
  exact (calls_ofCount_addEdges.mp h).2

/-- A chain of calls leads from the member to one that mutates by itself. -/
def ReachesDirect (g : CallGraph) (direct : List Bool) (m : Nat) : Prop :=
  ∃ d, Relation.ReflTransGen g.Calls m d ∧ d < g.memberCount ∧ direct[d]? = some true

end CallGraph

namespace Propagation

/-! ## A mark -/

/-- The marked members are the ones that wait and the ones that had their turn, each once. -/
structure Listed (count : Nat) (p : Propagation) : Prop where
  size : p.marks.size = count
  marked_iff : ∀ m, p.verdict m = .mutating ↔ m ∈ p.taken ++ p.queue
  nodup : (p.taken ++ p.queue).Nodup
  /-- Before the end a member is marked or nothing is known of it. -/
  unknown : ∀ m, p.verdict m ≠ .mutating → p.verdict m = .unknown

@[simp] theorem taken_mark (p : Propagation) (cause : Cause) (m : Nat) :
    (p.mark cause m).taken = p.taken := by
  unfold mark
  split <;> rfl

@[simp] theorem taken_marks (cause : Cause) (ms : List Nat) (p : Propagation) :
    (ms.foldl (mark · cause) p).taken = p.taken := by
  induction ms generalizing p with
  | nil => rfl
  | cons m ms ih => rw [List.foldl_cons, ih, taken_mark]

theorem verdict_mark (p : Propagation) (cause : Cause) (m x : Nat) (hm : m < p.marks.size) :
    (p.mark cause m).verdict x = if x = m then .mutating else p.verdict x := by
  by_cases hx : x = m
  · subst hx
    rw [if_pos rfl]
    unfold mark
    split
    · assumption
    · simp [verdict, hm]
  · rw [if_neg hx]
    unfold mark
    split
    · rfl
    · have hne : m ≠ x := fun h => hx h.symm
      simp [verdict, hne]

theorem listed_mark {count : Nat} {p : Propagation} (h : Listed count p) (cause : Cause) {m : Nat}
    (hm : m < count) : Listed count (p.mark cause m) := by
  by_cases hv : p.verdict m = .mutating
  · have hsame : p.mark cause m = p := by simp [mark, hv]
    rw [hsame]
    exact h
  · have hnot : m ∉ p.taken ++ p.queue := fun hin => hv ((h.marked_iff m).mpr hin)
    have hlt : m < p.marks.size := by rw [h.size]; exact hm
    have hqueue : (p.mark cause m).queue = p.queue ++ [m] := by simp [mark, hv]
    have hsize : (p.mark cause m).marks.size = count := by simp [mark, hv, h.size]
    refine ⟨hsize, ?_, ?_, ?_⟩
    · intro x
      rw [verdict_mark p cause m x hlt, taken_mark, hqueue, ← List.append_assoc,
        List.mem_append, ← h.marked_iff x]
      by_cases hx : x = m
      · simp [hx]
      · simp [hx]
    · rw [taken_mark, hqueue, ← List.append_assoc, List.nodup_append]
      refine ⟨h.nodup, by simp, ?_⟩
      intro x hx y hy
      rw [List.mem_singleton] at hy
      subst hy
      exact fun he => hnot (he ▸ hx)
    · intro x hx
      rw [verdict_mark p cause m x hlt] at hx ⊢
      split at hx
      · exact absurd rfl hx
      · rename_i hne
        rw [if_neg hne]
        exact h.unknown x hx

/-- Marks of several members keep the list, and mark exactly these members. -/
theorem listed_marks {count : Nat} (cause : Cause) (ms : List Nat) (hms : ∀ m ∈ ms, m < count)
    {p : Propagation} (h : Listed count p) :
    Listed count (ms.foldl (mark · cause) p) ∧
      ∀ x, (ms.foldl (mark · cause) p).verdict x = .mutating ↔
        p.verdict x = .mutating ∨ x ∈ ms := by
  induction ms generalizing p with
  | nil => simp [h]
  | cons m ms ih =>
    have hm : m < count := hms m (by simp)
    obtain ⟨hlisted, hmarked⟩ := ih (fun y hy => hms y (by simp [hy])) (listed_mark h cause hm)
    refine ⟨hlisted, ?_⟩
    intro x
    rw [List.foldl_cons, hmarked, verdict_mark p cause m x (by rw [h.size]; exact hm),
      List.mem_cons]
    by_cases hx : x = m
    · simp [hx]
    · simp [hx]

theorem Listed.lt_of_mem {count : Nat} {p : Propagation} (h : Listed count p) {m : Nat}
    (hm : m ∈ p.taken ++ p.queue) : m < count := by
  rw [← h.size]
  by_contra hge
  have hv := (h.marked_iff m).mpr hm
  simp [verdict, Array.getElem?_eq_none (Nat.le_of_not_lt hge)] at hv

/-- What is listed is a member, so it has its own node. -/
theorem Listed.mem_callers_iff {g : CallGraph} {p : Propagation} (h : Listed g.memberCount p)
    {callee : Nat} (hcallee : callee ∈ p.taken ++ p.queue) {m : Nat} :
    m ∈ g.callers callee ↔ g.Calls m callee := by
  rw [CallGraph.mem_callers, CallGraph.node_of_lt (h.lt_of_mem hcallee)]
  rfl

theorem listed_length_le {count : Nat} {p : Propagation} (h : Listed count p) :
    (p.taken ++ p.queue).length ≤ count := by
  have hsub : p.taken ++ p.queue ⊆ List.range count := fun m hm =>
    List.mem_range.mpr (h.lt_of_mem hm)
  calc (p.taken ++ p.queue).length
      ≤ (List.range count).length := (h.nodup.subperm hsub).length_le
    _ = count := List.length_range

/-! ## The state between two turns -/

/-- What holds between two turns, for a graph and the members that mutate by themselves. -/
structure Good (g : CallGraph) (direct : List Bool) (p : Propagation) : Prop where
  listed : Listed g.memberCount p
  /-- Every member that mutates by itself is marked. -/
  seeded : ∀ m < g.memberCount, direct[m]? = some true → p.verdict m = .mutating
  /-- Every caller of a member that had its turn is marked. -/
  closed : ∀ callee ∈ p.taken, ∀ caller, g.Calls caller callee → p.verdict caller = .mutating
  /-- No member is marked without a reason. -/
  sound : ∀ m, p.verdict m = .mutating → g.ReachesDirect direct m

theorem mem_directMembers {count : Nat} {direct : List Bool} {m : Nat} :
    (m ∈ (direct.take count).zipIdx.filterMap fun (d, i) => if d then some i else none) ↔
      m < count ∧ direct[m]? = some true := by
  simp only [List.mem_filterMap, Prod.exists, List.mk_mem_zipIdx_iff_getElem?,
    List.getElem?_take, Option.ite_none_right_eq_some]
  constructor
  · rintro ⟨d, i, ⟨hi, hd⟩, rfl, h⟩
    cases h
    exact ⟨hi, hd⟩
  · rintro ⟨hm, hd⟩
    exact ⟨true, m, ⟨hm, hd⟩, rfl, rfl⟩

theorem listed_blank (count : Nat) : Listed count ⟨Array.replicate count {}, [], []⟩ := by
  have hv : ∀ m, verdict ⟨Array.replicate count {}, [], []⟩ m = .unknown := by
    intro m
    unfold verdict
    rw [Array.getElem?_replicate]
    split <;> rfl
  refine ⟨by simp, ?_, by simp, fun m _ => hv m⟩
  intro m
  rw [hv]
  simp

theorem good_start (g : CallGraph) (direct : List Bool) :
    Good g direct (start g.memberCount direct) := by
  obtain ⟨hlisted, hall⟩ := listed_marks .direct
    ((direct.take g.memberCount).zipIdx.filterMap fun (d, i) => if d then some i else none)
    (fun m hm => (mem_directMembers.mp hm).1) (listed_blank g.memberCount)
  have hmarked : ∀ m, (start g.memberCount direct).verdict m = .mutating ↔
      m < g.memberCount ∧ direct[m]? = some true := by
    intro m
    refine (hall m).trans ⟨?_, fun h => Or.inr (mem_directMembers.mpr h)⟩
    rintro (h | h)
    · exact absurd (((listed_blank g.memberCount).marked_iff m).mp h) (by simp)
    · exact mem_directMembers.mp h
  have htaken : (start g.memberCount direct).taken = [] := taken_marks _ _ _
  refine ⟨hlisted, fun m hm hd => (hmarked m).mpr ⟨hm, hd⟩, ?_, ?_⟩
  · intro callee hc
    rw [htaken] at hc
    cases hc
  · intro m hm
    obtain ⟨hlt, hd⟩ := (hmarked m).mp hm
    exact ⟨m, .refl, hlt, hd⟩

theorem turn_of_queue_nil {p : Propagation} (g : CallGraph) (hq : p.queue = []) :
    p.turn g = p := by
  simp [turn, hq]

theorem good_turn {g : CallGraph} {direct : List Bool} {p : Propagation} (hg : g.InRange)
    (h : Good g direct p) : Good g direct (p.turn g) := by
  rcases hq : p.queue with _ | ⟨callee, rest⟩
  · rw [turn_of_queue_nil g hq]
    exact h
  · let q : Propagation := { p with queue := rest, taken := p.taken ++ [callee] }
    have hturn : p.turn g = (g.callers callee).foldl (mark · (.calls callee)) q := by
      simp [turn, hq, q]
    have hlist : q.taken ++ q.queue = p.taken ++ p.queue := by simp [q, hq]
    have hqlisted : Listed g.memberCount q := by
      refine ⟨h.listed.size, ?_, ?_, h.listed.unknown⟩
      · rw [hlist]
        exact h.listed.marked_iff
      · rw [hlist]
        exact h.listed.nodup
    have hwaits : callee ∈ p.taken ++ p.queue := by simp [hq]
    have hcallers : ∀ m ∈ g.callers callee, m < g.memberCount := fun m hm =>
      (hg m callee ((h.listed.mem_callers_iff hwaits).mp hm)).1
    obtain ⟨hlisted, hmarked⟩ :=
      listed_marks (.calls callee) (g.callers callee) hcallers hqlisted
    rw [hturn]
    -- nothing that was marked is unmarked
    have hkeep : ∀ m, p.verdict m = .mutating →
        ((g.callers callee).foldl (mark · (.calls callee)) q).verdict m = .mutating :=
      fun m hm => (hmarked m).mpr (Or.inl hm)
    refine ⟨hlisted, fun m hm hd => hkeep m (h.seeded m hm hd), ?_, ?_⟩
    · intro c hc caller hcall
      rw [taken_marks] at hc
      rcases List.mem_append.mp hc with hc | hc
      · exact hkeep caller (h.closed c hc caller hcall)
      · rw [List.mem_singleton] at hc
        subst hc
        exact (hmarked caller).mpr (Or.inr ((h.listed.mem_callers_iff hwaits).mpr hcall))
    · intro m hm
      rcases (hmarked m).mp hm with hm | hm
      · exact h.sound m hm
      · -- the call to the member whose turn it was comes before its chain
        obtain ⟨d, hpath, hd⟩ := h.sound callee ((h.listed.marked_iff callee).mpr hwaits)
        exact ⟨d, .head ((h.listed.mem_callers_iff hwaits).mp hm) hpath, hd⟩

/-! ## The end of the propagation -/

/-- A number of turns that nothing stops. -/
def turns (g : CallGraph) : Nat → Propagation → Propagation
  | 0, p => p
  | n + 1, p => turns g n (p.turn g)

/-- The state when nothing waits any more. -/
def run (g : CallGraph) (direct : List Bool) : Propagation :=
  (start g.memberCount direct).turns g g.memberCount

theorem good_turns {g : CallGraph} {direct : List Bool} (hg : g.InRange) (n : Nat)
    {p : Propagation} (h : Good g direct p) : Good g direct (p.turns g n) := by
  induction n generalizing p with
  | zero => exact h
  | succ n ih => exact ih (good_turn hg h)

theorem turns_of_queue_nil {p : Propagation} (g : CallGraph) (hq : p.queue = []) (n : Nat) :
    p.turns g n = p := by
  induction n with
  | zero => rfl
  | succ n ih => rw [turns, turn_of_queue_nil g hq, ih]

theorem taken_turn {p : Propagation} (g : CallGraph) (hq : p.queue ≠ []) :
    (p.turn g).taken.length = p.taken.length + 1 := by
  obtain ⟨callee, rest, hcons⟩ := List.exists_cons_of_ne_nil hq
  simp [turn, hcons]

/-- Every turn takes one member, until nothing waits. -/
theorem turns_taken (g : CallGraph) (n : Nat) (p : Propagation) :
    (p.turns g n).queue = [] ∨ (p.turns g n).taken.length = p.taken.length + n := by
  induction n generalizing p with
  | zero => exact Or.inr rfl
  | succ n ih =>
    by_cases hq : p.queue = []
    · exact Or.inl (by rw [turns_of_queue_nil g hq, hq])
    · have htaken := taken_turn g hq
      rcases ih (p.turn g) with hend | hmore
      · exact Or.inl hend
      · exact Or.inr (by rw [turns, hmore, htaken]; omega)

theorem good_run {g : CallGraph} (hg : g.InRange) (direct : List Bool) :
    Good g direct (run g direct) :=
  good_turns hg _ (good_start g direct)

/-- As many turns as there are members empty the queue, since no member waits twice. -/
theorem queue_run {g : CallGraph} (hg : g.InRange) (direct : List Bool) :
    (run g direct).queue = [] := by
  rcases turns_taken g g.memberCount (start g.memberCount direct) with h | h
  · exact h
  · -- all turns took a member, so no room is left in the list for one that waits
    have hle := listed_length_le (good_run hg direct).listed
    have hlen : g.memberCount ≤ (run g direct).taken.length := by
      unfold run
      omega
    rw [List.length_append] at hle
    exact List.eq_nil_of_length_eq_zero (by omega)

/-- The marked members are closed under callers, so a chain of calls to one of them marks its
start. -/
theorem verdict_run_iff {g : CallGraph} (hg : g.InRange) (direct : List Bool) (m : Nat) :
    (run g direct).verdict m = .mutating ↔ g.ReachesDirect direct m := by
  have hgood := good_run hg direct
  constructor
  · exact hgood.sound m
  · rintro ⟨d, hpath, hlt, hd⟩
    induction hpath using Relation.ReflTransGen.head_induction_on with
    | refl => exact hgood.seeded d hlt hd
    | head hcall _ ih =>
      -- nothing waits, so a marked callee had its turn and its callers are marked
      have hin := (hgood.listed.marked_iff _).mp ih
      rw [queue_run hg, List.append_nil] at hin
      exact hgood.closed _ hin _ hcall

/-! ## Questions to the signal -/

theorem length_taken_le_turns (g : CallGraph) (n : Nat) (p : Propagation) :
    p.taken.length ≤ (p.turns g n).taken.length := by
  induction n generalizing p with
  | zero => exact Nat.le_refl _
  | succ n ih =>
    by_cases hq : p.queue = []
    · rw [turns_of_queue_nil g hq]
    · have hnext := ih (p.turn g)
      rw [taken_turn g hq] at hnext
      exact Nat.le_trans (Nat.le_succ _) hnext

/-- Turns that the signal may stop give the same state as those that nothing stops, and one question
is asked for each full interval that they complete. -/
theorem asks_turnsAsking (g : CallGraph) (n : Nat) (p : Propagation) :
    Cancellable.Asks (p.turnsAsking g n)
      ((p.turns g n).taken.length / checkInterval - p.taken.length / checkInterval)
      (p.turns g n) := by
  induction n generalizing p with
  | zero =>
    rw [turns, Nat.sub_self]
    exact Cancellable.asks_pure p
  | succ n ih =>
    rw [turnsAsking]
    by_cases hq : p.queue = []
    · rw [turns_of_queue_nil g hq, Nat.sub_self, if_pos (by simp [hq])]
      exact Cancellable.asks_pure p
    · have htaken := taken_turn g hq
      have hle := length_taken_le_turns g n (p.turn g)
      rw [if_neg (by simpa using hq), turns]
      refine ((Cancellable.asks_checkIf _).bind (ih (p.turn g))).congr ?_
      rw [htaken] at hle ⊢
      by_cases hturn : (p.taken.length + 1) % checkInterval = 0
      · rw [if_pos (decide_eq_true hturn)]
        unfold checkInterval at hturn ⊢
        omega
      · rw [if_neg (by simpa using hturn)]
        unfold checkInterval at hturn ⊢
        omega

end Propagation

/-! ## The settled verdicts -/

theorem Resolution.verdict_ofPropagation (p : Propagation) {m : Nat} (hm : m < p.marks.size) :
    (Resolution.ofPropagation p).verdict m =
      if p.verdict m = .unknown then .notMutating else p.verdict m := by
  unfold verdict ofPropagation Propagation.verdict settle
  simp only [Array.getElem?_map, Array.getElem?_eq_getElem hm, Option.map_some, Option.getD_some]
  split <;> rfl

/-- How often the verdicts of a graph ask the signal. -/
def CallGraph.questions (g : CallGraph) (direct : List Bool) : Nat :=
  (Propagation.run g direct).taken.length / Propagation.checkInterval + 1

theorem CallGraph.asks_resolve (g : CallGraph) (direct : List Bool) :
    Cancellable.Asks (g.resolve direct) (g.questions direct)
      (Resolution.ofPropagation (Propagation.run g direct)) := by
  have hstart : (Propagation.start g.memberCount direct).taken = [] :=
    Propagation.taken_marks _ _ _
  have hturns := Propagation.asks_turnsAsking g g.memberCount (.start g.memberCount direct)
  refine (hturns.bind (Cancellable.asks_check.map fun _ => Resolution.ofPropagation _)).congr ?_
  simp [hstart, questions, Propagation.run]

theorem CallGraph.result?_resolve_never (g : CallGraph) (direct : List Bool) :
    (g.resolve direct).result? .never =
      some (Resolution.ofPropagation (Propagation.run g direct)) :=
  (g.asks_resolve direct).result?_never

/-- A run that nothing stops settles every member: it mutates when some chain of the added calls,
possibly empty, leads from it to a member that mutates by itself, and else it does not. -/
theorem a_member_mutates_iff_its_calls_reach_a_mutation (count : Nat)
    (edges : List (Nat × Nat)) (direct : List Bool) :
    ∃ r, (((CallGraph.ofCount count).addEdges edges).resolve direct).result? .never = some r ∧
      r.marks.size = count ∧
      ∀ m < count,
        (r.verdict m = .mutating ↔
          ∃ d < count, direct[d]? = some true ∧
            Relation.ReflTransGen (fun a b => (a, b) ∈ edges ∧ a < count ∧ b < count) m d) ∧
        (r.verdict m = .mutating ∨ r.verdict m = .notMutating) := by
  let g := (CallGraph.ofCount count).addEdges edges
  have hg : g.InRange := CallGraph.inRange_ofCount_addEdges count edges
  have hcount : g.memberCount = count := CallGraph.memberCount_addEdges _ _
  have hgood := Propagation.good_run hg direct
  have hsize : (Propagation.run g direct).marks.size = count := hgood.listed.size.trans hcount
  have hcalls : g.Calls = fun a b => (a, b) ∈ edges ∧ a < count ∧ b < count := by
    funext a b
    exact propext CallGraph.calls_ofCount_addEdges
  refine ⟨_, g.result?_resolve_never direct, by simp [Resolution.ofPropagation, hsize], ?_⟩
  intro m hm
  have hverdict := Resolution.verdict_ofPropagation (Propagation.run g direct)
    (m := m) (by rw [hsize]; exact hm)
  have hiff := Propagation.verdict_run_iff hg direct m
  unfold CallGraph.ReachesDirect at hiff
  rw [hcalls, hcount] at hiff
  by_cases hv : (Propagation.run g direct).verdict m = .mutating
  · rw [hverdict, hv]
    refine ⟨⟨fun _ => ?_, fun _ => rfl⟩, Or.inl rfl⟩
    obtain ⟨d, hpath, hlt, hd⟩ := hiff.mp hv
    exact ⟨d, hlt, hd, hpath⟩
  · -- what is not marked is unknown up to the end, and settles as not mutating
    rw [hverdict, hgood.listed.unknown m hv, if_pos rfl]
    refine ⟨⟨fun h => absurd h (by decide), ?_⟩, Or.inr rfl⟩
    rintro ⟨d, hlt, hd, hpath⟩
    exact absurd (hiff.mpr ⟨d, hpath, hlt, hd⟩) hv

end ReadonlyLint
