import Mathlib.Data.List.Perm.Lattice
import ReadonlyLint.Proofs.Chains

/-!
The queue of the propagation. The loop goes on as long as a member waits (`Propagation.Runs`), and it
ends, since no member enters the queue twice. The members that leave the queue are the ones that
entered it, in the same order; they are the members that mutate, and the nearer ones come first.
-/
namespace ReadonlyLint

namespace Propagation

/-! ## The loop and its log -/

/-- The loop from a state to its end. As long as a member waits, the first one leaves the queue, and
its turn puts new ones at the end. The log has the members that left the queue and the ones that
entered it, in their order. -/
inductive Runs (g : CallGraph) : Propagation → List Nat → List Nat → Propagation → Prop where
  | done {p : Propagation} : p.queue = [] → Runs g p [] [] p
  | turn {p last : Propagation} {callee : Nat} {rest new left entered : List Nat} :
      p.queue = callee :: rest → (p.turn g).queue = rest ++ new →
      Runs g (p.turn g) left entered last → Runs g p (callee :: left) (new ++ entered) last

/-- Marks only put members at the end of the queue. -/
theorem queue_marks (cause : Cause) (ms : List Nat) (p : Propagation) :
    ∃ new, (ms.foldl (mark · cause) p).queue = p.queue ++ new := by
  induction ms generalizing p with
  | nil => exact ⟨[], by simp⟩
  | cons m ms ih =>
    obtain ⟨new, hnew⟩ := ih (p.mark cause m)
    rw [List.foldl_cons, hnew]
    by_cases hv : p.verdict m = .mutating
    · exact ⟨new, by simp [mark, hv]⟩
    · exact ⟨m :: new, by simp [mark, hv]⟩

theorem queue_turn {p : Propagation} (g : CallGraph) {callee : Nat} {rest : List Nat}
    (hq : p.queue = callee :: rest) : ∃ new, (p.turn g).queue = rest ++ new := by
  unfold turn
  rw [hq]
  exact queue_marks _ _ _

/-- Turns that empty the queue are the loop. -/
theorem runs_of_turns (g : CallGraph) {n : Nat} {p : Propagation}
    (h : (p.turns g n).queue = []) : ∃ left entered, p.Runs g left entered (p.turns g n) := by
  induction n generalizing p with
  | zero => exact ⟨[], [], .done h⟩
  | succ n ih =>
    rcases hq : p.queue with _ | ⟨callee, rest⟩
    · -- nothing waits, so all turns that are left change nothing
      rw [turns_of_queue_nil g hq]
      exact ⟨[], [], .done hq⟩
    · obtain ⟨new, hnew⟩ := queue_turn g hq
      obtain ⟨left, entered, hruns⟩ := ih h
      exact ⟨callee :: left, new ++ entered, .turn hq hnew hruns⟩

namespace Runs

variable {g : CallGraph} {p last : Propagation} {left entered : List Nat}

/-- First in, first out: what waits at the start leaves first, then what enters. -/
theorem left_eq (h : p.Runs g left entered last) : left = p.queue ++ entered := by
  induction h with
  | done hq => rw [hq, List.append_nil]
  | turn hq hnew _ ih => rw [hq, ih, hnew, List.append_assoc, List.cons_append]

theorem taken_eq (h : p.Runs g left entered last) : last.taken = p.taken ++ left := by
  induction h with
  | done _ => rw [List.append_nil]
  | @turn p last callee rest new left entered hq _ _ ih =>
    have htaken : (p.turn g).taken = p.taken ++ [callee] := by simp [Propagation.turn, hq]
    rw [ih, htaken, List.append_assoc, List.singleton_append]

end Runs

end Propagation

/-! ## Counting the members that mutate -/

namespace Resolution

/-- The marks in the order of their members. -/
theorem marks_toList (r : Resolution) :
    r.marks.toList = (List.range r.marks.size).map fun m => r.marks[m]?.getD {} := by
  apply List.ext_getElem
  · simp
  · intro m hm _
    have hlt : m < r.marks.size := by simpa using hm
    simp [hlt]

/-- A list that has each member that mutates once is as long as their number. -/
theorem length_eq_mutatingCount {r : Resolution} {members : List Nat} (hnodup : members.Nodup)
    (hmem : ∀ m, m ∈ members ↔ r.verdict m = .mutating) : members.length = r.mutatingCount := by
  let inOrder := (List.range r.marks.size).filter fun m => r.verdict m = .mutating
  have hperm : members.Perm inOrder := by
    rw [List.perm_ext_iff_of_nodup hnodup (List.nodup_range.filter _)]
    intro m
    rw [hmem, List.mem_filter, List.mem_range, decide_eq_true_iff]
    exact ⟨fun hm => ⟨lt_of_verdict_eq_mutating hm, hm⟩, And.right⟩
  rw [hperm.length_eq, mutatingCount, marks_toList, List.countP_map, List.countP_eq_length_filter]
  rfl

end Resolution

/-! ## Distances -/

/-- The number of calls on a shortest path from the member to one that mutates by itself. -/
def CallGraph.IsDistance (g : CallGraph) (direct : List Bool) (m n : Nat) : Prop :=
  ∃ path, g.IsShortestPath direct m path ∧ path.length = n + 1

/-- When nothing waits any more, the level of a member that mutates is its distance. -/
theorem Propagation.Layered.isDistance {g : CallGraph} (hg : g.InRange) {direct : List Bool}
    {level : Nat → Nat} (h : Layered g direct level (run g direct)) {m : Nat}
    (hm : (g.verdicts direct).verdict m = .mutating) : g.IsDistance direct m (level m) := by
  obtain ⟨htraces, -, hshortest⟩ := CallGraph.explain_of_mutating hg direct hm
  exact ⟨_, hshortest, (h.level_of_traces htraces).1⟩

/-- For any graph and any members that mutate by themselves, the loop that nothing stops ends. No
member enters the queue twice. Those that leave it are just the ones that mutate, so that there are
as many turns as such members, and their distances never go down. -/
theorem the_queue_takes_each_mutating_member_once (count : Nat) (edges : List (Nat × Nat))
    (direct : List Bool) :
    let g : CallGraph := (CallGraph.ofCount count).addEdges edges
    let first : Propagation := .start count direct
    ∃ (last : Propagation) (r : Resolution) (left entered : List Nat) (distance : Nat → Nat),
      first.Runs g left entered last ∧
      (Propagation.runAsking g direct).result? .never = some last ∧
      (g.resolve direct).result? .never = some r ∧
      (first.queue ++ entered).Nodup ∧ left = first.queue ++ entered ∧
      (∀ m, m ∈ left ↔ r.verdict m = .mutating) ∧
      left.length = r.mutatingCount ∧
      (∀ m ∈ left, g.IsDistance direct m (distance m)) ∧
      left.Pairwise fun a b => distance a ≤ distance b := by
  intro g first
  have hg : g.InRange := CallGraph.inRange_ofCount_addEdges count edges
  have hcount : g.memberCount = count := CallGraph.memberCount_addEdges _ _
  have hfirst : first = .start g.memberCount direct := by rw [hcount]
  have hgood := Propagation.good_run hg direct
  have hqueue := Propagation.queue_run hg direct
  obtain ⟨level, hlevel⟩ := Propagation.layered_run hg direct
  obtain ⟨left, entered, hruns⟩ : ∃ left entered, first.Runs g left entered (.run g direct) := by
    rw [hfirst]
    exact Propagation.runs_of_turns g hqueue
  -- nothing was taken before the loop, so what the last state took is what left the queue
  have htaken : (Propagation.run g direct).taken = left := by
    rw [hruns.taken_eq, show first.taken = [] from Propagation.taken_marks _ _ _, List.nil_append]
  have hnodup : left.Nodup := by
    simpa [htaken, hqueue] using hgood.listed.nodup
  have hmem : ∀ m, m ∈ left ↔ (g.verdicts direct).verdict m = .mutating := by
    intro m
    rw [CallGraph.verdicts, Resolution.verdict_ofPropagation_eq_mutating_iff,
      hgood.listed.marked_iff, hqueue, List.append_nil, htaken]
  have hordered : left.Pairwise fun a b => level a ≤ level b := by
    simpa [htaken, hqueue] using hlevel.ordered
  have hlast : (Propagation.runAsking g direct).result? .never = some (.run g direct) :=
    (Propagation.asks_turnsAsking g g.memberCount _).result?_never
  exact ⟨.run g direct, g.verdicts direct, left, entered, level, hruns, hlast,
    g.result?_resolve_never direct, hruns.left_eq ▸ hnodup, hruns.left_eq, hmem,
    Resolution.length_eq_mutatingCount hnodup hmem,
    fun m hm => hlevel.isDistance hg ((hmem m).mp hm), hordered⟩

end ReadonlyLint
