import Mathlib.Data.Finset.Card
import Mathlib.Data.List.Induction
import ReadonlyLint.Proofs.Propagation

/-!
The call graph as a log. Whatever edges are asked for, the graph has each of them that lies between
its members once, in the order in which they were first asked for (`CallGraph.Records`, an invariant
of every addition). The count of the edges, the test for one edge and the callers of a member are
views of that log; the callers come newest first, which decides through whom a verdict is escalated.
Additions know a member from any other id, but the views do not: an id that is no member and too long
for 32 bits is taken for what is left of it (`CallGraph.node`), and then they show the edges of that.
-/
namespace ReadonlyLint

namespace CallGraph

/-- Both ends of the edge are members. -/
def Between (count : Nat) (e : Nat × Nat) : Prop := e.1 < count ∧ e.2 < count

instance (count : Nat) (e : Nat × Nat) : Decidable (Between count e) :=
  inferInstanceAs (Decidable (_ ∧ _))

/-! ## The log -/

/-- The edges are the pairs that were asked for and lie between members, each once and in the order
in which they first occur. -/
structure Records (count : Nat) (asked : List (Nat × Nat)) (g : CallGraph) : Prop where
  memberCount : g.memberCount = count
  mem_edges : ∀ e, e ∈ g.edges ↔ e ∈ asked ∧ Between count e
  nodup : g.edges.Nodup
  inOrder : g.edges.Pairwise fun e f => asked.idxOf e < asked.idxOf f

theorem records_ofCount (count : Nat) : (ofCount count).Records count [] where
  memberCount := rfl
  mem_edges := by simp [ofCount]
  nodup := List.nodup_nil
  inOrder := .nil

/-- What stands in the order of its ranks stands there once. -/
theorem nodup_of_ranked {α : Type} {rank : α → Nat} {l : List α}
    (h : l.Pairwise fun a b => rank a < rank b) : l.Nodup :=
  List.Pairwise.imp (fun hlt => ne_of_apply_ne rank (Nat.ne_of_lt hlt)) h

section Step

variable {count : Nat} {asked : List (Nat × Nat)} {g : CallGraph}

/-- To ask for more leaves the order of what was asked for before. -/
theorem Records.inOrder_append (h : g.Records count asked) (more : List (Nat × Nat)) :
    g.edges.Pairwise fun e f => (asked ++ more).idxOf e < (asked ++ more).idxOf f := by
  refine h.inOrder.imp_of_mem fun {e f} he hf hlt => ?_
  rw [List.idxOf_append_of_mem ((h.mem_edges e).mp he).1,
    List.idxOf_append_of_mem ((h.mem_edges f).mp hf).1]
  exact hlt

theorem Records.addEdge (h : g.Records count asked) (a b : Nat) :
    (g.addEdge a b).Records count (asked ++ [(a, b)]) := by
  have hmem : ∀ e, e ∈ (g.addEdge a b).edges ↔ e ∈ asked ++ [(a, b)] ∧ Between count e := by
    intro e
    rw [mem_edges_addEdge, h.mem_edges, h.memberCount, List.mem_append, List.mem_singleton,
      or_and_right]
    refine or_congr_right ⟨?_, ?_⟩
    · rintro ⟨rfl, hrange⟩
      exact ⟨rfl, hrange⟩
    · rintro ⟨rfl, hrange⟩
      exact ⟨rfl, hrange⟩
  have horder : (g.addEdge a b).edges.Pairwise fun e f =>
      (asked ++ [(a, b)]).idxOf e < (asked ++ [(a, b)]).idxOf f := by
    by_cases hnew : a < g.memberCount ∧ b < g.memberCount ∧ ¬ g.hasEdge a b
    · -- a new edge was never asked for, so it first occurs now, after all the others
      have hedges : (g.addEdge a b).edges = g.edges ++ [(a, b)] := by
        unfold CallGraph.addEdge
        rw [if_pos hnew]
      have hnot : (a, b) ∉ g.edges := by
        simpa [hasEdge_iff, hnew.1, hnew.2.1] using hnew.2.2
      have hfirst : (a, b) ∉ asked := fun hin =>
        hnot ((h.mem_edges _).mpr ⟨hin, h.memberCount ▸ ⟨hnew.1, hnew.2.1⟩⟩)
      rw [hedges, List.pairwise_append]
      refine ⟨h.inOrder_append _, List.pairwise_singleton _ _, ?_⟩
      intro e he f hf
      have hasked : e ∈ asked := ((h.mem_edges e).mp he).1
      have hlt : asked.idxOf e < asked.length := List.idxOf_lt_length_iff.mpr hasked
      rw [List.mem_singleton.mp hf, List.idxOf_append_of_notMem hfirst,
        List.idxOf_append_of_mem hasked]
      omega
    · have hsame : g.addEdge a b = g := by
        unfold CallGraph.addEdge
        rw [if_neg hnew]
      rw [hsame]
      exact h.inOrder_append _
  exact ⟨by simp [h.memberCount], hmem, nodup_of_ranked horder, horder⟩

end Step

/-- Any sequence of additions is logged. -/
theorem records_addEdges (count : Nat) (asked : List (Nat × Nat)) :
    ((ofCount count).addEdges asked).Records count asked := by
  induction asked using List.reverseRecOn with
  | nil => exact records_ofCount count
  | append_singleton asked e ih =>
    have hlast : (ofCount count).addEdges (asked ++ [e]) =
        ((ofCount count).addEdges asked).addEdge e.1 e.2 := List.foldl_concat ..
    rw [hlast]
    exact ih.addEdge e.1 e.2

/-! ## Views of the log -/

/-- The id leads to a node of its own, so that no other id is taken for it. -/
theorem node_eq_self_iff {g : CallGraph} {id : Nat} :
    g.node id = id ↔ id < g.memberCount ∨ id < UInt32.size := by
  unfold node
  split
  · rename_i hid
    simp [hid]
  · rename_i hid
    rw [Nat.mod_eq_iff_lt (by decide)]
    simp [hid]

/-- A node leads to itself. -/
theorem node_node (g : CallGraph) (id : Nat) : g.node (g.node id) = g.node id := by
  rw [node_eq_self_iff]
  unfold node
  split
  · rename_i hid
    exact .inl hid
  · exact .inr (Nat.mod_lt _ (by decide))

/-- The views of a graph show the edges: how many pairs between members were asked for, which edges
there are, and for each member the sources of the edges into it, newest first and none twice. This
holds of the ids that are members or fit into 32 bits. Any other is answered for the one that is left
of it. -/
structure Shows (count : Nat) (asked : List (Nat × Nat)) (g : CallGraph) : Prop where
  edgeCount : g.edgeCount = (asked.filter (Between count ·)).toFinset.card
  node : ∀ id, g.node id = id ↔ id < count ∨ id < UInt32.size
  hasEdge : ∀ a b, g.node a = a → g.node b = b → (g.hasEdge a b = true ↔ (a, b) ∈ g.edges)
  mem_callers : ∀ callee, g.node callee = callee → ∀ a,
    a ∈ g.callers callee ↔ (a, callee) ∈ g.edges
  callers_nodup : ∀ callee, (g.callers callee).Nodup
  newestFirst : ∀ callee, g.node callee = callee → (g.callers callee).Pairwise fun a b =>
    asked.idxOf (b, callee) < asked.idxOf (a, callee)
  selfLoop : ∀ callee, g.node callee = callee →
    (g.callers callee).count callee = if (callee, callee) ∈ g.edges then 1 else 0
  taken : ∀ a b, g.hasEdge a b = g.hasEdge (g.node a) (g.node b) ∧
    g.callers b = g.callers (g.node b) ∧ (count ≤ UInt32.size → g.node b = b % UInt32.size)

section Views

variable {count : Nat} {asked : List (Nat × Nat)} {g : CallGraph} (h : g.Records count asked)
include h

theorem Records.edgeCount_eq : g.edgeCount = (asked.filter (Between count ·)).toFinset.card := by
  have hsame : g.edges.toFinset = (asked.filter (Between count ·)).toFinset := by
    ext e
    simp [h.mem_edges e]
  rw [← hsame, List.toFinset_card_of_nodup h.nodup]
  rfl

theorem Records.pairwise_callers (callee : Nat) :
    (g.callers callee).Pairwise fun a b =>
      asked.idxOf (b, g.node callee) < asked.idxOf (a, g.node callee) := by
  unfold callers
  rw [List.pairwise_map, List.pairwise_reverse]
  refine (h.inOrder.filter _).imp_of_mem fun {e f} he hf hlt => ?_
  -- an edge into the callee is its source paired with the callee
  have hpair : ∀ x ∈ g.edges.filter (·.2 = g.node callee), (x.1, g.node callee) = x := by
    intro x hx
    have hsecond : x.2 = g.node callee := by simpa using (List.mem_filter.mp hx).2
    rw [← hsecond]
  rw [hpair e he, hpair f hf]
  exact hlt

theorem Records.nodup_callers (callee : Nat) : (g.callers callee).Nodup :=
  List.nodup_reverse.mp (nodup_of_ranked (List.pairwise_reverse.mpr (h.pairwise_callers callee)))

theorem Records.shows : g.Shows count asked where
  edgeCount := h.edgeCount_eq
  node := fun id => by rw [node_eq_self_iff, h.memberCount]
  hasEdge := fun a b ha hb => by rw [hasEdge_iff, ha, hb]
  mem_callers := fun callee hcallee a => by rw [CallGraph.mem_callers, hcallee]
  callers_nodup := h.nodup_callers
  newestFirst := fun callee hcallee => by
    have hpairs := h.pairwise_callers callee
    rw [hcallee] at hpairs
    exact hpairs
  selfLoop := fun callee hcallee => by
    rw [(h.nodup_callers callee).count]
    simp only [CallGraph.mem_callers, hcallee]
  taken := fun a b => by
    refine ⟨?_, ?_, fun hcount => node_eq_mod (h.memberCount ▸ hcount) b⟩
    · unfold CallGraph.hasEdge
      rw [node_node, node_node]
    · unfold callers
      rw [node_node]

end Views

end CallGraph

/-- After any number of the additions that are asked for, the graph has logged just these, and all
its views show the log, as long as they are asked for members or for ids that fit into 32 bits. -/
theorem the_call_graph_is_a_log_of_its_edges (count : Nat) (asked : List (Nat × Nat)) :
    ∀ made, ((CallGraph.ofCount count).addEdges (asked.take made)).Records count (asked.take made) ∧
      ((CallGraph.ofCount count).addEdges (asked.take made)).Shows count (asked.take made) := by
  intro made
  have hrecords := CallGraph.records_addEdges count (asked.take made)
  exact ⟨hrecords, hrecords.shows⟩

/-- The one member uses itself. The id `2 ^ 32` is no member, but it is taken for that one: it has an
edge that is not among the edges, and a caller. -/
theorem an_unknown_id_is_taken_for_a_member :
    let g : CallGraph := (CallGraph.ofCount 1).addEdge 0 0
    g.edges = [(0, 0)] ∧ g.hasEdge UInt32.size 0 = true ∧ (UInt32.size, 0) ∉ g.edges ∧
      g.callers UInt32.size = [0] := by
  decide

end ReadonlyLint
