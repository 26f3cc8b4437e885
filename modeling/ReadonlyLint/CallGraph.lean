/-!
Which members of a struct use which others on the same instance. The graph is a log of its edges
in the order in which they were first added, and a member is known by its place among the members
of the struct; `CallGraph.callers` is the view that the propagation of verdicts follows.
-/
namespace ReadonlyLint

/-- Edges from a caller to a callee, among the members below a bound. -/
structure CallGraph where
  memberCount : Nat
  /-- The edges in order of their first addition, none twice. -/
  edges : List (Nat × Nat)
  deriving DecidableEq, Inhabited

namespace CallGraph

/-- The graph without edges. -/
def ofCount (count : Nat) : CallGraph := { memberCount := count, edges := [] }

/-- The node that an id leads to. A member has its own. Any other id is cut to 32 bits, and what is
left of it may be a member all the same. -/
def node (g : CallGraph) (id : Nat) : Nat := if id < g.memberCount then id else id % UInt32.size

/-- Whether there is an edge between the nodes of two ids. -/
def hasEdge (g : CallGraph) (caller callee : Nat) : Bool := (g.node caller, g.node callee) ∈ g.edges

def edgeCount (g : CallGraph) : Nat := g.edges.length

/-- Adds an edge. An edge that is there already, or that names an unknown member, changes
nothing. -/
def addEdge (g : CallGraph) (caller callee : Nat) : CallGraph :=
  if caller < g.memberCount ∧ callee < g.memberCount ∧ ¬ g.hasEdge caller callee then
    { g with edges := g.edges ++ [(caller, callee)] }
  else g

def addEdges (g : CallGraph) (edges : List (Nat × Nat)) : CallGraph :=
  edges.foldl (fun g e => g.addEdge e.1 e.2) g

/-- The graph in which the member at each place uses the members of the list at that place. -/
def ofUses (uses : List (List Nat)) : CallGraph :=
  (ofCount uses.length).addEdges
    (uses.zipIdx.flatMap fun (callees, caller) => callees.map (caller, ·))

/-- The members with an edge to the node of `callee`, the one with the newest edge first. -/
def callers (g : CallGraph) (callee : Nat) : List Nat :=
  (g.edges.filter (·.2 = g.node callee)).reverse.map (·.1)

/-- As long as the members can be told apart by 32 bits, a node is the last 32 bits of the id. -/
theorem node_eq_mod {g : CallGraph} (h : g.memberCount ≤ UInt32.size) (id : Nat) :
    g.node id = id % UInt32.size := by
  unfold node
  split
  · rename_i hid
    rw [Nat.mod_eq_of_lt (Nat.lt_of_lt_of_le hid h)]
  · rfl

@[simp] theorem node_of_lt {g : CallGraph} {member : Nat} (h : member < g.memberCount) :
    g.node member = member := if_pos h

theorem hasEdge_iff {g : CallGraph} {caller callee : Nat} :
    g.hasEdge caller callee = true ↔ (g.node caller, g.node callee) ∈ g.edges := decide_eq_true_iff

@[simp] theorem memberCount_addEdge (g : CallGraph) (a b : Nat) :
    (g.addEdge a b).memberCount = g.memberCount := by
  unfold addEdge
  split <;> rfl

theorem mem_edges_addEdge {g : CallGraph} {a b : Nat} {e : Nat × Nat} :
    e ∈ (g.addEdge a b).edges ↔
      e ∈ g.edges ∨ (e = (a, b) ∧ a < g.memberCount ∧ b < g.memberCount) := by
  unfold addEdge
  split
  · rename_i h
    simp [h.1, h.2.1]
  · rename_i h
    constructor
    · exact Or.inl
    · rintro (he | ⟨rfl, ha, hb⟩)
      · exact he
      · simpa [ha, hb, hasEdge_iff] using h

theorem mem_callers {g : CallGraph} {caller callee : Nat} :
    caller ∈ g.callers callee ↔ (caller, g.node callee) ∈ g.edges := by
  simp [callers]

end CallGraph

end ReadonlyLint
