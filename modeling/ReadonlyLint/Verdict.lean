import ReadonlyLint.CallGraph
import ReadonlyLint.Signal

/-!
Verdicts. Members that mutate the instance themselves are marked first; then every caller of a
marked member is marked in turn, in the order of a queue, with the callee that caused it. What is
never reached does not mutate, cycles without a mutating member included.
-/
namespace ReadonlyLint

/-- Whether a member can change the instance. -/
inductive Verdict where
  | unknown
  | notMutating
  | mutating
  deriving DecidableEq, Inhabited

/-- Why a member counts as mutating. -/
inductive Cause where
  /-- Its own body mutates. -/
  | direct
  /-- It uses the given member, which mutates. -/
  | calls (callee : Nat)
  deriving DecidableEq, Inhabited

/-- What is known of one member. -/
structure Mark where
  verdict : Verdict := .unknown
  cause : Option Cause := none
  deriving DecidableEq, Inhabited

/-! ## Propagation -/

/-- The state of the propagation: a mark for each member, the members that wait for their turn,
and those that had it. -/
structure Propagation where
  marks : Array Mark
  queue : List Nat
  taken : List Nat
  deriving DecidableEq, Inhabited

namespace Propagation

def verdict (p : Propagation) (member : Nat) : Verdict :=
  (p.marks[member]?.getD {}).verdict

/-- Marks a member as mutating and puts it at the end of the queue, unless it is marked. -/
def mark (p : Propagation) (cause : Cause) (member : Nat) : Propagation :=
  if p.verdict member = .mutating then p
  else
    { p with
      marks := p.marks.setIfInBounds member { verdict := .mutating, cause := some cause }
      queue := p.queue ++ [member] }

/-- The state in which just the members that mutate themselves are marked, in their order. -/
def start (count : Nat) (direct : List Bool) : Propagation :=
  let members := (direct.take count).zipIdx.filterMap fun (d, i) => if d then some i else none
  members.foldl (mark · .direct) { marks := Array.replicate count {}, queue := [], taken := [] }

/-- One turn: the first of the queue leaves it, and its callers are marked. -/
def turn (g : CallGraph) (p : Propagation) : Propagation :=
  match p.queue with
  | [] => p
  | callee :: rest =>
    (g.callers callee).foldl (mark · (.calls callee))
      { p with queue := rest, taken := p.taken ++ [callee] }

/-- How many members have their turn between two questions to the signal. -/
def checkInterval : Nat := 256

/-- Turns until nothing waits any more, at most so many. The signal is asked in each turn whose number
is a multiple of the interval. -/
def turnsAsking (g : CallGraph) : Nat → Propagation → Cancellable Propagation
  | 0, p => pure p
  | n + 1, p =>
    if p.queue.isEmpty then pure p
    else do
      Cancellable.checkIf ((p.taken.length + 1) % checkInterval = 0)
      turnsAsking g n (p.turn g)

/-- The propagation from the members that mutate themselves. A member enters the queue at most once,
so as many turns as there are members are enough. -/
def runAsking (g : CallGraph) (direct : List Bool) : Cancellable Propagation :=
  (start g.memberCount direct).turnsAsking g g.memberCount

end Propagation

/-! ## The settled verdicts -/

/-- The settled mark of every member of a struct. -/
structure Resolution where
  marks : Array Mark
  deriving DecidableEq, Inhabited

namespace Resolution

/-- A member that the propagation did not reach does not mutate. -/
def settle (m : Mark) : Mark :=
  if m.verdict = .unknown then { m with verdict := .notMutating } else m

def ofPropagation (p : Propagation) : Resolution := ⟨p.marks.map settle⟩

def verdict (r : Resolution) (member : Nat) : Verdict :=
  (r.marks[member]?.getD {}).verdict

def cause (r : Resolution) (member : Nat) : Option Cause :=
  (r.marks[member]?.getD {}).cause

def mutates (r : Resolution) (member : Nat) : Bool := r.verdict member = .mutating

def mutatingCount (r : Resolution) : Nat :=
  r.marks.toList.countP (·.verdict = .mutating)

/-- Follows the callees from the newest member of a chain, which is kept newest first, for at most
as many steps as given and never to a member twice. -/
def follow (r : Resolution) : Nat → Nat → List Nat → List Nat
  | 0, _, chain => chain
  | n + 1, current, chain =>
    match r.cause current with
    | some (.calls callee) =>
      if chain.contains callee then chain else r.follow n callee (callee :: chain)
    | _ => chain

/-- The chain of callees from a member to one that mutates by itself. -/
def explain (r : Resolution) (member : Nat) : List Nat :=
  (r.follow r.marks.size member [member]).reverse

end Resolution

/-- The verdicts of the members of a graph, of which `direct` says which mutate by themselves. The
signal is asked during the propagation and once at the end. -/
def CallGraph.resolve (g : CallGraph) (direct : List Bool) : Cancellable Resolution := do
  let p ← Propagation.runAsking g direct
  Cancellable.check
  pure (Resolution.ofPropagation p)

end ReadonlyLint
