import ReachingDefs.Data.BitSet
import ReachingDefs.Graph.Digraph
import ReachingDefs.Flow.Solver

/-!
# Gen/kill problems on a numbered graph

A gen/kill problem has a graph given by its number of nodes and its edges, a root, and sets of
indices below a domain size: a boundary set for the root, and for each listed node a kill set
and a gen set. The exit of a node is its entry without its kill set, with its gen set added; a
node with no listed set keeps that side unchanged. The solve may see the graph through a node
count other than the graph's own, which hides the nodes at or beyond it.

Building the job checks, in order: every edge (the first bad end is reported), every gen set,
every kill set, and then, only if the root is in range, the boundary set.
-/

namespace ReachingDefs

/-- A gen/kill problem on a graph given by its edges. -/
structure GenKillJob where
  /-- The number of nodes of the graph. -/
  nodes : Nat
  /-- The edges, added in order. -/
  edges : List (Nat × Nat)
  /-- Where the solve starts. -/
  root : Nat
  /-- The number of indices the sets range over. -/
  domain : Nat
  /-- The entry set of the root. -/
  boundary : List Nat := []
  /-- The gen set of each listed node. -/
  gen : List (List Nat) := []
  /-- The kill set of each listed node. -/
  kill : List (List Nat) := []
  order : WorklistOrder := .reversePostorder
  /-- The number of nodes the solve sees. -/
  count : Nat

/-- Why a gen/kill job could not run. -/
inductive JobFault where
  /-- An edge has an end outside the graph. -/
  | graph (e : GraphError)
  /-- A set lists an index outside the domain. -/
  | bits (f : BitSetFault)
deriving DecidableEq, Repr

/-- The graph with the given number of nodes, added one by one, and the edges added in order,
or the first refused edge. -/
def edgeGraph (nodes : Nat) (edges : List (Nat × Nat)) : Except GraphError (Digraph Unit Unit) :=
  edges.foldlM (fun g (s, t) => g.addEdge s t ())
    ((List.replicate nodes ()).foldl (fun g label => (g.addNode label).1) {})

namespace GenKillJob

/-- The graph of the job, or the first refused edge. -/
def graph (job : GenKillJob) : Except GraphError (Digraph Unit Unit) :=
  edgeGraph job.nodes job.edges

/-- The first index outside the domain among the listed sets, in order. -/
def firstOutside? (job : GenKillJob) (sets : List (List Nat)) : Option Nat :=
  sets.findSome? (BitSet.firstOutside? job.domain)

/-- The dataflow problem of the job. -/
def problem (job : GenKillJob) : FlowProblem (IndexSet job.domain) :=
  let gens : Array (IndexSet job.domain) := (job.gen.map IndexSet.ofList).toArray
  let kills : Array (IndexSet job.domain) := (job.kill.map IndexSet.ofList).toArray
  { boundary := IndexSet.ofList job.boundary
    initial := .empty
    transfer := fun v entry =>
      let kept := match kills[v]? with
        | some k => entry.diff k
        | none => entry
      match gens[v]? with
      | some g => kept.union g
      | none => kept }

/-- Checks the job and solves it. -/
def run (job : GenKillJob) : Except JobFault (Solution (IndexSet job.domain) job.count) := do
  let g ← (job.graph).mapError JobFault.graph
  if let some i := job.firstOutside? job.gen then throw (.bits (.outside i job.domain))
  if let some i := job.firstOutside? job.kill then throw (.bits (.outside i job.domain))
  if job.root < job.count then
    if let some i := BitSet.firstOutside? job.domain job.boundary then
      throw (.bits (.outside i job.domain))
  return job.problem.solve job.order ⟨job.count, g.successors⟩ job.root

end GenKillJob

end ReachingDefs
