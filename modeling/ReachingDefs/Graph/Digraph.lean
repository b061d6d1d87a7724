/-!
# Directed graphs with labelled nodes and edges

Nodes are numbered from zero in the order they are added. Edges live in one arena, in the order
they are added, and each node keeps two lists of positions in that arena: those of the edges
leaving it and those of the edges entering it, oldest first. Every question about the edges of
a node (its successors, its predecessors, its outgoing edges) reads the node's list, so it
answers in insertion order, and a node outside the graph has no list and no edges. Parallel
edges are allowed. Adding an edge whose source or target does not exist is refused, source
first, and leaves the graph as it was.

## Main results

* `addEdge_of_lt`, `addEdge_of_source_ge`, `addEdge_of_target_ge`: when an edge is refused
* `containsEdge_iff`: an edge exists exactly when its target is a successor
-/

namespace ReachingDefs

/-- An edge from `source` to `target` carrying a label. -/
structure Edge (E : Type) where
  source : Nat
  target : Nat
  label : E
deriving Repr, Inhabited

/-- Why an edge could not be added. -/
inductive GraphError where
  /-- The source is not a node of a graph with `count` nodes. -/
  | missingSource (node count : Nat)
  /-- The target is not a node of a graph with `count` nodes. -/
  | missingTarget (node count : Nat)
deriving DecidableEq, Repr

/-- The report of a refused edge. -/
def GraphError.message : GraphError → String
  | .missingSource node count =>
    "source node n" ++ toString node ++ " does not exist in graph with " ++ toString count ++
      " nodes"
  | .missingTarget node count =>
    "target node n" ++ toString node ++ " does not exist in graph with " ++ toString count ++
      " nodes"

/-- A directed graph with node labels of type `N` and edge labels of type `E`. -/
structure Digraph (N E : Type) where
  /-- Node labels, indexed by node. -/
  nodes : Array N := #[]
  /-- The edge arena: edges in the order they were added. -/
  edges : Array (Edge E) := #[]
  /-- For each node, the arena positions of the edges leaving it, oldest first. -/
  outgoingIds : Array (Array Nat) := #[]
  /-- For each node, the arena positions of the edges entering it, oldest first. -/
  incomingIds : Array (Array Nat) := #[]
deriving Repr, Inhabited

namespace Digraph

variable {N E : Type}

/-- The number of nodes. -/
def nodeCount (g : Digraph N E) : Nat := g.nodes.size

/-- The number of edges. -/
def edgeCount (g : Digraph N E) : Nat := g.edges.size

/-- Whether the graph has no nodes. -/
def isEmpty (g : Digraph N E) : Bool := g.nodes.isEmpty

/-- All node handles, in the order the nodes were added. -/
def nodeIds (g : Digraph N E) : List Nat := List.range g.nodeCount

/-- Adds a node, with no edges yet, and returns its handle, the number of nodes before it. -/
def addNode (g : Digraph N E) (label : N) : Digraph N E × Nat :=
  ({ g with
      nodes := g.nodes.push label
      outgoingIds := g.outgoingIds.push #[]
      incomingIds := g.incomingIds.push #[] }, g.nodes.size)

/-- Adds an edge to the arena and its position to the lists of its two ends, without looking
at the ends: the list of a missing node stays missing. -/
def link (g : Digraph N E) (source target : Nat) (label : E) : Digraph N E :=
  { g with
    edges := g.edges.push ⟨source, target, label⟩
    outgoingIds := g.outgoingIds.modify source (·.push g.edges.size)
    incomingIds := g.incomingIds.modify target (·.push g.edges.size) }

/-- Adds an edge between two existing nodes. -/
def addEdge (g : Digraph N E) (source target : Nat) (label : E) :
    Except GraphError (Digraph N E) :=
  if source < g.nodeCount then
    if target < g.nodeCount then .ok (g.link source target label)
    else .error (.missingTarget target g.nodeCount)
  else .error (.missingSource source g.nodeCount)

/-- The label of a node. -/
def node? (g : Digraph N E) (i : Nat) : Option N := g.nodes[i]?

/-- The arena positions of the edges leaving a node; none for a node outside the graph. -/
def outPositions (g : Digraph N E) (v : Nat) : List Nat := ((g.outgoingIds[v]?).getD #[]).toList

/-- The arena positions of the edges entering a node; none for a node outside the graph. -/
def inPositions (g : Digraph N E) (v : Nat) : List Nat := ((g.incomingIds[v]?).getD #[]).toList

/-- The edges leaving a node, as target and label, in insertion order. A position names an edge
of the arena in every graph these operations build (`Digraph.WF`). -/
def outgoing (g : Digraph N E) (v : Nat) : List (Nat × E) :=
  (g.outPositions v).filterMap fun i => g.edges[i]?.map fun e => (e.target, e.label)

/-- The targets of the edges leaving a node, in insertion order. -/
def successors (g : Digraph N E) (v : Nat) : List Nat :=
  (g.outPositions v).filterMap fun i => g.edges[i]?.map (·.target)

/-- The sources of the edges entering a node, in insertion order. -/
def predecessors (g : Digraph N E) (v : Nat) : List Nat :=
  (g.inPositions v).filterMap fun i => g.edges[i]?.map (·.source)

/-- Whether some edge goes from `source` to `target`: whether `target` is a successor. -/
def containsEdge (g : Digraph N E) (source target : Nat) : Bool :=
  (g.successors source).any (· == target)

/-- The label of the first edge from `source` to `target`. -/
def edgeLabel? (g : Digraph N E) (source target : Nat) : Option E :=
  ((g.outgoing source).find? (·.1 == target)).map (·.2)

theorem successors_eq_map_outgoing (g : Digraph N E) (v : Nat) :
    g.successors v = (g.outgoing v).map Prod.fst := by
  simp only [successors, outgoing, List.map_filterMap]
  congr 1
  funext i
  cases g.edges[i]? <;> rfl

@[simp] theorem nodeCount_addNode (g : Digraph N E) (label : N) :
    (g.addNode label).1.nodeCount = g.nodeCount + 1 := by
  simp [addNode, nodeCount]

@[simp] theorem edgeCount_link (g : Digraph N E) (s t : Nat) (label : E) :
    (g.link s t label).edgeCount = g.edgeCount + 1 := by
  simp [link, edgeCount]

@[simp] theorem nodeCount_link (g : Digraph N E) (s t : Nat) (label : E) :
    (g.link s t label).nodeCount = g.nodeCount := rfl

theorem addEdge_of_lt {g : Digraph N E} {s t : Nat} (label : E) (hs : s < g.nodeCount)
    (ht : t < g.nodeCount) : g.addEdge s t label = .ok (g.link s t label) := by
  simp [addEdge, hs, ht]

theorem addEdge_of_source_ge {g : Digraph N E} {s t : Nat} (label : E) (hs : ¬s < g.nodeCount) :
    g.addEdge s t label = .error (.missingSource s g.nodeCount) := by
  simp [addEdge, hs]

theorem addEdge_of_target_ge {g : Digraph N E} {s t : Nat} (label : E) (hs : s < g.nodeCount)
    (ht : ¬t < g.nodeCount) : g.addEdge s t label = .error (.missingTarget t g.nodeCount) := by
  simp [addEdge, hs, ht]

/-- An edge from `s` to `t` exists exactly when `t` is a successor of `s`. -/
theorem containsEdge_iff (g : Digraph N E) (s t : Nat) :
    g.containsEdge s t = true ↔ t ∈ g.successors s := by
  simp [containsEdge]

end Digraph

end ReachingDefs
