import ReachingDefs.Cfg.Node
import ReachingDefs.Cfg.Scope
import ReachingDefs.Graph.Digraph
import ReachingDefs.Graph.Traversal

/-!
# Control-flow graphs

The control-flow graph of a procedure has one node per statement that is not a block,
numbered in source pre-order, and one exit node numbered last. A statement's node carries the
statement's address, its position in the pre-order of the body, and the graph finds the node of
a statement by that address. Between two nodes there is at most one edge, and its kind says why
control moves along it. The graph keeps the variables of the procedure and the scope of every
node, so that a read of a name can be resolved at any node after the graph is built.
-/

namespace ReachingDefs

/-- The control-flow graph of one procedure. -/
structure ControlFlowGraph where
  name : String
  /-- The procedure's parameters, in order. -/
  params : List String
  graph : Digraph CfgNode EdgeKind
  /-- Every variable of the procedure, parameters first. -/
  vars : Array Variable
  scopes : Scopes
  /-- Where execution begins. -/
  start : Nat
  exit : Nat
deriving Inhabited

namespace ControlFlowGraph

variable (cfg : ControlFlowGraph)

/-- The number of nodes, the exit included. -/
def nodeCount : Nat := cfg.graph.nodeCount

/-- The number of edges. -/
def edgeCount : Nat := cfg.graph.edgeCount

/-- A node's data. -/
def node? (v : Nat) : Option CfgNode := cfg.graph.node? v

/-- The successor view of the graph. -/
def adjacency : Adjacency := cfg.graph.adjacency

/-- The nodes the start reaches. -/
def reachableSet : IndexSet cfg.adjacency.count := cfg.adjacency.reachable cfg.start

/-- Whether control can reach a node from the start. -/
def isReachable (v : Nat) : Bool := cfg.reachableSet.mem v

/-- The nodes the start reaches, in postorder. -/
def postorder : List Nat := cfg.adjacency.postorder cfg.start

/-- The nodes the start reaches, in reverse postorder. -/
def reversePostorder : List Nat := cfg.adjacency.reversePostorder cfg.start

/-- The node of each statement by the statement's address, collected from the nodes in node
order. -/
def byAddress : List (Nat × Nat) :=
  cfg.graph.nodes.toList.zipIdx.filterMap fun e => e.1.address.map (·, e.2)

/-- The node of the statement at an address, looked up in `byAddress` as in a map built from it,
where a later entry for an address replaces an earlier one. None for a block, which has no node,
and for an address outside the body. -/
def nodeFor (address : Nat) : Option Nat :=
  cfg.byAddress.foldl (fun found e => if e.1 = address then some e.2 else found) none

/-- The nodes of a kind, in node order. -/
def nodesOfKind (k : NodeKind) : List Nat :=
  (cfg.graph.nodes.toList.zipIdx.filter (·.1.kind == k)).map (·.2)

/-- The successors of a node, in edge order. -/
def successors (v : Nat) : List Nat := cfg.graph.successors v

/-- The predecessors of a node, in edge order. -/
def predecessors (v : Nat) : List Nat := cfg.graph.predecessors v

/-- The edges leaving a node, with their kinds, in edge order. -/
def outgoing (v : Nat) : List (Nat × EdgeKind) := cfg.graph.outgoing v

/-- Whether an edge goes from `a` to `b`. -/
def hasEdge (a b : Nat) : Bool := cfg.graph.containsEdge a b

/-- The kind of the edge from `a` to `b`. -/
def edgeKind? (a b : Nat) : Option EdgeKind := cfg.graph.edgeLabel? a b

/-- A variable by its handle. -/
def variableInfo? (id : Nat) : Option Variable := cfg.vars[id]?

/-- The variable a read of `name` at `node` refers to. -/
def resolve (node : Nat) (name : String) : Option Nat := cfg.scopes.resolve node name

/-- The variable bound at a node: a declaration's own, or an assignment's target. -/
def boundVar? (v : Nat) : Option Nat := (cfg.node? v).bind (·.boundVar)

end ControlFlowGraph

end ReachingDefs
