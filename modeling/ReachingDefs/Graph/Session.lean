import ReachingDefs.Graph.Digraph
import ReachingDefs.Graph.Traversal

/-!
# A session on one graph

Commands build one graph with text labels on nodes and edges and ask about it. Each command
answers with a reply; only adding an edge can be refused, and a refused edge leaves the graph
as it was.
-/

namespace ReachingDefs

/-- The graph of a session: text labels on nodes and edges. -/
abbrev TextGraph := Digraph String String

/-- A command of a graph session. -/
inductive GraphCommand where
  | addNode (label : String)
  | addEdge (source target : Nat) (label : String)
  | containsEdge (source target : Nat)
  | node (v : Nat)
  | successors (v : Nat)
  | predecessors (v : Nat)
  | outgoing (v : Nat)
  | nodeCount
  | edgeCount
  | isEmpty
  | nodeIds
  | dfs (root : Nat)
  | reachable (root : Nat)
  | postorder (root : Nat)
  | reversePostorder (root : Nat)
deriving Repr

/-- What a graph command answers. -/
inductive GraphReply where
  | nothing
  | number (n : Nat)
  | flag (b : Bool)
  | label (l : Option String)
  | nodes (vs : List Nat)
  | edges (es : List (Nat × String))
deriving Repr

namespace GraphCommand

/-- Runs a command on a graph: the reply, or why the command is refused, and the graph after. -/
def run (g : TextGraph) : GraphCommand → Except GraphError GraphReply × TextGraph
  | .addNode label => let (g', v) := g.addNode label; (.ok (.number v), g')
  | .addEdge s t label =>
    match g.addEdge s t label with
    | .ok g' => (.ok .nothing, g')
    | .error e => (.error e, g)
  | .containsEdge s t => (.ok (.flag (g.containsEdge s t)), g)
  | .node v => (.ok (.label (g.node? v)), g)
  | .successors v => (.ok (.nodes (g.successors v)), g)
  | .predecessors v => (.ok (.nodes (g.predecessors v)), g)
  | .outgoing v => (.ok (.edges (g.outgoing v)), g)
  | .nodeCount => (.ok (.number g.nodeCount), g)
  | .edgeCount => (.ok (.number g.edgeCount), g)
  | .isEmpty => (.ok (.flag g.isEmpty), g)
  | .nodeIds => (.ok (.nodes g.nodeIds), g)
  | .dfs root => (.ok (.nodes (g.adjacency.dfs root)), g)
  | .reachable root => (.ok (.nodes (g.adjacency.reachable root).toList), g)
  | .postorder root => (.ok (.nodes (g.adjacency.postorder root)), g)
  | .reversePostorder root => (.ok (.nodes (g.adjacency.reversePostorder root)), g)

end GraphCommand

end ReachingDefs
