import ReachingDefs.Cfg.Graph
import ReachingDefs.Text.Dot

/-!
# Drawing a control-flow graph

`ControlFlowGraph.toDot` writes the graph in the DOT language. Each node is labelled with its
handle and its statement text; the start node is drawn with a thicker border, the exit node as
a double circle, and unreachable nodes dashed. A fall-through edge is a plain arrow; every
other edge is labelled with its kind, branch outcomes are coloured green and red, and loop back
edges are blue and do not constrain the layout.
-/

namespace ReachingDefs

/-- The attributes of an edge of a kind, after its label. -/
def EdgeKind.dotStyle : EdgeKind → String
  | .onTrue => ", color=darkgreen"
  | .onFalse => ", color=red"
  | .loopBack => ", color=blue, constraint=false"
  | _ => ""

namespace ControlFlowGraph

/-- The lines that open a drawing: its title, and the style of every node. -/
def dotHeader (title : String) : String :=
  "digraph CFG \x7b\n    label=" ++ Dot.quoted (Dot.escape title) ++
    ";\n    labelloc=t;\n    node [shape=box, fontname=" ++ Dot.quoted "Courier" ++
    ", fontsize=10];\n\n"

/-- The attributes of a node after its label: a thicker border for the start, a double circle
for the exit, and dashes for a node the start does not reach (`live` is false). -/
def dotNodeStyle (cfg : ControlFlowGraph) (live : Bool) (v : Nat) : String :=
  (if v = cfg.start then ", penwidth=2" else "") ++
    (if v = cfg.exit then ", shape=doublecircle" else "") ++
    (if live then "" else ", style=dashed")

/-- The line that draws a node, labelled with its handle and its text. -/
def dotNode (cfg : ControlFlowGraph) (live : Bool) (v : Nat) (n : CfgNode) : String :=
  "    " ++ nodeName v ++ " [label=" ++ Dot.quoted (nodeName v ++ ": " ++ Dot.escape n.text) ++
    cfg.dotNodeStyle live v ++ "];\n"

/-- The line that draws an edge. -/
def dotEdge (source target : Nat) : EdgeKind → String
  | .seq => "    " ++ nodeName source ++ " -> " ++ nodeName target ++ ";\n"
  | k => "    " ++ nodeName source ++ " -> " ++ nodeName target ++ " [label=" ++
      Dot.quoted k.label ++ k.dotStyle ++ "];\n"

/-- The graph in the DOT language, titled with the given text or else the procedure name. -/
def toDot (cfg : ControlFlowGraph) (title : Option String) : String :=
  let live := cfg.reachableSet
  let nodes := String.join (cfg.graph.nodes.toList.zipIdx.map fun (n, v) =>
    cfg.dotNode (live.mem v) v n)
  let edges := String.join (cfg.graph.nodeIds.flatMap fun v =>
    (cfg.outgoing v).map fun (t, k) => dotEdge v t k)
  dotHeader (title.getD cfg.name) ++ nodes ++ "\n" ++ edges ++ "\x7d\n"

end ControlFlowGraph

end ReachingDefs
