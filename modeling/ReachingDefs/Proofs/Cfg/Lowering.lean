import Mathlib.Data.List.Nodup
import ReachingDefs.Cfg.Build

/-!
# What lowering builds

Lowering a statement adds one node for it when it is not a block, and one for each statement
nested in it: `Stmt.nodeCount` counts them. Each primitive of a lowering run touches only some
of the state: `connect` only adds edges, `bind` only marks a node with its variable, the
name resolution only adds variables, and `advance` only moves to the next address. These frame
lemmas let every later proof about `lower` follow the statement's structure without unfolding
the primitives again.

A node that writes a variable, an assignment or an initialized declaration, is bound to the
variable it writes as soon as its statement is lowered. So in every built graph a writing node
carries its variable.

## Main definitions

* `Stmt.nodeCount`: the number of nodes a statement lowers to
* `NodesBound`: every writing node of an array of nodes carries its variable

## Main results

* `Lowering.lower_nodes_size`: lowering adds exactly `nodeCount` nodes
* `Lowering.lower_nodesBound`: lowering keeps every writing node bound
* `Procedure.lower_nodeCount`, `Procedure.lower_start`: the built graph has the body's nodes and
  the exit, and starts at node zero
-/

namespace ReachingDefs

mutual

/-- The number of nodes a statement lowers to: one for itself unless it is a block, and those
of the statements inside it. -/
def Stmt.nodeCount : Stmt → Nat
  | .block items => Stmt.nodeCountAll items
  | .ifThen _ t => t.nodeCount + 1
  | .ifElse _ t e => t.nodeCount + e.nodeCount + 1
  | .loop _ b => b.nodeCount + 1
  | .declare _ _ | .assign _ _ | .ret _ | .expr _ => 1

/-- The number of nodes a sequence of statements lowers to. -/
def Stmt.nodeCountAll : List Stmt → Nat
  | [] => 0
  | s :: rest => s.nodeCount + Stmt.nodeCountAll rest

end

/-- Every node that writes a variable carries the variable it writes. -/
def NodesBound (nodes : Array CfgNode) : Prop :=
  ∀ (w : Nat) (h : w < nodes.size),
    (nodes[w].stmt.bind Stmt.definedName?).isSome → nodes[w].boundVar.isSome

theorem NodesBound.empty : NodesBound #[] := fun _ h => absurd h (Nat.not_lt_zero _)

/-- A node that writes nothing can be added. -/
theorem NodesBound.push {nodes : Array CfgNode} (h : NodesBound nodes) {n : CfgNode}
    (hn : n.stmt.bind Stmt.definedName? = none) : NodesBound (nodes.push n) := by
  intro w hw hdef
  rw [Array.getElem_push] at hdef ⊢
  split
  · rename_i hlt
    rw [dif_pos hlt] at hdef
    exact h w hlt hdef
  · rename_i hlt
    rw [dif_neg hlt, hn] at hdef
    exact absurd hdef (by simp)

/-- A node added and at once bound to a variable can be added, whatever it writes. -/
theorem NodesBound.push_bind {nodes : Array CfgNode} (h : NodesBound nodes) (n : CfgNode)
    (var : Nat) :
    NodesBound ((nodes.push n).modify nodes.size fun m => { m with boundVar := some var }) := by
  intro w hw hdef
  rw [Array.getElem_modify] at hdef ⊢
  rw [Array.size_modify] at hw
  split
  · rfl
  · rename_i hne
    rw [if_neg hne] at hdef
    have hlt : w < nodes.size := by
      rw [Array.size_push] at hw
      omega
    rw [Array.getElem_push_lt hlt] at hdef ⊢
    exact h w hlt hdef

namespace Lowering

/-! ## Frame lemmas of the primitives -/

@[simp] theorem connect_nil (st : Lowering) (t : Nat) : st.connect [] t = st := rfl

theorem connect_cons (st : Lowering) (source : Nat) (kind : EdgeKind) (rest : Pending)
    (t : Nat) :
    st.connect ((source, kind) :: rest) t =
      (if st.graph.containsEdge source t then st
        else { st with graph := st.graph.link source t kind }).connect rest t := rfl

theorem connect_append (st : Lowering) (P Q : Pending) (t : Nat) :
    st.connect (P ++ Q) t = (st.connect P t).connect Q t := by
  simp [connect, List.foldl_append]

/-- Connecting changes nothing but the edges and their position lists. -/
theorem connect_eq (st : Lowering) (P : Pending) (t : Nat) :
    st.connect P t =
      { st with graph := { st.graph with
          edges := (st.connect P t).graph.edges
          outgoingIds := (st.connect P t).graph.outgoingIds
          incomingIds := (st.connect P t).graph.incomingIds } } := by
  induction P generalizing st with
  | nil => rfl
  | cons e rest ih =>
    obtain ⟨source, kind⟩ := e
    rw [connect_cons, ih]
    split <;> rfl

@[simp] theorem connect_graph_nodes (st : Lowering) (P : Pending) (t : Nat) :
    (st.connect P t).graph.nodes = st.graph.nodes := by
  rw [connect_eq]

@[simp] theorem connect_returns (st : Lowering) (P : Pending) (t : Nat) :
    (st.connect P t).returns = st.returns := by
  rw [connect_eq]

@[simp] theorem addNode_snd (st : Lowering) (n : CfgNode) (P : Pending) :
    (st.addNode n P).2 = st.graph.nodes.size := rfl

@[simp] theorem addNode_graph_nodes (st : Lowering) (n : CfgNode) (P : Pending) :
    (st.addNode n P).1.graph.nodes = st.graph.nodes.push n := by
  simp [addNode, Digraph.addNode]

@[simp] theorem addNode_returns (st : Lowering) (n : CfgNode) (P : Pending) :
    (st.addNode n P).1.returns = st.returns := by
  simp [addNode]

@[simp] theorem bind_graph_nodes (st : Lowering) (node var : Nat) :
    (st.bind node var).graph.nodes =
      st.graph.nodes.modify node fun n => { n with boundVar := some var } := rfl

@[simp] theorem bind_graph_edges (st : Lowering) (node var : Nat) :
    (st.bind node var).graph.edges = st.graph.edges := rfl

@[simp] theorem bind_returns (st : Lowering) (node var : Nat) :
    (st.bind node var).returns = st.returns := rfl

@[simp] theorem bind_vars (st : Lowering) (node var : Nat) : (st.bind node var).vars = st.vars :=
  rfl

@[simp] theorem newVariable_graph (st : Lowering) (v : Variable) :
    (st.newVariable v).1.graph = st.graph := rfl

@[simp] theorem newVariable_returns (st : Lowering) (v : Variable) :
    (st.newVariable v).1.returns = st.returns := rfl

@[simp] theorem resolve_graph (st : Lowering) (name : String) :
    (st.resolve name).1.graph = st.graph := by
  unfold resolve
  split
  · rfl
  · split <;> rfl

@[simp] theorem resolve_returns (st : Lowering) (name : String) :
    (st.resolve name).1.returns = st.returns := by
  unfold resolve
  split
  · rfl
  · split <;> rfl

@[simp] theorem restore_graph (st : Lowering) (p : ScopePoint) : (st.restore p).graph = st.graph :=
  rfl

@[simp] theorem restore_returns (st : Lowering) (p : ScopePoint) :
    (st.restore p).returns = st.returns := rfl

@[simp] theorem openScope_graph (st : Lowering) : st.openScope.graph = st.graph := rfl

@[simp] theorem openScope_returns (st : Lowering) : st.openScope.returns = st.returns := rfl

@[simp] theorem declare_graph (st : Lowering) (name : String) (var : Nat) :
    (st.declare name var).graph = st.graph := rfl

@[simp] theorem declare_returns (st : Lowering) (name : String) (var : Nat) :
    (st.declare name var).returns = st.returns := rfl

@[simp] theorem declare_vars (st : Lowering) (name : String) (var : Nat) :
    (st.declare name var).vars = st.vars := rfl

@[simp] theorem openScope_vars (st : Lowering) : st.openScope.vars = st.vars := rfl

@[simp] theorem restore_vars (st : Lowering) (p : ScopePoint) : (st.restore p).vars = st.vars := rfl

@[simp] theorem advance_graph (st : Lowering) : st.advance.graph = st.graph := rfl

@[simp] theorem advance_vars (st : Lowering) : st.advance.vars = st.vars := rfl

@[simp] theorem advance_scopes (st : Lowering) : st.advance.scopes = st.scopes := rfl

@[simp] theorem advance_point (st : Lowering) : st.advance.point = st.point := rfl

@[simp] theorem advance_returns (st : Lowering) : st.advance.returns = st.returns := rfl

@[simp] theorem advance_next (st : Lowering) : st.advance.next = st.next + 1 := rfl

/-! Only `advance` moves the address cursor. -/

@[simp] theorem connect_next (st : Lowering) (P : Pending) (t : Nat) :
    (st.connect P t).next = st.next := by
  rw [connect_eq]

@[simp] theorem addNode_next (st : Lowering) (n : CfgNode) (P : Pending) :
    (st.addNode n P).1.next = st.next := by
  simp [addNode]

@[simp] theorem bind_next (st : Lowering) (node var : Nat) : (st.bind node var).next = st.next :=
  rfl

@[simp] theorem newVariable_next (st : Lowering) (v : Variable) :
    (st.newVariable v).1.next = st.next := rfl

@[simp] theorem resolve_next (st : Lowering) (name : String) :
    (st.resolve name).1.next = st.next := by
  unfold resolve
  split
  · rfl
  · split <;> rfl

@[simp] theorem declare_next (st : Lowering) (name : String) (var : Nat) :
    (st.declare name var).next = st.next := rfl

@[simp] theorem restore_next (st : Lowering) (p : ScopePoint) : (st.restore p).next = st.next :=
  rfl

@[simp] theorem openScope_next (st : Lowering) : st.openScope.next = st.next := rfl

/-! ## Lowering a statement -/

mutual

/-- Lowering a statement adds one node per statement in it that is not a block. -/
theorem lower_nodes_size : ∀ (s : Stmt) (inc : Pending) (st : Lowering),
    (lower s inc st).2.graph.nodes.size = st.graph.nodes.size + s.nodeCount
  | .block items, inc, st => by
    simp only [lower, restore_graph, lowerAll_nodes_size items inc st.advance.openScope,
      openScope_graph, advance_graph, Stmt.nodeCount]
  | .declare name init, inc, st => by simp [lower, Stmt.nodeCount]
  | .assign name v, inc, st => by simp [lower, Stmt.nodeCount]
  | .ifThen c t, inc, st => by
    simp [lower, Stmt.nodeCount, lower_nodes_size t]
    omega
  | .ifElse c t e, inc, st => by
    simp [lower, Stmt.nodeCount, lower_nodes_size t, lower_nodes_size e]
    omega
  | .loop c b, inc, st => by
    simp [lower, Stmt.nodeCount, lower_nodes_size b]
    omega
  | .ret v, inc, st => by simp [lower, Stmt.nodeCount]
  | .expr v, inc, st => by simp [lower, Stmt.nodeCount]

theorem lowerAll_nodes_size : ∀ (items : List Stmt) (inc : Pending) (st : Lowering),
    (lowerAll items inc st).2.graph.nodes.size = st.graph.nodes.size + Stmt.nodeCountAll items
  | [], inc, st => by simp [lowerAll, Stmt.nodeCountAll]
  | s :: rest, inc, st => by
    simp only [lowerAll, lowerAll_nodes_size rest, lower_nodes_size s, Stmt.nodeCountAll]
    omega

end

/-- A node made for a statement that writes nothing keeps the nodes bound. -/
theorem nodesBound_addNode {st : Lowering} (h : NodesBound st.graph.nodes) {s : Stmt}
    (hs : s.definedName? = none) (k : NodeKind) (P : Pending) (a : Option Nat) :
    NodesBound (st.advance.addNode ⟨some s, k, none, a⟩ P).1.graph.nodes := by
  rw [addNode_graph_nodes, advance_graph]
  exact h.push (by simpa using hs)

mutual

/-- Lowering keeps every writing node bound: a declaration or assignment binds its node right
after adding it, and no other statement writes. -/
theorem lower_nodesBound : ∀ (s : Stmt) (inc : Pending) (st : Lowering),
    NodesBound st.graph.nodes → NodesBound (lower s inc st).2.graph.nodes
  | .block items, inc, st, h => by
    simpa only [lower, restore_graph] using lowerAll_nodesBound items inc st.advance.openScope h
  | .declare name init, inc, st, h => by
    simpa [lower] using h.push_bind _ _
  | .assign name v, inc, st, h => by
    simpa [lower] using h.push_bind _ _
  | .ifThen c t, inc, st, h => by
    simp only [lower, restore_graph]
    exact lower_nodesBound t _ _ (nodesBound_addNode h rfl _ _ _)
  | .ifElse c t e, inc, st, h => by
    simp only [lower, restore_graph]
    exact lower_nodesBound e _ _ (lower_nodesBound t _ _ (nodesBound_addNode h rfl _ _ _))
  | .loop c b, inc, st, h => by
    simp only [lower, connect_graph_nodes, restore_graph]
    exact lower_nodesBound b _ _ (nodesBound_addNode h rfl _ _ _)
  | .ret v, inc, st, h => by
    simpa only [lower] using nodesBound_addNode h rfl _ _ _
  | .expr v, inc, st, h => by
    simpa only [lower] using nodesBound_addNode h rfl _ _ _

theorem lowerAll_nodesBound : ∀ (items : List Stmt) (inc : Pending) (st : Lowering),
    NodesBound st.graph.nodes → NodesBound (lowerAll items inc st).2.graph.nodes
  | [], inc, st, h => h
  | s :: rest, inc, st, h => by
    simp only [lowerAll]
    exact lowerAll_nodesBound rest _ _ (lower_nodesBound s inc st h)

end

@[simp] theorem ofParams_graph (params : List String) : (ofParams params).graph = {} := by
  suffices ∀ (st : Lowering), st.graph = {} → (params.foldl declareParam st).graph = {} from
    this {} rfl
  induction params with
  | nil => exact fun _ h => h
  | cons p rest ih => exact fun st h => ih _ h

@[simp] theorem ofParams_returns (params : List String) : (ofParams params).returns = #[] := by
  suffices ∀ (st : Lowering), st.returns = #[] → (params.foldl declareParam st).returns = #[] from
    this {} rfl
  induction params with
  | nil => exact fun _ h => h
  | cons p rest ih => exact fun st h => ih _ h

@[simp] theorem ofParams_next (params : List String) : (ofParams params).next = 0 := by
  suffices ∀ (st : Lowering), st.next = 0 → (params.foldl declareParam st).next = 0 from
    this {} rfl
  induction params with
  | nil => exact fun _ h => h
  | cons p rest ih => exact fun st h => ih _ h

end Lowering

namespace Procedure

open Lowering

/-- The exit node comes after the body's nodes. -/
theorem lower_exit (p : Procedure) : p.lower.exit = p.body.nodeCount := by
  simp [Procedure.lower, Procedure.assemble, lower_nodes_size]

/-- The graph has a node per statement of the body that is not a block, and the exit. -/
theorem lower_nodeCount (p : Procedure) : p.lower.nodeCount = p.body.nodeCount + 1 := by
  simp [Procedure.lower, Procedure.assemble, ControlFlowGraph.nodeCount, Digraph.nodeCount,
    lower_nodes_size]

/-- Execution starts at node zero: the body's first node, or the exit of an empty body. -/
theorem lower_start (p : Procedure) : p.lower.start = 0 := by
  simp only [Procedure.lower, Procedure.assemble]
  split <;> simp_all

/-- The start is a node of the graph: the exit node is always there. -/
theorem lower_start_lt_count (p : Procedure) : p.lower.start < p.lower.adjacency.count := by
  have hcount := lower_nodeCount p
  rw [lower_start]
  simp only [ControlFlowGraph.nodeCount] at hcount
  simp only [ControlFlowGraph.adjacency, Digraph.adjacency, hcount]
  omega

@[simp] theorem lower_params (p : Procedure) : p.lower.params = p.params := rfl

/-- Every writing node of the built graph carries its variable. -/
theorem lower_nodesBound (p : Procedure) : NodesBound p.lower.graph.nodes := by
  simp only [Procedure.lower, Procedure.assemble, connect_graph_nodes, addNode_graph_nodes,
    restore_graph]
  refine NodesBound.push ?_ rfl
  exact Lowering.lower_nodesBound p.body [] _ (by simpa using NodesBound.empty)

end Procedure

end ReachingDefs
