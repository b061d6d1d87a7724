import ReachingDefs.Proofs.Cfg.EdgeRules
import ReachingDefs.Proofs.Graph.Arena

/-!
# Lowering keeps the edge arena indexed

Lowering adds an edge only from a node it has made to the node it has just made, or back to an
enclosing loop node. So every edge it holds pending leaves a node of the graph, and each edge
it adds joins two nodes: the graph stays indexed (`Digraph.WF`), and its adjacency lists are
read off its arena. The lemmas about the edges of a built graph all go through this.

## Main definitions

* `Lowering.Indexed`: an indexed graph, with edges pending from its nodes

## Main results

* `Lowering.lower_indexed`: lowering a statement keeps the state indexed
* `Procedure.lower_stages_indexed`, `Procedure.lower_wf`: each stage of building a procedure's
  graph is indexed, and so is the graph
-/

namespace ReachingDefs

namespace Lowering

/-- A lowering state whose graph is indexed, with edges pending from nodes it has. -/
structure Indexed (st : Lowering) (P : Pending) : Prop where
  wf : st.graph.WF
  pending_lt : ∀ e ∈ P, e.1 < st.graph.nodeCount

variable {st : Lowering} {P : Pending}

/-- Only the graph of a state matters to being indexed. -/
theorem Indexed.of_graph_eq {st' : Lowering} (h : st.Indexed P) (hg : st'.graph = st.graph) :
    st'.Indexed P where
  wf := hg ▸ h.wf
  pending_lt := hg ▸ h.pending_lt

theorem Indexed.nil (h : st.graph.WF) : st.Indexed [] := ⟨h, by simp⟩

theorem Indexed.restore (h : st.Indexed P) (p : ScopePoint) : (st.restore p).Indexed P :=
  h.of_graph_eq rfl

theorem Indexed.openScope (h : st.Indexed P) : st.openScope.Indexed P :=
  h.of_graph_eq rfl

theorem Indexed.advance (h : st.Indexed P) : st.advance.Indexed P :=
  h.of_graph_eq rfl

/-- Pending edges from nodes stay so as nodes are added. -/
theorem Indexed.lift {st' : Lowering} (h : st.Indexed P) (hwf : st'.graph.WF)
    (hle : st.graph.nodeCount ≤ st'.graph.nodeCount) : st'.Indexed P :=
  ⟨hwf, fun e he => Nat.lt_of_lt_of_le (h.pending_lt e he) hle⟩

@[simp] theorem connect_nodeCount (P : Pending) (t : Nat) :
    (st.connect P t).graph.nodeCount = st.graph.nodeCount := by
  simp [Digraph.nodeCount]

@[simp] theorem addNode_nodeCount (n : CfgNode) (P : Pending) :
    (st.addNode n P).1.graph.nodeCount = st.graph.nodeCount + 1 := by
  simp [Digraph.nodeCount]

@[simp] theorem bind_nodeCount (node var : Nat) :
    (st.bind node var).graph.nodeCount = st.graph.nodeCount := by
  simp [Digraph.nodeCount]

theorem lower_nodeCount (s : Stmt) (inc : Pending) :
    (lower s inc st).2.graph.nodeCount = st.graph.nodeCount + s.nodeCount :=
  lower_nodes_size s inc st

theorem Indexed.of_cons {e : Nat × EdgeKind} (h : st.Indexed (e :: P)) : st.Indexed P :=
  ⟨h.wf, fun x hx => h.pending_lt x (List.mem_cons_of_mem _ hx)⟩

/-- Adding an edge between two nodes keeps the state indexed. -/
theorem Indexed.link (h : st.Indexed P) {s t : Nat} (hs : s < st.graph.nodeCount)
    (ht : t < st.graph.nodeCount) (k : EdgeKind) :
    ({ st with graph := st.graph.link s t k } : Lowering).Indexed P :=
  ⟨h.wf.link hs ht k, h.pending_lt⟩

/-- Connecting pending edges from nodes to a node keeps the arena indexed. -/
theorem wf_connect (h : st.Indexed P) {t : Nat} (ht : t < st.graph.nodeCount) :
    (st.connect P t).graph.WF := by
  induction P generalizing st with
  | nil => exact h.wf
  | cons e rest ih =>
    obtain ⟨source, kind⟩ := e
    rw [connect_cons]
    split
    · exact ih h.of_cons ht
    · exact ih (h.of_cons.link (h.pending_lt _ List.mem_cons_self) ht kind) ht

/-- Connecting keeps the state indexed, with other edges pending. -/
theorem Indexed.connect {Q : Pending} (h : st.Indexed Q) (hP : st.Indexed P) {t : Nat}
    (ht : t < st.graph.nodeCount) : (st.connect P t).Indexed Q :=
  h.lift (wf_connect hP ht) (by simp)

/-- The state just after a node is added, before the pending edges are wired into it. -/
theorem Indexed.unwired (h : st.Indexed P) (n : CfgNode) :
    ({ st with graph := (st.graph.addNode n).1, scopes := st.scopes.record st.point } :
      Lowering).Indexed P :=
  h.lift (h.wf.addNode n) (by simp [Digraph.addNode, Digraph.nodeCount])

/-- Adding a node and wiring the pending edges into it keeps the state indexed. -/
theorem Indexed.addNode {Q : Pending} (h : st.Indexed Q) (hP : st.Indexed P) (n : CfgNode) :
    (st.addNode n P).1.Indexed Q := by
  refine h.lift ?_ (by simp)
  simp only [Lowering.addNode, Digraph.addNode]
  exact wf_connect (hP.unwired n) (by simp [Digraph.addNode, Digraph.nodeCount])

theorem Indexed.single {v : Nat} (h : st.graph.WF) (hv : v < st.graph.nodeCount) (k : EdgeKind) :
    st.Indexed [(v, k)] :=
  ⟨h, by simpa using hv⟩

theorem self_lt_addNode_nodeCount (n : CfgNode) (P : Pending) :
    st.graph.nodes.size < (st.addNode n P).1.graph.nodeCount := by
  simp [Digraph.nodeCount]

/-- After adding a node, the state may wait on edges from it. -/
theorem indexed_addNode (h : st.Indexed P) (n : CfgNode) (k : EdgeKind) :
    (st.addNode n P).1.Indexed [(st.graph.nodes.size, k)] :=
  .single ((Indexed.nil h.wf).addNode h n).wf (self_lt_addNode_nodeCount n P) k

/-- A loop's back edges leave the nodes its body's exits leave. -/
theorem Indexed.loopBack (h : st.Indexed P) :
    st.Indexed (P.map fun (source, _) => (source, EdgeKind.loopBack)) := by
  refine ⟨h.wf, ?_⟩
  simp only [List.mem_map]
  rintro _ ⟨e, he, rfl⟩
  exact h.pending_lt e he

theorem Indexed.bind (h : st.Indexed P) (node var : Nat) : (st.bind node var).Indexed P :=
  h.lift (h.wf.withNodes (by simp)) (by simp)

theorem Indexed.append {Q : Pending} (hP : st.Indexed P)
    (hQ : ∀ e ∈ Q, e.1 < st.graph.nodeCount) : st.Indexed (P ++ Q) := by
  refine ⟨hP.wf, fun e he => ?_⟩
  rcases List.mem_append.mp he with he | he
  · exact hP.pending_lt e he
  · exact hQ e he

/-- A node stays a node through lowering. -/
theorem lt_lower_nodeCount {v : Nat} (hv : v < st.graph.nodeCount) (s : Stmt) (inc : Pending) :
    v < (lower s inc st).2.graph.nodeCount := by
  rw [lower_nodeCount]
  omega

/-- The node a statement adds first stays a node through its inner statements, which are lowered
in a scope of their own. -/
theorem self_lt_lower_addNode (n : CfgNode) (s : Stmt) (P Q : Pending) :
    st.graph.nodes.size < (lower s Q (st.addNode n P).1.openScope).2.graph.nodeCount := by
  have hv : st.graph.nodes.size < (st.addNode n P).1.openScope.graph.nodeCount :=
    self_lt_addNode_nodeCount n P
  exact lt_lower_nodeCount hv s Q

section Branches

variable {n : CfgNode} {t : Stmt} {Q : Pending}

/-- A conditional's else branch is lowered from the graph its then branch leaves, waiting on the
false edge of the branch node. -/
theorem Indexed.elseEntry
    (h : (lower t [(st.graph.nodes.size, .onTrue)] (st.addNode n P).1.openScope).2.Indexed Q) :
    ((lower t [(st.graph.nodes.size, .onTrue)] (st.addNode n P).1.openScope).2.restore
      (st.addNode n P).1.point).openScope.Indexed [(st.graph.nodes.size, .onFalse)] :=
  ((Indexed.single h.wf (self_lt_lower_addNode n t P _) .onFalse).restore _).openScope

/-- A loop body's exits go back to the loop node from the graph the body leaves. -/
theorem Indexed.loopEntry
    (h : (lower t [(st.graph.nodes.size, .onTrue)] (st.addNode n P).1.openScope).2.Indexed Q) :
    ((lower t [(st.graph.nodes.size, .onTrue)] (st.addNode n P).1.openScope).2.restore
      (st.addNode n P).1.point).Indexed (Q.map fun (source, _) => (source, EdgeKind.loopBack)) :=
  h.loopBack.restore _

end Branches

mutual

/-- **Lowering keeps the state indexed.** From an indexed state, lowering a statement builds an
indexed graph and leaves pending only edges from its nodes. -/
theorem lower_indexed : ∀ (s : Stmt) (inc : Pending) (st : Lowering), st.Indexed inc →
    (lower s inc st).2.Indexed (lower s inc st).1
  | .block items, inc, st, h =>
    (lowerAll_indexed items inc st.advance.openScope h.advance.openScope).restore st.point
  | .declare name init, inc, st, h => by
    simp only [lower]
    apply Indexed.bind
    exact (indexed_addNode h.advance ⟨some (.declare name init), .declare, none, some st.next⟩
      .seq).of_graph_eq rfl
  | .assign name v, inc, st, h => by
    simp only [lower]
    apply Indexed.bind
    exact (indexed_addNode h.advance ⟨some (.assign name v), .assign, none, some st.next⟩
      .seq).of_graph_eq (resolve_graph _ _)
  | .expr v, inc, st, h => indexed_addNode h.advance ⟨some (.expr v), .expr, none, some st.next⟩ .seq
  | .ret v, inc, st, h =>
    Indexed.nil (indexed_addNode h.advance ⟨some (.ret v), .ret, none, some st.next⟩ .seq).wf
  | .ifThen c t, inc, st, h => by
    -- the then branch waits on the true edge; the false edge leaves the branch node
    have h₁ := indexed_addNode h.advance ⟨some (.ifThen c t), .branch, none, some st.next⟩ .onTrue
    have h₂ := lower_indexed t _ _ h₁.openScope
    simp only [lower]
    refine (h₂.append ?_).restore _
    simpa using (self_lt_lower_addNode _ t inc _ : st.advance.graph.nodes.size < _)
  | .ifElse c t el, inc, st, h => by
    have h₂ := lower_indexed t _ _
      (indexed_addNode h.advance ⟨some (.ifElse c t el), .branch, none, some st.next⟩
        .onTrue).openScope
    -- the else branch waits on the false edge, from the graph the then branch leaves
    have h₃ := lower_indexed el _ _ h₂.elseEntry
    simp only [lower]
    refine (h₂.lift h₃.wf ?_ |>.append h₃.pending_lt).restore _
    simp [lower_nodeCount]
  | .loop c body, inc, st, h => by
    -- the body's exits go back to the loop node, and the loop waits on its false edge
    have h₂ := lower_indexed body _ _
      (indexed_addNode h.advance ⟨some (.loop c body), .loop, none, some st.next⟩ .onTrue).openScope
    simp only [lower]
    refine .single (wf_connect h₂.loopEntry (self_lt_lower_addNode _ _ _ _)) ?_ _
    rw [connect_nodeCount]
    exact self_lt_lower_addNode _ _ _ _

/-- Lowering a block keeps the state indexed. -/
theorem lowerAll_indexed : ∀ (items : List Stmt) (inc : Pending) (st : Lowering),
    st.Indexed inc → (lowerAll items inc st).2.Indexed (lowerAll items inc st).1
  | [], _, _, h => h
  | s :: rest, inc, st, h => lowerAll_indexed rest _ _ (lower_indexed s inc st h)

end

mutual

/-- Lowering records the return nodes of the statement, in order. -/
theorem lower_returns : ∀ (s : Stmt) (inc : Pending) (st : Lowering),
    (lower s inc st).2.returns.toList = st.returns.toList ++ s.returnNodes st.graph.nodes.size
  | .block items, inc, st => by
    simpa only [lower, restore_returns, openScope_returns, openScope_graph, advance_returns,
      advance_graph, Stmt.returnNodes] using lowerAll_returns items inc st.advance.openScope
  | .declare _ _, inc, st | .assign _ _, inc, st | .expr _, inc, st => by
    simp [lower, Stmt.returnNodes]
  | .ret _, inc, st => by simp [lower, Stmt.returnNodes]
  | .ifThen _ t, inc, st => by
    simp [lower, Stmt.returnNodes, lower_returns t]
  | .ifElse _ t e, inc, st => by
    simp [lower, Stmt.returnNodes, lower_returns t, lower_returns e, lower_nodes_size]
  | .loop _ body, inc, st => by
    simp [lower, Stmt.returnNodes, lower_returns body]

theorem lowerAll_returns : ∀ (items : List Stmt) (inc : Pending) (st : Lowering),
    (lowerAll items inc st).2.returns.toList =
      st.returns.toList ++ Stmt.returnNodesAll items st.graph.nodes.size
  | [], inc, st => by simp [lowerAll, Stmt.returnNodesAll]
  | s :: rest, inc, st => by
    simp only [lowerAll, Stmt.returnNodesAll]
    rw [lowerAll_returns rest, lower_returns s, lower_nodes_size, List.append_assoc]

end

/-- Lowering starts indexed: the parameters add no node. -/
theorem indexed_ofParams (params : List String) : (ofParams params).Indexed [] :=
  .nil (by rw [ofParams_graph]; exact Digraph.WF.empty)

end Lowering

namespace Procedure

open Lowering

/-- **Each stage of building a procedure's graph is indexed.** The body is lowered with its exits
pending, the exit node is added, the exits are wired into it, and then the return edges. -/
theorem lower_stages_indexed (p : Procedure) :
    let st₀ := ofParams p.params
    let st₁ := (Lowering.lower p.body [] st₀.openScope).2.restore st₀.point
    let pending := (Lowering.lower p.body [] st₀.openScope).1
    let st₂ := (st₁.addNode CfgNode.exitNode []).1
    let exit := (st₁.addNode CfgNode.exitNode []).2
    let st₃ := st₂.connect pending exit
    st₁.Indexed pending ∧ st₂.Indexed pending ∧ exit < st₂.graph.nodeCount ∧
      st₃.Indexed (st₃.returns.toList.map fun v => (v, EdgeKind.toExit)) := by
  intro st₀ st₁ pending st₂ exit st₃
  have h₁ : st₁.Indexed pending :=
    (lower_indexed p.body [] st₀.openScope (indexed_ofParams _).openScope).of_graph_eq
      (restore_graph _ _)
  have h₂ : st₂.Indexed pending := h₁.addNode (Indexed.nil h₁.wf) _
  have hexit : exit < st₂.graph.nodeCount := by simp [exit, st₂, Digraph.nodeCount]
  -- the return nodes are nodes of the body, which is numbered from zero
  have hret : ∀ r ∈ st₃.returns.toList, r < p.body.nodeCount := by
    intro r hr
    simp only [st₃, st₂, st₁, st₀, connect_returns, addNode_returns, restore_returns,
      lower_returns, openScope_returns, openScope_graph, ofParams_returns, ofParams_graph, Array.toList_empty, List.nil_append] at hr
    simpa using ((Stmt.returnNodes_spec p.body _ ⟨0, false⟩).1 r hr).2
  have hcount : st₃.graph.nodeCount = p.body.nodeCount + 1 := by
    simp [st₃, st₂, st₁, st₀, Digraph.nodeCount, lower_nodes_size]
  refine ⟨h₁, h₂, hexit, wf_connect h₂ hexit, ?_⟩
  simp only [List.mem_map]
  rintro _ ⟨r, hr, rfl⟩
  have := hret r hr
  simp only [hcount]
  omega

/-- A procedure's graph is indexed: its adjacency lists read its arena. -/
theorem lower_wf (p : Procedure) : p.lower.graph.WF := by
  obtain ⟨-, -, hexit, h₃⟩ := lower_stages_indexed p
  exact wf_connect h₃ (by simpa using hexit)

end Procedure

end ReachingDefs
