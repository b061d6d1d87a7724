import ReachingDefs.Proofs.Cfg.Refusal

/-!
# The edges a procedure's graph is built with

Lowering only ever adds an edge through `connect`, which skips a pair of nodes already joined.
So the graph never has two edges between the same nodes, and between two nodes it has the
first edge offered. Lowering a statement offers exactly `edgesIn` and leaves `exits` pending
(`Lowering.lower_triples`, `Lowering.lower_exits`); with the exit node added last, the
reordering theorem of the rules turns this into the rules' edges.

## Main definitions

* `Digraph.triples`: the edges of a graph as source, target and kind

## Main results

* `Lowering.lower_triples`: lowering a statement adds, first kind first, what it offers
* `Procedure.build_edges_eq_edgeRules`: a built graph has exactly the rules' edges, and at most
  one edge between two nodes
-/

namespace ReachingDefs

/-- The edges of a graph as source, target and kind, in the order they were added. -/
def Digraph.triples {N : Type} (g : Digraph N EdgeKind) : List (Nat × Nat × EdgeKind) :=
  g.edges.toList.map fun e => (e.source, e.target, e.label)

namespace Digraph

variable {N : Type} (g : Digraph N EdgeKind)

/-- In an indexed graph, two nodes are joined when an edge of the arena joins them. -/
theorem containsEdge_iff_triples (h : g.WF) (s t : Nat) :
    g.containsEdge s t = true ↔ ∃ r ∈ g.triples, ends r = (s, t) := by
  rw [containsEdge_iff, h.successors_eq]
  simp [triples, ends, and_assoc]

@[simp] theorem triples_empty : ({} : Digraph N EdgeKind).triples = [] := rfl

@[simp] theorem triples_link (s t : Nat) (k : EdgeKind) :
    (g.link s t k).triples = g.triples ++ [(s, t, k)] := by
  simp [link, triples]

/-- No two edges of a graph join the same nodes. -/
def PairsUnique : Prop := g.triples.Pairwise fun x y => ends x ≠ ends y

end Digraph

@[simp] theorem Cont.kind_false (t : Nat) (k : EdgeKind) : Cont.kind ⟨t, false⟩ k = k := rfl

namespace Lowering

/-- Connecting keeps, between any two nodes, the first edge there: the old one, or else the
first one offered. -/
theorem firstKind_connect {st : Lowering} {P : Pending} (h : st.Indexed P) {t : Nat}
    (ht : t < st.graph.nodeCount) :
    firstKind (st.connect P t).graph.triples =
      firstKind (st.graph.triples ++ Pending.into P ⟨t, false⟩) := by
  induction P generalizing st with
  | nil => simp
  | cons e rest ih =>
    obtain ⟨source, kind⟩ := e
    rw [connect_cons, Pending.into_cons]
    split
    · -- the pair is joined already, and its first kind stays
      rename_i hjoined
      obtain ⟨y, hy, hye⟩ := (Digraph.containsEdge_iff_triples _ h.wf _ _).mp hjoined
      rw [ih h.of_cons ht]
      refine (firstKind_append_shadowed ?_).symm
      exact ⟨y, hy, hye⟩
    · rw [ih (h.of_cons.link (h.pending_lt _ List.mem_cons_self) ht kind) ht,
        Digraph.triples_link, List.append_assoc]
      rfl

/-- Connecting never joins two nodes twice. -/
theorem pairsUnique_connect {st : Lowering} (h : st.graph.PairsUnique) {P : Pending}
    (hi : st.Indexed P) {t : Nat} (ht : t < st.graph.nodeCount) :
    (st.connect P t).graph.PairsUnique := by
  induction P generalizing st with
  | nil => exact h
  | cons e rest ih =>
    obtain ⟨source, kind⟩ := e
    rw [connect_cons]
    split
    · exact ih h hi.of_cons ht
    · rename_i hjoined
      refine ih ?_ (hi.of_cons.link (hi.pending_lt _ List.mem_cons_self) ht kind) ht
      show (st.graph.link source t kind).triples.Pairwise _
      rw [Digraph.triples_link]
      -- the new edge joins nodes no edge joined before
      refine List.pairwise_append.mpr ⟨h, List.pairwise_singleton _ _, ?_⟩
      intro x hx y hy hxy
      rw [List.mem_singleton.mp hy] at hxy
      exact hjoined ((Digraph.containsEdge_iff_triples _ hi.wf _ _).mpr ⟨x, hx, hxy⟩)

theorem triples_addNode_graph {st : Lowering} {P : Pending} (h : st.Indexed P) (n : CfgNode) :
    firstKind (st.addNode n P).1.graph.triples =
      firstKind (st.graph.triples ++ Pending.into P ⟨st.graph.nodes.size, false⟩) := by
  simp only [addNode, Digraph.addNode]
  exact firstKind_connect (h.unwired n) (by simp [Digraph.addNode, Digraph.nodeCount])

theorem pairsUnique_addNode {st : Lowering} {P : Pending} (hi : st.Indexed P)
    (h : st.graph.PairsUnique) (n : CfgNode) : (st.addNode n P).1.graph.PairsUnique := by
  simp only [addNode, Digraph.addNode]
  exact pairsUnique_connect (by exact h) (hi.unwired n) (by simp [Digraph.addNode, Digraph.nodeCount])

@[simp] theorem bind_graph_triples (st : Lowering) (node var : Nat) :
    (st.bind node var).graph.triples = st.graph.triples := rfl

theorem pairsUnique_bind {st : Lowering} (h : st.graph.PairsUnique) (node var : Nat) :
    (st.bind node var).graph.PairsUnique := h

/-- The back edges of a loop are its body's exits gone back to the loop node. -/
theorem into_backEdges (P : Pending) (t : Nat) :
    Pending.into (P.map fun (source, _) => (source, EdgeKind.loopBack)) ⟨t, false⟩ =
      Pending.into P ⟨t, true⟩ := by
  simp [Pending.into, Cont.kind]

mutual

/-- Lowering leaves pending exactly the exits of the statement. -/
theorem lower_exits : ∀ (s : Stmt) (inc : Pending) (st : Lowering),
    (lower s inc st).1 = s.exits st.graph.nodes.size inc
  | .block items, inc, st => by
    simpa only [lower, openScope_graph, advance_graph, Stmt.exits] using
      lowerAll_exits items inc st.advance.openScope
  | .declare _ _, inc, st | .assign _ _, inc, st | .ret _, inc, st | .expr _, inc, st => by
    simp [lower, Stmt.exits]
  | .ifThen _ t, inc, st => by
    simp [lower, Stmt.exits, lower_exits t]
  | .ifElse _ t e, inc, st => by
    simp [lower, Stmt.exits, lower_exits t, lower_exits e, lower_nodes_size]
  | .loop _ body, inc, st => by simp [lower, Stmt.exits]

theorem lowerAll_exits : ∀ (items : List Stmt) (inc : Pending) (st : Lowering),
    (lowerAll items inc st).1 = Stmt.exitsAll items st.graph.nodes.size inc
  | [], inc, st => rfl
  | s :: rest, inc, st => by
    simp only [lowerAll, Stmt.exitsAll, lowerAll_exits rest, lower_exits s, lower_nodes_size]

end

mutual

/-- **Lowering a statement offers its `edgesIn`.** Between any two nodes the graph keeps the
first kind among its old edges and then those the statement offers. -/
theorem lower_triples : ∀ (s : Stmt) (inc : Pending) (st : Lowering), st.Indexed inc →
    firstKind (lower s inc st).2.graph.triples =
      firstKind (st.graph.triples ++ s.edgesIn st.graph.nodes.size inc)
  | .block items, inc, st, h => by
    simpa only [lower, restore_graph, openScope_graph, advance_graph, Stmt.edgesIn] using
      lowerAll_triples items inc st.advance.openScope h.advance.openScope
  | .declare _ _, inc, st, h | .assign _ _, inc, st, h | .expr _, inc, st, h => by
    simpa [lower, Stmt.edgesIn] using triples_addNode_graph h.advance _
  | .ret _, inc, st, h => by
    simpa [lower, Stmt.edgesIn] using triples_addNode_graph h.advance _
  | .ifThen c t, inc, st, h => by
    -- the node first, then the then branch entered from its true edge
    have h₁ := indexed_addNode h.advance ⟨some (.ifThen c t), .branch, none, some st.next⟩ .onTrue
    rw [advance_graph] at h₁
    simp only [lower, restore_graph, Stmt.edgesIn, addNode_snd, advance_graph]
    rw [lower_triples t _ _ h₁.openScope, openScope_graph,
      firstKind_append_right (triples_addNode_graph h.advance _),
      addNode_graph_nodes, advance_graph, Array.size_push, List.append_assoc]
  | .ifElse c t e, inc, st, h => by
    -- the else branch is lowered from the graph the then branch leaves, numbered after it
    have h₁ := indexed_addNode h.advance ⟨some (.ifElse c t e), .branch, none, some st.next⟩
      .onTrue
    have h₃ := (lower_indexed t _ _ h₁.openScope).elseEntry
    rw [advance_graph] at h₁ h₃
    simp only [lower, restore_graph, Stmt.edgesIn, addNode_snd, advance_graph]
    rw [lower_triples e _ _ h₃, openScope_graph, restore_graph,
      firstKind_append_right (lower_triples t _ _ h₁.openScope), openScope_graph,
      firstKind_append_right (firstKind_append_right (triples_addNode_graph h.advance _) _),
      lower_nodes_size, addNode_graph_nodes, advance_graph, Array.size_push]
    simp only [openScope_graph, addNode_graph_nodes, advance_graph, Array.size_push,
      List.append_assoc]
  | .loop c body, inc, st, h => by
    -- the node, the body entered from its true edge, and last the body's exits sent back
    have h₁ := indexed_addNode h.advance ⟨some (.loop c body), .loop, none, some st.next⟩ .onTrue
    have hback := (lower_indexed body _ _ h₁.openScope).loopEntry
    have hlt := @self_lt_lower_addNode st.advance ⟨some (.loop c body), .loop, none, some st.next⟩
      body inc [(st.advance.graph.nodes.size, .onTrue)]
    simp only [advance_graph] at h₁ hback hlt
    simp only [lower, Stmt.edgesIn, addNode_snd, advance_graph]
    rw [firstKind_connect hback hlt,
      restore_graph, firstKind_append_right (lower_triples body _ _ h₁.openScope), openScope_graph,
      firstKind_append_right (firstKind_append_right (triples_addNode_graph h.advance _) _),
      lower_exits, into_backEdges, addNode_graph_nodes, advance_graph, Array.size_push]
    simp only [openScope_graph, addNode_graph_nodes, advance_graph, Array.size_push,
      List.append_assoc]

theorem lowerAll_triples : ∀ (items : List Stmt) (inc : Pending) (st : Lowering), st.Indexed inc →
    firstKind (lowerAll items inc st).2.graph.triples =
      firstKind (st.graph.triples ++ Stmt.edgesInAll items st.graph.nodes.size inc)
  | [], inc, st, _ => by simp [lowerAll, Stmt.edgesInAll]
  | s :: rest, inc, st, h => by
    -- the rest of the block is entered by the exits the first item leaves pending
    simp only [lowerAll, Stmt.edgesInAll]
    rw [lowerAll_triples rest _ _ (lower_indexed s inc st h),
      firstKind_append_right (lower_triples s inc st h), lower_exits, lower_nodes_size,
      List.append_assoc]

end

mutual

/-- Lowering never joins two nodes twice. -/
theorem lower_pairsUnique : ∀ (s : Stmt) (inc : Pending) (st : Lowering), st.Indexed inc →
    st.graph.PairsUnique → (lower s inc st).2.graph.PairsUnique
  | .block items, inc, st, hi, h =>
    lowerAll_pairsUnique items inc st.advance.openScope hi.advance.openScope h
  | .declare _ _, inc, st, hi, h => pairsUnique_bind (pairsUnique_addNode hi.advance h _) _ _
  | .assign _ _, inc, st, hi, h => by
    -- resolving the name may add a variable, never an edge
    simp only [lower]
    refine pairsUnique_bind ?_ _ _
    rw [Digraph.PairsUnique, resolve_graph]
    exact pairsUnique_addNode hi.advance h _
  | .ret _, _, _, hi, h | .expr _, _, _, hi, h => pairsUnique_addNode hi.advance h _
  | .ifThen c t, inc, st, hi, h =>
    lower_pairsUnique t _ _
      (indexed_addNode hi.advance ⟨some (.ifThen c t), .branch, none, some st.next⟩
        .onTrue).openScope
      (pairsUnique_addNode hi.advance h _)
  | .ifElse c t e, inc, st, hi, h => by
    have h₁ := indexed_addNode hi.advance ⟨some (.ifElse c t e), .branch, none, some st.next⟩
      .onTrue
    exact lower_pairsUnique e _ _ (lower_indexed t _ _ h₁.openScope).elseEntry
      (lower_pairsUnique t _ _ h₁.openScope (pairsUnique_addNode hi.advance h _))
  | .loop c body, inc, st, hi, h => by
    have h₁ := indexed_addNode hi.advance ⟨some (.loop c body), .loop, none, some st.next⟩ .onTrue
    simp only [lower]
    refine pairsUnique_connect ?_ (lower_indexed body _ _ h₁.openScope).loopEntry
      (self_lt_lower_addNode _ _ _ _)
    exact lower_pairsUnique body _ _ h₁.openScope (pairsUnique_addNode hi.advance h _)

theorem lowerAll_pairsUnique : ∀ (items : List Stmt) (inc : Pending) (st : Lowering),
    st.Indexed inc → st.graph.PairsUnique → (lowerAll items inc st).2.graph.PairsUnique
  | [], _, _, _, h => h
  | s :: rest, inc, st, hi, h =>
    lowerAll_pairsUnique rest _ _ (lower_indexed s inc st hi) (lower_pairsUnique s inc st hi h)

end

end Lowering

namespace Procedure

open Lowering

/-- Between any two nodes, a procedure's graph has the kind the rules give. -/
theorem firstKind_lower_triples (p : Procedure) :
    firstKind p.lower.graph.triples = firstKind p.edgeRules := by
  obtain ⟨h₁, h₂, hexit, h₃⟩ := lower_stages_indexed p
  have hbody := lower_triples p.body [] (ofParams p.params).openScope
    (indexed_ofParams _).openScope
  -- the exit node is numbered right after the body, out of the body's range
  have hrules := Stmt.firstKind_edgesIn_exits p.body 0 [] ⟨p.body.nodeCount, false⟩
    (Or.inr (by simp))
  simp only [openScope_graph, ofParams_graph, Digraph.triples_empty, Array.size_empty,
    List.nil_append] at hbody
  -- the body's edges, then its exits into the exit node, then the returns into it
  simp only [Procedure.lower, Procedure.assemble]
  rw [firstKind_connect h₃ (by simpa using hexit), firstKind_append_right (firstKind_connect h₂ hexit),
    firstKind_append_right (firstKind_append_right (triples_addNode_graph (Indexed.nil h₁.wf) _) _)]
  simp only [connect_returns, addNode_returns, restore_returns, lower_returns, openScope_returns,
    ofParams_returns, addNode_snd, restore_graph, lower_nodes_size, openScope_graph, ofParams_graph,
    lower_exits, Array.size_empty,
    Nat.zero_add, Pending.into_nil, List.append_nil, List.nil_append]
  rw [firstKind_append_right (firstKind_append_right hbody _), firstKind_append_right hrules]
  simp [Procedure.edgeRules, Pending.into, Cont.kind, Function.comp_def]

/-- A procedure's graph never joins two nodes twice. -/
theorem lower_pairsUnique (p : Procedure) : p.lower.graph.PairsUnique := by
  obtain ⟨h₁, h₂, hexit, h₃⟩ := lower_stages_indexed p
  have hempty : (ofParams p.params).graph.PairsUnique := by
    rw [Digraph.PairsUnique, ofParams_graph, Digraph.triples_empty]
    exact List.Pairwise.nil
  simp only [Procedure.lower, Procedure.assemble]
  refine pairsUnique_connect (pairsUnique_connect (pairsUnique_addNode (Indexed.nil h₁.wf) ?_ _)
    h₂ hexit) h₃ (by simpa using hexit)
  exact Lowering.lower_pairsUnique p.body [] _ (indexed_ofParams _).openScope hempty

/-- **A built graph has the rules' edges.** A procedure that builds has an edge from `a` to `u`
of kind `k` exactly when the rules give one, and no two of its edges join the same nodes. -/
theorem build_triples_iff_edgeRules {p : Procedure} {cfg : ControlFlowGraph}
    (h : p.build = .ok cfg) :
    (∀ r, r ∈ cfg.graph.triples ↔ r ∈ p.edgeRules) ∧ cfg.graph.PairsUnique := by
  obtain ⟨-, rfl⟩ := build_eq_ok.mp h
  refine ⟨fun ⟨a, u, k⟩ => ?_, lower_pairsUnique p⟩
  -- both lists join two nodes at most once, so membership is the first kind between them
  rw [mem_iff_firstKind (lower_pairsUnique p), mem_iff_firstKind (edgeRules_pairwise p),
    firstKind_lower_triples]

theorem build_triples_iff_edgeRules_branches :
    let p : Procedure := ⟨"f", ["x"], .block [.ifElse (.name "x") (.block []) (.block []),
      .loop (.name "x") (.block [.ret none]), .expr (.name "x")]⟩
    p.build = .ok p.lower ∧
      ((∀ r, r ∈ p.lower.graph.triples ↔ r ∈ p.edgeRules) ∧ p.lower.graph.PairsUnique) := by
  intro p
  have hbuild : p.build = .ok p.lower := Procedure.build_eq_ok.mpr ⟨rfl, rfl⟩
  exact ⟨hbuild, build_triples_iff_edgeRules hbuild⟩

/-- A conditional whose branches are both empty has only its true edge to what follows. -/
example : (Procedure.lower ⟨"f", [], .ifElse (.name "c") (.block []) (.block [])⟩).graph.triples =
    [(0, 1, .onTrue)] := by
  decide +kernel

end Procedure

end ReachingDefs
