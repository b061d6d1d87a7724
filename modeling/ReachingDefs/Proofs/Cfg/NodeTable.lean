import ReachingDefs.Proofs.Cfg.Layout
import ReachingDefs.Proofs.Cfg.Refusal

/-!
# The node table of a built graph

A procedure's graph numbers the statements of its body that are not blocks, in source pre-order
and from zero, and gives the exit the next number. So node `i` carries the `i`-th such statement
and that statement's kind, the exit comes last with no statement, and execution starts at node
zero, which is the exit itself when the body has no statement. Going the other way, a statement
is found by its address, its position in the pre-order of the body: the look-up reads the
addresses the nodes carry, finds none at a block or past the end of the body, and finds node `i`
at the address of the `i`-th statement that is not a block. Listing the nodes of one kind lists,
in increasing order, exactly the nodes of that kind.

None of this is bookkeeping of one definition: nodes are allocated, and given their addresses,
as a side effect of a recursion that also opens scopes and wires edges, while the statements'
order is that of the syntax. `Stmt.nodeStmts_eq_filter` is where the two meet.

## Main definitions

* `Stmt.nodeAddresses`: the positions of the statements of a pre-order that become nodes

## Main results

* `Stmt.nodeStmts_eq_filter`: the statements that become nodes are the pre-order less its blocks
* `ControlFlowGraph.nodeFor_eq_some_iff`: the look-up by address reads the address table
* `Procedure.lower_nodeFor_preorder`: the look-up numbers the pre-order
* `ControlFlowGraph.mem_nodesOfKind`, `ControlFlowGraph.nodesOfKind_sorted`: the nodes of a kind
* `Procedure.build_nodes_preorder`: the node table of a built graph
-/

namespace ReachingDefs

/-! ## The statements that become nodes -/

mutual

/-- **The statements that become nodes are those of the pre-order that are not blocks.** -/
theorem Stmt.nodeStmts_eq_filter :
    ∀ s : Stmt, s.nodeStmts = s.preorder.filter fun t => !t.isBlock
  | .block items => by
    simp [Stmt.nodeStmts, Stmt.preorder, Stmt.isBlock, Stmt.nodeStmtsAll_eq_filter items]
  | .ifThen _ t => by
    simp [Stmt.nodeStmts, Stmt.preorder, Stmt.isBlock, Stmt.nodeStmts_eq_filter t]
  | .ifElse _ t e => by
    simp [Stmt.nodeStmts, Stmt.preorder, Stmt.isBlock, Stmt.nodeStmts_eq_filter t,
      Stmt.nodeStmts_eq_filter e]
  | .loop _ body => by
    simp [Stmt.nodeStmts, Stmt.preorder, Stmt.isBlock, Stmt.nodeStmts_eq_filter body]
  | .declare _ _ | .assign _ _ | .ret _ | .expr _ => by
    simp [Stmt.nodeStmts, Stmt.preorder, Stmt.isBlock]

theorem Stmt.nodeStmtsAll_eq_filter :
    ∀ items : List Stmt, Stmt.nodeStmtsAll items = (Stmt.preorderAll items).filter fun t => !t.isBlock
  | [] => rfl
  | s :: rest => by
    simp [Stmt.nodeStmtsAll, Stmt.nodeStmts_eq_filter s, Stmt.nodeStmtsAll_eq_filter rest]

end

/-! ## Addresses -/

/-- The positions in `L` of its statements that are not blocks. Over a body's pre-order these are
the addresses of the statements that become nodes, in the order of their nodes. -/
def Stmt.nodeAddresses (L : List Stmt) : List Nat :=
  ((L.zipIdx).filter fun e => !e.1.isBlock).map (·.2)

namespace Stmt

/-- A position is an address exactly when a statement that is not a block stands there. -/
theorem mem_nodeAddresses (L : List Stmt) (a : Nat) :
    a ∈ Stmt.nodeAddresses L ↔ ∃ s, L[a]? = some s ∧ s.isBlock = false := by
  simp [nodeAddresses, List.mem_zipIdx_iff_getElem?]

/-- No two statements share an address. -/
theorem nodup_nodeAddresses (L : List Stmt) : (Stmt.nodeAddresses L).Nodup := by
  have hsub : (Stmt.nodeAddresses L).Sublist (L.zipIdx.map (·.2)) := List.filter_sublist.map _
  rw [List.zipIdx_map_snd] at hsub
  exact hsub.nodup List.nodup_range'

end Stmt

namespace ControlFlowGraph

variable (cfg : ControlFlowGraph)

/-- A graph whose nodes carry the addresses `A`, then none, lists in its address table each
address of `A` with its position. -/
theorem byAddress_eq {A : List Nat}
    (h : cfg.graph.nodes.toList.map CfgNode.address = A.map some ++ [none]) :
    cfg.byAddress = A.zipIdx := by
  have hmap : cfg.byAddress =
      ((cfg.graph.nodes.toList.map CfgNode.address).zipIdx).filterMap fun e => e.1.map (·, e.2) := by
    simp [byAddress, List.zipIdx_map, List.filterMap_map]
  rw [hmap, h, List.zipIdx_append, List.filterMap_append, List.zipIdx_map, List.filterMap_map]
  simp

/-- **The look-up by address reads the address table.** When no address is listed twice, it
finds a node for an address exactly when the table lists the two together. -/
theorem nodeFor_eq_some_iff (hnodup : (cfg.byAddress.map Prod.fst).Nodup) (a i : Nat) :
    cfg.nodeFor a = some i ↔ (a, i) ∈ cfg.byAddress := by
  -- the fold keeps the last node listed with `a`, and the one it started from if there is none
  suffices ∀ (T : List (Nat × Nat)) (init : Option Nat), (T.map Prod.fst).Nodup →
      (T.foldl (fun found e => if e.1 = a then some e.2 else found) init = some i ↔
        (a, i) ∈ T ∨ (a ∉ T.map Prod.fst ∧ init = some i)) by
    simpa [nodeFor] using this cfg.byAddress none hnodup
  intro T
  induction T with
  | nil => simp
  | cons e rest ih =>
    intro init hnd
    obtain ⟨hfresh, hrest⟩ := List.nodup_cons.mp hnd
    rw [List.foldl_cons, ih _ hrest]
    by_cases he : e.1 = a
    · -- `a` is listed here and nowhere after
      subst he
      have hout : ∀ j, (e.1, j) ∉ rest := fun j hj => hfresh (List.mem_map.mpr ⟨_, hj, rfl⟩)
      obtain ⟨k, w⟩ := e
      simp_all [eq_comm]
    · have hne : ∀ j, (a, j) ≠ e := fun j hj => he (by rw [← hj])
      simp [he, hne, Ne.symm he]

end ControlFlowGraph

namespace Procedure

open Lowering

/-- The addresses of a procedure's nodes: those of the statements of the body that become nodes,
in order, then none for the exit. -/
theorem lower_addresses (p : Procedure) :
    p.lower.graph.nodes.toList.map CfgNode.address =
      (Stmt.nodeAddresses p.body.preorder).map some ++ [none] := by
  simp [Procedure.lower, Procedure.assemble, Lowering.lower_addresses, Stmt.nodeAddresses,
    CfgNode.exitNode, Function.comp_def]

/-- The look-up by address finds node `i` for an address exactly when `i` numbers, among the
statements of the body that become nodes, the one standing at that address. -/
theorem lower_nodeFor_eq_some_iff (p : Procedure) (a i : Nat) :
    p.lower.nodeFor a = some i ↔ (Stmt.nodeAddresses p.body.preorder)[i]? = some a := by
  have htable := p.lower.byAddress_eq (lower_addresses p)
  have hnodup : (p.lower.byAddress.map Prod.fst).Nodup := by
    rw [htable, List.zipIdx_map_fst]
    exact Stmt.nodup_nodeAddresses _
  rw [p.lower.nodeFor_eq_some_iff hnodup, htable, List.mem_zipIdx_iff_getElem?]

/-- The look-up by address finds no node exactly where no statement that becomes a node stands:
at a block, or past the end of the body. -/
theorem lower_nodeFor_eq_none_iff (p : Procedure) (a : Nat) :
    p.lower.nodeFor a = none ↔ ∀ s, p.body.preorder[a]? = some s → s.isBlock = true := by
  rw [Option.eq_none_iff_forall_ne_some]
  simp only [ne_eq, lower_nodeFor_eq_some_iff]
  constructor
  · intro h s hs
    by_contra hb
    obtain ⟨i, hi, hget⟩ := List.getElem_of_mem
      ((Stmt.mem_nodeAddresses _ a).mpr ⟨s, hs, by simpa using hb⟩)
    exact h i (by rw [List.getElem?_eq_getElem hi, hget])
  · intro h i hi
    obtain ⟨s, hs, hb⟩ := (Stmt.mem_nodeAddresses _ a).mp (List.mem_of_getElem? hi)
    simp [h s hs] at hb

/-- Walking the body's pre-order with each statement's address, the look-up pairs the `i`-th
statement that is not a block with node `i`, and passes over the blocks. -/
theorem lower_nodeFor_preorder (p : Procedure) :
    (p.body.preorder.zipIdx.filterMap fun e => (p.lower.nodeFor e.2).map (e.1, ·)) =
      (p.body.preorder.filter fun s => !s.isBlock).zipIdx := by
  set P := p.body.preorder
  set Q := P.zipIdx.filter fun e => !e.1.isBlock
  set G : Stmt × Nat → Option (Stmt × Nat) := fun e => (p.lower.nodeFor e.2).map (e.1, ·)
  -- the statements of `Q` are those of `P` that are not blocks
  have hQ : Q.map Prod.fst = P.filter fun s => !s.isBlock := by
    conv_rhs => rw [← List.zipIdx_map_fst 0 P]
    rw [List.filter_map]
    rfl
  -- a block's look-up finds nothing, so only the entries of `Q` count
  have hblocks : P.zipIdx.filterMap G = Q.filterMap G := by
    rw [List.filterMap_filter]
    refine List.filterMap_congr fun e he => ?_
    cases hb : e.1.isBlock
    · rfl
    · have hnone := (lower_nodeFor_eq_none_iff p e.2).mpr fun s hs => by
        rw [List.mem_zipIdx_iff_getElem?.mp he, Option.some.injEq] at hs
        rwa [← hs]
      simp [G, hnone]
  -- the `k`-th entry of `Q` is found at node `k`
  have hfound : ∀ x ∈ Q.zipIdx, G x.1 = some (x.1.1, x.2) := by
    intro x hx
    have hat : Q[x.2]? = some x.1 := List.mem_zipIdx_iff_getElem?.mp hx
    have hi : (Stmt.nodeAddresses P)[x.2]? = some x.1.2 := by
      simp [Stmt.nodeAddresses, Q, hat]
    simp only [G, (lower_nodeFor_eq_some_iff p _ _).mpr hi, Option.map_some]
  calc P.zipIdx.filterMap G
      = Q.filterMap G := hblocks
    _ = (Q.zipIdx.map Prod.fst).filterMap G := by rw [List.zipIdx_map_fst]
    _ = Q.zipIdx.map (Prod.map Prod.fst id) := by
      rw [List.filterMap_map]
      exact List.filterMap_eq_map_iff_forall_eq_some.mpr hfound
    _ = (P.filter fun s => !s.isBlock).zipIdx := by rw [← hQ, List.zipIdx_map]

end Procedure

/-! ## The nodes of a kind -/

namespace ControlFlowGraph

variable (cfg : ControlFlowGraph)

theorem mem_nodesOfKind (k : NodeKind) (v : Nat) :
    v ∈ cfg.nodesOfKind k ↔ ∃ n, cfg.node? v = some n ∧ n.kind = k := by
  simp only [nodesOfKind, List.mem_map, List.mem_filter, beq_iff_eq]
  constructor
  · rintro ⟨⟨n, w⟩, ⟨hmem, hk⟩, rfl⟩
    exact ⟨n, by simpa [node?, Digraph.node?] using List.mem_zipIdx_iff_getElem?.mp hmem, hk⟩
  · rintro ⟨n, hn, hk⟩
    refine ⟨(n, v), ⟨List.mem_zipIdx_iff_getElem?.mpr ?_, hk⟩, rfl⟩
    simpa [node?, Digraph.node?] using hn

/-- The nodes of a kind come in increasing order: they are picked from the numbering. -/
theorem nodesOfKind_sorted (k : NodeKind) : (cfg.nodesOfKind k).Pairwise (· < ·) := by
  have hsub : (cfg.nodesOfKind k).Sublist (cfg.graph.nodes.toList.zipIdx.map (·.2)) :=
    List.filter_sublist.map _
  rw [List.zipIdx_map_snd] at hsub
  exact (List.pairwise_lt_range' 1).sublist hsub

end ControlFlowGraph

/-! ## The node table of a built graph -/

namespace Procedure

/-- What node `v` of a procedure's graph shows: the `v`-th statement of the body that becomes a
node, or the exit right after them. -/
theorem lower_node?_shape (p : Procedure) (v : Nat) :
    (p.lower.node? v).map CfgNode.shape =
      (p.body.nodeStmts.map Stmt.nodeShape ++ [CfgNode.exitNode.shape])[v]? := by
  rw [← lower_shapes]
  simp [ControlFlowGraph.node?, Digraph.node?]

/-- A node that shows a statement and a kind carries them. -/
theorem exists_node_of_shape {p : Procedure} {v : Nat} {t : Option Stmt} {k : Option NodeKind}
    (h : (p.lower.node? v).map CfgNode.shape = some (t, k)) :
    ∃ n, p.lower.node? v = some n ∧ n.stmt = t ∧ some n.kind = k := by
  obtain ⟨n, hn, hshape⟩ := Option.map_eq_some_iff.mp h
  simp only [CfgNode.shape, Prod.mk.injEq] at hshape
  exact ⟨n, hn, hshape.1, hshape.2⟩

/-- The statements of a procedure's nodes: those of the body that become nodes, in pre-order,
then none for the exit. -/
theorem lower_stmts (p : Procedure) :
    p.lower.graph.nodes.toList.map (·.stmt) = p.body.nodeStmts.map some ++ [none] := by
  have := congrArg (List.map Prod.fst) (lower_shapes p)
  simpa [List.map_map, Function.comp_def, CfgNode.shape, Stmt.nodeShape, CfgNode.exitNode] using
    this

/-- A node that carries a statement carries the statement of the body numbered as it is. -/
theorem getElem?_nodeStmts_of_node {p : Procedure} {n : Nat} {node : CfgNode} {s : Stmt}
    (hn : p.lower.node? n = some node) (hs : node.stmt = some s) :
    p.body.nodeStmts[n]? = some s := by
  have h := congrArg (·[n]?) (lower_stmts p)
  simp only [List.getElem?_map, Array.getElem?_toList] at h
  rw [show p.lower.graph.nodes[n]? = some node from hn, Option.map_some, hs] at h
  rcases Nat.lt_or_ge n p.body.nodeStmts.length with hlt | hge
  · rw [List.getElem?_append_left (by simpa using hlt), List.getElem?_map] at h
    exact Option.map_injective (fun _ _ => Option.some.inj) h.symm
  · -- past the body's statements there is only the exit, which carries none
    rw [List.getElem?_append_right (by simpa using hge), List.getElem?_singleton] at h
    split at h <;> cases h

/-- **The node table of a built graph.** Let `S` list the statements of the body that are not
blocks, in source pre-order. The graph has `|S| + 1` nodes; node `i` carries `S[i]` and its kind;
the exit is node `|S|`, of kind exit and with no statement; execution starts at node zero, or at
the exit when `S` is empty. The look-up from the statements of the body, in pre-order, to their
nodes gives a block none and `S[i]` node `i`. The nodes of each kind are listed in increasing
order, and they are exactly the nodes of that kind. -/
theorem build_nodes_preorder {p : Procedure} {cfg : ControlFlowGraph}
    (hbuild : p.build = .ok cfg) :
    let S := p.body.preorder.filter fun s => !s.isBlock
    cfg.nodeCount = S.length + 1 ∧
      (∀ i (h : i < S.length),
        ∃ n, cfg.node? i = some n ∧ n.stmt = some S[i] ∧ some n.kind = S[i].kind?) ∧
      cfg.exit = S.length ∧
      (∃ n, cfg.node? S.length = some n ∧ n.stmt = none ∧ n.kind = .exit) ∧
      cfg.start = (if S = [] then cfg.exit else 0) ∧
      (p.body.preorder.zipIdx.filterMap fun e => (cfg.nodeFor e.2).map (e.1, ·)) = S.zipIdx ∧
      (∀ a (h : a < p.body.preorder.length),
        cfg.nodeFor a = none ↔ p.body.preorder[a].isBlock = true) ∧
      (∀ a, p.body.preorder.length ≤ a → cfg.nodeFor a = none) ∧
      ∀ k, (cfg.nodesOfKind k).Pairwise (· < ·) ∧
        ∀ v, v ∈ cfg.nodesOfKind k ↔ ∃ n, cfg.node? v = some n ∧ n.kind = k := by
  intro S
  obtain ⟨-, rfl⟩ := build_eq_ok.mp hbuild
  have hS : p.body.nodeStmts = S := Stmt.nodeStmts_eq_filter p.body
  have hlen : S.length = p.body.nodeCount := by rw [← hS, Stmt.length_nodeStmts]
  refine ⟨by rw [lower_nodeCount, hlen], fun i hi => ?_, by rw [lower_exit, hlen], ?_, ?_,
    lower_nodeFor_preorder p, fun a ha => ?_, fun a ha => ?_,
    fun k => ⟨p.lower.nodesOfKind_sorted k, p.lower.mem_nodesOfKind k⟩⟩
  · -- a statement's node, read off the layout
    apply exists_node_of_shape
    rw [lower_node?_shape, hS, List.getElem?_append_left (by simpa using hi)]
    simp [Stmt.nodeShape]
  · -- the exit, right after them
    have hexit : (p.lower.node? S.length).map CfgNode.shape = some (none, some .exit) := by
      rw [lower_node?_shape, hS, List.getElem?_append_right (by simp)]
      simp [CfgNode.shape, CfgNode.exitNode]
    obtain ⟨n, hn, hstmt, hkind⟩ := exists_node_of_shape hexit
    exact ⟨n, hn, hstmt, Option.some.inj hkind⟩
  · rw [lower_start, lower_exit, ← hlen]
    split <;> simp_all
  · rw [lower_nodeFor_eq_none_iff, List.getElem?_eq_getElem ha]
    simp
  · rw [lower_nodeFor_eq_none_iff, List.getElem?_eq_none ha]
    simp

/-- A body with an empty block, a block inside a branch, a return as a branch and a loop: the
blocks get no node, the other statements are numbered as they come, and the exit is node six. -/
theorem build_nodes_preorder_nested :
    let p : Procedure := ⟨"f", ["a"], .block [.declare "x" (some (.name "a")), .block [],
      .ifElse (.name "x") (.block [.assign "x" (.literal "1")]) (.ret none),
      .loop (.name "x") (.expr (.other "g()"))]⟩
    let S := p.body.preorder.filter fun s => !s.isBlock
    p.build = .ok p.lower ∧
      (p.lower.nodeCount = S.length + 1 ∧
        (∀ i (h : i < S.length),
          ∃ n, p.lower.node? i = some n ∧ n.stmt = some S[i] ∧ some n.kind = S[i].kind?) ∧
        p.lower.exit = S.length ∧
        (∃ n, p.lower.node? S.length = some n ∧ n.stmt = none ∧ n.kind = .exit) ∧
        p.lower.start = (if S = [] then p.lower.exit else 0) ∧
        (p.body.preorder.zipIdx.filterMap fun e => (p.lower.nodeFor e.2).map (e.1, ·)) =
          S.zipIdx ∧
        (∀ a (h : a < p.body.preorder.length),
          p.lower.nodeFor a = none ↔ p.body.preorder[a].isBlock = true) ∧
        (∀ a, p.body.preorder.length ≤ a → p.lower.nodeFor a = none) ∧
        ∀ k, (p.lower.nodesOfKind k).Pairwise (· < ·) ∧
          ∀ v, v ∈ p.lower.nodesOfKind k ↔ ∃ n, p.lower.node? v = some n ∧ n.kind = k) := by
  intro p S
  have hbuild : p.build = .ok p.lower := build_eq_ok.mpr ⟨rfl, rfl⟩
  exact ⟨hbuild, build_nodes_preorder hbuild⟩

/-- The look-up of that body, address by address in pre-order. -/
example : let p : Procedure := ⟨"f", ["a"], .block [.declare "x" (some (.name "a")), .block [],
      .ifElse (.name "x") (.block [.assign "x" (.literal "1")]) (.ret none),
      .loop (.name "x") (.expr (.other "g()"))]⟩
    (List.range 10).map p.lower.nodeFor =
      [none, some 0, none, some 1, none, some 2, some 3, some 4, some 5, none] := by
  decide +kernel

end Procedure

end ReachingDefs
