import Mathlib.Data.List.Basic
import ReachingDefs.Graph.Digraph

/-!
# The edge arena of a graph

A graph keeps its edges in one arena and, for every node, the arena positions of the edges
leaving it and of those entering it. The position lists are only ever extended together with the
arena, by the one operation that adds an edge, and only once both ends are known to be nodes.
So in every graph built by adding nodes and edges the lists index the arena exactly
(`Digraph.WF`): a node's list holds, in order, the positions of the edges with that source (or
target), and every edge joins two nodes. Read through the lists, the successors, predecessors
and outgoing edges of a node are then the arena's edges from (or to) it, in insertion order.

A client only ever adds nodes and edges. What a sequence of such calls builds can be read off
the calls alone: one node per node call, and the edges of the edge calls whose ends were both
added by earlier calls, in call order (`GraphCall.edgesAdded`).

## Main definitions

* `Digraph.positions`: the arena positions of the edges that pass a test
* `Digraph.WF`: the position lists of a graph index its arena
* `GraphCall`, `Digraph.replay`: node and edge additions, and the graph a sequence of them builds
* `GraphCall.nodesAdded`, `GraphCall.edgesAdded`: what a sequence of calls adds

## Main results

* `Digraph.WF.addNode`, `Digraph.WF.link`: adding a node, or an edge between two nodes, keeps
  the arena indexed
* `Digraph.WF.successors_eq`, `Digraph.WF.predecessors_eq`, `Digraph.WF.outgoing_eq`: the
  adjacency lists of an indexed graph
* `Digraph.replay_adjacency`: every sequence of calls builds the graph of the edges it adds
-/

namespace ReachingDefs

variable {N E : Type}

namespace Digraph

/-- The arena positions of the edges that pass `p`, oldest first. -/
def positions (g : Digraph N E) (p : Edge E → Bool) : List Nat :=
  (g.edges.toList.zipIdx.filter fun x => p x.1).map (·.2)

/-- The position lists of a graph index its arena: there is one list per node, the list of a
node holds the positions of exactly the edges leaving (entering) it, in order, and every edge
joins two nodes. -/
structure WF (g : Digraph N E) : Prop where
  outgoing_size : g.outgoingIds.size = g.nodeCount
  incoming_size : g.incomingIds.size = g.nodeCount
  outPositions_eq : ∀ v, g.outPositions v = g.positions (·.source == v)
  inPositions_eq : ∀ v, g.inPositions v = g.positions (·.target == v)
  ends_lt : ∀ e ∈ g.edges, e.source < g.nodeCount ∧ e.target < g.nodeCount

/-! ## Positions -/

@[simp] theorem positions_addNode (g : Digraph N E) (label : N) (p : Edge E → Bool) :
    (g.addNode label).1.positions p = g.positions p := rfl

theorem positions_link (g : Digraph N E) (s t : Nat) (label : E) (p : Edge E → Bool) :
    (g.link s t label).positions p =
      g.positions p ++ if p ⟨s, t, label⟩ then [g.edges.size] else [] := by
  simp only [positions, link, Array.toList_push, List.zipIdx_append, List.zipIdx_singleton,
    List.filter_append, List.map_append, Nat.zero_add, Array.length_toList]
  congr 1
  by_cases hp : p ⟨s, t, label⟩ <;> simp [hp]

/-- No edge passes a test that no edge of the arena passes. -/
theorem positions_eq_nil {g : Digraph N E} {p : Edge E → Bool}
    (h : ∀ e ∈ g.edges, p e = false) : g.positions p = [] := by
  simp only [positions, List.map_eq_nil_iff, List.filter_eq_nil_iff]
  intro x hx
  have hmem : x.1 ∈ g.edges := Array.mem_def.mpr (List.fst_mem_of_mem_zipIdx hx)
  simp [h x.1 hmem]

/-- Reading the edges at the positions of a test gives the edges that pass it, in order. -/
theorem filterMap_positions (g : Digraph N E) (p : Edge E → Bool) {α : Type}
    (f : Edge E → α) :
    (g.positions p).filterMap (fun i => g.edges[i]?.map f) = (g.edges.toList.filter p).map f := by
  -- each position in the list is where its edge lies
  have hat : ∀ x ∈ g.edges.toList.zipIdx.filter (fun x => p x.1),
      (fun i => g.edges[i]?.map f) x.2 = some (f x.1) := by
    intro x hx
    have hx' := (List.mem_filter.mp hx).1
    rw [List.mem_zipIdx_iff_getElem?] at hx'
    simp [← Array.getElem?_toList, hx']
  have hread : (g.edges.toList.zipIdx.filter fun x => p x.1).filterMap
      ((fun i => g.edges[i]?.map f) ∘ Prod.snd) =
        (g.edges.toList.zipIdx.filter fun x => p x.1).map (f ∘ Prod.fst) := by
    rw [← List.filterMap_eq_map]
    exact List.filterMap_congr hat
  -- the edges of the filtered positions are the filtered edges
  have hfst : (g.edges.toList.zipIdx.filter fun x => p x.1).map Prod.fst =
      g.edges.toList.filter p := by
    conv_rhs => rw [← List.zipIdx_map_fst 0 g.edges.toList]
    rw [List.filter_map]
    rfl
  rw [positions, List.filterMap_map, hread, ← List.map_map, hfst]

/-! ## The arena stays indexed -/

theorem WF.empty : ({} : Digraph N E).WF where
  outgoing_size := rfl
  incoming_size := rfl
  outPositions_eq _ := rfl
  inPositions_eq _ := rfl
  ends_lt _ h := by simp at h

/-- The list of a position array read at `v` once an empty list is pushed for a new node. -/
theorem getD_push_empty (ids : Array (Array Nat)) (v : Nat) :
    ((ids.push #[])[v]?.getD #[]).toList =
      if v = ids.size then [] else (ids[v]?.getD #[]).toList := by
  rw [Array.getElem?_push]
  split <;> rfl

/-- Adding a node keeps the arena indexed: the new node has no edges yet. -/
theorem WF.addNode {g : Digraph N E} (h : g.WF) (label : N) : (g.addNode label).1.WF where
  outgoing_size := by simp [Digraph.addNode, nodeCount, h.outgoing_size.trans rfl]
  incoming_size := by simp [Digraph.addNode, nodeCount, h.incoming_size.trans rfl]
  outPositions_eq v := by
    simp only [outPositions, Digraph.addNode, getD_push_empty]
    split
    · -- the new node: no edge of the arena leaves it
      rename_i hv
      refine (positions_eq_nil fun e he => ?_).symm
      have := (h.ends_lt e he).1
      have hsize := h.outgoing_size
      simp only [nodeCount] at hsize this
      simp only [beq_eq_false_iff_ne]
      omega
    · exact h.outPositions_eq v
  inPositions_eq v := by
    simp only [inPositions, Digraph.addNode, getD_push_empty]
    split
    · rename_i hv
      refine (positions_eq_nil fun e he => ?_).symm
      have := (h.ends_lt e he).2
      have hsize := h.incoming_size
      simp only [nodeCount] at hsize this
      simp only [beq_eq_false_iff_ne]
      omega
    · exact h.inPositions_eq v
  ends_lt e he := by
    have := h.ends_lt e he
    simp only [Digraph.addNode, nodeCount, Array.size_push] at this ⊢
    omega

/-- The list of a position array read at `v` once position `i` is added to the list of node
`u`, a node the array has a list for. -/
theorem getD_modify_push {ids : Array (Array Nat)} {u : Nat} (hu : u < ids.size) (i v : Nat) :
    ((ids.modify u (·.push i))[v]?.getD #[]).toList =
      (ids[v]?.getD #[]).toList ++ if u = v then [i] else [] := by
  rw [Array.getElem?_modify]
  split
  · rename_i huv
    subst huv
    simp [Array.getElem?_eq_getElem hu]
  · simp [*]

/-- Adding an edge between two nodes keeps the arena indexed: its position goes to the end of
the lists of its two ends. -/
theorem WF.link {g : Digraph N E} (h : g.WF) {s t : Nat} (hs : s < g.nodeCount)
    (ht : t < g.nodeCount) (label : E) : (g.link s t label).WF where
  outgoing_size := by simp [Digraph.link, h.outgoing_size, nodeCount]
  incoming_size := by simp [Digraph.link, h.incoming_size, nodeCount]
  outPositions_eq v := by
    rw [positions_link, ← h.outPositions_eq]
    simp only [outPositions, Digraph.link]
    rw [getD_modify_push (h.outgoing_size ▸ hs)]
    simp
  inPositions_eq v := by
    rw [positions_link, ← h.inPositions_eq]
    simp only [inPositions, Digraph.link]
    rw [getD_modify_push (h.incoming_size ▸ ht)]
    simp
  ends_lt e he := by
    rcases Array.mem_push.mp he with he | rfl
    · exact h.ends_lt e he
    · exact ⟨hs, ht⟩

/-- An accepted edge keeps the arena indexed. -/
theorem WF.addEdge {g g' : Digraph N E} (h : g.WF) {s t : Nat} {label : E}
    (hadd : g.addEdge s t label = .ok g') : g'.WF := by
  unfold Digraph.addEdge at hadd
  split at hadd
  · split at hadd
    · cases hadd
      exact h.link ‹_› ‹_› label
    · cases hadd
  · cases hadd

/-- Relabelling the nodes, their number kept, keeps the arena indexed. -/
theorem WF.withNodes {g : Digraph N E} (h : g.WF) {nodes : Array N}
    (hsize : nodes.size = g.nodes.size) : ({ g with nodes } : Digraph N E).WF where
  outgoing_size := h.outgoing_size.trans hsize.symm
  incoming_size := h.incoming_size.trans hsize.symm
  outPositions_eq := h.outPositions_eq
  inPositions_eq := h.inPositions_eq
  ends_lt e he := by
    simp only [nodeCount, hsize]
    exact h.ends_lt e he

/-! ## The adjacency lists of an indexed graph -/

/-- The number of times `m` is a target of an edge from `n` in a list of edges. -/
theorem count_targets (L : List (Edge E)) (n m : Nat) :
    ((L.filter (·.source == n)).map (·.target)).count m =
      L.countP fun e => e.source == n && e.target == m := by
  rw [List.count_eq_countP, List.countP_map, List.countP_filter]
  congr 1
  funext e
  simp [Bool.and_comm]

theorem count_sources (L : List (Edge E)) (n m : Nat) :
    ((L.filter (·.target == m)).map (·.source)).count n =
      L.countP fun e => e.source == n && e.target == m := by
  rw [List.count_eq_countP, List.countP_map, List.countP_filter]
  rfl

section Views

variable {g : Digraph N E} (h : g.WF)
include h

/-- The successors of a node are the targets of the edges from it, in insertion order. -/
theorem WF.successors_eq (v : Nat) :
    g.successors v = (g.edges.toList.filter (·.source == v)).map (·.target) := by
  rw [successors, h.outPositions_eq, filterMap_positions]

/-- The predecessors of a node are the sources of the edges into it, in insertion order. -/
theorem WF.predecessors_eq (v : Nat) :
    g.predecessors v = (g.edges.toList.filter (·.target == v)).map (·.source) := by
  rw [predecessors, h.inPositions_eq, filterMap_positions]

/-- The outgoing edges of a node are the edges from it, with their labels, in insertion order. -/
theorem WF.outgoing_eq (v : Nat) :
    g.outgoing v = (g.edges.toList.filter (·.source == v)).map fun e => (e.target, e.label) := by
  rw [outgoing, h.outPositions_eq, filterMap_positions]

/-- A handle past the nodes has no edges: every edge joins two nodes. -/
theorem WF.adjacency_eq_nil {v : Nat} (hv : g.nodeCount ≤ v) :
    g.successors v = [] ∧ g.predecessors v = [] ∧ g.outgoing v = [] := by
  have hnone : ∀ e ∈ g.edges.toList, e.source ≠ v ∧ e.target ≠ v := by
    intro e he
    have := h.ends_lt e (Array.mem_def.mpr he)
    omega
  refine ⟨?_, ?_, ?_⟩
  · rw [h.successors_eq, List.map_eq_nil_iff, List.filter_eq_nil_iff]
    intro e he
    simp [(hnone e he).1]
  · rw [h.predecessors_eq, List.map_eq_nil_iff, List.filter_eq_nil_iff]
    intro e he
    simp [(hnone e he).2]
  · rw [h.outgoing_eq, List.map_eq_nil_iff, List.filter_eq_nil_iff]
    intro e he
    simp [(hnone e he).1]

/-- Adjacency is mutual: `m` is a successor of `n` as often as `n` is a predecessor of `m`. -/
theorem WF.count_successors (n m : Nat) :
    (g.successors n).count m = (g.predecessors m).count n := by
  rw [h.successors_eq, h.predecessors_eq, count_targets, count_sources]

/-- Two nodes are joined exactly when an edge of the arena joins them. -/
theorem WF.containsEdge_iff_mem (n m : Nat) :
    g.containsEdge n m = true ↔ ∃ label, (⟨n, m, label⟩ : Edge E) ∈ g.edges.toList := by
  rw [containsEdge_iff, h.successors_eq]
  simp only [List.mem_map, List.mem_filter, beq_iff_eq]
  constructor
  · rintro ⟨e, ⟨he, rfl⟩, rfl⟩
    exact ⟨e.label, he⟩
  · rintro ⟨label, he⟩
    exact ⟨_, ⟨he, rfl⟩, rfl⟩

end Views

/-- An edge is refused exactly when one of its ends is not a node. -/
theorem addEdge_error_iff (g : Digraph N E) (s t : Nat) (label : E) :
    (∃ err, g.addEdge s t label = .error err) ↔ g.nodeCount ≤ s ∨ g.nodeCount ≤ t := by
  unfold Digraph.addEdge
  by_cases hs : s < g.nodeCount <;> by_cases ht : t < g.nodeCount <;> simp [hs, ht] <;> omega

end Digraph

/-! ## Sequences of calls -/

/-- A call that adds to a graph: a node with its label, or an edge with its ends and label. -/
inductive GraphCall (N E : Type) where
  | addNode (label : N)
  | addEdge (source target : Nat) (label : E)

namespace GraphCall

/-- Makes a call; a refused edge leaves the graph as it was. -/
def apply (g : Digraph N E) : GraphCall N E → Digraph N E
  | .addNode label => (g.addNode label).1
  | .addEdge s t label =>
    match g.addEdge s t label with
    | .ok g' => g'
    | .error _ => g

/-- The number of node calls. -/
def nodesAdded : List (GraphCall N E) → Nat
  | [] => 0
  | .addNode _ :: rest => nodesAdded rest + 1
  | .addEdge _ _ _ :: rest => nodesAdded rest

/-- The edges the calls add, in call order, when `count` nodes are there before them: an edge
call adds its edge when both its ends are nodes by then. -/
def edgesAdded (count : Nat) : List (GraphCall N E) → List (Edge E)
  | [] => []
  | .addNode _ :: rest => edgesAdded (count + 1) rest
  | .addEdge s t label :: rest =>
    (if s < count ∧ t < count then [⟨s, t, label⟩] else []) ++ edgesAdded count rest

theorem nodesAdded_cons (c : GraphCall N E) (rest : List (GraphCall N E)) :
    nodesAdded (c :: rest) = nodesAdded [c] + nodesAdded rest := by
  cases c with
  | addNode => simp only [nodesAdded]; omega
  | addEdge => simp only [nodesAdded]; omega

theorem edgesAdded_cons (count : Nat) (c : GraphCall N E) (rest : List (GraphCall N E)) :
    edgesAdded count (c :: rest) =
      edgesAdded count [c] ++ edgesAdded (count + nodesAdded [c]) rest := by
  cases c <;> simp [edgesAdded, nodesAdded]

/-- One call on an indexed graph: it stays indexed, a node call adds one node, and an edge call
adds its edge exactly when both ends are nodes. -/
theorem apply_spec {g : Digraph N E} (h : g.WF) (c : GraphCall N E) :
    (apply g c).WF ∧ (apply g c).nodeCount = g.nodeCount + nodesAdded [c] ∧
      (apply g c).edges.toList = g.edges.toList ++ edgesAdded g.nodeCount [c] := by
  cases c with
  | addNode label =>
    refine ⟨h.addNode label, by simp [apply, nodesAdded], ?_⟩
    simp [apply, Digraph.addNode, edgesAdded]
  | addEdge s t label =>
    by_cases hst : s < g.nodeCount ∧ t < g.nodeCount
    · -- accepted: the edge goes to the end of the arena
      have hok := Digraph.addEdge_of_lt label hst.1 hst.2
      simp only [apply, hok, nodesAdded, edgesAdded, if_pos hst, List.append_nil]
      exact ⟨h.link hst.1 hst.2 label, rfl, by simp [Digraph.link]⟩
    · -- refused: nothing changes
      obtain ⟨err, herr⟩ := (Digraph.addEdge_error_iff g s t label).mpr (by omega)
      simp only [apply, herr, nodesAdded, edgesAdded, if_neg hst, List.append_nil]
      exact ⟨h, by simp, by simp⟩

/-- An edge call leaves the graph as it was exactly when it is refused. -/
theorem apply_addEdge_eq_self_iff (g : Digraph N E) (s t : Nat) (label : E) :
    apply g (.addEdge s t label) = g ↔ g.nodeCount ≤ s ∨ g.nodeCount ≤ t := by
  by_cases hst : s < g.nodeCount ∧ t < g.nodeCount
  · -- an accepted edge makes the arena longer
    simp only [apply, Digraph.addEdge_of_lt label hst.1 hst.2]
    have hne : g.link s t label ≠ g := fun heq => by
      have := congrArg Digraph.edgeCount heq
      simp at this
    simp only [hne, false_iff, not_or, Nat.not_le]
    exact hst
  · obtain ⟨err, herr⟩ := (Digraph.addEdge_error_iff g s t label).mpr (by omega)
    simp only [apply, herr, true_iff]
    omega

/-- A run of calls from an indexed graph keeps it indexed, adds one node per node call, and
appends the edges the calls add to the arena. -/
theorem foldl_apply_spec (calls : List (GraphCall N E)) :
    ∀ g : Digraph N E, g.WF →
      (calls.foldl apply g).WF ∧
        (calls.foldl apply g).nodeCount = g.nodeCount + nodesAdded calls ∧
        (calls.foldl apply g).edges.toList = g.edges.toList ++ edgesAdded g.nodeCount calls := by
  induction calls with
  | nil => exact fun g h => ⟨h, rfl, by simp [edgesAdded]⟩
  | cons c rest ih =>
    intro g h
    obtain ⟨hwf, hcount, hedges⟩ := apply_spec h c
    obtain ⟨hwf', hcount', hedges'⟩ := ih (apply g c) hwf
    refine ⟨hwf', ?_, ?_⟩
    · rw [List.foldl_cons, hcount', hcount, nodesAdded_cons c rest, Nat.add_assoc]
    · rw [List.foldl_cons, hedges', hedges, hcount, edgesAdded_cons _ c rest, List.append_assoc]

end GraphCall

namespace Digraph

/-- The graph a sequence of calls builds from the empty graph. -/
def replay (calls : List (GraphCall N E)) : Digraph N E := calls.foldl GraphCall.apply {}

/-- **What a sequence of node and edge calls builds.** Whatever calls a client makes, refused
ones included, the graph has one node per node call, and its edges are the edges of the edge
calls whose two ends were nodes by then, in call order. An edge call is refused exactly when an
end is not a node, and then changes nothing. The successors and outgoing edges of a node are
the targets (with labels) of the added edges from it, its predecessors the sources of those into
it, all in call order; a handle past the nodes has none. So `m` is a successor of `n` as often
as `n` is a predecessor of `m`, and an edge is contained exactly when one was added. -/
theorem replay_adjacency (calls : List (GraphCall N E)) :
    let g := replay calls
    let added := GraphCall.edgesAdded 0 calls
    g.nodeCount = GraphCall.nodesAdded calls ∧ g.edgeCount = added.length ∧
      (∀ s t label,
        ((∃ err, g.addEdge s t label = .error err) ↔
          g.nodeCount ≤ s ∨ g.nodeCount ≤ t) ∧
        (replay (calls ++ [.addEdge s t label]) = g ↔
          g.nodeCount ≤ s ∨ g.nodeCount ≤ t)) ∧
      (∀ v, g.outgoing v = (added.filter (·.source == v)).map fun e => (e.target, e.label)) ∧
      (∀ v, g.successors v = (added.filter (·.source == v)).map (·.target)) ∧
      (∀ v, g.predecessors v = (added.filter (·.target == v)).map (·.source)) ∧
      (∀ v, g.nodeCount ≤ v →
        g.successors v = [] ∧ g.predecessors v = [] ∧ g.outgoing v = []) ∧
      (∀ n m, (g.successors n).count m = (g.predecessors m).count n) ∧
      (∀ n m, g.containsEdge n m = true ↔
        ∃ label, (⟨n, m, label⟩ : Edge E) ∈ added) := by
  intro g added
  obtain ⟨hwf, hcount, hedges⟩ := GraphCall.foldl_apply_spec calls {} WF.empty
  simp only [nodeCount, Array.size_empty, Nat.zero_add, List.nil_append] at hcount hedges
  have hwf : g.WF := hwf
  have hcount : g.nodeCount = GraphCall.nodesAdded calls := hcount
  have hedges : g.edges.toList = added := hedges
  refine ⟨hcount, by rw [edgeCount, ← Array.length_toList, hedges], fun s t label => ?_,
    fun v => by rw [hwf.outgoing_eq, hedges], fun v => by rw [hwf.successors_eq, hedges],
    fun v => by rw [hwf.predecessors_eq, hedges], fun v hv => hwf.adjacency_eq_nil hv,
    hwf.count_successors, fun n m => by rw [hwf.containsEdge_iff_mem, hedges]⟩
  -- the call after the others is made on the graph they built
  refine ⟨addEdge_error_iff g s t label, ?_⟩
  rw [replay, List.foldl_append, List.foldl_cons, List.foldl_nil]
  exact GraphCall.apply_addEdge_eq_self_iff g s t label

end Digraph

end ReachingDefs
