import ReachingDefs.Proofs.Cfg.BuiltEdges
import ReachingDefs.Proofs.Cfg.Structured
import ReachingDefs.Proofs.Graph.Walk

/-!
# The shape of a built control-flow graph

A procedure's graph has exactly the edges the rules draw, so the structure of the rules is the
structure of the graph. Every edge goes forward in the numbering except the loop-back edges,
each of which goes from a node of a loop to that loop's head; the head is the only way into
its loop, so it dominates every node of it. Every node but the exit has an edge out, and every
node, reachable or not, has a walk to the exit.

## Main results

* `Procedure.mem_outgoing_iff`, `Procedure.lower_step_iff`: the edges and moves of a built
  graph are the rules' edges
* `Procedure.lower_forward`, `Procedure.lower_loopBack`, `Procedure.lower_loopBack_dominates`:
  the edges go forward or close a loop, and a loop's head dominates the loop
* `Procedure.lower_successors_eq_nil_iff`, `Procedure.lower_reaches_exit`: the exit is the one
  node without successors, and every node reaches it
* `Procedure.build_structured`: the shape of every graph that builds
-/

namespace ReachingDefs

namespace Procedure

open Lowering

variable (p : Procedure)

/-- The rules draw the body's edges and the return edges into the exit. -/
theorem mem_edgeRules {x : Nat × Nat × EdgeKind} :
    x ∈ p.edgeRules ↔ x ∈ p.body.flowEdges 0 ⟨p.body.nodeCount, false⟩ ∨
      ∃ r ∈ p.body.returnNodes 0, x = (r, p.body.nodeCount, .toExit) := by
  simp only [edgeRules, List.mem_append, List.mem_map]
  constructor
  · rintro (h | ⟨r, hr, rfl⟩)
    · exact Or.inl h
    · exact Or.inr ⟨r, hr, rfl⟩
  · rintro (h | ⟨r, hr, rfl⟩)
    · exact Or.inl h
    · exact Or.inr ⟨r, hr, rfl⟩

/-- Every rule edge leaves a node of the body and goes to a node of the body or to the exit. -/
theorem edgeRules_ends {x : Nat × Nat × EdgeKind} (hx : x ∈ p.edgeRules) :
    x.1 < p.body.nodeCount ∧ x.2.1 ≤ p.body.nodeCount := by
  rcases (mem_edgeRules p).mp hx with hx | ⟨r, hr, rfl⟩
  · have hs := Stmt.flowEdges_source p.body 0 _ x hx
    have ht := Stmt.flowEdges_target p.body 0 _ x hx
    dsimp only at ht
    omega
  · have := ((Stmt.returnNodes_spec p.body 0 ⟨0, false⟩).1 r hr).2
    dsimp only
    omega

/-- A procedure's graph has exactly the rules' edges. -/
theorem mem_lower_triples_iff (a u : Nat) (k : EdgeKind) :
    (a, u, k) ∈ p.lower.graph.triples ↔ (a, u, k) ∈ p.edgeRules := by
  rw [mem_iff_firstKind (lower_pairsUnique p), mem_iff_firstKind (edgeRules_pairwise p),
    firstKind_lower_triples]

/-- An edge leaves a node of a procedure's graph exactly when the rules draw it. -/
theorem mem_outgoing_iff (a t : Nat) (k : EdgeKind) :
    (t, k) ∈ p.lower.outgoing a ↔ (a, t, k) ∈ p.edgeRules := by
  rw [← mem_lower_triples_iff, ControlFlowGraph.outgoing, (lower_wf p).outgoing_eq]
  simp only [List.mem_map, List.mem_filter, beq_iff_eq, Digraph.triples, Prod.mk.injEq]
  constructor
  · rintro ⟨e, ⟨he, rfl⟩, rfl, rfl⟩
    exact ⟨e, he, rfl, rfl, rfl⟩
  · rintro ⟨e, he, rfl, rfl, rfl⟩
    exact ⟨e, ⟨he, rfl⟩, rfl, rfl⟩

theorem mem_successors_iff (a t : Nat) :
    t ∈ p.lower.successors a ↔ ∃ k, (a, t, k) ∈ p.edgeRules := by
  simp only [ControlFlowGraph.successors, Digraph.successors_eq_map_outgoing, List.mem_map,
    Prod.exists, exists_and_right, exists_eq_right]
  exact exists_congr fun k => mem_outgoing_iff p a t k

/-- A move of a walk in a procedure's graph is a rule edge: every rule edge lands on a node. -/
theorem lower_step_iff (a t : Nat) :
    p.lower.adjacency.Step a t ↔ ∃ k, (a, t, k) ∈ p.edgeRules := by
  have hcount : p.lower.adjacency.count = p.body.nodeCount + 1 := lower_nodeCount p
  simp only [Adjacency.Step, hcount]
  refine ⟨fun h => (mem_successors_iff p a t).mp h.1,
    fun h => ⟨(mem_successors_iff p a t).mpr h, ?_⟩⟩
  obtain ⟨k, hk⟩ := h
  have := (edgeRules_ends p hk).2
  dsimp only at this
  omega

/-- A walk along rule edges is a walk in the graph. -/
theorem reaches_of_edgesReach {L : List (Nat × Nat × EdgeKind)} (hL : L ⊆ p.edgeRules)
    {u w : Nat} (h : EdgesReach L u w) : p.lower.adjacency.Reaches u w := by
  unfold EdgesReach at h
  induction h with
  | refl => exact Adjacency.Reaches.refl u
  | tail _ hstep ih =>
    obtain ⟨k, hk⟩ := hstep
    exact ih.tail ((lower_step_iff p _ _).mpr ⟨k, hL hk⟩)

/-! ## Forward edges and loops -/

/-- **Edges go forward.** Every edge of a procedure's graph that is not a loop-back edge goes
to a later node. -/
theorem lower_forward {a t : Nat} {k : EdgeKind} (he : (t, k) ∈ p.lower.outgoing a)
    (hk : k ≠ .loopBack) : a < t := by
  rcases (mem_edgeRules p).mp ((mem_outgoing_iff p a t k).mp he) with hx | ⟨r, hr, hx⟩
  · exact Stmt.flowEdges_forward p.body 0 _ (fun _ => by simp) _ hx hk
  · -- a return goes to the exit, after every node of the body
    simp only [Prod.mk.injEq] at hx
    obtain ⟨rfl, rfl, -⟩ := hx
    have := ((Stmt.returnNodes_spec p.body 0 ⟨0, false⟩).1 _ hr).2
    omega

/-- Every loop-back edge closes a loop of the body: it goes from a node of the loop to its head. -/
theorem lower_loopBack {a h : Nat} (he : (h, EdgeKind.loopBack) ∈ p.lower.outgoing a) :
    p.body.ClosesLoop 0 a h := by
  rcases (mem_edgeRules p).mp ((mem_outgoing_iff p a h _).mp he) with hx | ⟨r, -, hx⟩
  · rcases Stmt.flowEdges_loopBack p.body 0 _ _ hx rfl with ⟨hvia, -⟩ | hloop
    · simp at hvia
    · exact hloop
  · simp at hx

/-- **A loop's head dominates the loop.** The body of a loop is entered only from its head, so
every walk from the start to a node of a loop passes through the loop's head. -/
theorem lower_loopBack_dominates {a h : Nat} (he : (h, EdgeKind.loopBack) ∈ p.lower.outgoing a) :
    p.lower.adjacency.Dominates p.lower.start h a := by
  obtain ⟨cond, body, hocc, hle, hlt⟩ := lower_loopBack p he
  have hrange := hocc.range
  refine Adjacency.dominates_of_entry (by rw [lower_start]; omega) ?_ ⟨hle, hlt⟩
  intro u w hstep hw₁ hw₂
  obtain ⟨k, hk⟩ := (lower_step_iff p u w).mp hstep
  rcases (mem_edgeRules p).mp hk with hx | ⟨r, -, hx⟩
  · exact hocc.flowEdges_entry _ (Or.inr (Nat.le_of_eq (Nat.zero_add _))) _ hx hw₁ hw₂
  · -- a return edge goes to the exit, outside every loop
    simp only [Prod.mk.injEq] at hx
    omega

/-! ## The exit -/

/-- **The exit is the only node without successors.** -/
theorem lower_successors_eq_nil_iff {v : Nat} (hv : v < p.lower.nodeCount) :
    p.lower.successors v = [] ↔ v = p.lower.exit := by
  rw [lower_nodeCount] at hv
  rw [lower_exit, List.eq_nil_iff_forall_not_mem]
  constructor
  · -- a node of the body has an edge out, or is a return and goes to the exit
    intro hnone
    by_contra hne
    rcases Stmt.flowEdges_out p.body 0 ⟨p.body.nodeCount, false⟩ v (Nat.zero_le v)
        (by omega) with ⟨x, hx, rfl⟩ | hr
    · exact hnone x.2.1
        ((mem_successors_iff p _ _).mpr ⟨x.2.2, (mem_edgeRules p).mpr (Or.inl hx)⟩)
    · exact hnone _ ((mem_successors_iff p _ _).mpr ⟨.toExit, (mem_edgeRules p).mpr
        (Or.inr ⟨v, hr, rfl⟩)⟩)
  · -- no rule edge leaves the exit
    rintro rfl t ht
    obtain ⟨k, hk⟩ := (mem_successors_iff p _ _).mp ht
    have := (edgeRules_ends p hk).1
    omega

/-- **Every node reaches the exit**, whether the start reaches it or not. -/
theorem lower_reaches_exit {v : Nat} (hv : v < p.lower.nodeCount) :
    p.lower.adjacency.Reaches v p.lower.exit := by
  rw [lower_nodeCount] at hv
  rw [lower_exit]
  by_cases hexit : v = p.body.nodeCount
  · rw [hexit]
    exact Adjacency.Reaches.refl _
  have hflow : p.body.flowEdges 0 ⟨p.body.nodeCount, false⟩ ⊆ p.edgeRules :=
    fun _ hx => (mem_edgeRules p).mpr (Or.inl hx)
  rcases Stmt.flowEdges_flowsOut p.body 0 ⟨p.body.nodeCount, false⟩ v (Nat.zero_le v)
      (by omega) with h | ⟨r, hr, h⟩
  · exact reaches_of_edgesReach p hflow h
  · -- a return node goes on to the exit
    refine (reaches_of_edgesReach p hflow h).tail ((lower_step_iff p _ _).mpr ⟨.toExit, ?_⟩)
    exact (mem_edgeRules p).mpr (Or.inr ⟨r, hr, rfl⟩)

/-! ## Built graphs -/

/-- A walk of edges that are not loop-back edges only goes forward, so it never comes back. -/
theorem lower_no_forward_cycle (v : Nat) :
    ¬Relation.TransGen
      (fun a b => ∃ k, (b, k) ∈ p.lower.outgoing a ∧ k ≠ .loopBack) v v := by
  intro hcycle
  have hlt : ∀ {a b}, Relation.TransGen
      (fun a b => ∃ k, (b, k) ∈ p.lower.outgoing a ∧ k ≠ .loopBack) a b → a < b := by
    intro a b h
    induction h with
    | single hab =>
      obtain ⟨k, he, hk⟩ := hab
      exact lower_forward p he hk
    | tail _ hbc ih =>
      obtain ⟨k, he, hk⟩ := hbc
      exact Nat.lt_trans ih (lower_forward p he hk)
  exact Nat.lt_irrefl v (hlt hcycle)

/-- **The shape of a built control-flow graph.** For a procedure that builds: every edge that
is not a loop-back edge goes to a later node, so every cycle takes a loop-back edge; a loop-back
edge goes from a node of a loop to the loop's head, a loop node, and that head dominates it;
the exit is the only node without successors; and every node, dead or alive, reaches the exit. -/
theorem build_structured {p : Procedure} {cfg : ControlFlowGraph} (hbuild : p.build = .ok cfg) :
    (∀ a b k, (b, k) ∈ cfg.outgoing a → k ≠ .loopBack → a < b) ∧
    (∀ v, ¬Relation.TransGen
      (fun a b => ∃ k, (b, k) ∈ cfg.outgoing a ∧ k ≠ .loopBack) v v) ∧
    (∀ a h, (h, EdgeKind.loopBack) ∈ cfg.outgoing a →
      ∃ cond body n, cfg.node? h = some n ∧ n.stmt = some (.loop cond body) ∧
        n.kind = .loop ∧ h ≤ a ∧ a < h + (Stmt.loop cond body).nodeCount) ∧
    (∀ a h, (h, EdgeKind.loopBack) ∈ cfg.outgoing a →
      cfg.adjacency.Dominates cfg.start h a) ∧
    (∀ v < cfg.nodeCount, cfg.successors v = [] ↔ v = cfg.exit) ∧
    (∀ v < cfg.nodeCount, cfg.adjacency.Reaches v cfg.exit) := by
  obtain ⟨-, rfl⟩ := build_eq_ok.mp hbuild
  refine ⟨fun a b k he hk => lower_forward p he hk, lower_no_forward_cycle p,
    fun a h he => ?_, fun a h he => lower_loopBack_dominates p he,
    fun v hv => lower_successors_eq_nil_iff p hv, fun v hv => lower_reaches_exit p hv⟩
  -- the head of the loop a loop-back edge closes is that loop's node
  obtain ⟨cond, body, hocc, hle, hlt⟩ := lower_loopBack p he
  obtain ⟨n, hn, hstmt, hkind⟩ := lower_node_of_occurs hocc rfl
  exact ⟨cond, body, n, hn, hstmt, Option.some.inj hkind, hle, hlt⟩

/-- A loop nested in a loop after an early return, an empty loop, and dead code after a return. -/
theorem build_structured_nested :
    let p : Procedure := ⟨"f", ["n"], .block [.loop (.name "n") (.block [
      .ifThen (.name "n") (.ret none), .loop (.name "n") (.block [])]), .ret none,
      .expr (.name "n")]⟩
    p.build = .ok p.lower ∧
      (∀ a b k, (b, k) ∈ p.lower.outgoing a → k ≠ .loopBack → a < b) ∧
      (∀ v, ¬Relation.TransGen
        (fun a b => ∃ k, (b, k) ∈ p.lower.outgoing a ∧ k ≠ .loopBack) v v) ∧
      (∀ a h, (h, EdgeKind.loopBack) ∈ p.lower.outgoing a →
        ∃ cond body n, p.lower.node? h = some n ∧ n.stmt = some (.loop cond body) ∧
          n.kind = .loop ∧ h ≤ a ∧ a < h + (Stmt.loop cond body).nodeCount) ∧
      (∀ a h, (h, EdgeKind.loopBack) ∈ p.lower.outgoing a →
        p.lower.adjacency.Dominates p.lower.start h a) ∧
      (∀ v < p.lower.nodeCount, p.lower.successors v = [] ↔ v = p.lower.exit) ∧
      (∀ v < p.lower.nodeCount, p.lower.adjacency.Reaches v p.lower.exit) := by
  intro p
  have hbuild : p.build = .ok p.lower := Procedure.build_eq_ok.mpr ⟨rfl, rfl⟩
  exact ⟨hbuild, build_structured hbuild⟩

end Procedure

end ReachingDefs
