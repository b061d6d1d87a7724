import ReachingDefs.Proofs.Flow.Evaluations
import ReachingDefs.Proofs.Graph.Topological
import ReachingDefs.Proofs.Cfg.Shape

/-!
# Solving in reverse postorder

Under the reverse-postorder discipline the worklist gives out the waiting node of least rank,
and a node's rank is its position in the reverse postorder from the root. Where the region the
root reaches has no cycle, that order puts every node before its successors. A node taken off
then ranks below everything still waiting, and every successor it puts on the worklist ranks
above it, so the nodes come off in strictly increasing rank and none comes off twice. The
evaluations of a solve are then the reverse postorder itself: each reachable node once, and
as many evaluations as reachable nodes, whatever the states and the transfer.

## Main definitions

* `SolverState.Ranked`: the evaluations so far rise in rank, and every waiting node ranks
  above them

## Main results

* `FlowProblem.evaluationsIn_solve_reversePostorder`: the evaluations are the reverse postorder
* `FlowProblem.solve_reversePostorder_once`: nodes come off in increasing rank, each
  reachable node once
-/

namespace ReachingDefs

/-! ## Ranks of the reverse postorder -/

section Ranks

/-- Writing the positions of a list without repeats into a table, from position `k` on. -/
theorem getElem?_foldl_setIfInBounds :
    ∀ {l : List Nat}, l.Nodup → ∀ (k : Nat) (acc : Array Nat) {v : Nat}, v < acc.size →
      ((l.zipIdx k).foldl (fun acc (v, i) => acc.setIfInBounds v i) acc)[v]? =
        if v ∈ l then some (k + l.idxOf v) else acc[v]?
  | [], _, _, _, _, _ => by simp
  | x :: rest, hl, k, acc, v, hv => by
    obtain ⟨hx, hrest⟩ := List.nodup_cons.mp hl
    rw [List.zipIdx_cons, List.foldl_cons,
      getElem?_foldl_setIfInBounds hrest (k + 1) _ (by simpa using hv)]
    simp only [Array.getElem?_setIfInBounds, List.mem_cons]
    by_cases hvx : v = x
    · subst hvx
      simp [hx, hv]
    · rw [List.idxOf_cons_ne rest (Ne.symm hvx)]
      by_cases hvr : v ∈ rest
      · simp only [hvr, if_true, or_true, Option.some.injEq]
        omega
      · simp [hvr, hvx, Ne.symm hvx]

/-- The rank table gives each listed node its position. -/
theorem getD_rankTable {count : Nat} {order : List Nat} (hnd : order.Nodup) {v : Nat}
    (hv : v ∈ order) (hlt : v < count) :
    (rankTable count order).getD v unranked = order.idxOf v := by
  have h := getElem?_foldl_setIfInBounds hnd 0 (Array.replicate count unranked)
    (v := v) (by simpa using hlt)
  rw [Array.getD_eq_getD_getElem?, rankTable, h, if_pos hv]
  simp

/-- Under the reverse-postorder discipline a reachable node ranks at its position in the
reverse postorder. -/
theorem rank_ofOrder_reversePostorder {g : Adjacency} {root v : Nat}
    (hv : v ∈ g.reversePostorder root) :
    (Discipline.ofOrder .reversePostorder g root).rank v = (g.reversePostorder root).idxOf v := by
  obtain ⟨hroot, hreach⟩ := (Adjacency.mem_reversePostorder_iff root v).mp hv
  exact getD_rankTable (Adjacency.reversePostorder_nodup root) hv (hreach.lt_count hroot)

/-- The reverse postorder rises in its own rank. -/
theorem pairwise_rank_reversePostorder (g : Adjacency) (root : Nat) :
    (g.reversePostorder root).Pairwise fun a b =>
      (Discipline.ofOrder .reversePostorder g root).rank a <
        (Discipline.ofOrder .reversePostorder g root).rank b := by
  have hnd := Adjacency.reversePostorder_nodup (g := g) root
  refine List.pairwise_iff_getElem.mpr fun i j hi hj hij => ?_
  rw [rank_ofOrder_reversePostorder (List.getElem_mem hi),
    rank_ofOrder_reversePostorder (List.getElem_mem hj), hnd.idxOf_getElem, hnd.idxOf_getElem]
  exact hij

/-- Reached nodes rank apart. -/
theorem eq_of_rank_eq {g : Adjacency} {root a b : Nat} (hroot : root < g.count)
    (ha : g.Reaches root a) (hb : g.Reaches root b)
    (hab : (Discipline.ofOrder .reversePostorder g root).rank a =
      (Discipline.ofOrder .reversePostorder g root).rank b) : a = b := by
  have hma : a ∈ g.reversePostorder root :=
    (Adjacency.mem_reversePostorder_iff root a).mpr ⟨hroot, ha⟩
  have hmb : b ∈ g.reversePostorder root :=
    (Adjacency.mem_reversePostorder_iff root b).mpr ⟨hroot, hb⟩
  rw [rank_ofOrder_reversePostorder hma, rank_ofOrder_reversePostorder hmb] at hab
  exact (List.idxOf_inj hma).mp hab

/-- In a region without cycles, a reached node ranks below each of its successors. -/
theorem rank_lt_of_step {g : Adjacency} {root a b : Nat}
    (hacyclic : ∀ v, g.Reaches root v → ¬Relation.TransGen g.Step v v) (hroot : root < g.count)
    (ha : g.Reaches root a) (hab : g.Step a b) :
    (Discipline.ofOrder .reversePostorder g root).rank a <
      (Discipline.ofOrder .reversePostorder g root).rank b := by
  -- the pair is in reverse postorder, which rises in rank
  have hpair := (pairwise_rank_reversePostorder g root).sublist
    (Adjacency.reversePostorder_pair_sublist hacyclic ha hroot hab)
  simpa using hpair

/-- The reverse postorder lists as many nodes as the root reaches. -/
theorem length_reversePostorder (g : Adjacency) (root : Nat) :
    (g.reversePostorder root).length = (g.reachable root).card := by
  rw [IndexSet.card_eq_length_toList]
  refine ((List.perm_ext_iff_of_nodup (Adjacency.reversePostorder_nodup root)
    (IndexSet.nodup_toList _)).mpr fun v => ?_).length_eq
  rw [IndexSet.mem_toList, Adjacency.mem_reachable_iff, Adjacency.mem_reversePostorder_iff]

end Ranks

/-! ## The least waiting node -/

namespace Discipline

variable {count : Nat}

/-- The least entry of a list ranks no higher than any entry. -/
theorem rank_least_le (d : Discipline) (first : Fin count) (rest : List (Fin count)) :
    ∀ w ∈ first :: rest, d.rank (d.least first rest) ≤ d.rank w := by
  unfold least
  induction rest generalizing first with
  | nil =>
    intro w hw
    rw [List.mem_singleton.mp hw]
    rfl
  | cons x more ih =>
    intro w hw
    simp only [List.foldl_cons]
    -- the better of `first` and `x` ranks no higher than either
    have hbest : d.rank (if d.before x first then x else first).val ≤ d.rank first ∧
        d.rank (if d.before x first then x else first).val ≤ d.rank x := by
      by_cases h : d.before x first = true
      · rw [if_pos h]
        simp only [before, Bool.or_eq_true, decide_eq_true_eq, Bool.and_eq_true,
          beq_iff_eq] at h
        omega
      · rw [if_neg h]
        simp only [before, Bool.or_eq_true, decide_eq_true_eq, Bool.and_eq_true, beq_iff_eq,
          not_or, not_and] at h
        omega
    have hle := ih (if d.before x first then x else first)
    rcases List.mem_cons.mp hw with rfl | hw
    · exact (hle _ List.mem_cons_self).trans hbest.1
    rcases List.mem_cons.mp hw with rfl | hw
    · exact (hle _ List.mem_cons_self).trans hbest.2
    · exact hle w (List.mem_cons_of_mem _ hw)

/-- Under a ranked order, the node taken off ranks no higher than any waiting node. -/
theorem rank_pop_le (d : Discipline) (hd : d.order = .reversePostorder)
    {items rest : List (Fin count)} {v : Fin count} (h : d.pop items = some (v, rest)) :
    ∀ w ∈ items, d.rank v ≤ d.rank w := by
  cases items with
  | nil => simp [pop] at h
  | cons first more =>
    simp only [pop, hd, Option.some.injEq, Prod.mk.injEq] at h
    obtain ⟨rfl, -⟩ := h
    exact d.rank_least_le first more

end Discipline

/-! ## The ranked loop -/

namespace SolverState

variable {α : Type} [FlowLattice α] [DecidableEq α] {count : Nat}

section Events

variable {d : Discipline} {source : Fin count} {out : α}

omit [FlowLattice α] [DecidableEq α] in
/-- Evaluating a node adds it to the evaluations of the record. -/
theorem evaluationsIn_evaluate (problem : FlowProblem α) (v : Fin count)
    (rest : List (Fin count)) (st : SolverState α count) :
    evaluationsIn (evaluate problem v rest st).events.toList =
      evaluationsIn st.events.toList ++ [v.val] := by
  simp [evaluate]

/-- Relaxing records no evaluation. -/
theorem evaluationsIn_relax (st : SolverState α count) (m : Nat) :
    evaluationsIn (relax d source out st m).events.toList = evaluationsIn st.events.toList := by
  by_cases hm : m < count
  · rw [relax_of_lt d source out st hm]
    dsimp only
    split <;> simp
  · rw [relax_of_ge d source out st hm]

theorem evaluationsIn_foldl_relax (l : List Nat) (st : SolverState α count) :
    evaluationsIn (l.foldl (relax d source out) st).events.toList =
      evaluationsIn st.events.toList := by
  induction l generalizing st with
  | nil => rfl
  | cons m rest ih => rw [List.foldl_cons, ih, evaluationsIn_relax]

theorem evaluationsIn_round (problem : FlowProblem α) (next : Nat → List Nat) (v : Fin count)
    (rest : List (Fin count)) (st : SolverState α count) :
    evaluationsIn (round problem d next v rest st).events.toList =
      evaluationsIn st.events.toList ++ [v.val] := by
  rw [round, evaluationsIn_foldl_relax, evaluationsIn_evaluate]

end Events

/-- Under a ranked discipline: the evaluations so far rise strictly in rank, and every waiting
node ranks above all of them. -/
structure Ranked (d : Discipline) (st : SolverState α count) : Prop where
  ordered : (evaluationsIn st.events.toList).Pairwise fun a b => d.rank a < d.rank b
  ahead : ∀ w ∈ st.worklist, ∀ a ∈ evaluationsIn st.events.toList, d.rank a < d.rank w.val

namespace Ranked

variable {g : Adjacency} {root : Fin g.count} {d : Discipline} {problem : FlowProblem α}
  {st : SolverState α g.count} {v : Fin g.count} {rest : List (Fin g.count)}

/-- A round keeps the ranking when the discipline takes the least rank first, ranks the
reached nodes apart, and ranks every reached node below its successors. -/
theorem round (h : Ranked d st) (hl : Ledger st) (hc : Coverage g root st)
    (hd : d.order = .reversePostorder)
    (hinj : ∀ a b, g.Reaches root a → g.Reaches root b → d.rank a = d.rank b → a = b)
    (htopo : ∀ a b, g.Reaches root a → g.Step a b → d.rank a < d.rank b)
    (hpop : d.pop st.worklist = some (v, rest)) :
    Ranked d (SolverState.round problem d g.next v rest st) := by
  have hvw : v ∈ st.worklist := (mem_of_pop d hpop v).mpr (Or.inl rfl)
  have hv : g.Reaches root v := hc.reached v (Or.inl hvw)
  -- everything waiting after the round ranks above the node just evaluated
  have habove : ∀ w ∈ (SolverState.round problem d g.next v rest st).worklist,
      d.rank v < d.rank w := by
    intro w hw
    rcases mem_of_mem_round_worklist hw with hr | hnext
    · have hww : w ∈ st.worklist := (mem_of_pop d hpop w).mpr (Or.inr hr)
      have hne : v.val ≠ w.val := fun e =>
        (nodup_of_pop d hpop hl.queue.nodup).1 (Fin.ext e ▸ hr)
      have hle := d.rank_pop_le hd hpop w hww
      have hrank : d.rank v ≠ d.rank w := fun e =>
        hne (hinj v w hv (hc.reached w (Or.inl hww)) e)
      omega
    · exact htopo v w hv ⟨hnext, w.isLt⟩
  refine ⟨?_, fun w hw a ha => ?_⟩
  · rw [evaluationsIn_round, List.pairwise_append]
    refine ⟨h.ordered, List.pairwise_singleton _ _, fun a ha b hb => ?_⟩
    rw [List.mem_singleton.mp hb]
    exact h.ahead v hvw a ha
  · rw [evaluationsIn_round] at ha
    rcases List.mem_append.mp ha with ha | ha
    · exact (h.ahead v hvw a ha).trans (habove w hw)
    · rw [List.mem_singleton.mp ha]
      exact habove w hw

end Ranked

end SolverState

/-! ## The evaluations of a solve in reverse postorder -/

namespace FlowProblem

variable {α : Type} [FlowLattice α] [DecidableEq α]

variable (problem : FlowProblem α) (g : Adjacency) (root : Nat)

/-- In a region without cycles, a solve in reverse postorder evaluates in rising rank. -/
theorem pairwise_rank_evaluationsIn_solve
    (hacyclic : ∀ v, g.Reaches root v → ¬Relation.TransGen g.Step v v) :
    (evaluationsIn (problem.solve .reversePostorder g root).events).Pairwise fun a b =>
      (Discipline.ofOrder .reversePostorder g root).rank a <
        (Discipline.ofOrder .reversePostorder g root).rank b := by
  by_cases h : root < g.count
  · set d := Discipline.ofOrder .reversePostorder g root
    have hstart : SolverState.Ranked d (problem.startState g h) :=
      ⟨by simp [startState], by simp [startState]⟩
    -- the ranking is kept with the accounts and the coverage, which say the node taken off is
    -- reached and waited once
    have hrun := SolverState.run_induction problem d g.next
      (fun st => SolverState.Ledger st ∧ SolverState.Coverage g ⟨root, h⟩ st ∧
        SolverState.Ranked d st)
      (fun _ _ _ hpop hinv =>
        ⟨hinv.1.round problem g.next hpop, hinv.2.1.round hpop,
          hinv.2.2.round hinv.1 hinv.2.1 rfl (fun _ _ ha hb => eq_of_rank_eq h ha hb)
            (fun _ _ ha hab => rank_lt_of_step hacyclic h ha hab) hpop⟩)
      ⟨SolverState.ledger_start problem h, SolverState.coverage_start problem h, hstart⟩
    rw [solve_of_lt problem .reversePostorder g h]
    exact hrun.2.2.ordered
  · rw [solve_of_root_ge problem .reversePostorder g h]
    simp

/-- **In a region without cycles, a solve in reverse postorder evaluates the nodes in reverse
postorder**, each once. -/
theorem evaluationsIn_solve_reversePostorder
    (hacyclic : ∀ v, g.Reaches root v → ¬Relation.TransGen g.Step v v) :
    evaluationsIn (problem.solve .reversePostorder g root).events = g.reversePostorder root := by
  have hsorted := pairwise_rank_evaluationsIn_solve problem g root hacyclic
  have hnodup : (evaluationsIn (problem.solve .reversePostorder g root).events).Nodup :=
    hsorted.imp fun hab e => by
      subst e
      exact lt_irrefl _ hab
  have hperm := (List.perm_ext_iff_of_nodup hnodup (Adjacency.reversePostorder_nodup root)).mpr
    fun v => by rw [mem_evaluationsIn_solve, Adjacency.mem_reversePostorder_iff]
  exact hperm.eq_of_pairwise (fun _ _ _ _ hab hba => absurd (hab.trans hba) (lt_irrefl _))
    hsorted (pairwise_rank_reversePostorder g root)

/-- **Solving in reverse postorder where the root reaches no cycle.** Whatever the states and
the transfer, the nodes come off the worklist in strictly increasing reverse-postorder rank;
the evaluations are the reverse postorder itself, so each reachable node is evaluated exactly
once; and there are as many evaluations as reachable nodes. -/
theorem solve_reversePostorder_once
    (hacyclic : ∀ v, g.Reaches root v → ¬Relation.TransGen g.Step v v) :
    (evaluationsIn (problem.solve .reversePostorder g root).events).Pairwise (fun a b =>
        (Discipline.ofOrder .reversePostorder g root).rank a <
          (Discipline.ofOrder .reversePostorder g root).rank b) ∧
      evaluationsIn (problem.solve .reversePostorder g root).events = g.reversePostorder root ∧
      (problem.solve .reversePostorder g root).iterations = (g.reachable root).card := by
  have heval := evaluationsIn_solve_reversePostorder problem g root hacyclic
  refine ⟨pairwise_rank_evaluationsIn_solve problem g root hacyclic, heval, ?_⟩
  rw [solve_iterations, heval, length_reversePostorder]

/-- A diamond: the root branches to two nodes that meet again. -/
theorem solve_reversePostorder_once_diamond :
    let g : Adjacency := ⟨4, fun v => if v = 0 then [2, 1] else if v < 3 then [3] else []⟩
    let problem : FlowProblem (IndexSet 3) := ⟨.empty, .empty, fun v s => s.insert (v % 3)⟩
    (∀ v, g.Reaches 0 v → ¬Relation.TransGen g.Step v v) ∧
      (evaluationsIn (problem.solve .reversePostorder g 0).events).Pairwise (fun a b =>
          (Discipline.ofOrder .reversePostorder g 0).rank a <
            (Discipline.ofOrder .reversePostorder g 0).rank b) ∧
        evaluationsIn (problem.solve .reversePostorder g 0).events = g.reversePostorder 0 ∧
        (problem.solve .reversePostorder g 0).iterations = (g.reachable 0).card := by
  intro g problem
  have hacyclic : ∀ v, g.Reaches 0 v → ¬Relation.TransGen g.Step v v := by
    refine Adjacency.acyclic_of_forward fun a b _ hstep => ?_
    obtain ⟨hmem, -⟩ := hstep
    simp only [g] at hmem
    split_ifs at hmem <;> simp at hmem <;> omega
  exact ⟨hacyclic, solve_reversePostorder_once problem g 0 hacyclic⟩

end FlowProblem

namespace Procedure

/-- In a built graph, every move out of a reachable node that has no loop-back edge goes to a
larger node. -/
theorem lower_step_forward (p : Procedure)
    (hloops : ∀ a b, p.lower.isReachable a = true → (b, EdgeKind.loopBack) ∉ p.lower.outgoing a)
    {a b : Nat} (ha : p.lower.adjacency.Reaches p.lower.start a)
    (hstep : p.lower.adjacency.Step a b) : a < b := by
  obtain ⟨k, hk⟩ := (lower_step_iff p a b).mp hstep
  have hout : (b, k) ∈ p.lower.outgoing a := (mem_outgoing_iff p a b k).mpr hk
  have hreach : p.lower.isReachable a = true :=
    (Adjacency.mem_reachable_iff _ _).mpr ⟨lower_start_lt_count p, ha⟩
  exact lower_forward p hout fun hkl => hloops a b hreach (hkl ▸ hout)

/-- **Under reverse postorder, reaching definitions of a built graph whose reachable nodes have
no loop-back edge take one evaluation per reachable node**: every other edge of a built graph
goes forward in node order, so the root reaches no cycle. -/
theorem build_reaching_iterations_of_no_loopBack {p : Procedure} {cfg : ControlFlowGraph}
    (hbuild : p.build = .ok cfg)
    (hloops : ∀ a b, cfg.isReachable a = true → (b, EdgeKind.loopBack) ∉ cfg.outgoing a)
    (config : AnalysisConfig) (horder : config.order = .reversePostorder) :
    (cfg.reaching config).iterations = cfg.reachableSet.card := by
  obtain ⟨-, rfl⟩ := build_eq_ok.mp hbuild
  have hacyclic := Adjacency.acyclic_of_forward fun a b ha hstep =>
    lower_step_forward p hloops ha hstep
  simp only [ReachingDefinitions.iterations, ControlFlowGraph.reaching, horder]
  rw [FlowProblem.solve_iterations,
    FlowProblem.evaluationsIn_solve_reversePostorder _ _ _ hacyclic, length_reversePostorder]
  rfl

/-- A branch whose else side returns: the graph has no loop, and the standard analysis, in
reverse postorder, evaluates each reachable node once. -/
theorem build_reaching_iterations_of_no_loopBack_branch :
    let p : Procedure := ⟨"f", ["a"], .block [.declare "x" (some (.name "a")),
      .ifElse (.name "a") (.assign "x" (.literal "1")) (.ret none), .expr (.name "x")]⟩
    p.build = .ok p.lower ∧
      (∀ a b, p.lower.isReachable a = true → (b, EdgeKind.loopBack) ∉ p.lower.outgoing a) ∧
      AnalysisConfig.standard.order = .reversePostorder ∧
      (p.lower.reaching .standard).iterations = p.lower.reachableSet.card := by
  intro p
  have hbuild : p.build = .ok p.lower := build_eq_ok.mpr ⟨rfl, rfl⟩
  -- no node of the graph has a loop-back edge, and past the nodes there are no edges at all
  have hnodes : ∀ a < p.lower.nodeCount, ∀ e ∈ p.lower.outgoing a, e.2 ≠ .loopBack := by
    decide +kernel
  have hloops : ∀ a b, p.lower.isReachable a = true →
      (b, EdgeKind.loopBack) ∉ p.lower.outgoing a := by
    intro a b ha hmem
    have hlt : a < p.lower.nodeCount := by
      have := IndexSet.lt_of_mem ha
      simpa [ControlFlowGraph.adjacency, Digraph.adjacency, ControlFlowGraph.nodeCount] using this
    exact hnodes a hlt _ hmem rfl
  exact ⟨hbuild, hloops, rfl,
    build_reaching_iterations_of_no_loopBack hbuild hloops .standard rfl⟩

end Procedure

end ReachingDefs
