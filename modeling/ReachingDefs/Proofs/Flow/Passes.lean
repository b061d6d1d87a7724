import ReachingDefs.Proofs.Flow.LeastSolution
import ReachingDefs.Proofs.Flow.ReversePostorder

/-!
# The worklist loop, pass by pass

`Invariant.run` speaks of the state a solve ends in. This module speaks of every state the loop
passes through: the start state, and what each round makes of a state whose worklist gives out
a node (`SolverState.Visits`). Under every worklist order, at the head of every pass,

* each node waits at most once, and the flagged nodes are exactly the waiting ones;
* every waiting node is in range and reached from the root, so that the reverse-postorder
  discipline ranks it by its position in the reverse postorder, never by the rank it gives a
  node the reverse postorder does not list;
* an evaluated node that is not flagged is settled: its exit is the transfer of its entry and
  lies below the entry of each of its successors in range;
* every successor in range of an evaluated node has been evaluated or is flagged.

None of this asks anything of the transfer: the lattice is a semilattice whose join is the
solver's join, and that is all.

## Main definitions

* `SolverState.LoopStep`: one pass of the loop
* `SolverState.Visits`: the states the loop passes through from a start state
* `SolverState.LoopInvariant`: what holds at the head of every pass

## Main results

* `SolverState.visits_run`, `SolverState.Visits.run_eq`: the loop passes through the state it
  ends in, and every state it passes through runs on to that end
* `FlowProblem.solve_invariant_every_pass`: the invariant, at every pass and under every order
-/

namespace ReachingDefs

namespace SolverState

variable {α : Type} [FlowLattice α] [DecidableEq α] {count : Nat}

/-! ## The states the loop passes through -/

section Visits

variable {problem : FlowProblem α} {d : Discipline} {next : Nat → List Nat}

/-- One pass of the worklist loop: a node comes off the worklist and a round evaluates it. -/
def LoopStep (problem : FlowProblem α) (d : Discipline) (next : Nat → List Nat)
    (st st' : SolverState α count) : Prop :=
  ∃ v rest, d.pop st.worklist = some (v, rest) ∧ st' = round problem d next v rest st

/-- The states the loop passes through from `st₀`, each taken at the head of a pass. -/
def Visits (problem : FlowProblem α) (d : Discipline) (next : Nat → List Nat)
    (st₀ : SolverState α count) : SolverState α count → Prop :=
  Relation.ReflTransGen (LoopStep problem d next) st₀

/-- A property of the start state that every round keeps holds at the head of every pass. -/
theorem Visits.induction {P : SolverState α count → Prop} {st₀ st : SolverState α count}
    (hst : Visits problem d next st₀ st) (h₀ : P st₀)
    (step : ∀ st v rest, d.pop st.worklist = some (v, rest) → P st →
      P (round problem d next v rest st)) : P st := by
  induction hst with
  | refl => exact h₀
  | tail _ hstep ih =>
    obtain ⟨v, rest, hpop, rfl⟩ := hstep
    exact step _ v rest hpop ih

/-- The loop passes through the state it ends in. -/
theorem visits_run (st₀ : SolverState α count) :
    Visits problem d next st₀ (run problem d next st₀) := by
  induction st₀ using SolverState.run.induct problem d next with
  | case1 st hnone =>
    rw [FlowProblem.run_of_pop_none problem d next hnone]
    exact Relation.ReflTransGen.refl
  | case2 st v rest hsome _ ih =>
    rw [run_of_pop_some problem d next hsome]
    exact Relation.ReflTransGen.head ⟨v, rest, hsome, rfl⟩ ih

/-- Every state the loop passes through runs on to the end of the loop. -/
theorem Visits.run_eq {st₀ st : SolverState α count} (hst : Visits problem d next st₀ st) :
    run problem d next st = run problem d next st₀ := by
  induction hst with
  | refl => rfl
  | tail _ hstep ih =>
    obtain ⟨v, rest, hpop, rfl⟩ := hstep
    rw [← run_of_pop_some problem d next hpop, ih]

end Visits

/-! ## The invariant of every pass -/

variable [SemilatticeSup α]

/-- What holds at the head of every pass of a solve from `root`, whatever the transfer. -/
structure LoopInvariant (problem : FlowProblem α) (g : Adjacency) (root : Fin g.count)
    (st : SolverState α g.count) : Prop where
  /-- Which nodes wait or have been evaluated. -/
  coverage : Coverage g root st
  /-- Every evaluated node that does not wait is settled. -/
  settled : Settled problem g st

namespace LoopInvariant

variable {problem : FlowProblem α} {g : Adjacency}

omit [FlowLattice α] [DecidableEq α] in
theorem start (problem : FlowProblem α) {root : Nat} (h : root < g.count) :
    LoopInvariant problem g ⟨root, h⟩ (problem.startState g h) := by
  refine ⟨coverage_start problem h, fun v hv => ?_⟩
  simp [FlowProblem.startState] at hv

/-- A round keeps the invariant. -/
theorem round (hjoin : ∀ a b : α, FlowLattice.join a b = a ⊔ b) {d : Discipline}
    {root : Fin g.count} {st : SolverState α g.count} {v : Fin g.count}
    {rest : List (Fin g.count)} (h : LoopInvariant problem g root st)
    (hpop : d.pop st.worklist = some (v, rest)) :
    LoopInvariant problem g root (SolverState.round problem d g.next v rest st) :=
  ⟨h.coverage.round hpop, h.settled.round hjoin h.coverage.queue hpop⟩

/-- The invariant holds at the head of every pass of a solve from a root in range. -/
theorem visits (hjoin : ∀ a b : α, FlowLattice.join a b = a ⊔ b) (d : Discipline)
    {root : Nat} (h : root < g.count) {st : SolverState α g.count}
    (hst : Visits problem d g.next (problem.startState g h) st) :
    LoopInvariant problem g ⟨root, h⟩ st :=
  hst.induction (start problem h) fun _ _ _ hpop hinv => hinv.round hjoin hpop

end LoopInvariant

end SolverState

/-- A node the root reaches is ranked by its position in the reverse postorder, a position of the
list and never the rank of a node the list leaves out. -/
theorem Adjacency.Reaches.rank_reversePostorder {g : Adjacency} {root v : Nat}
    (hroot : root < g.count) (hv : g.Reaches root v) :
    (Discipline.ofOrder .reversePostorder g root).rank v = (g.reversePostorder root).idxOf v ∧
      (g.reversePostorder root).idxOf v < (g.reversePostorder root).length := by
  have hmem : v ∈ g.reversePostorder root :=
    (Adjacency.mem_reversePostorder_iff root v).mpr ⟨hroot, hv⟩
  exact ⟨rank_ofOrder_reversePostorder hmem, List.idxOf_lt_length_of_mem hmem⟩

namespace FlowProblem

variable {α : Type} [FlowLattice α] [DecidableEq α] [SemilatticeSup α]

/-- **The worklist loop's invariant.** At the head of every pass of a solve from a root in range,
under every order: the worklist holds each node at most once, and its nodes are exactly the
flagged ones; every node on it is reached from the root, and ranked by its position in the
reverse postorder; an evaluated node that is not flagged has its transfer as exit, below the
entry of each successor in range; and each successor in range of an evaluated node has been
evaluated or is flagged. -/
theorem solve_invariant_every_pass (problem : FlowProblem α)
    (hjoin : ∀ a b : α, FlowLattice.join a b = a ⊔ b) (order : WorklistOrder) (g : Adjacency)
    {root : Nat} (h : root < g.count) {st : SolverState α g.count}
    (hst : SolverState.Visits problem (Discipline.ofOrder order g root) g.next
      (problem.startState g h) st) :
    st.worklist.Nodup ∧ (∀ v : Fin g.count, st.queued.mem v = true ↔ v ∈ st.worklist) ∧
      (∀ v ∈ st.worklist, g.Reaches root v ∧
        (Discipline.ofOrder .reversePostorder g root).rank v =
          (g.reversePostorder root).idxOf v.val ∧
        (g.reversePostorder root).idxOf v.val < (g.reversePostorder root).length) ∧
      (∀ v : Fin g.count, st.evaluated.mem v = true → st.queued.mem v = false →
        st.exit.get v = problem.transfer v (st.entry.get v) ∧
          ∀ m (hm : g.Step v m), st.exit.get v ≤ st.entry.get ⟨m, hm.2⟩) ∧
      (∀ v : Fin g.count, st.evaluated.mem v = true → ∀ m, g.Step v m →
        st.evaluated.mem m = true ∨ st.queued.mem m = true) := by
  have hinv := SolverState.LoopInvariant.visits hjoin _ h hst
  have hq := hinv.coverage.queue
  refine ⟨hq.nodup, hq.flags, fun v hv => ?_, fun v he hflag => ?_, fun v he m hm => ?_⟩
  · have hreach := hinv.coverage.reached v (Or.inl hv)
    exact ⟨hreach, hreach.rank_reversePostorder h⟩
  · exact hinv.settled v he (hq.not_mem v.isLt hflag)
  · rcases hinv.coverage.closed v he m hm with hem | hw
    · exact Or.inl hem
    · exact Or.inr ((hq.flags _).mpr hw)

/-- The trail problem on a loop with a successor out of range, solved in reverse postorder:
the state the solve ends in is one the loop passes through. -/
theorem solve_invariant_every_pass_loop :
    let trail : FlowProblem (IndexSet 3) := ⟨.empty, .empty, fun v s => s.insert v⟩
    let g : Adjacency := ⟨3, fun v => if v = 0 then [1] else if v = 1 then [2, 0] else [7]⟩
    let d := Discipline.ofOrder .reversePostorder g 0
    let h : 0 < g.count := Nat.zero_lt_succ 2
    let st := SolverState.run trail d g.next (trail.startState g h)
    (∀ a b : IndexSet 3, FlowLattice.join a b = a ⊔ b) ∧ 0 < g.count ∧
      SolverState.Visits trail d g.next (trail.startState g h) st ∧
      st.worklist.Nodup ∧ (∀ v : Fin g.count, st.queued.mem v = true ↔ v ∈ st.worklist) ∧
      (∀ v ∈ st.worklist, g.Reaches 0 v ∧
        (Discipline.ofOrder .reversePostorder g 0).rank v = (g.reversePostorder 0).idxOf v.val ∧
        (g.reversePostorder 0).idxOf v.val < (g.reversePostorder 0).length) ∧
      (∀ v : Fin g.count, st.evaluated.mem v = true → st.queued.mem v = false →
        st.exit.get v = trail.transfer v (st.entry.get v) ∧
          ∀ m (hm : g.Step v m), st.exit.get v ≤ st.entry.get ⟨m, hm.2⟩) ∧
      (∀ v : Fin g.count, st.evaluated.mem v = true → ∀ m, g.Step v m →
        st.evaluated.mem m = true ∨ st.queued.mem m = true) := by
  intro trail g d h st
  have hst : SolverState.Visits trail d g.next (trail.startState g h) st :=
    SolverState.visits_run _
  exact ⟨IndexSet.join_eq_sup, h, hst,
    solve_invariant_every_pass trail IndexSet.join_eq_sup .reversePostorder g h hst⟩

end FlowProblem

end ReachingDefs
