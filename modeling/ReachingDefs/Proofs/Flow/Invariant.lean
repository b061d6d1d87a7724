import ReachingDefs.Proofs.Flow.Rounds
import ReachingDefs.Proofs.Graph.Walk

/-!
# The invariant of the worklist loop

For a solve from a root in range, under any worklist discipline, the solver state satisfies
`SolverState.Invariant` before the first round and after every round. The invariant says
which nodes can wait or have been evaluated (only those the root reaches, each waiting at
most once), that the evaluated region is closed under moves up to the waiting nodes, that a
node that does not wait is settled, and that every entry is bounded by what flows into it.

Which nodes wait or have been evaluated (`SolverState.Coverage`) holds whatever the states.
For the rest, the lattice is a semilattice whose join is the solver's join, the initial state
is its bottom, and each transfer is monotone.

## Main definitions

* `SolverState.Coverage`: which nodes wait or have been evaluated, whatever the states
* `SolverState.Invariant`: what holds between two rounds

## Main results

* `SolverState.Invariant.round`: a round keeps the invariant
* `SolverState.Invariant.run`: the invariant holds when the loop ends
-/

namespace ReachingDefs

namespace FlowProblem

/-- The state a solve from a root in range starts from. -/
def startState {α : Type} (problem : FlowProblem α) (g : Adjacency) {root : Nat}
    (h : root < g.count) : SolverState α g.count :=
  let blank := Vector.replicate g.count problem.initial
  { entry := blank.set root problem.boundary h, exit := blank, evaluated := .empty,
    worklist := [⟨root, h⟩], queued := IndexSet.empty.insert root, iterations := 0, events := #[] }

/-- A solve from a root in range runs the loop from the start state. -/
theorem solve_of_lt {α : Type} [FlowLattice α] [DecidableEq α] (problem : FlowProblem α)
    (order : WorklistOrder) (g : Adjacency) {root : Nat} (h : root < g.count) :
    problem.solve order g root =
      let st := SolverState.run problem (Discipline.ofOrder order g root) g.next
        (problem.startState g h)
      ⟨st.entry, st.exit, st.iterations, st.events.toList⟩ := by
  rw [solve, dif_pos h]
  rfl

end FlowProblem

namespace SolverState

/-! ## Who waits or has been evaluated, round by round

Which nodes a solve has seen does not depend on the states: a round evaluates a node and then
leaves each of its successors waiting or evaluated, whatever the join and the transfer. -/

section Coverage

variable {α : Type} [FlowLattice α] [DecidableEq α]

/-- Which nodes wait or have been evaluated between two rounds of a solve from `root`, whatever
the states and the transfer. -/
structure Coverage (g : Adjacency) (root : Fin g.count) (st : SolverState α g.count) : Prop where
  /-- The flags mark exactly the waiting nodes, each waiting once. -/
  queue : st.Queue
  /-- Only nodes the root reaches wait or have been evaluated. -/
  reached : ∀ v : Fin g.count, (v ∈ st.worklist ∨ st.evaluated.mem v = true) → g.Reaches root v
  /-- The root waits or has been evaluated. -/
  root_seen : root ∈ st.worklist ∨ st.evaluated.mem root = true
  /-- Every successor of an evaluated node has been evaluated or waits. -/
  closed : ∀ v : Fin g.count, st.evaluated.mem v = true → ∀ m (hm : g.Step v m),
    st.evaluated.mem m = true ∨ (⟨m, hm.2⟩ : Fin g.count) ∈ st.worklist

namespace Coverage

variable {g : Adjacency} {root : Fin g.count} {st : SolverState α g.count} {d : Discipline}
  {problem : FlowProblem α} {v : Fin g.count} {rest : List (Fin g.count)}

/-- A round keeps the coverage. -/
theorem round (h : Coverage g root st) (hpop : d.pop st.worklist = some (v, rest)) :
    Coverage g root (SolverState.round problem d g.next v rest st) := by
  have hv : g.Reaches root v := h.reached v (Or.inl ((mem_of_pop d hpop v).mpr (Or.inl rfl)))
  refine ⟨h.queue.round hpop, fun u hu => ?_, ?_, fun u hu m hm => ?_⟩
  · rcases hu with hw | he
    · rcases mem_of_mem_round_worklist hw with hr | hnext
      · exact h.reached u (Or.inl ((mem_of_pop d hpop u).mpr (Or.inr hr)))
      · exact hv.tail ⟨hnext, u.isLt⟩
    · rcases (mem_round_evaluated u).mp he with rfl | he
      · exact hv
      · exact h.reached u (Or.inr he)
  · rcases h.root_seen with hw | he
    · rcases (mem_of_pop d hpop root).mp hw with rfl | hr
      · exact Or.inr ((mem_round_evaluated _).mpr (Or.inl rfl))
      · exact Or.inl (mem_round_worklist_of_mem_rest hr)
    · exact Or.inr ((mem_round_evaluated _).mpr (Or.inr he))
  · rcases (mem_round_evaluated u).mp hu with rfl | he
    · -- the successors of the evaluated node were just relaxed
      exact (round_waits_or_evaluated h.queue hpop hm.1 hm.2).symm
    · rcases h.closed u he m hm with hem | hw
      · exact Or.inl ((mem_round_evaluated ⟨m, hm.2⟩).mpr (Or.inr hem))
      · rcases (mem_of_pop d hpop _).mp hw with heq | hr
        · exact Or.inl ((mem_round_evaluated ⟨m, hm.2⟩).mpr (Or.inl heq))
        · exact Or.inr (mem_round_worklist_of_mem_rest hr)

end Coverage

omit [FlowLattice α] [DecidableEq α] in
theorem coverage_start (problem : FlowProblem α) {g : Adjacency} {root : Nat}
    (h : root < g.count) : Coverage g ⟨root, h⟩ (problem.startState g h) where
  queue := by
    refine ⟨List.nodup_cons.mpr ⟨List.not_mem_nil, List.nodup_nil⟩, fun v => ?_⟩
    simp only [FlowProblem.startState, IndexSet.mem_insert, IndexSet.mem_empty, h,
      List.mem_singleton, Bool.false_or, Bool.and_eq_true, decide_eq_true_eq, true_and]
    exact ⟨fun e => Fin.ext e.symm, fun e => congrArg Fin.val e.symm⟩
  reached := by
    intro v hv
    rcases hv with hv | hv
    · rw [FlowProblem.startState, List.mem_singleton] at hv
      subst hv
      exact Adjacency.Reaches.refl root
    · simp [FlowProblem.startState] at hv
  root_seen := Or.inl List.mem_cons_self
  closed := by
    intro v hv
    simp [FlowProblem.startState] at hv

omit [FlowLattice α] [DecidableEq α] in
/-- When nothing waits, the evaluated nodes are exactly those the root reaches. -/
theorem Coverage.evaluated_iff {g : Adjacency} {root : Fin g.count} {st : SolverState α g.count}
    (h : Coverage g root st) (hw : st.worklist = []) (v : Nat) :
    st.evaluated.mem v = true ↔ g.Reaches root v := by
  constructor
  · intro hv
    exact h.reached ⟨v, IndexSet.lt_of_mem hv⟩ (Or.inr hv)
  · intro hv
    have hroot : st.evaluated.mem root = true := by simpa [hw] using h.root_seen
    refine hv.mem_of_closed (S := fun u => st.evaluated.mem u = true) hroot fun u w hu hstep => ?_
    simpa [hw] using h.closed ⟨u, IndexSet.lt_of_mem hu⟩ hu w hstep

end Coverage

variable {α : Type} [FlowLattice α] [DecidableEq α] [SemilatticeSup α]

/-- What holds of the solver's state between two rounds of a solve from `root`. -/
structure Invariant (problem : FlowProblem α) (g : Adjacency) (root : Fin g.count)
    (st : SolverState α g.count) : Prop where
  /-- The flags mark exactly the waiting nodes, each waiting once. -/
  queue : st.Queue
  /-- Only nodes the root reaches wait or have been evaluated. -/
  reached : ∀ v : Fin g.count, (v ∈ st.worklist ∨ st.evaluated.mem v = true) → g.Reaches root v
  /-- The root waits or has been evaluated. -/
  root_seen : root ∈ st.worklist ∨ st.evaluated.mem root = true
  /-- Every successor of an evaluated node has been evaluated or waits. -/
  closed : ∀ v : Fin g.count, st.evaluated.mem v = true → ∀ m (hm : g.Step v m),
    st.evaluated.mem m = true ∨ (⟨m, hm.2⟩ : Fin g.count) ∈ st.worklist
  /-- An evaluated node that does not wait has its transfer as exit, and that exit is joined
  into the entry of each successor. -/
  stable : ∀ v : Fin g.count, st.evaluated.mem v = true → v ∉ st.worklist →
    st.exit[v] = problem.transfer v st.entry[v] ∧
      ∀ m (hm : g.Step v m), st.exit[v] ≤ st.entry[(⟨m, hm.2⟩ : Fin g.count)]
  /-- An evaluated node's exit is at most the transfer of its present entry. -/
  exit_le : ∀ v : Fin g.count, st.evaluated.mem v = true →
    st.exit[v] ≤ problem.transfer v st.entry[v]
  /-- A node never evaluated keeps the initial exit. -/
  exit_initial : ∀ v : Fin g.count, st.evaluated.mem v = false → st.exit[v] = problem.initial
  /-- The root's entry holds the boundary. -/
  boundary_le : problem.boundary ≤ st.entry[root]
  /-- An entry is below every bound of what flowed into it: the boundary at the root and the
  exits of the evaluated predecessors. -/
  entry_le : ∀ (v : Fin g.count) (u : α), (v = root → problem.boundary ≤ u) →
    (∀ p : Fin g.count, st.evaluated.mem p = true → v.val ∈ g.next p → st.exit[p] ≤ u) →
    st.entry[v] ≤ u

/-- Every evaluated node that does not wait is settled: its exit is the transfer of its entry,
and that exit lies below the entry of each of its successors. -/
def Settled (problem : FlowProblem α) (g : Adjacency) (st : SolverState α g.count) : Prop :=
  ∀ v : Fin g.count, st.evaluated.mem v = true → v ∉ st.worklist →
    st.exit[v] = problem.transfer v st.entry[v] ∧
      ∀ m (hm : g.Step v m), st.exit[v] ≤ st.entry[(⟨m, hm.2⟩ : Fin g.count)]

/-! ## What a round does to entries and exits -/

section Round

variable {problem : FlowProblem α} {d : Discipline} {g : Adjacency} {root : Fin g.count}
  {st : SolverState α g.count} {v : Fin g.count} {rest : List (Fin g.count)}

variable (hjoin : ∀ a b : α, FlowLattice.join a b = a ⊔ b)
include hjoin

/-- A round only raises entries. -/
theorem entry_le_round (w : Fin g.count) :
    st.entry[w] ≤ (round problem d g.next v rest st).entry[w] := by
  rw [round_entry problem d g.next v rest st hjoin]
  split
  · exact le_sup_left
  · exact le_refl _

/-- The evaluated node's new exit is joined into each of its successors. -/
theorem transfer_le_round_entry {w : Fin g.count} (hw : w.val ∈ g.next v) :
    problem.transfer v st.entry[v] ≤ (round problem d g.next v rest st).entry[w] := by
  rw [round_entry problem d g.next v rest st hjoin, if_pos hw]
  exact le_sup_right

/-- A node that does not wait after a round kept its entry through it. -/
theorem round_entry_of_not_mem (hq : st.Queue) (hpop : d.pop st.worklist = some (v, rest))
    {w : Fin g.count} (hw : w ∉ (round problem d g.next v rest st).worklist) :
    (round problem d g.next v rest st).entry[w] = st.entry[w] := by
  rw [round_entry problem d g.next v rest st hjoin]
  rw [mem_round_worklist problem d g.next v rest st hjoin hq hpop] at hw
  split
  · rename_i hnext
    by_contra hne
    exact hw (Or.inr ⟨hnext, Or.inl hne⟩)
  · rfl

/-- A round keeps every node that does not wait settled. -/
theorem Settled.round (hq : st.Queue) (hs : Settled problem g st)
    (hpop : d.pop st.worklist = some (v, rest)) :
    Settled problem g (SolverState.round problem d g.next v rest st) := by
  intro u hu hnot
  have hentry := round_entry_of_not_mem hjoin hq hpop hnot
  rw [hentry, round_exit_getElem]
  by_cases huv : u = v
  · subst huv
    refine ⟨if_pos rfl, fun m hm => ?_⟩
    rw [if_pos rfl]
    exact transfer_le_round_entry hjoin hm.1
  · -- any other settled node was settled before the round and is untouched by it
    have he : st.evaluated.mem u = true := ((mem_round_evaluated u).mp hu).resolve_left huv
    have hold : u ∉ st.worklist := by
      rw [mem_of_pop d hpop u]
      rintro (h | hr)
      · exact huv h
      · exact hnot ((mem_round_worklist problem d g.next v rest st hjoin hq hpop u).mpr
          (Or.inl hr))
    obtain ⟨hexit, hflow⟩ := hs u he hold
    rw [if_neg huv]
    exact ⟨hexit, fun m hm => le_trans (hflow m hm) (entry_le_round hjoin _)⟩

end Round

/-! ## What a round keeps

Each field of the invariant is kept by a round on its own; `Invariant.round` puts them
together. Throughout, `v` is the node the round took off the worklist and `rest` what was
left, so that the worklist before the round is `v` and `rest` (`mem_of_pop`). -/

namespace Invariant

omit [FlowLattice α] [DecidableEq α] in
/-- The invariant says which nodes the solve has seen. -/
theorem coverage {problem : FlowProblem α} {g : Adjacency} {root : Fin g.count}
    {st : SolverState α g.count} (h : Invariant problem g root st) : Coverage g root st :=
  ⟨h.queue, h.reached, h.root_seen, h.closed⟩

section Keep

variable {problem : FlowProblem α} {d : Discipline} {g : Adjacency} {root : Fin g.count}
  {st : SolverState α g.count} {v : Fin g.count} {rest : List (Fin g.count)}
  (hjoin : ∀ a b : α, FlowLattice.join a b = a ⊔ b)
  (hinv : Invariant problem g root st) (hpop : d.pop st.worklist = some (v, rest))
include hjoin hinv hpop

omit hjoin in
/-- The exit of an evaluated node never falls in a round. -/
theorem exit_le_round_exit (p : Fin g.count) (hp : st.evaluated.mem p = true) :
    st.exit[p] ≤ (round problem d g.next v rest st).exit[p] := by
  rw [round_exit_getElem]
  split
  · rename_i hpv
    subst hpv
    exact hinv.exit_le p hp
  · exact le_refl _

theorem exit_le_round (hmono : ∀ v, Monotone (problem.transfer v)) (u : Fin g.count)
    (hu : (round problem d g.next v rest st).evaluated.mem u = true) :
    (round problem d g.next v rest st).exit[u] ≤
      problem.transfer u (round problem d g.next v rest st).entry[u] := by
  rw [round_exit_getElem]
  split
  · rename_i huv
    subst huv
    exact hmono u (entry_le_round hjoin u)
  · rename_i huv
    have he : st.evaluated.mem u = true := ((mem_round_evaluated u).mp hu).resolve_left huv
    exact le_trans (hinv.exit_le u he) (hmono u (entry_le_round hjoin u))

omit hjoin hpop in
theorem exit_initial_round (u : Fin g.count)
    (hu : (round problem d g.next v rest st).evaluated.mem u = false) :
    (round problem d g.next v rest st).exit[u] = problem.initial := by
  have hnot : ¬(u = v ∨ st.evaluated.mem u = true) := by
    rw [← mem_round_evaluated u, hu]
    exact Bool.false_ne_true
  rw [round_exit_getElem, if_neg fun h => hnot (Or.inl h)]
  exact hinv.exit_initial u (Bool.eq_false_iff.mpr fun h => hnot (Or.inr h))

theorem entry_le_round_bound (w : Fin g.count) (b : α) (hroot : w = root → problem.boundary ≤ b)
    (hpred : ∀ p : Fin g.count, (round problem d g.next v rest st).evaluated.mem p = true →
      w.val ∈ g.next p → (round problem d g.next v rest st).exit[p] ≤ b) :
    (round problem d g.next v rest st).entry[w] ≤ b := by
  -- the entry before the round is below `b`, since exits only grew
  have hold : st.entry[w] ≤ b := by
    refine hinv.entry_le w b hroot fun p hp hpw => ?_
    exact le_trans (exit_le_round_exit hinv hpop p hp)
      (hpred p ((mem_round_evaluated p).mpr (Or.inr hp)) hpw)
  rw [round_entry problem d g.next v rest st hjoin]
  split
  · rename_i hw
    have hv := hpred v ((mem_round_evaluated v).mpr (Or.inl rfl)) hw
    rw [round_exit_getElem, if_pos rfl] at hv
    exact sup_le hold hv
  · exact hold

/-- A round keeps the invariant. -/
theorem round (hmono : ∀ v, Monotone (problem.transfer v)) :
    Invariant problem g root (SolverState.round problem d g.next v rest st) where
  queue := hinv.queue.round hpop
  reached := (hinv.coverage.round hpop).reached
  root_seen := (hinv.coverage.round hpop).root_seen
  closed := (hinv.coverage.round hpop).closed
  stable := Settled.round hjoin hinv.queue hinv.stable hpop
  exit_le := exit_le_round hjoin hinv hpop hmono
  exit_initial := exit_initial_round hinv
  boundary_le := le_trans hinv.boundary_le (entry_le_round hjoin root)
  entry_le := entry_le_round_bound hjoin hinv hpop

end Keep

/-! ## The start and the end of a solve -/

omit [FlowLattice α] [DecidableEq α] in
/-- A solve from a root in range starts with the root's entry at the boundary and every other
state initial, nothing evaluated, and the root alone waiting. -/
theorem start (problem : FlowProblem α) {g : Adjacency} {root : Nat} (h : root < g.count)
    (hbot : ∀ a, problem.initial ≤ a) :
    Invariant problem g ⟨root, h⟩ (problem.startState g h) where
  queue := (coverage_start problem h).queue
  reached := (coverage_start problem h).reached
  root_seen := (coverage_start problem h).root_seen
  closed := (coverage_start problem h).closed
  stable := by
    intro v hv
    simp [FlowProblem.startState] at hv
  exit_le := by
    intro v hv
    simp [FlowProblem.startState] at hv
  exit_initial := by
    intro v _
    simp [FlowProblem.startState]
  boundary_le := by simp [FlowProblem.startState]
  entry_le := by
    intro v u hroot _
    rw [FlowProblem.startState, Fin.getElem_fin, Vector.getElem_set]
    split
    · rename_i hv
      exact hroot (Fin.ext hv.symm)
    · rw [Vector.getElem_replicate]
      exact hbot u

/-- Under every discipline, the invariant holds of the state a solve ends in. -/
theorem run (problem : FlowProblem α) (hjoin : ∀ a b : α, FlowLattice.join a b = a ⊔ b)
    (hbot : ∀ a, problem.initial ≤ a) (hmono : ∀ v, Monotone (problem.transfer v))
    (d : Discipline) {g : Adjacency} {root : Nat} (h : root < g.count) :
    Invariant problem g ⟨root, h⟩ (SolverState.run problem d g.next (problem.startState g h)) := by
  apply run_induction problem d g.next (Invariant problem g ⟨root, h⟩)
  · intro st v rest hpop hinv
    exact hinv.round hjoin hpop hmono
  · exact start problem h hbot

end Invariant

end SolverState

end ReachingDefs
