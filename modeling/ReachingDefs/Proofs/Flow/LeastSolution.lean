import Mathlib.Order.Bounds.Basic
import ReachingDefs.Proofs.Flow.Invariant

/-!
# The solver computes the least solution

A forward problem on a graph seen from a root poses one equation per node the root reaches:
the entry of a node is the join of what flows into it (the boundary at the root, and the
exit of each reachable predecessor), and its exit is the transfer of its entry. Over a
semilattice whose join is the solver's, with the initial state at the bottom and monotone
transfers, the solver returns the least solution of these equations on the reached nodes and
leaves every other node initial. The worklist order plays no part, so every order returns the
same states.

## Main definitions

* `FlowProblem.Inflow`: what flows into the entry of a node
* `FlowProblem.Solves`, `FlowProblem.IsLeastSolution`: the equations on the reached nodes, and
  their least solution

## Main results

* `FlowProblem.solve_le_postSolves`: the solve's states lie below every post-solution
* `FlowProblem.solve_order_eq`: every worklist order ends in the same states
* `FlowProblem.solve_least_on_reach`: the solve's states, for a root in range and out of it,
  under every order
-/

namespace ReachingDefs

/-! ## Sets of indices as a semilattice

Sets ordered by inclusion, with union as join: the solver's join on sets of indices is this
semilattice's join, and the empty set is its bottom. -/

namespace IndexSet

variable {n : Nat}

instance : PartialOrder (IndexSet n) where
  le s t := ∀ i, s.mem i = true → t.mem i = true
  le_refl _ _ h := h
  le_trans _ _ _ hst htu i h := htu i (hst i h)
  le_antisymm _ _ hst hts := ext fun i => Bool.eq_iff_iff.mpr ⟨hst i, hts i⟩

theorem le_iff {s t : IndexSet n} : s ≤ t ↔ ∀ i, s.mem i = true → t.mem i = true := Iff.rfl

instance : SemilatticeSup (IndexSet n) where
  sup := union
  le_sup_left s t i h := by simp [h]
  le_sup_right s t i h := by simp [h]
  sup_le s t u hsu htu i h := by
    rw [mem_union, Bool.or_eq_true] at h
    rcases h with h | h
    · exact hsu i h
    · exact htu i h

theorem join_eq_sup (s t : IndexSet n) : FlowLattice.join s t = s ⊔ t := rfl

theorem empty_le (s : IndexSet n) : empty ≤ s := by
  intro i h
  simp at h

end IndexSet

namespace FlowProblem

variable {α : Type} [SemilatticeSup α]

/-- What flows into the entry of `v`: the boundary if `v` is the root, and the exit of every
predecessor of `v` that the root reaches. -/
def Inflow (problem : FlowProblem α) (g : Adjacency) (root : Nat) (exit : Fin g.count → α)
    (v : Fin g.count) : Set α :=
  {x | (v.val = root ∧ x = problem.boundary) ∨
    ∃ p : Fin g.count, g.Reaches root p ∧ g.Step p v ∧ x = exit p}

/-- `entry` and `exit` solve the problem's equations on the nodes the root reaches. -/
structure Solves (problem : FlowProblem α) (g : Adjacency) (root : Nat)
    (entry exit : Fin g.count → α) : Prop where
  /-- Each entry is the join of what flows into it. -/
  entry_isLUB : ∀ v : Fin g.count, g.Reaches root v →
    IsLUB (problem.Inflow g root exit v) (entry v)
  /-- Each exit is the transfer of its entry. -/
  exit_eq : ∀ v : Fin g.count, g.Reaches root v → exit v = problem.transfer v (entry v)

/-- `entry` and `exit` bound the equations from above on the reached nodes: each entry is above
what flows into it, and each exit above the transfer of its entry. -/
structure PostSolves (problem : FlowProblem α) (g : Adjacency) (root : Nat)
    (entry exit : Fin g.count → α) : Prop where
  inflow_le : ∀ v : Fin g.count, g.Reaches root v →
    ∀ x ∈ problem.Inflow g root exit v, x ≤ entry v
  transfer_le : ∀ v : Fin g.count, g.Reaches root v → problem.transfer v (entry v) ≤ exit v

theorem Solves.postSolves {problem : FlowProblem α} {g : Adjacency} {root : Nat}
    {entry exit : Fin g.count → α} (h : problem.Solves g root entry exit) :
    problem.PostSolves g root entry exit where
  inflow_le v hv _ hx := (h.entry_isLUB v hv).1 hx
  transfer_le v hv := le_of_eq (h.exit_eq v hv).symm

/-- A solution on the reached nodes that lies below every other one there. -/
def IsLeastSolution (problem : FlowProblem α) (g : Adjacency) (root : Nat)
    (entry exit : Fin g.count → α) : Prop :=
  problem.Solves g root entry exit ∧
    ∀ entry' exit', problem.Solves g root entry' exit' →
      ∀ v : Fin g.count, g.Reaches root v → entry v ≤ entry' v ∧ exit v ≤ exit' v

/-- Two least solutions agree on every reached node. -/
theorem IsLeastSolution.eq {problem : FlowProblem α} {g : Adjacency} {root : Nat}
    {entry exit entry' exit' : Fin g.count → α} (h : problem.IsLeastSolution g root entry exit)
    (h' : problem.IsLeastSolution g root entry' exit') {v : Fin g.count} (hv : g.Reaches root v) :
    entry v = entry' v ∧ exit v = exit' v := by
  obtain ⟨le₁, le₂⟩ := h.2 entry' exit' h'.1 v hv
  obtain ⟨ge₁, ge₂⟩ := h'.2 entry exit h.1 v hv
  exact ⟨le_antisymm le₁ ge₁, le_antisymm le₂ ge₂⟩

end FlowProblem

/-! ## The state a solve ends in -/

namespace SolverState

variable {α : Type} [FlowLattice α] [DecidableEq α] [SemilatticeSup α]
  {problem : FlowProblem α} {g : Adjacency} {root : Nat} {h : root < g.count}
  {st : SolverState α g.count}

omit [FlowLattice α] [DecidableEq α] in
/-- Once nothing waits, every node the root reaches has been evaluated. -/
theorem evaluated_of_reaches (hinv : Invariant problem g ⟨root, h⟩ st) (hempty : st.worklist = [])
    (v : Fin g.count) (hv : g.Reaches root v) : st.evaluated.mem v = true := by
  -- the evaluated nodes hold the root and are closed under moves
  have hroot : st.evaluated.mem root = true := by
    rcases hinv.root_seen with hw | he
    · rw [hempty] at hw
      exact absurd hw List.not_mem_nil
    · exact he
  have hclosed := Adjacency.Reaches.mem_of_closed
    (S := fun u => ∃ hu : u < g.count, st.evaluated.mem u = true) ⟨h, hroot⟩ ?_ hv
  · obtain ⟨_, he⟩ := hclosed
    exact he
  · rintro u w ⟨hu, he⟩ hstep
    refine ⟨hstep.2, ?_⟩
    rcases hinv.closed ⟨u, hu⟩ he w hstep with he' | hw
    · exact he'
    · rw [hempty] at hw
      exact absurd hw List.not_mem_nil

variable (hbot : ∀ a, problem.initial ≤ a)
include hbot

omit [FlowLattice α] [DecidableEq α] in
/-- A node the root does not reach ends with both states initial. -/
theorem initial_of_not_reaches (hinv : Invariant problem g ⟨root, h⟩ st) (v : Fin g.count)
    (hv : ¬g.Reaches root v) : st.entry[v] = problem.initial ∧ st.exit[v] = problem.initial := by
  have hne : st.evaluated.mem v = false :=
    Bool.eq_false_iff.mpr fun he => hv (hinv.reached v (Or.inr he))
  refine ⟨le_antisymm ?_ (hbot _), hinv.exit_initial v hne⟩
  -- nothing flows into `v`: it is not the root, and no evaluated node is a predecessor
  apply hinv.entry_le v problem.initial
  · intro hroot
    exact absurd (hroot ▸ Adjacency.Reaches.refl root) hv
  · intro p hp hnext
    exact absurd ((hinv.reached p (Or.inr hp)).tail ⟨hnext, v.isLt⟩) hv

omit [FlowLattice α] [DecidableEq α] hbot in
/-- Once nothing waits, the states solve the equations on the reached nodes. -/
theorem solves_of_empty (hinv : Invariant problem g ⟨root, h⟩ st) (hempty : st.worklist = []) :
    problem.Solves g root (fun v => st.entry[v]) (fun v => st.exit[v]) := by
  have hsettled : ∀ v : Fin g.count, g.Reaches root v →
      st.exit[v] = problem.transfer v st.entry[v] ∧
        ∀ m (hm : g.Step v m), st.exit[v] ≤ st.entry[(⟨m, hm.2⟩ : Fin g.count)] := by
    intro v hv
    refine hinv.stable v (evaluated_of_reaches hinv hempty v hv) ?_
    rw [hempty]
    exact List.not_mem_nil
  refine ⟨fun v hv => ⟨?_, ?_⟩, fun v hv => (hsettled v hv).1⟩
  · -- the entry is an upper bound of its inflow
    rintro x (⟨hroot, rfl⟩ | ⟨p, hp, hstep, rfl⟩)
    · have : v = ⟨root, h⟩ := Fin.ext hroot
      subst this
      exact hinv.boundary_le
    · exact (hsettled p hp).2 v hstep
  · -- and below every other upper bound
    intro b hb
    apply hinv.entry_le v b
    · intro hroot
      exact hb (Or.inl ⟨congrArg Fin.val hroot, rfl⟩)
    · intro p hp hnext
      exact hb (Or.inr ⟨p, hinv.reached p (Or.inr hp), ⟨hnext, v.isLt⟩, rfl⟩)

variable (hjoin : ∀ a b : α, FlowLattice.join a b = a ⊔ b)
  (hmono : ∀ v, Monotone (problem.transfer v))
include hjoin hmono

omit hbot in
/-- While the invariant holds, a round keeps every reached state below a given post-solution. -/
theorem below_round {entry exit : Fin g.count → α} (hsol : problem.PostSolves g root entry exit)
    {d : Discipline} {v : Fin g.count} {rest : List (Fin g.count)}
    (hinv : Invariant problem g ⟨root, h⟩ st) (hpop : d.pop st.worklist = some (v, rest))
    (hbelow : ∀ w : Fin g.count, g.Reaches root w → st.entry[w] ≤ entry w ∧ st.exit[w] ≤ exit w)
    (w : Fin g.count) (hw : g.Reaches root w) :
    (round problem d g.next v rest st).entry[w] ≤ entry w ∧
      (round problem d g.next v rest st).exit[w] ≤ exit w := by
  have hv : g.Reaches root v := hinv.reached v (Or.inl ((mem_of_pop d hpop v).mpr (Or.inl rfl)))
  have hout : problem.transfer v st.entry[v] ≤ exit v :=
    le_trans (hmono v (hbelow v hv).1) (hsol.transfer_le v hv)
  constructor
  · rw [round_entry problem d g.next v rest st hjoin]
    split
    · rename_i hnext
      -- the exit of a reached predecessor flows into `w`, so the solution's entry covers it
      have hflow : exit v ≤ entry w :=
        hsol.inflow_le w hw _ (Or.inr ⟨v, hv, ⟨hnext, w.isLt⟩, rfl⟩)
      exact sup_le (hbelow w hw).1 (le_trans hout hflow)
    · exact (hbelow w hw).1
  · rw [round_exit_getElem]
    split
    · rename_i hwv
      subst hwv
      exact hout
    · exact (hbelow w hw).2

/-- Under every discipline, the states a solve ends in lie below every post-solution. -/
theorem run_le_solution {entry exit : Fin g.count → α} (hsol : problem.PostSolves g root entry exit)
    (d : Discipline) (w : Fin g.count) (hw : g.Reaches root w) :
    (run problem d g.next (problem.startState g h)).entry[w] ≤ entry w ∧
      (run problem d g.next (problem.startState g h)).exit[w] ≤ exit w := by
  let Below : SolverState α g.count → Prop := fun st =>
    Invariant problem g ⟨root, h⟩ st ∧
      ∀ w : Fin g.count, g.Reaches root w → st.entry[w] ≤ entry w ∧ st.exit[w] ≤ exit w
  have hend : Below (run problem d g.next (problem.startState g h)) := by
    apply run_induction problem d g.next Below
    · rintro st v rest hpop ⟨hinv, hbelow⟩
      exact ⟨hinv.round hjoin hpop hmono, below_round hjoin hmono hsol hinv hpop hbelow⟩
    · refine ⟨Invariant.start problem h hbot, fun w hw => ⟨?_, ?_⟩⟩
      · -- the start state holds the boundary at the root and the bottom elsewhere
        rw [FlowProblem.startState, Fin.getElem_fin, Vector.getElem_set]
        split
        · rename_i hroot
          have : w = ⟨root, h⟩ := Fin.ext hroot.symm
          subst this
          exact hsol.inflow_le _ hw _ (Or.inl ⟨rfl, rfl⟩)
        · rw [Vector.getElem_replicate]
          exact hbot _
      · simp only [FlowProblem.startState, Fin.getElem_fin, Vector.getElem_replicate]
        exact hbot _
  exact hend.2 w hw

end SolverState

/-! ## The solve -/

namespace FlowProblem

variable {α : Type} [FlowLattice α] [DecidableEq α] [SemilatticeSup α]

/-- From a root in range, the solve's states lie below every post-solution on the reached
nodes. -/
theorem solve_le_postSolves (problem : FlowProblem α)
    (hjoin : ∀ a b : α, FlowLattice.join a b = a ⊔ b) (hbot : ∀ a, problem.initial ≤ a)
    (hmono : ∀ v, Monotone (problem.transfer v)) (order : WorklistOrder) (g : Adjacency)
    {root : Nat} (h : root < g.count) {entry exit : Fin g.count → α}
    (hsol : problem.PostSolves g root entry exit) (v : Fin g.count) (hv : g.Reaches root v) :
    (problem.solve order g root).entry[v] ≤ entry v ∧
      (problem.solve order g root).exit[v] ≤ exit v := by
  rw [solve_of_lt problem order g h]
  exact SolverState.run_le_solution hbot hjoin hmono hsol _ v hv

/-- From a root in range, the solve's states are the least solution on the reached nodes and
initial on every other node. -/
theorem solve_isLeastSolution (problem : FlowProblem α)
    (hjoin : ∀ a b : α, FlowLattice.join a b = a ⊔ b) (hbot : ∀ a, problem.initial ≤ a)
    (hmono : ∀ v, Monotone (problem.transfer v)) (order : WorklistOrder) (g : Adjacency)
    {root : Nat} (h : root < g.count) :
    (∀ v : Fin g.count, ¬g.Reaches root v →
      (problem.solve order g root).entry[v] = problem.initial ∧
        (problem.solve order g root).exit[v] = problem.initial) ∧
    problem.IsLeastSolution g root (fun v => (problem.solve order g root).entry[v])
      (fun v => (problem.solve order g root).exit[v]) := by
  have hinv := SolverState.Invariant.run problem hjoin hbot hmono
    (Discipline.ofOrder order g root) h
  refine ⟨?_, ?_, fun entry exit hsol v hv =>
    solve_le_postSolves problem hjoin hbot hmono order g h hsol.postSolves v hv⟩
  all_goals rw [solve_of_lt problem order g h]
  · exact SolverState.initial_of_not_reaches hbot hinv
  · exact SolverState.solves_of_empty hinv (SolverState.run_worklist problem _ g.next _)

/-- Every worklist order ends in the same states: two least solutions agree on the reached
nodes, and every other node keeps the initial states. -/
theorem solve_order_eq (problem : FlowProblem α)
    (hjoin : ∀ a b : α, FlowLattice.join a b = a ⊔ b) (hbot : ∀ a, problem.initial ≤ a)
    (hmono : ∀ v, Monotone (problem.transfer v)) (order order' : WorklistOrder) (g : Adjacency)
    (root : Nat) :
    (problem.solve order' g root).entry = (problem.solve order g root).entry ∧
      (problem.solve order' g root).exit = (problem.solve order g root).exit := by
  by_cases h : root < g.count
  · obtain ⟨off, least⟩ := solve_isLeastSolution problem hjoin hbot hmono order g h
    obtain ⟨off', least'⟩ := solve_isLeastSolution problem hjoin hbot hmono order' g h
    have hat : ∀ v : Fin g.count,
        (problem.solve order' g root).entry[v] = (problem.solve order g root).entry[v] ∧
          (problem.solve order' g root).exit[v] = (problem.solve order g root).exit[v] := by
      intro v
      by_cases hv : g.Reaches root v
      · exact least'.eq least hv
      · obtain ⟨e', x'⟩ := off' v hv
        obtain ⟨e, x⟩ := off v hv
        exact ⟨e'.trans e.symm, x'.trans x.symm⟩
    exact ⟨Vector.ext fun i hi => (hat ⟨i, hi⟩).1, Vector.ext fun i hi => (hat ⟨i, hi⟩).2⟩
  · rw [solve_of_root_ge problem order g h, solve_of_root_ge problem order' g h]
    exact ⟨rfl, rfl⟩

/-- **The solve computes the least solution.** Out of range, the root leaves every state
initial and evaluates nothing. In range, every node the root does not reach keeps the initial
states, and on the reached nodes the states are the least solution of the equations. Every
worklist order therefore returns the same states. -/
theorem solve_least_on_reach (problem : FlowProblem α)
    (hjoin : ∀ a b : α, FlowLattice.join a b = a ⊔ b) (hbot : ∀ a, problem.initial ≤ a)
    (hmono : ∀ v, Monotone (problem.transfer v)) (order : WorklistOrder) (g : Adjacency)
    (root : Nat) :
    (g.count ≤ root →
      (∀ v : Fin g.count, (problem.solve order g root).entry.get v = problem.initial ∧
        (problem.solve order g root).exit.get v = problem.initial) ∧
      (problem.solve order g root).iterations = 0) ∧
    (root < g.count →
      (∀ v : Fin g.count, ¬g.Reaches root v →
        (problem.solve order g root).entry.get v = problem.initial ∧
          (problem.solve order g root).exit.get v = problem.initial) ∧
      problem.IsLeastSolution g root (problem.solve order g root).entry.get
        (problem.solve order g root).exit.get) ∧
    ∀ order' : WorklistOrder,
      (problem.solve order' g root).entry = (problem.solve order g root).entry ∧
        (problem.solve order' g root).exit = (problem.solve order g root).exit := by
  refine ⟨fun hge => ?_, solve_isLeastSolution problem hjoin hbot hmono order g,
    fun order' => solve_order_eq problem hjoin hbot hmono order order' g root⟩
  rw [solve_of_root_ge problem order g (Nat.not_lt.mpr hge)]
  exact ⟨fun v => ⟨Vector.getElem_replicate _, Vector.getElem_replicate _⟩, rfl⟩

/-- The trail problem of three nodes, each node adding itself to the set of nodes passed, on a
graph with a self-loop, a node the root does not reach and a successor out of range. -/
theorem solve_least_on_reach_trail :
    (∀ a b : IndexSet 3, FlowLattice.join a b = a ⊔ b) ∧
    (∀ a : IndexSet 3, (⟨.empty, .empty, fun v s => s.insert v⟩ : FlowProblem (IndexSet 3)).initial ≤ a) ∧
    (∀ v, Monotone ((⟨.empty, .empty, fun v s => s.insert v⟩ : FlowProblem (IndexSet 3)).transfer v)) ∧
    let trail : FlowProblem (IndexSet 3) := ⟨.empty, .empty, fun v s => s.insert v⟩
    let g : Adjacency := ⟨3, fun v => if v = 0 then [0, 1, 5] else []⟩
    (g.count ≤ 0 →
      (∀ v : Fin g.count, (trail.solve .fifo g 0).entry[v] = trail.initial ∧
        (trail.solve .fifo g 0).exit[v] = trail.initial) ∧
      (trail.solve .fifo g 0).iterations = 0) ∧
    (0 < g.count →
      (∀ v : Fin g.count, ¬g.Reaches 0 v →
        (trail.solve .fifo g 0).entry[v] = trail.initial ∧
          (trail.solve .fifo g 0).exit[v] = trail.initial) ∧
      trail.IsLeastSolution g 0 (fun v => (trail.solve .fifo g 0).entry[v])
        (fun v => (trail.solve .fifo g 0).exit[v])) ∧
    ∀ order' : WorklistOrder,
      (trail.solve order' g 0).entry = (trail.solve .fifo g 0).entry ∧
        (trail.solve order' g 0).exit = (trail.solve .fifo g 0).exit := by
  have hmono : ∀ v, Monotone ((⟨.empty, .empty, fun v s => s.insert v⟩ :
      FlowProblem (IndexSet 3)).transfer v) := by
    intro v s t hst i hi
    simp only [IndexSet.mem_insert, Bool.or_eq_true] at hi ⊢
    rcases hi with hi | hi
    · exact Or.inl (hst i hi)
    · exact Or.inr hi
  exact ⟨IndexSet.join_eq_sup, IndexSet.empty_le, hmono,
    solve_least_on_reach _ IndexSet.join_eq_sup IndexSet.empty_le hmono .fifo _ 0⟩

end FlowProblem

end ReachingDefs
