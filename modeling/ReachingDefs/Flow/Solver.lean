import ReachingDefs.Flow.Lattice
import ReachingDefs.Flow.Worklist

/-!
# The worklist solver for forward dataflow problems

A forward problem gives each node a transfer function from its entry state to its exit
state, a boundary state for the root's entry and an initial state for every other one. The
solver starts with the root on the worklist. It takes a node off, evaluates its exit state
from its entry state, and joins the exit into the entry of every successor in range. A
successor goes onto the worklist if its entry grew, or if it was never evaluated, and only
if it is not flagged as queued already; a node is flagged as it goes on and unflagged as it
comes off. The solve ends when the worklist is empty; nodes the root does not reach keep the
initial state on both sides.

`iterations` counts evaluations. `events` records, in order, each evaluation and each
successor that went onto the worklist because its entry grew.

## Main definitions

* `FlowProblem`: boundary, initial state and transfer of a forward problem
* `SolverState.relax`, `SolverState.evaluate`: the two steps of one round
* `SolverState.run`: the loop, a total definition
* `FlowProblem.solve`: the solve from a root, under a worklist order

## Why it stops

The measure is the pair (`potentialOf`, `2 * idleOf + length of the worklist`) in
lexicographic order. `potentialOf` sums, over the nodes, how far each entry can still rise;
`idleOf` counts the nodes that are neither evaluated nor flagged. Taking a node off lowers the
second component, whatever the flags say of the worklist. A join that changes an entry lowers
the potential (`potentialOf_set_lt`). A node added without a change of entry was idle, so the second
component falls by one more than the worklist grows (`idleOf_flag_lt`). `relax_progress`
and `foldl_relax_progress` put these together for one round.
-/

namespace ReachingDefs

/-- A forward dataflow problem over states of type `α`. -/
structure FlowProblem (α : Type) where
  /-- The entry state of the root. -/
  boundary : α
  /-- The state of every other entry, and of every exit, before the solve. -/
  initial : α
  /-- The exit state of a node from its entry state. -/
  transfer : Nat → α → α

/-- What the solver records as it runs. -/
inductive SolverEvent where
  /-- A node was evaluated. -/
  | transfer (node : Nat)
  /-- The entry of `target` grew from the exit of `source`, and `target` went onto the
  worklist. -/
  | grew (source target : Nat)
deriving DecidableEq, Repr

/-- The state of a solve over `count` nodes. -/
structure SolverState (α : Type) (count : Nat) where
  /-- The entry state of each node. -/
  entry : Vector α count
  /-- The exit state of each node. -/
  exit : Vector α count
  /-- The nodes evaluated at least once. -/
  evaluated : IndexSet count
  /-- The nodes waiting to be evaluated. -/
  worklist : List (Fin count)
  /-- The nodes flagged as waiting: a node goes onto the worklist only when it is not flagged. -/
  queued : IndexSet count
  iterations : Nat
  events : Array SolverEvent

namespace SolverState

variable {α : Type} [FlowLattice α] {count : Nat}

/-- How far the entries can still rise, summed over the nodes. -/
def potentialOf (entry : Vector α count) : Nat :=
  sumBy (fun v : Fin count => FlowLattice.height (α := α) - FlowLattice.rank (entry.get v))
    (List.finRange count)

/-- The nodes that are neither evaluated nor flagged as waiting. -/
def idleOf (evaluated queued : IndexSet count) : Nat :=
  (List.finRange count).countP fun v : Fin count => !evaluated.mem v && !queued.mem v

/-- The termination measure of a solve. -/
def measure (st : SolverState α count) : Nat × Nat :=
  (potentialOf st.entry, 2 * idleOf st.evaluated st.queued + st.worklist.length)

/-- One step never raises the measure: it lowers the potential, or keeps it and does not
raise the second component. -/
def Progress (st st' : SolverState α count) : Prop :=
  potentialOf st'.entry < potentialOf st.entry ∨
    (potentialOf st'.entry = potentialOf st.entry ∧
      2 * idleOf st'.evaluated st'.queued + st'.worklist.length ≤
        2 * idleOf st.evaluated st.queued + st.worklist.length)

theorem Progress.refl (st : SolverState α count) : Progress st st :=
  Or.inr ⟨rfl, Nat.le_refl _⟩

theorem Progress.trans {a b c : SolverState α count} (hab : Progress a b) (hbc : Progress b c) :
    Progress a c := by
  unfold Progress at *
  omega

/-- Raising one entry's rank lowers the potential. -/
theorem potentialOf_set_lt (entry : Vector α count) {m : Nat} (h : m < count) (new : α)
    (hr : FlowLattice.rank entry[m] < FlowLattice.rank new) :
    potentialOf (entry.set m new h) < potentialOf entry := by
  have hnew := FlowLattice.rank_le_height new
  have hget : ∀ (xs : Vector α count) (i : Fin count), xs.get i = xs[i] := fun _ _ => rfl
  apply sumBy_lt_sumBy
  · intro v _
    simp only [hget, Fin.getElem_fin, Vector.getElem_set]
    split
    · rename_i hv
      subst hv
      omega
    · exact Nat.le_refl _
  · refine ⟨⟨m, h⟩, List.mem_finRange _, ?_⟩
    simp only [hget, Fin.getElem_fin, Vector.getElem_set, ↓reduceIte]
    omega

/-- Taking a node off and evaluating it idles no node: it is evaluated, and every other node
keeps its marks. -/
theorem idleOf_insert_le (evaluated queued : IndexSet count) (v : Fin count) :
    idleOf (evaluated.insert v) (queued.erase v) ≤ idleOf evaluated queued := by
  apply List.countP_mono_left
  intro u _ hu
  simp only [Bool.and_eq_true, Bool.not_eq_true', IndexSet.mem_insert, IndexSet.mem_erase,
    Bool.or_eq_false_iff, Bool.and_eq_false_iff] at hu ⊢
  obtain ⟨⟨he, hv⟩, hq⟩ := hu
  refine ⟨he, hq.resolve_right fun hne => ?_⟩
  simp_all

/-- Flagging an idle node lowers the idle count. -/
theorem idleOf_flag_lt (evaluated queued : IndexSet count) (m : Fin count)
    (he : evaluated.mem m = false) (hq : queued.mem m = false) :
    idleOf evaluated (queued.insert m) < idleOf evaluated queued := by
  apply countP_lt_countP
  · intro u _ hu
    simp only [Bool.and_eq_true, Bool.not_eq_true', IndexSet.mem_insert,
      Bool.or_eq_false_iff] at hu ⊢
    exact ⟨hu.1, hu.2.1⟩
  · refine ⟨m, List.mem_finRange _, ?_, ?_⟩
    · simp [he, hq]
    · simp

variable [DecidableEq α]

/-- Joins the exit of `source` into the entry of `m` and puts `m` on the worklist when the
rules ask for it. -/
def relax (d : Discipline) (source : Fin count) (out : α) (st : SolverState α count)
    (m : Nat) : SolverState α count :=
  if h : m < count then
    let target : Fin count := ⟨m, h⟩
    let old := st.entry[target]
    let new := FlowLattice.join old out
    if new ≠ old then
      if st.queued.mem m then { st with entry := st.entry.set m new h }
      else
        { st with entry := st.entry.set m new h, worklist := d.push target st.worklist,
                  queued := st.queued.insert m, events := st.events.push (.grew source m) }
    else if st.evaluated.mem m = false ∧ st.queued.mem m = false then
      { st with worklist := d.push target st.worklist, queued := st.queued.insert m }
    else st
  else st

/-- Evaluates a node just taken off the worklist. -/
def evaluate (problem : FlowProblem α) (v : Fin count) (rest : List (Fin count))
    (st : SolverState α count) : SolverState α count :=
  { st with worklist := rest, queued := st.queued.erase v, evaluated := st.evaluated.insert v,
            exit := st.exit.set v (problem.transfer v (st.entry.get v)) v.isLt,
            iterations := st.iterations + 1, events := st.events.push (.transfer v) }

theorem relax_progress (d : Discipline) (source : Fin count) (out : α)
    (st : SolverState α count) (m : Nat) : Progress st (relax d source out st m) := by
  unfold relax
  split
  · rename_i h
    dsimp only
    split
    · rename_i hne
      have hlt := FlowLattice.rank_lt_join _ _ hne
      have hp := potentialOf_set_lt st.entry h _ hlt
      split
      · exact Or.inl hp
      · exact Or.inl hp
    · split
      · rename_i hidle
        have : idleOf st.evaluated (st.queued.insert m) < idleOf st.evaluated st.queued :=
          idleOf_flag_lt st.evaluated st.queued ⟨m, h⟩ hidle.1 hidle.2
        refine Or.inr ⟨rfl, ?_⟩
        simp only [Discipline.length_push]
        omega
      · exact Progress.refl st
  · exact Progress.refl st

theorem foldl_relax_progress (d : Discipline) (source : Fin count) (out : α)
    (l : List Nat) (st : SolverState α count) :
    Progress st (l.foldl (relax d source out) st) := by
  induction l generalizing st with
  | nil => exact Progress.refl st
  | cons m rest ih =>
    exact (relax_progress d source out st m).trans (ih _)

-- `h` is read only by the termination proof, which the linter does not see
set_option linter.unusedVariables false in
/-- Runs the worklist loop to the end. -/
def run (problem : FlowProblem α) (d : Discipline) (next : Nat → List Nat)
    (st : SolverState α count) : SolverState α count :=
  match h : d.pop st.worklist with
  | none => st
  | some (v, rest) =>
    let st₁ := evaluate problem v rest st
    run problem d next ((next v).foldl (relax d v (problem.transfer v (st.entry.get v))) st₁)
termination_by st.measure
decreasing_by
  obtain ⟨hlen, -, -⟩ := d.pop_spec h
  have hidle := idleOf_insert_le st.evaluated st.queued v
  have hfold := foldl_relax_progress d v (problem.transfer v (st.entry.get v)) (next v)
    (evaluate problem v rest st)
  have he : (evaluate problem v rest st).entry = st.entry := rfl
  have hw : (evaluate problem v rest st).worklist = rest := rfl
  have hq : (evaluate problem v rest st).queued = st.queued.erase v := rfl
  have hv : (evaluate problem v rest st).evaluated = st.evaluated.insert v := rfl
  unfold Progress at hfold
  rw [he, hw, hq, hv] at hfold
  simp only [measure]
  rcases hfold with hp | ⟨hp, hs⟩
  · exact Prod.Lex.left _ _ hp
  · rw [hp]
    exact Prod.Lex.right _ (by omega)

end SolverState

/-- The entry and exit states a solve ends with, and how it got there. -/
structure Solution (α : Type) (count : Nat) where
  /-- The entry state of each node. -/
  entry : Vector α count
  /-- The exit state of each node. -/
  exit : Vector α count
  iterations : Nat
  /-- The evaluations and growths, in order. -/
  events : List SolverEvent

namespace FlowProblem

variable {α : Type} [FlowLattice α] [DecidableEq α]

/-- Solves the problem on a graph from a root, taking nodes off the worklist in the given
order. A root out of range evaluates nothing. -/
def solve (problem : FlowProblem α) (order : WorklistOrder) (g : Adjacency) (root : Nat) :
    Solution α g.count :=
  let blank := Vector.replicate g.count problem.initial
  if h : root < g.count then
    let st := SolverState.run problem (Discipline.ofOrder order g root) g.next
      { entry := blank.set root problem.boundary h, exit := blank, evaluated := .empty,
        worklist := [⟨root, h⟩], queued := IndexSet.empty.insert root, iterations := 0,
        events := #[] }
    ⟨st.entry, st.exit, st.iterations, st.events.toList⟩
  else ⟨blank, blank, 0, []⟩

/-- A root out of range evaluates nothing and leaves every state initial. -/
theorem solve_of_root_ge (problem : FlowProblem α) (order : WorklistOrder) (g : Adjacency)
    {root : Nat} (h : ¬root < g.count) :
    problem.solve order g root =
      ⟨Vector.replicate g.count problem.initial, Vector.replicate g.count problem.initial, 0, []⟩ := by
  simp [solve, h]

/-- The loop stops exactly when nothing is left to take off the worklist. -/
theorem run_of_pop_none (problem : FlowProblem α) (d : Discipline) (next : Nat → List Nat)
    {count : Nat} {st : SolverState α count} (h : d.pop st.worklist = none) :
    SolverState.run problem d next st = st := by
  rw [SolverState.run]
  split
  · rfl
  · simp_all

end FlowProblem

end ReachingDefs
