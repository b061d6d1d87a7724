import ReachingDefs.Proofs.Data.Represents
import ReachingDefs.Proofs.Flow.Invariant
import ReachingDefs.Proofs.Graph.Search

/-!
# The solver over bit sets computes the solver over sets of indices

`CheckedProblem.solve` runs the worklist loop on bit sets: every read of a row and every bit set
operation checks its arguments and may panic, and the loop is given by its unfolding equation
alone, so a run that never ends is `none`. `FlowProblem.solve` runs the same loop on sets whose
domain their type fixes, with reads that cannot fail and a loop that is proved to end.

A problem over bit sets refines a problem over sets (`CheckedProblem.Refines`) when its boundary
and initial state stand for the problem's, and its transfer takes a bit set that stands for a
set, without a panic, to one that stands for the problem's transfer of the set. Then the solve
over bit sets ends without a panic, in entries and exits that stand for the solution over sets,
after as many evaluations and with the same events (`CheckedProblem.Refines.solve`).

The proof is a simulation. A state over bit sets simulates a solver state
(`CheckedState.Simulates`) when its rows and marks stand for the state's, its worklist holds
the same nodes in the form its order keeps them (`Worklist.Mirrors`), and its count and events
are the state's. Relaxing a successor, a round and the loop keep the simulation. The loop's
induction is the solver's own (`SolverState.run.induct`): the loop over bit sets ends because
the solver's does.

A problem whose boundary, initial state and transfer keep to one domain refines a problem over
sets of that domain, so its solve ends without a panic on every graph, from every root, under
every order (`CheckedProblem.solve_ok_of_domain`).

## Main definitions

* `Worklist.Mirrors`: a worklist holds the nodes of a solver's worklist
* `CheckedState.Simulates`: a state over bit sets simulates a solver state
* `CheckedProblem.Refines`: a problem over bit sets refines a problem over sets

## Main results

* `CheckedState.Simulates.round`, `CheckedState.Simulates.loop`: a round and the loop keep the
  simulation
* `CheckedProblem.Refines.solve`: the solve over bit sets ends, without a panic, in the solution
  over sets
* `CheckedProblem.solve_ok_of_domain`: a problem that keeps to one domain never panics
-/

namespace ReachingDefs

open BitSet

/-! ## Checked reads and the rank table -/

section Rows

variable {α : Type} {xs : Array α} {i : Nat}

theorem readAt_of_lt (h : i < xs.size) : readAt xs i = .ok xs[i] := dif_pos h

theorem writeAt_of_lt (h : i < xs.size) (x : α) : writeAt xs i x = .ok (xs.set i x h) := dif_pos h

end Rows

/-- The reverse postorder lists only nodes in range. -/
theorem Adjacency.lt_count_of_mem_reversePostorder {g : Adjacency} {root v : Nat}
    (hv : v ∈ g.reversePostorder root) : v < g.count := by
  obtain ⟨hroot, hreach⟩ := (Adjacency.mem_reversePostorder_iff root v).1 hv
  exact hreach.lt_count hroot

/-- Writing positions into a table keeps its size. -/
theorem size_foldl_setIfInBounds (l : List (Nat × Nat)) (acc : Array Nat) :
    (l.foldl (fun acc (v, i) => acc.setIfInBounds v i) acc).size = acc.size := by
  induction l generalizing acc with
  | nil => rfl
  | cons x rest ih => simp [ih]

/-- The rank table has one entry per node. -/
@[simp] theorem size_rankTable (count : Nat) (order : List Nat) :
    (rankTable count order).size = count := by
  simp [rankTable, size_foldl_setIfInBounds]

/-- Writing listed ranks into a table with room for every listed node never panics, and writes
what the unchecked writes write. -/
theorem foldlM_writeAt_eq : ∀ (l : List (Nat × Nat)) (acc : Array Nat),
    (∀ e ∈ l, e.1 < acc.size) →
      l.foldlM (fun table e => writeAt table e.1 e.2) acc =
        .ok (l.foldl (fun acc (v, i) => acc.setIfInBounds v i) acc)
  | [], _, _ => rfl
  | (v, i) :: rest, acc, h => by
    have hv : v < acc.size := h (v, i) List.mem_cons_self
    have hrest := foldlM_writeAt_eq rest (acc.set v i hv) fun e' he' => by
      simpa using h e' (List.mem_cons_of_mem _ he')
    have hset : acc.setIfInBounds v i = acc.set v i hv := by simp [Array.setIfInBounds, hv]
    rw [List.foldlM_cons, writeAt_of_lt hv, List.foldl_cons]
    dsimp only
    rw [hset]
    exact hrest

/-- The rank table of an order that lists only nodes in range is written without a panic. -/
theorem rankTableChecked_eq {count : Nat} {order : List Nat} (h : ∀ v ∈ order, v < count) :
    rankTableChecked count order = .ok (rankTable count order) :=
  foldlM_writeAt_eq _ _ fun e he => by
    simpa using h e.1 (List.fst_mem_of_mem_zipIdx he)

/-! ## Worklists -/

/-- Under every order, adding a node to an empty worklist leaves just the node. -/
theorem Discipline.push_nil {count : Nat} (d : Discipline) (v : Fin count) : d.push v [] = [v] := by
  unfold Discipline.push
  split <;> rfl

namespace Worklist

variable {count : Nat} {d : Discipline}

/-- A worklist holds the nodes of a solver's worklist in the form its order keeps them: a stack
or a queue the nodes themselves, a heap each node paired with its rank, read from a table that
gives every node its rank. -/
def Mirrors (d : Discipline) (items : List (Fin count)) : Worklist → Prop
  | .stack nodes => d.order = .lifo ∧ nodes = items.map Fin.val
  | .queue nodes => d.order = .fifo ∧ nodes = items.map Fin.val
  | .heap entries rank => d.order = .reversePostorder ∧
      entries = items.map (fun v : Fin count => (d.rank v, v.val)) ∧ ∀ v : Fin count, readAt rank v = .ok (d.rank v)

/-- The empty worklist of every order holds no node; under reverse postorder its rank table is
written without a panic. -/
theorem new_mirrors (order : WorklistOrder) (g : Adjacency) (root : Nat) :
    ∃ w, Worklist.new order g root = .ok w ∧
      w.Mirrors (Discipline.ofOrder order g root) ([] : List (Fin g.count)) := by
  cases order with
  | lifo => exact ⟨_, rfl, rfl, rfl⟩
  | fifo => exact ⟨_, rfl, rfl, rfl⟩
  | reversePostorder =>
    have hrank : rankTableChecked g.count (g.reversePostorder root) =
        .ok (rankTable g.count (g.reversePostorder root)) :=
      rankTableChecked_eq fun _ hv => Adjacency.lt_count_of_mem_reversePostorder hv
    refine ⟨.heap [] (rankTable g.count (g.reversePostorder root)), ?_, rfl, rfl, fun v => ?_⟩
    · rw [Worklist.new, hrank]
      rfl
    · -- the table has an entry for every node
      have hv : v.val < (rankTable g.count (g.reversePostorder root)).size := by simp
      rw [readAt_of_lt hv]
      simp [Discipline.ofOrder, Array.getD_eq_getD_getElem?]

/-- Adding a node never panics: a heap reads the rank of a node in range. -/
theorem Mirrors.push {items : List (Fin count)} {w : Worklist} (h : w.Mirrors d items)
    (v : Fin count) : ∃ w', w.push v = .ok w' ∧ w'.Mirrors d (d.push v items) := by
  cases w with
  | stack nodes =>
    obtain ⟨hord, rfl⟩ := h
    exact ⟨_, rfl, hord, by simp [Discipline.push, hord]⟩
  | queue nodes =>
    obtain ⟨hord, rfl⟩ := h
    exact ⟨_, rfl, hord, by simp [Discipline.push, hord]⟩
  | heap entries rank =>
    obtain ⟨hord, rfl, hrank⟩ := h
    refine ⟨.heap ((d.rank v, v.val) :: items.map fun v : Fin count => (d.rank v, v.val)) rank,
      ?_, hord, by simp [Discipline.push, hord], hrank⟩
    rw [Worklist.push, hrank v]
    rfl

/-- On pairs of rank and node the heap's order is the discipline's order on nodes, so the least
pair is the pair of the least node. -/
theorem least_pairs (d : Discipline) (u : Fin count) (more : List (Fin count)) :
    (more.map fun v : Fin count => (d.rank v, v.val)).foldl (fun best x => if before x best then x else best)
        (d.rank u, u.val) =
      (d.rank (d.least u more), (d.least u more).val) := by
  rw [List.foldl_map, Discipline.least]
  exact @List.foldl_hom _ _ _ (fun v : Fin count => (d.rank v, v.val))
    (fun best x => if d.before x best then x else best) _ more u fun best x => by
      show (if d.before x best then _ else _) = _
      split <;> rfl

theorem Mirrors.pop_none {items : List (Fin count)} {w : Worklist} (h : w.Mirrors d items)
    (hp : d.pop items = none) : w.pop = none := by
  obtain rfl := (SolverState.pop_eq_none_iff d).mp hp
  cases w with
  | stack nodes => obtain ⟨-, rfl⟩ := h; rfl
  | queue nodes => obtain ⟨-, rfl⟩ := h; rfl
  | heap entries rank => obtain ⟨-, rfl, -⟩ := h; rfl

/-- Taking a node off gives the node the discipline gives, and leaves the rest. -/
theorem Mirrors.pop_some {items rest : List (Fin count)} {v : Fin count} {w : Worklist}
    (h : w.Mirrors d items) (hp : d.pop items = some (v, rest)) :
    ∃ w', w.pop = some (v.val, w') ∧ w'.Mirrors d rest := by
  cases items with
  | nil => cases hp
  | cons u more =>
    cases w with
    | stack nodes =>
      obtain ⟨hord, rfl⟩ := h
      simp only [Discipline.pop, hord, Option.some.injEq, Prod.mk.injEq] at hp
      obtain ⟨rfl, rfl⟩ := hp
      exact ⟨_, rfl, hord, rfl⟩
    | queue nodes =>
      obtain ⟨hord, rfl⟩ := h
      simp only [Discipline.pop, hord, Option.some.injEq, Prod.mk.injEq] at hp
      obtain ⟨rfl, rfl⟩ := hp
      exact ⟨_, rfl, hord, rfl⟩
    | heap entries rank =>
      obtain ⟨hord, rfl, hrank⟩ := h
      simp only [Discipline.pop, hord, Option.some.injEq, Prod.mk.injEq] at hp
      obtain ⟨rfl, rfl⟩ := hp
      -- a node is its own second component, so erasing its pair erases the node
      have hinj : Function.Injective fun v : Fin count => (d.rank v, v.val) :=
        fun a b hab => Fin.ext (Prod.mk.inj hab).2
      refine ⟨.heap (((u :: more).erase (d.least u more)).map fun v : Fin count => (d.rank v, v.val))
        rank, ?_, hord, rfl, hrank⟩
      simp only [pop, List.map_cons, least_pairs, List.map_erase hinj]

end Worklist

/-! ## The simulation -/

section Simulation

variable {n count : Nat} {d : Discipline}

/-- A row of bit sets that stands for a vector of sets is read at every node. -/
theorem BitSet.RowRepresents.readAt_node {xs : Array BitSet} {ys : Vector (IndexSet n) count}
    (h : RowRepresents xs ys.toArray) (v : Fin count) :
    ∃ b, ReachingDefs.readAt xs v = .ok b ∧ b.Represents (ys.get v) := by
  obtain ⟨b, hread, hb⟩ := h.readAt (i := v.val) (by simp)
  exact ⟨b, hread, hb⟩

/-- A row of bit sets that stands for a vector of sets is written at every node. -/
theorem BitSet.RowRepresents.writeAt_node {xs : Array BitSet} {ys : Vector (IndexSet n) count}
    (h : RowRepresents xs ys.toArray) (v : Fin count) {b : BitSet} {s : IndexSet n}
    (hb : b.Represents s) :
    ∃ xs', ReachingDefs.writeAt xs v b = .ok xs' ∧ RowRepresents xs' (ys.set v s v.isLt).toArray := by
  obtain ⟨xs', hwrite, h'⟩ := h.writeAt (i := v.val) (by simp) hb
  exact ⟨xs', hwrite, by simpa [Vector.toArray_set] using h'⟩

/-- A row of bit sets that stands for a vector of sets reads back as the vector. -/
theorem BitSet.RowRepresents.ofFn_toIndexSet {xs : Array BitSet} {ys : Vector (IndexSet n) count}
    (h : RowRepresents xs ys.toArray) (dflt : BitSet) :
    (Vector.ofFn fun v : Fin count => (xs.getD v dflt).toIndexSet n) = ys := by
  apply Vector.ext
  intro i hi
  have hxi : i < xs.size := by simpa [h.size_eq] using hi
  rw [Vector.getElem_ofFn, Array.getD_eq_getD_getElem?, Array.getElem?_eq_getElem hxi,
    Option.getD_some, (h.get i hxi (by simpa using hi)).toIndexSet]
  simp

/-- A state over bit sets simulates a solver state: its entries and exits stand for the state's,
its marks for the state's marks, its worklist holds the state's nodes, and its count and events
are the state's. -/
structure CheckedState.Simulates (d : Discipline) (c : CheckedState)
    (st : SolverState (IndexSet n) count) : Prop where
  entry : RowRepresents c.entry st.entry.toArray
  exit : RowRepresents c.exit st.exit.toArray
  evaluated : c.evaluated.Represents st.evaluated
  queued : c.queued.Represents st.queued
  worklist : c.worklist.Mirrors d st.worklist
  iterations : c.iterations = st.iterations
  events : c.events = st.events

/-- Relaxing a successor in range, once the reads and the union are done. -/
theorem CheckedState.relax_of_reads {count v m : Nat} {c : CheckedState} (hm : m < count)
    {old out new : BitSet} {grew : Bool} {entry : Array BitSet}
    (hold : readAt c.entry m = .ok old) (hout : readAt c.exit v = .ok out)
    (hunion : old.unionWith out = .ok (new, grew)) (hwrite : writeAt c.entry m new = .ok entry) :
    CheckedState.relax count v c m =
      if (grew || !c.evaluated.contains m) && !c.queued.contains m then do
        let (queued, _) ← Panic.check (c.queued.insert m)
        let worklist ← c.worklist.push m
        return { c with entry, queued, worklist,
                        events := if grew then c.events.push (.grew v m) else c.events }
      else .ok { c with entry } := by
  simp only [CheckedState.relax, Nat.not_le.mpr hm, if_false, hold, hout, Panic.check, hunion,
    Except.mapError, bind, Except.bind, hwrite]
  rfl

variable {c : CheckedState} {st : SolverState (IndexSet n) count}

/-- **Relaxing a successor keeps the simulation.** The reads, the union and the write of the
successor's entry never panic, nor does queueing it; the union's flag is the solver's test of
growth, and the exits are left alone. -/
theorem CheckedState.Simulates.relax (hs : c.Simulates d st) {v : Fin count} {b : BitSet}
    {out : IndexSet n} (hexit : readAt c.exit v = .ok b) (hb : b.Represents out) (m : Nat) :
    ∃ c', CheckedState.relax count v c m = .ok c' ∧ c'.Simulates d (st.relax d v out m) ∧
      c'.exit = c.exit := by
  by_cases hm : m < count
  · obtain ⟨old, hold, hrold⟩ := hs.entry.readAt_node ⟨m, hm⟩
    have hrold : old.Represents st.entry[m] := hrold
    obtain ⟨new, hunion, hrnew⟩ := hrold.unionWith hb
    obtain ⟨entry, hwrite, hrentry⟩ := hs.entry.writeAt_node ⟨m, hm⟩ hrnew
    rw [CheckedState.relax_of_reads hm hold hexit hunion hwrite,
      SolverState.relax_of_lt d v out st hm]
    -- the checked test of the successor is the solver's
    have hcond : ((decide (st.entry[m].union out ≠ st.entry[m]) || !c.evaluated.contains m) &&
        !c.queued.contains m) = true ↔
        (st.entry[m].union out ≠ st.entry[m] ∨ st.evaluated.mem m = false) ∧
          st.queued.mem m = false := by
      rw [hs.evaluated.contains, hs.queued.contains]
      simp
    simp only [IndexSet.join_eq_union, Fin.getElem_fin]
    by_cases hc : (st.entry[m].union out ≠ st.entry[m] ∨ st.evaluated.mem m = false) ∧
        st.queued.mem m = false
    · obtain ⟨queued, _, hins, hrq⟩ := hs.queued.insert hm
      obtain ⟨w, hpush, hw⟩ := hs.worklist.push ⟨m, hm⟩
      refine ⟨{ c with entry := entry, queued := queued, worklist := w,
                       events := if decide (st.entry[m].union out ≠ st.entry[m]) then
                         c.events.push (.grew v m) else c.events },
        ?_, ⟨hrentry, hs.exit, hs.evaluated, ?_, ?_, hs.iterations, ?_⟩, rfl⟩
      · rw [if_pos (hcond.mpr hc)]
        simp only [Panic.check, hins, Except.mapError, bind, Except.bind, hpush]
        rfl
      · simpa only [if_pos hc] using hrq
      · simpa only [if_pos hc] using hw
      · -- a queued successor records a growth exactly when its entry grew
        have hq := hc.2
        by_cases hg : st.entry[m].union out ≠ st.entry[m]
        · simp [hg, hq, hs.events]
        · simp [hg, hs.events]
    · refine ⟨{ c with entry := entry }, ?_,
        ⟨hrentry, hs.exit, hs.evaluated, ?_, ?_, hs.iterations, ?_⟩, rfl⟩
      · rw [if_neg (fun h => hc (hcond.mp h))]
      · simpa only [if_neg hc] using hs.queued
      · simpa only [if_neg hc] using hs.worklist
      · -- a growth into a successor that waits already is not recorded
        have hnE : ¬(st.entry[m].union out ≠ st.entry[m] ∧ st.queued.mem m = false) :=
          fun hE => hc ⟨Or.inl hE.1, hE.2⟩
        simp only [if_neg hnE, hs.events]
  · refine ⟨c, ?_, ?_, rfl⟩
    · simp only [CheckedState.relax, Nat.le_of_not_lt hm, if_true]
      rfl
    · rwa [SolverState.relax_of_ge d v out st hm]

/-- Relaxing every successor in turn keeps the simulation. -/
theorem CheckedState.Simulates.foldlM_relax {v : Fin count} {b : BitSet} {out : IndexSet n}
    (hb : b.Represents out) : ∀ (l : List Nat) {c : CheckedState}
      {st : SolverState (IndexSet n) count}, c.Simulates d st → readAt c.exit v = .ok b →
      ∃ c', l.foldlM (CheckedState.relax count v) c = .ok c' ∧
        c'.Simulates d (l.foldl (SolverState.relax d v out) st)
  | [], c, _, hs, _ => ⟨c, rfl, hs⟩
  | m :: rest, _, _, hs, hexit => by
    obtain ⟨c₁, hrelax, hs₁, hexit₁⟩ := hs.relax hexit hb m
    obtain ⟨c', hfold, hs'⟩ := foldlM_relax hb rest hs₁ (hexit₁ ▸ hexit)
    refine ⟨c', ?_, hs'⟩
    rw [List.foldlM_cons, hrelax]
    exact hfold

end Simulation

/-! ## Refinement -/

section Refinement

variable {n : Nat}

/-- A problem over bit sets refines a problem over sets of indices below `n`: its boundary and
initial state stand for the problem's, and its transfer takes a bit set that stands for a set,
without a panic, to one that stands for the problem's transfer of the set. -/
structure CheckedProblem.Refines (p : CheckedProblem) (P : FlowProblem (IndexSet n)) : Prop where
  boundary : p.boundary.Represents P.boundary
  initial : p.initial.Represents P.initial
  transfer : ∀ (v : Nat) {b : BitSet} {s : IndexSet n}, b.Represents s →
    ∃ b', p.transfer v b = .ok b' ∧ b'.Represents (P.transfer v s)

variable {p : CheckedProblem} {P : FlowProblem (IndexSet n)} {g : Adjacency} {d : Discipline}

/-- **A round keeps the simulation.** Unflagging and marking the node, reading its entry, its
transfer and writing its exit never panic, and then its successors are relaxed. -/
theorem CheckedState.Simulates.round (hp : p.Refines P) {c : CheckedState}
    {st : SolverState (IndexSet n) g.count} (hs : c.Simulates d st) (v : Fin g.count)
    (rest : List (Fin g.count)) {w : Worklist} (hw : w.Mirrors d rest) :
    ∃ c', CheckedState.round p g v { c with worklist := w } = .ok c' ∧
      c'.Simulates d (SolverState.round P d g.next v rest st) := by
  obtain ⟨queued, _, hrem, hrq⟩ := hs.queued.remove v.isLt
  obtain ⟨evaluated, _, hins, hre⟩ := hs.evaluated.insert v.isLt
  obtain ⟨input, hin, hrin⟩ := hs.entry.readAt_node v
  obtain ⟨out, hout, hrout⟩ := hp.transfer v hrin
  obtain ⟨exit, hwrite, hrexit⟩ := hs.exit.writeAt_node v hrout
  -- the state after the evaluation simulates the evaluated state
  have hs₁ : CheckedState.Simulates d
      { c with worklist := w, queued := queued, evaluated := evaluated, exit := exit,
               iterations := c.iterations + 1, events := c.events.push (.transfer v) }
      (SolverState.evaluate P v rest st) :=
    ⟨hs.entry, hrexit, hre, hrq, hw, by simp [SolverState.evaluate, hs.iterations],
      by simp [SolverState.evaluate, hs.events]⟩
  have hexit : readAt exit v = .ok out := by
    obtain ⟨out', hread, hr'⟩ := hrexit.readAt_node v
    have hr' : out'.Represents (P.transfer v (st.entry.get v)) := by
      simpa [Vector.get_eq_getElem] using hr'
    rw [hread, hr'.unique hrout]
  obtain ⟨c', hfold, hs'⟩ := hs₁.foldlM_relax hrout (g.next v) hexit
  refine ⟨c', ?_, hs'⟩
  simp only [CheckedState.round, Panic.check, hrem, hins, hin, hout, hwrite, Except.mapError, bind,
    Except.bind]
  exact hfold

/-- **The loop keeps the simulation.** From a state that simulates a solver state, the loop over
bit sets ends without a panic in a state that simulates the end of the solver's run. The
induction is the solver's own. -/
theorem CheckedState.Simulates.loop (hp : p.Refines P) {c : CheckedState}
    {st : SolverState (IndexSet n) g.count} (hs : c.Simulates d st) (hc : c.Flagged) :
    ∃ c', CheckedState.loop p g c hc = .ok c' ∧
      c'.Simulates d (SolverState.run P d g.next st) := by
  induction st using SolverState.run.induct P d g.next generalizing c with
  | case1 st hnone =>
    exact ⟨c, CheckedState.loop_of_pop_none hc (hs.worklist.pop_none hnone),
      by rwa [FlowProblem.run_of_pop_none P d g.next hnone]⟩
  | case2 st v rest hsome st₁ =>
    rename_i ih
    obtain ⟨w, hpop, hw⟩ := hs.worklist.pop_some hsome
    obtain ⟨c₁, hround, hs₁⟩ := hs.round hp v rest hw
    obtain ⟨c', hloop, hs'⟩ := ih hs₁ (CheckedState.round_progress hround hc).1
    refine ⟨c', ?_, by rwa [SolverState.run_of_pop_some P d g.next hsome]⟩
    rw [CheckedState.loop_of_round hc hpop hround]
    exact hloop

/-- A solution over bit sets stands for a solution over sets: its rows stand for the solution's,
and its count and events are the solution's. -/
structure CheckedSolution.Represents {count : Nat} (r : CheckedSolution)
    (sol : Solution (IndexSet n) count) : Prop where
  entry : RowRepresents r.entry sol.entry.toArray
  exit : RowRepresents r.exit sol.exit.toArray
  iterations : r.iterations = sol.iterations
  events : r.events = sol.events

/-- A solution over bit sets reads back as the solution it stands for. -/
theorem CheckedSolution.Represents.toSolution {count : Nat} {r : CheckedSolution}
    {sol : Solution (IndexSet n) count} (h : r.Represents sol) : r.toSolution n count = sol := by
  obtain ⟨entry, exit, iterations, events⟩ := sol
  simp only [CheckedSolution.toSolution, h.entry.ofFn_toIndexSet, h.exit.ofFn_toIndexSet,
    h.iterations, h.events]

/-- **The solve over bit sets computes the solve over sets.** For every order, graph and root,
the root out of range and successors out of range included, a problem over bit sets that
refines a problem over sets solves without a panic, and ends in the solution over sets. -/
theorem CheckedProblem.Refines.solve (hp : p.Refines P) (order : WorklistOrder) (g : Adjacency)
    (root : Nat) :
    ∃ r, p.solve order g root = .ok r ∧ r.Represents (P.solve order g root) := by
  have hblank : RowRepresents (Array.replicate g.count p.initial)
      (Vector.replicate g.count P.initial).toArray := by
    simpa using rowRepresents_replicate g.count hp.initial
  by_cases hroot : root < g.count
  · -- the start state simulates the solver's start state
    obtain ⟨entry, hwrite, hrentry⟩ := hblank.writeAt_node ⟨root, hroot⟩ hp.boundary
    obtain ⟨w₀, hnew, hw₀⟩ := Worklist.new_mirrors order g root
    obtain ⟨w₁, hpush, hw₁⟩ := hw₀.push ⟨root, hroot⟩
    obtain ⟨queued, _, hins, hrq⟩ := (represents_new g.count).insert hroot
    have hs₀ : CheckedState.Simulates (Discipline.ofOrder order g root)
        ⟨entry, Array.replicate g.count p.initial, BitSet.new g.count, queued, w₁, 0, #[]⟩
        (P.startState g hroot) :=
      ⟨hrentry, hblank, represents_new _, hrq, by rwa [Discipline.push_nil] at hw₁, rfl, rfl⟩
    obtain ⟨c, hloop, hs⟩ := hs₀.loop hp ⟨spans_new _, spans_insert hins (spans_new _)⟩
    refine ⟨⟨c.entry, c.exit, c.iterations, c.events.toList⟩, ?_, ?_⟩
    · simp only [CheckedProblem.solve, Nat.not_le.mpr hroot, if_false, hwrite, hnew, hpush, bind,
        Except.bind]
      split
      · rename_i herr
        rw [Panic.check_eq_ok.mpr hins] at herr
        cases herr
      · rename_i hok
        rw [Panic.check_eq_ok.mpr hins] at hok
        cases hok
        rw [hloop]
        rfl
    · rw [FlowProblem.solve_of_lt P order g hroot]
      exact ⟨hs.entry, hs.exit, hs.iterations, by rw [hs.events]⟩
  · refine ⟨⟨Array.replicate g.count p.initial, Array.replicate g.count p.initial, 0, []⟩, ?_, ?_⟩
    · simp only [CheckedProblem.solve, Nat.le_of_not_lt hroot, if_true]
      rfl
    · rw [FlowProblem.solve_of_root_ge P order g hroot]
      exact ⟨hblank, hblank, rfl, rfl⟩

/-! ## Problems that keep to one domain -/

/-- The bit set of a set of indices below `n`: its members, inserted one after another. -/
def IndexSet.toBitSet (s : IndexSet n) : BitSet :=
  match BitSet.fromIndices n s.toList with
  | .ok b => b
  | .error _ => BitSet.new n

theorem IndexSet.represents_toBitSet (s : IndexSet n) : s.toBitSet.Represents s := by
  obtain ⟨b, hb, hrep⟩ := represents_fromIndices fun i hi =>
    IndexSet.lt_of_mem ((IndexSet.mem_toList s i).mp hi)
  -- a set is the set of its members
  have hs : (IndexSet.ofList s.toList : IndexSet n) = s :=
    IndexSet.ext fun i => by
      cases hi : s.mem i
      · simp [hi]
      · simp [hi, IndexSet.lt_of_mem hi]
  rw [IndexSet.toBitSet, hb]
  exact hs ▸ hrep

/-- The problem over sets of indices below `L` that a problem over bit sets poses: each state is
read back, and a set's transfer is the read-back transfer of its bit set. -/
def CheckedProblem.onSets (p : CheckedProblem) (L : Nat) : FlowProblem (IndexSet L) where
  boundary := p.boundary.toIndexSet L
  initial := p.initial.toIndexSet L
  transfer v s :=
    match p.transfer v s.toBitSet with
    | .ok b => b.toIndexSet L
    | .error _ => s

/-- A problem whose boundary, initial state and transfer keep to one domain refines the problem
over sets that it poses. -/
theorem CheckedProblem.refines_onSets (p : CheckedProblem) {L : Nat}
    (hboundary : p.boundary.WF ∧ p.boundary.len = L) (hinitial : p.initial.WF ∧ p.initial.len = L)
    (htransfer : ∀ v b, b.WF → b.len = L → ∃ b', p.transfer v b = .ok b' ∧ b'.WF ∧ b'.len = L) :
    p.Refines (p.onSets L) := by
  have hread : ∀ {b : BitSet}, b.WF → b.len = L → b.Represents (b.toIndexSet L) := by
    intro b hw hl
    have := represents_toIndexSet hw
    rwa [hl] at this
  refine ⟨hread hboundary.1 hboundary.2, hread hinitial.1 hinitial.2, fun v b s hb => ?_⟩
  -- the bit set of the set is the bit set itself
  obtain rfl := hb.unique (IndexSet.represents_toBitSet s)
  obtain ⟨b', hok, hw, hl⟩ := htransfer v _ hb.wf hb.len_eq
  refine ⟨b', hok, ?_⟩
  simp only [CheckedProblem.onSets, hok]
  exact hread hw hl

/-- **A solve over bit sets that keep to one domain never panics.** For every problem whose
boundary and initial state are well-formed bit sets over one domain, and whose transfer takes
every well-formed bit set over that domain, without a panic, to one over the same domain: on
every graph, from every root, under every order, the root or successors out of range
included, the solve ends without a panic, with one entry and one exit per node, all of them
well-formed bit sets over the domain. -/
theorem CheckedProblem.solve_ok_of_domain (p : CheckedProblem) {L : Nat}
    (hboundary : p.boundary.WF ∧ p.boundary.len = L) (hinitial : p.initial.WF ∧ p.initial.len = L)
    (htransfer : ∀ v b, b.WF → b.len = L → ∃ b', p.transfer v b = .ok b' ∧ b'.WF ∧ b'.len = L)
    (order : WorklistOrder) (g : Adjacency) (root : Nat) :
    ∃ r, p.solve order g root = .ok r ∧ r.entry.size = g.count ∧ r.exit.size = g.count ∧
      ∀ b ∈ r.entry.toList ++ r.exit.toList, b.WF ∧ b.len = L := by
  obtain ⟨r, hsolve, hr⟩ := (p.refines_onSets hboundary hinitial htransfer).solve order g root
  refine ⟨r, hsolve, by simpa using hr.entry.size_eq, by simpa using hr.exit.size_eq,
    fun b hb => ?_⟩
  rcases List.mem_append.mp hb with hb | hb
  · exact hr.entry.wf_of_mem hb
  · exact hr.exit.wf_of_mem hb

end Refinement

end ReachingDefs
