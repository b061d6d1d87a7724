import Mathlib.Algebra.Order.BigOperators.Group.Finset
import ReachingDefs.Proofs.Flow.Invariant
import ReachingDefs.Proofs.Graph.Search
import ReachingDefs.Reaching.Results

/-!
# How often a solve evaluates each node

Whatever the order of the worklist, the states and the transfer, a solve from a root evaluates
exactly the nodes the root reaches. It evaluates each of them at least once, and again only
after its entry grew: between two evaluations of a node, the record of the solve holds a growth
of that node's entry, and every growth raises the entry's rank. A node is therefore evaluated
at most once more than the height of the states, and the number of evaluations lies between the
number `R` of reached nodes and `R * (height + 1)`. For sets of indices below `L` the height is
`L`.

The counting is kept by every single step of the loop (`SolverState.Ledger`): a node's first
evaluation is paid for by its first wait, and every later wait by a growth of its entry, which
the record notes. Which nodes wait or have been evaluated is a property of whole rounds
(`SolverState.Coverage`), since a round evaluates a node before it relaxes its successors; at
the end of a solve it makes the evaluated nodes the reached ones.

## Main definitions

* `evaluationsIn`, `growthsIn`: the nodes a record evaluates and grows, in order
* `RegrowsBetween`: between two evaluations of a node, its entry grew
* `SolverState.Ledger`: what the worklist, the counter, the entries and the record say of each
  other after every step

## Main results

* `FlowProblem.mem_evaluationsIn_solve`: a solve evaluates exactly the nodes the root reaches
* `FlowProblem.solve_iterations_bounds`: between `R` and `R * (height + 1)` evaluations
* `FlowProblem.solve_evaluations_bounded`: all of this for sets of indices
-/

namespace ReachingDefs

/-! ## Counting the members of a set -/

namespace IndexSet

variable {n : Nat}

theorem nodup_toList (s : IndexSet n) : s.toList.Nodup := by
  rw [toList_eq_filter]
  exact List.nodup_range.filter _

/-- A list that holds every member of a set is at least as long as the set is large. -/
theorem card_le_length {s : IndexSet n} {l : List Nat} (h : ∀ v, s.mem v = true → v ∈ l) :
    s.card ≤ l.length := by
  rw [card_eq_length_toList]
  exact (nodup_toList s).length_le_of_subset fun v hv => h v ((mem_toList s v).mp hv)

/-- A list of members of a set that holds none of them more than `k` times has at most `k`
entries per member. -/
theorem length_le_card_mul {s : IndexSet n} {l : List Nat} {k : Nat}
    (hmem : ∀ v ∈ l, s.mem v = true) (hcount : ∀ v, l.count v ≤ k) : l.length ≤ s.card * k := by
  have hsub : l.toFinset.card ≤ s.card := by
    rw [card_eq_length_toList, ← List.toFinset_card_of_nodup (nodup_toList s)]
    refine Finset.card_le_card fun v hv => ?_
    rw [List.mem_toFinset, mem_toList]
    exact hmem v (List.mem_toFinset.mp hv)
  calc l.length = ∑ v ∈ l.toFinset, l.count v := (List.sum_toFinset_count_eq_length l).symm
    _ ≤ l.toFinset.card • k := Finset.sum_le_card_nsmul _ _ _ fun v _ => hcount v
    _ ≤ s.card * k := Nat.mul_le_mul_right k hsub

end IndexSet

/-! ## Records of a solve -/

namespace SolverEvent

/-- The node an event evaluates. -/
def evaluates? : SolverEvent → Option Nat
  | .transfer v => some v
  | .grew _ _ => none

/-- The node whose entry an event grows. -/
def grows? : SolverEvent → Option Nat
  | .transfer _ => none
  | .grew _ target => some target

end SolverEvent

/-- The nodes a record evaluates, in order, once per evaluation. -/
def evaluationsIn (events : List SolverEvent) : List Nat := events.filterMap SolverEvent.evaluates?

/-- The nodes whose entries grow in a record, in order, once per growth. -/
def growthsIn (events : List SolverEvent) : List Nat := events.filterMap SolverEvent.grows?

@[simp] theorem evaluationsIn_nil : evaluationsIn [] = [] := rfl

@[simp] theorem growthsIn_nil : growthsIn [] = [] := rfl

@[simp] theorem evaluationsIn_snoc_transfer (events : List SolverEvent) (v : Nat) :
    evaluationsIn (events ++ [.transfer v]) = evaluationsIn events ++ [v] := by
  simp [evaluationsIn, SolverEvent.evaluates?]

@[simp] theorem evaluationsIn_snoc_grew (events : List SolverEvent) (source target : Nat) :
    evaluationsIn (events ++ [.grew source target]) = evaluationsIn events := by
  simp [evaluationsIn, SolverEvent.evaluates?]

@[simp] theorem growthsIn_snoc_transfer (events : List SolverEvent) (v : Nat) :
    growthsIn (events ++ [.transfer v]) = growthsIn events := by
  simp [growthsIn, SolverEvent.grows?]

@[simp] theorem growthsIn_snoc_grew (events : List SolverEvent) (source target : Nat) :
    growthsIn (events ++ [.grew source target]) = growthsIn events ++ [target] := by
  simp [growthsIn, SolverEvent.grows?]

theorem mem_evaluationsIn {events : List SolverEvent} {v : Nat} :
    v ∈ evaluationsIn events ↔ SolverEvent.transfer v ∈ events := by
  rw [evaluationsIn, List.mem_filterMap]
  constructor
  · rintro ⟨e, he, hv⟩
    cases e with
    | transfer u =>
      cases hv
      exact he
    | grew => cases hv
  · intro h
    exact ⟨_, h, rfl⟩

/-- Between any two evaluations of `v` in a record, the entry of `v` grew. -/
def RegrowsBetween (events : List SolverEvent) (v : Nat) : Prop :=
  ∀ pre mid post, events = pre ++ .transfer v :: mid ++ .transfer v :: post →
    ∃ u, SolverEvent.grew u v ∈ mid

/-- After each evaluation of `v` in a record, the entry of `v` grew. -/
def GrewSince (events : List SolverEvent) (v : Nat) : Prop :=
  ∀ pre post, events = pre ++ .transfer v :: post → ∃ u, SolverEvent.grew u v ∈ post

/-- Cutting a record that ends in `e` at one of its events: either the cut is at `e`, or the
rest after the cut ends in `e`. -/
theorem snoc_eq_append_cons {l A post : List SolverEvent} {e x : SolverEvent}
    (h : l ++ [e] = A ++ x :: post) :
    (post = [] ∧ l = A ∧ e = x) ∨ ∃ post', post = post' ++ [e] ∧ l = A ++ x :: post' := by
  rcases List.eq_nil_or_concat post with rfl | ⟨post', y, rfl⟩
  · obtain ⟨hl, he⟩ := List.append_inj' h rfl
    exact Or.inl ⟨rfl, hl, List.singleton_inj.mp he⟩
  · have h' : l ++ [e] = (A ++ x :: post') ++ [y] := by simpa using h
    obtain ⟨hl, he⟩ := List.append_inj' h' rfl
    obtain rfl := List.singleton_inj.mp he
    exact Or.inr ⟨post', by simp, hl⟩

section Record

variable {events : List SolverEvent} {v : Nat}

theorem RegrowsBetween.snoc (h : RegrowsBetween events v) {e : SolverEvent}
    (he : e ≠ .transfer v) : RegrowsBetween (events ++ [e]) v := by
  intro pre mid post heq
  rcases snoc_eq_append_cons heq with ⟨-, -, rfl⟩ | ⟨post', -, hl⟩
  · exact absurd rfl he
  · exact h pre mid post' hl

/-- A new evaluation of `v` keeps growths between evaluations if `v` grew since the last. -/
theorem RegrowsBetween.snoc_transfer (h : RegrowsBetween events v) (hg : GrewSince events v) :
    RegrowsBetween (events ++ [.transfer v]) v := by
  intro pre mid post heq
  rcases snoc_eq_append_cons heq with ⟨-, hl, -⟩ | ⟨post', -, hl⟩
  · exact hg pre mid hl
  · exact h pre mid post' hl

theorem GrewSince.snoc (h : GrewSince events v) {e : SolverEvent} (he : e ≠ .transfer v) :
    GrewSince (events ++ [e]) v := by
  intro pre post heq
  rcases snoc_eq_append_cons heq with ⟨-, -, rfl⟩ | ⟨post', rfl, hl⟩
  · exact absurd rfl he
  · obtain ⟨u, hu⟩ := h pre post' hl
    exact ⟨u, List.mem_append_left _ hu⟩

theorem grewSince_snoc_grew (u : Nat) : GrewSince (events ++ [.grew u v]) v := by
  intro pre post heq
  rcases snoc_eq_append_cons heq with ⟨-, -, he⟩ | ⟨post', rfl, -⟩
  · cases he
  · exact ⟨u, List.mem_append_right _ (List.mem_singleton_self _)⟩

theorem grewSince_of_not_mem (h : SolverEvent.transfer v ∉ events) : GrewSince events v := by
  intro pre post heq
  exact absurd (heq ▸ List.mem_append_right _ List.mem_cons_self) h

end Record

namespace SolverState

variable {α : Type} [FlowLattice α] [DecidableEq α] {count : Nat}

/-! ## What relaxing a successor can do

Relaxing `m` in range has one of four outcomes, and everything below is proved from these
equations. Whether `m` waits is read off its flag. -/

section Relax

variable (d : Discipline) (source : Fin count) (out : α) (st : SolverState α count)
  {m : Nat} (hm : m < count)

/-- A flagged node has only its entry raised. -/
theorem relax_of_waiting (hq : st.queued.mem m = true) :
    relax d source out st m =
      { st with entry := st.entry.set m (FlowLattice.join st.entry[m] out) hm } := by
  rw [relax_of_lt d source out st hm]
  simp [hq]

/-- A node that is not flagged, and whose entry the join changes, has its entry raised, the
growth recorded, and goes onto the worklist, flagged. -/
theorem relax_of_grows (hq : st.queued.mem m = false)
    (hne : FlowLattice.join st.entry[m] out ≠ st.entry[m]) :
    relax d source out st m =
      { st with entry := st.entry.set m (FlowLattice.join st.entry[m] out) hm,
                worklist := d.push ⟨m, hm⟩ st.worklist, queued := st.queued.insert m,
                events := st.events.push (.grew source m) } := by
  rw [relax_of_lt d source out st hm]
  simp [hq, hne]

/-- A node that is not flagged and was never evaluated goes onto the worklist, flagged, even
when the join leaves its entry as it is. -/
theorem relax_of_first (hq : st.queued.mem m = false)
    (heq : FlowLattice.join st.entry[m] out = st.entry[m]) (he : st.evaluated.mem m = false) :
    relax d source out st m =
      { st with worklist := d.push ⟨m, hm⟩ st.worklist, queued := st.queued.insert m } := by
  rw [relax_of_lt d source out st hm]
  simp [hq, heq, he]

/-- A node evaluated before, whose entry the join leaves as it is, is left alone. -/
theorem relax_of_settled (heq : FlowLattice.join st.entry[m] out = st.entry[m])
    (he : st.evaluated.mem m = true) : relax d source out st m = st := by
  rw [relax_of_lt d source out st hm]
  simp [heq, he]

end Relax

/-! ## The accounts of every step -/

/-- What the worklist, the evaluated set, the counter, the entries and the record say of each
other after every step of a solve, whatever the states and the transfer. -/
structure Ledger (st : SolverState α count) : Prop where
  /-- The flags mark exactly the waiting nodes, each waiting once. -/
  queue : st.Queue
  /-- The evaluated nodes are those the record evaluates. -/
  evaluated : ∀ v, st.evaluated.mem v = true ↔ v ∈ evaluationsIn st.events.toList
  /-- The counter counts the evaluations of the record. -/
  iterations : st.iterations = (evaluationsIn st.events.toList).length
  /-- Every evaluation after a node's first, and every wait after it, is paid by a growth. -/
  paid : ∀ v : Fin count, (evaluationsIn st.events.toList).count v.val +
      (if v ∈ st.worklist then 1 else 0) ≤ 1 + (growthsIn st.events.toList).count v.val
  /-- Every growth raised the entry's rank. -/
  growths_le : ∀ v : Fin count,
    (growthsIn st.events.toList).count v.val ≤ FlowLattice.rank st.entry[v]
  /-- Between two evaluations of a node its entry grew. -/
  regrows : ∀ v, RegrowsBetween st.events.toList v
  /-- A node that waits grew after each of its evaluations. -/
  fresh : ∀ v : Fin count, v ∈ st.worklist → GrewSince st.events.toList v

namespace Ledger

variable {st : SolverState α count}

omit [DecidableEq α] in
theorem count_evaluations_eq_zero (h : Ledger st) {m : Nat} (he : st.evaluated.mem m = false) :
    (evaluationsIn st.events.toList).count m = 0 :=
  List.count_eq_zero.mpr fun hm => by simp [(h.evaluated m).mpr hm] at he

omit [DecidableEq α] in
/-- Raising one entry keeps the accounts. -/
theorem raise (h : Ledger st) {m : Nat} (hm : m < count) (new : α)
    (hr : FlowLattice.rank st.entry[m] ≤ FlowLattice.rank new) :
    Ledger { st with entry := st.entry.set m new hm } where
  queue := h.queue.of_eq rfl rfl
  evaluated := h.evaluated
  iterations := h.iterations
  paid := h.paid
  growths_le := fun v => by
    have hv := h.growths_le v
    simp only [Fin.getElem_fin, Vector.getElem_set] at hv ⊢
    split
    · rename_i hmv
      subst hmv
      omega
    · exact hv
  regrows := h.regrows
  fresh := h.fresh

omit [DecidableEq α] in
/-- Putting a node that is not flagged on the worklist, after a growth of its entry that the
record notes, keeps the accounts. -/
theorem grow (h : Ledger st) (d : Discipline) (source : Nat) {m : Nat} (hm : m < count)
    (new : α) (hq : st.queued.mem m = false)
    (hr : FlowLattice.rank st.entry[m] < FlowLattice.rank new) :
    Ledger { st with entry := st.entry.set m new hm, worklist := d.push ⟨m, hm⟩ st.worklist,
                     queued := st.queued.insert m, events := st.events.push (.grew source m) } where
  queue := h.queue.push d hm hq rfl rfl
  evaluated := by simpa using h.evaluated
  iterations := by simpa using h.iterations
  paid := fun v => by
    have hw := h.queue.not_mem hm hq
    have hv := h.paid v
    by_cases hmv : v = ⟨m, hm⟩
    · subst hmv
      simp only [if_neg hw] at hv
      simp [List.count_append]
      omega
    · simp [hmv, List.count_append]
      omega
  growths_le := fun v => by
    have hv := h.growths_le v
    simp only [Fin.getElem_fin, Vector.getElem_set, Array.toList_push, growthsIn_snoc_grew,
      List.count_append, List.count_singleton] at hv ⊢
    by_cases hmv : m = v.val
    · subst hmv
      simp
      omega
    · simp [hmv] at hv ⊢
      exact hv
  regrows := fun v => by
    rw [Array.toList_push]
    exact (h.regrows v).snoc (by simp)
  fresh := fun v hv => by
    rw [Array.toList_push]
    rcases (Discipline.mem_push d _ v _).mp hv with rfl | hv
    · exact grewSince_snoc_grew source
    · exact (h.fresh v hv).snoc (by simp)

omit [DecidableEq α] in
/-- Putting a node never evaluated on the worklist, flagged, keeps the accounts. -/
theorem first (h : Ledger st) (d : Discipline) {m : Nat} (hm : m < count)
    (hq : st.queued.mem m = false) (he : st.evaluated.mem m = false) :
    Ledger { st with worklist := d.push ⟨m, hm⟩ st.worklist, queued := st.queued.insert m } where
  queue := h.queue.push d hm hq rfl rfl
  evaluated := h.evaluated
  iterations := h.iterations
  paid := fun v => by
    have hv := h.paid v
    by_cases hmv : v = ⟨m, hm⟩
    · subst hmv
      have hzero := h.count_evaluations_eq_zero he
      simp [hzero]
    · simpa [hmv] using hv
  growths_le := h.growths_le
  regrows := h.regrows
  fresh := fun v hv => by
    rcases (Discipline.mem_push d _ v _).mp hv with rfl | hv
    · refine grewSince_of_not_mem fun ht => ?_
      have := (h.evaluated m).mpr (mem_evaluationsIn.mpr ht)
      simp [this] at he
    · exact h.fresh v hv

/-- Relaxing a successor keeps the accounts. -/
theorem relax (h : Ledger st) (d : Discipline) (source : Fin count) (out : α) (m : Nat) :
    Ledger (SolverState.relax d source out st m) := by
  by_cases hm : m < count
  swap
  · rwa [relax_of_ge d source out st hm]
  have hle := FlowLattice.rank_le_join st.entry[m] out
  cases hq : st.queued.mem m
  case true =>
    rw [relax_of_waiting d source out st hm hq]
    exact h.raise hm _ hle
  by_cases hne : FlowLattice.join st.entry[m] out ≠ st.entry[m]
  · rw [relax_of_grows d source out st hm hq hne]
    exact h.grow d source hm _ hq (FlowLattice.rank_lt_join _ _ hne)
  rw [not_not] at hne
  cases he : st.evaluated.mem m
  · rw [relax_of_first d source out st hm hq hne he]
    exact h.first d hm hq he
  · rwa [relax_of_settled d source out st hm hne he]

theorem foldl_relax (h : Ledger st) (d : Discipline) (source : Fin count) (out : α)
    (l : List Nat) : Ledger (l.foldl (SolverState.relax d source out) st) := by
  induction l generalizing st with
  | nil => exact h
  | cons m rest ih => exact ih (h.relax d source out m)

omit [DecidableEq α] in
/-- Evaluating a node just taken off the worklist keeps the accounts: its wait pays for the
evaluation. -/
theorem evaluate (h : Ledger st) {d : Discipline} (problem : FlowProblem α) {v : Fin count}
    {rest : List (Fin count)} (hpop : d.pop st.worklist = some (v, rest)) :
    Ledger (SolverState.evaluate problem v rest st) := by
  have hvrest : v ∉ rest := (nodup_of_pop d hpop h.queue.nodup).1
  have hvw : v ∈ st.worklist := (mem_of_pop d hpop v).mpr (Or.inl rfl)
  refine
    { queue := h.queue.evaluate hpop
      evaluated := fun u => ?evaluated
      iterations := ?iterations
      paid := fun u => ?paid
      growths_le := fun u => ?growths
      regrows := fun u => ?regrows
      fresh := fun u hu => ?fresh }
  case evaluated =>
    simp only [SolverState.evaluate, Array.toList_push, evaluationsIn_snoc_transfer,
      IndexSet.mem_insert, List.mem_append, List.mem_singleton, Bool.or_eq_true,
      Bool.and_eq_true, decide_eq_true_eq, v.isLt, true_and, h.evaluated u]
    rw [eq_comm (a := v.val)]
  case iterations => simp [SolverState.evaluate, h.iterations]
  case paid =>
    have hu := h.paid u
    by_cases huv : u = v
    · -- the evaluated node stops waiting
      subst huv
      simp only [if_pos hvw] at hu
      simp [SolverState.evaluate, List.count_append, hvrest]
      omega
    · have hmem : u ∈ rest ↔ u ∈ st.worklist := by
        rw [mem_of_pop d hpop u]
        simp [huv]
      have hne : v.val ≠ u.val := fun e => huv (Fin.ext e).symm
      simpa [SolverState.evaluate, List.count_append, hmem, hne] using hu
  case growths => simpa [SolverState.evaluate] using h.growths_le u
  case regrows =>
    simp only [SolverState.evaluate, Array.toList_push]
    by_cases huv : u = v.val
    · -- it waited, so it grew since its last evaluation
      subst huv
      exact (h.regrows _).snoc_transfer (h.fresh v hvw)
    · exact (h.regrows u).snoc (by simp [Ne.symm huv])
  case fresh =>
    simp only [SolverState.evaluate, Array.toList_push]
    have hne : v.val ≠ u.val := fun e => hvrest (Fin.ext e ▸ hu)
    have hold : u ∈ st.worklist := (mem_of_pop d hpop u).mpr (Or.inr hu)
    exact (h.fresh u hold).snoc (by simpa using hne)

theorem round (h : Ledger st) {d : Discipline} (problem : FlowProblem α)
    (next : Nat → List Nat) {v : Fin count} {rest : List (Fin count)}
    (hpop : d.pop st.worklist = some (v, rest)) :
    Ledger (SolverState.round problem d next v rest st) :=
  (h.evaluate problem hpop).foldl_relax d v _ (next v)

end Ledger

/-! ## The whole loop -/

omit [DecidableEq α] in
theorem ledger_start (problem : FlowProblem α) {g : Adjacency} {root : Nat} (h : root < g.count) :
    Ledger (problem.startState g h) where
  queue := (coverage_start problem h).queue
  evaluated := by simp [FlowProblem.startState]
  iterations := rfl
  paid := by
    intro v
    simp only [FlowProblem.startState, List.mem_singleton]
    split <;> simp
  growths_le := by simp [FlowProblem.startState]
  regrows := by
    intro v pre mid post heq
    simp [FlowProblem.startState] at heq
  fresh := by
    intro v _ pre post heq
    simp [FlowProblem.startState] at heq

/-- The accounts and the coverage hold when a solve from a root in range ends, with nothing
left waiting. -/
theorem run_start (problem : FlowProblem α) (d : Discipline) {g : Adjacency} {root : Nat}
    (h : root < g.count) :
    Ledger (run problem d g.next (problem.startState g h)) ∧
      Coverage g ⟨root, h⟩ (run problem d g.next (problem.startState g h)) ∧
      (run problem d g.next (problem.startState g h)).worklist = [] := by
  refine ⟨?_, ?_, run_worklist problem d g.next _⟩
  · exact run_induction problem d g.next Ledger (fun _ _ _ hpop hl => hl.round problem g.next hpop)
      (ledger_start problem h)
  · exact run_induction problem d g.next (Coverage g ⟨root, h⟩)
      (fun _ _ _ hpop hc => hc.round hpop) (coverage_start problem h)

end SolverState

/-! ## The cost of a solve -/

namespace FlowProblem

variable {α : Type} [FlowLattice α] [DecidableEq α]

section Solve

variable (problem : FlowProblem α) (order : WorklistOrder) (g : Adjacency) (root : Nat)

/-- **How a solve ends**: in a state whose accounts hold, with nothing waiting, and whose
evaluated nodes are those the root reaches. From a root out of range it is the blank state. -/
theorem exists_final :
    ∃ st : SolverState α g.count, SolverState.Ledger st ∧ st.worklist = [] ∧
      (∀ v, st.evaluated.mem v = true ↔ root < g.count ∧ g.Reaches root v) ∧
      problem.solve order g root = ⟨st.entry, st.exit, st.iterations, st.events.toList⟩ := by
  by_cases h : root < g.count
  · obtain ⟨hl, hc, hw⟩ := SolverState.run_start problem (Discipline.ofOrder order g root) h
    refine ⟨_, hl, hw, fun v => ?_, solve_of_lt problem order g h⟩
    rw [hc.evaluated_iff hw v]
    simp [h]
  · let blank := Vector.replicate g.count problem.initial
    -- nothing evaluated, nothing waiting, nothing recorded
    have hblank :
        SolverState.Ledger (⟨blank, blank, .empty, [], .empty, 0, #[]⟩ : SolverState α g.count) :=
      ⟨⟨List.nodup_nil, by simp⟩, by simp, rfl, by simp, by simp,
        fun v pre mid post heq => by simp at heq, fun v hv => by simp at hv⟩
    exact ⟨_, hblank, rfl, fun v => by simp [h], solve_of_root_ge problem order g h⟩

/-- **A solve evaluates exactly the nodes the root reaches**, and nothing from a root out of
range. -/
theorem mem_evaluationsIn_solve (v : Nat) :
    v ∈ evaluationsIn (problem.solve order g root).events ↔ root < g.count ∧ g.Reaches root v := by
  obtain ⟨st, hl, -, hev, hsolve⟩ := exists_final problem order g root
  rw [hsolve]
  exact (hl.evaluated v).symm.trans (hev v)

theorem solve_iterations :
    (problem.solve order g root).iterations =
      (evaluationsIn (problem.solve order g root).events).length := by
  obtain ⟨st, hl, -, -, hsolve⟩ := exists_final problem order g root
  rw [hsolve]
  exact hl.iterations

/-- A node is evaluated at most once more than its entry grew. -/
theorem count_evaluationsIn_solve_le (v : Nat) :
    (evaluationsIn (problem.solve order g root).events).count v ≤
      1 + (growthsIn (problem.solve order g root).events).count v := by
  obtain ⟨st, hl, hw, -, hsolve⟩ := exists_final problem order g root
  rw [hsolve]
  by_cases hv : v < g.count
  · simpa [hw] using hl.paid ⟨v, hv⟩
  · -- a node out of range is never evaluated
    have hnot : v ∉ evaluationsIn st.events.toList := fun hm =>
      hv (IndexSet.lt_of_mem ((hl.evaluated v).mpr hm))
    simp [List.count_eq_zero.mpr hnot]

/-- Each growth of an entry that the record notes raised its rank. -/
theorem count_growthsIn_solve_le (v : Fin g.count) :
    (growthsIn (problem.solve order g root).events).count v.val ≤
      FlowLattice.rank ((problem.solve order g root).entry.get v) := by
  obtain ⟨st, hl, -, -, hsolve⟩ := exists_final problem order g root
  rw [hsolve]
  exact hl.growths_le v

/-- **A node is evaluated again only after its entry grew.** -/
theorem regrowsBetween_solve (v : Nat) : RegrowsBetween (problem.solve order g root).events v := by
  obtain ⟨st, hl, -, -, hsolve⟩ := exists_final problem order g root
  rw [hsolve]
  exact hl.regrows v

/-- **A solve evaluates at least once each node the root reaches, and at most one more time than
the height of the states.** -/
theorem solve_iterations_bounds :
    (g.reachable root).card ≤ (problem.solve order g root).iterations ∧
      (problem.solve order g root).iterations ≤
        (g.reachable root).card * (FlowLattice.height α + 1) := by
  have hmem : ∀ v, (g.reachable root).mem v = true ↔
      v ∈ evaluationsIn (problem.solve order g root).events := fun v => by
    rw [Adjacency.mem_reachable_iff, mem_evaluationsIn_solve]
  rw [solve_iterations]
  constructor
  · exact IndexSet.card_le_length fun v hv => (hmem v).mp hv
  · refine IndexSet.length_le_card_mul (fun v hv => (hmem v).mpr hv) fun v => ?_
    -- a node evaluated has an entry in range, whose rank bounds its growths
    by_cases hv : v < g.count
    · have hg : (growthsIn (problem.solve order g root).events).count v ≤
          FlowLattice.rank (problem.solve order g root).entry[v] :=
        count_growthsIn_solve_le problem order g root ⟨v, hv⟩
      have hr := FlowLattice.rank_le_height (problem.solve order g root).entry[v]
      have he := count_evaluationsIn_solve_le problem order g root v
      omega
    · have hnot : v ∉ evaluationsIn (problem.solve order g root).events := fun hm =>
        hv (IndexSet.lt_of_mem ((hmem v).mpr hm))
      simp [List.count_eq_zero.mpr hnot]

end Solve

/-- **What a solve over sets of indices costs.** From any root, in any worklist order, and
whatever the boundary, the initial state and the transfer: the solve evaluates exactly the
nodes the root reaches; the number of evaluations lies between the number `R` of those nodes
and `R * (L + 1)`; between two evaluations of a node its entry grew; and the growths of an
entry are at most the members it ends with, each growth having added one. -/
theorem solve_evaluations_bounded {L : Nat} (problem : FlowProblem (IndexSet L))
    (order : WorklistOrder) (g : Adjacency) (root : Nat) :
    (∀ v, SolverEvent.transfer v ∈ (problem.solve order g root).events ↔
        root < g.count ∧ g.Reaches root v) ∧
      (g.reachable root).card ≤ (problem.solve order g root).iterations ∧
      (problem.solve order g root).iterations ≤ (g.reachable root).card * (L + 1) ∧
      (∀ v, RegrowsBetween (problem.solve order g root).events v) ∧
      ∀ v : Fin g.count, (growthsIn (problem.solve order g root).events).count v.val ≤
        ((problem.solve order g root).entry.get v).card := by
  obtain ⟨hlow, hhigh⟩ := solve_iterations_bounds problem order g root
  refine ⟨fun v => ?_, hlow, hhigh, regrowsBetween_solve problem order g root,
    count_growthsIn_solve_le problem order g root⟩
  rw [← mem_evaluationsIn]
  exact mem_evaluationsIn_solve problem order g root v

end FlowProblem

/-- **Reaching definitions cost at least one evaluation per reachable node, and at most one
more per node than there are definitions**: the states are sets of definition numbers, whose
height is the number of definitions. -/
theorem ControlFlowGraph.reaching_iterations_bounds (cfg : ControlFlowGraph)
    (config : AnalysisConfig) :
    cfg.reachableSet.card ≤ (cfg.reaching config).iterations ∧
      (cfg.reaching config).iterations ≤
        cfg.reachableSet.card * ((cfg.reaching config).definitions.length + 1) := by
  have h := FlowProblem.solve_iterations_bounds (cfg.defTable.problem config.identity)
    config.order cfg.adjacency cfg.start
  simp only [ReachingDefinitions.definitions, List.length_map, Array.length_toList]
  exact h

/-- A graph of one node and no definition: the bounds meet, and the analysis evaluates the node
once. -/
theorem ControlFlowGraph.reaching_iterations_bounds_exit :
    let cfg : ControlFlowGraph := ⟨"f", [], ⟨#[CfgNode.exitNode], #[], #[#[]], #[#[]]⟩, #[],
      Scopes.new.1, 0, 0⟩
    cfg.reachableSet.card = 1 ∧ (cfg.reaching .standard).definitions.length = 0 ∧
      (cfg.reaching .standard).iterations = 1 := by
  intro cfg
  have hbounds := ControlFlowGraph.reaching_iterations_bounds cfg .standard
  have hcard : cfg.reachableSet.card = 1 := by
    simp only [cfg, ControlFlowGraph.reachableSet, Adjacency.reachable, Adjacency.start,
      ControlFlowGraph.adjacency, Digraph.adjacency, Digraph.nodeCount, List.size_toArray,
      List.length_cons, List.length_nil, Nat.zero_add, Nat.lt_one_iff, ↓reduceDIte]
    -- the search pops the one node, which has no successor
    rw [Adjacency.walk]
    simp +decide [Adjacency.pushFresh, Digraph.successors]
    rw [Adjacency.walk]
    decide +kernel
  have hdefs : (cfg.reaching .standard).definitions.length = 0 := by
    decide +kernel
  rw [hcard, hdefs] at hbounds
  exact ⟨hcard, hdefs, by omega⟩

end ReachingDefs
