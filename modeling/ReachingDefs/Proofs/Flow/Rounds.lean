import Mathlib.Order.Lattice
import ReachingDefs.Flow.Solver

/-!
# One round of the worklist solver

The solver's loop takes a node off the worklist, evaluates it, and relaxes each of its
successors in turn. This module says once what each of these steps does to every part of
the solver state, so that invariants of the loop are proved from these equations and never
by unfolding `relax` again.

Relaxing `m` joins the source's exit into the entry of `m`; since a join that changes nothing
leaves the entry as it is, the new entry is the join in every case (`relax_entry`). The node
`m` goes onto the worklist, and is flagged, when its entry grew or it was never evaluated,
unless it is flagged already. The solver asks the flags, not the worklist, whether a node
waits; every step keeps the flags marking exactly the nodes on the worklist, each of them once
(`SolverState.Queue`), so a flagged node is one that waits (`mem_relax_worklist`).

## Main definitions

* `SolverState.Queue`: the flags mark exactly the waiting nodes, and none waits twice
* `SolverState.round`: evaluate a node taken off the worklist and relax its successors

## Main results

* `SolverState.round_entry`, `SolverState.mem_round_worklist`, `SolverState.round_exit`,
  `SolverState.round_evaluated`: what a round does to each part of the state
* `SolverState.mem_of_mem_round_worklist`, `SolverState.round_waits_or_evaluated`: who waits
  after a round, whatever the join
* `SolverState.Queue.round`: a round keeps the flags in step with the worklist
* `SolverState.run_induction`: a property kept by every round holds when the loop ends
* `SolverState.run_worklist`: the loop ends with an empty worklist
-/

namespace ReachingDefs

namespace SolverState

variable {α : Type} {count : Nat}

/-! ## The worklist and its flags -/

/-- The flags mark exactly the nodes on the worklist, and no node is on it twice. -/
structure Queue (st : SolverState α count) : Prop where
  nodup : st.worklist.Nodup
  flags : ∀ v : Fin count, st.queued.mem v = true ↔ v ∈ st.worklist

namespace Queue

variable {st st' : SolverState α count}

/-- A node that is not flagged does not wait. -/
theorem not_mem (h : st.Queue) {m : Nat} (hm : m < count) (hq : st.queued.mem m = false) :
    (⟨m, hm⟩ : Fin count) ∉ st.worklist := fun hw => by
  have := (h.flags ⟨m, hm⟩).mpr hw
  simp_all

/-- A flagged node waits. -/
theorem mem (h : st.Queue) {m : Nat} (hm : m < count) (hq : st.queued.mem m = true) :
    (⟨m, hm⟩ : Fin count) ∈ st.worklist :=
  (h.flags ⟨m, hm⟩).mp hq

/-- A state with the same worklist and flags. -/
theorem of_eq (h : st.Queue) (hw : st'.worklist = st.worklist) (hq : st'.queued = st.queued) :
    st'.Queue :=
  ⟨hw ▸ h.nodup, fun v => hw ▸ hq ▸ h.flags v⟩

/-- Pushing a node that is not flagged, and flagging it. -/
theorem push (h : st.Queue) (d : Discipline) {m : Nat} (hm : m < count)
    (hq : st.queued.mem m = false) (hw' : st'.worklist = d.push ⟨m, hm⟩ st.worklist)
    (hq' : st'.queued = st.queued.insert m) : st'.Queue where
  nodup := by
    rw [hw']
    unfold Discipline.push
    split
    · exact List.nodup_append.mpr ⟨h.nodup, List.nodup_cons.mpr ⟨List.not_mem_nil, List.nodup_nil⟩,
        fun a ha b hb => by
          rw [List.mem_singleton.mp hb]
          exact fun e => h.not_mem hm hq (e ▸ ha)⟩
    · exact List.nodup_cons.mpr ⟨h.not_mem hm hq, h.nodup⟩
  flags v := by
    rw [hw', hq', Discipline.mem_push, IndexSet.mem_insert, ← h.flags v]
    simp only [Bool.or_eq_true, Bool.and_eq_true, decide_eq_true_eq, hm, true_and]
    constructor
    · rintro (hv | rfl)
      · exact Or.inr hv
      · exact Or.inl rfl
    · rintro (rfl | hv)
      · exact Or.inr rfl
      · exact Or.inl hv

end Queue

variable [FlowLattice α] [DecidableEq α]

/-! ## Relaxing one successor -/

section Relax

variable (d : Discipline) (source : Fin count) (out : α) (st : SolverState α count)

/-- Relaxing a node in range sets its entry to the join, and pushes and flags it when its
entry grew or it was never evaluated, unless it is flagged already. -/
theorem relax_of_lt {m : Nat} (h : m < count) :
    relax d source out st m =
      let target : Fin count := ⟨m, h⟩
      let new := FlowLattice.join st.entry[target] out
      { st with
        entry := st.entry.set m new h
        worklist :=
          if (new ≠ st.entry[target] ∨ st.evaluated.mem m = false) ∧ st.queued.mem m = false then
            d.push target st.worklist
          else st.worklist
        queued :=
          if (new ≠ st.entry[target] ∨ st.evaluated.mem m = false) ∧ st.queued.mem m = false then
            st.queued.insert m
          else st.queued
        events := if new ≠ st.entry[target] ∧ st.queued.mem m = false then
          st.events.push (.grew source m) else st.events } := by
  unfold relax
  simp only [h, dite_true]
  by_cases hne : FlowLattice.join st.entry[m] out = st.entry[m]
  · -- the join changed nothing, so writing it back is writing the old entry
    have hself : st.entry.set m st.entry[m] h = st.entry := Vector.set_getElem_self h
    cases st.queued.mem m <;> cases st.evaluated.mem m <;> simp [hne, hself]
  · cases st.queued.mem m <;> simp [hne]

theorem relax_of_ge {m : Nat} (h : ¬m < count) : relax d source out st m = st := by
  unfold relax
  simp [h]

@[simp] theorem relax_exit (m : Nat) : (relax d source out st m).exit = st.exit := by
  by_cases h : m < count
  · rw [relax_of_lt d source out st h]
  · rw [relax_of_ge d source out st h]

@[simp] theorem relax_evaluated (m : Nat) :
    (relax d source out st m).evaluated = st.evaluated := by
  by_cases h : m < count
  · rw [relax_of_lt d source out st h]
  · rw [relax_of_ge d source out st h]

@[simp] theorem relax_iterations (m : Nat) :
    (relax d source out st m).iterations = st.iterations := by
  by_cases h : m < count
  · rw [relax_of_lt d source out st h]
  · rw [relax_of_ge d source out st h]

/-- Relaxing keeps the flags in step with the worklist: a node is pushed exactly when it is
flagged. -/
theorem Queue.relax {st : SolverState α count} (h : st.Queue) (m : Nat) :
    (SolverState.relax d source out st m).Queue := by
  by_cases hm : m < count
  · rw [relax_of_lt d source out st hm]
    dsimp only
    by_cases hc : (FlowLattice.join st.entry[(⟨m, hm⟩ : Fin count)] out ≠
        st.entry[(⟨m, hm⟩ : Fin count)] ∨ st.evaluated.mem m = false) ∧ st.queued.mem m = false
    · rw [if_pos hc, if_pos hc]
      exact h.push d hm hc.2 rfl rfl
    · rw [if_neg hc, if_neg hc]
      exact h.of_eq rfl rfl
  · rwa [relax_of_ge d source out st hm]

theorem foldl_relax_exit (l : List Nat) : (l.foldl (relax d source out) st).exit = st.exit := by
  induction l generalizing st with
  | nil => rfl
  | cons m rest ih => rw [List.foldl_cons, ih, relax_exit]

theorem foldl_relax_evaluated (l : List Nat) :
    (l.foldl (relax d source out) st).evaluated = st.evaluated := by
  induction l generalizing st with
  | nil => rfl
  | cons m rest ih => rw [List.foldl_cons, ih, relax_evaluated]

theorem foldl_relax_iterations (l : List Nat) :
    (l.foldl (relax d source out) st).iterations = st.iterations := by
  induction l generalizing st with
  | nil => rfl
  | cons m rest ih => rw [List.foldl_cons, ih, relax_iterations]

theorem Queue.foldl_relax (l : List Nat) {st : SolverState α count} (h : st.Queue) :
    (l.foldl (SolverState.relax d source out) st).Queue := by
  induction l generalizing st with
  | nil => exact h
  | cons m rest ih => exact ih (h.relax d source out m)

end Relax

/-! ## Who waits after relaxing, whatever the join

Whatever the join, relaxing keeps every waiting node waiting, adds no node but the relaxed one,
and leaves the relaxed node waiting unless it was evaluated before. -/

section Waiting

variable {d : Discipline} {source : Fin count} {out : α}

theorem mem_relax_worklist_of_mem {st : SolverState α count} (m : Nat) {u : Fin count}
    (hu : u ∈ st.worklist) : u ∈ (relax d source out st m).worklist := by
  by_cases hm : m < count
  · rw [relax_of_lt d source out st hm]
    dsimp only
    split_ifs
    · exact (Discipline.mem_push d _ u _).mpr (Or.inr hu)
    · exact hu
  · rwa [relax_of_ge d source out st hm]

theorem mem_of_mem_relax_worklist {st : SolverState α count} {m : Nat} {u : Fin count}
    (hu : u ∈ (relax d source out st m).worklist) : u ∈ st.worklist ∨ u.val = m := by
  by_cases hm : m < count
  · rw [relax_of_lt d source out st hm] at hu
    dsimp only at hu
    split_ifs at hu
    · rcases (Discipline.mem_push d _ u _).mp hu with rfl | hu
      · exact Or.inr rfl
      · exact Or.inl hu
    · exact Or.inl hu
  · rw [relax_of_ge d source out st hm] at hu
    exact Or.inl hu

/-- After relaxing `m`, it waits unless it was evaluated before. -/
theorem relax_waits_or_evaluated {st : SolverState α count} (h : st.Queue) {m : Nat}
    (hm : m < count) :
    (⟨m, hm⟩ : Fin count) ∈ (relax d source out st m).worklist ∨ st.evaluated.mem m = true := by
  rw [relax_of_lt d source out st hm]
  dsimp only
  split_ifs with hc
  · exact Or.inl ((Discipline.mem_push d _ _ _).mpr (Or.inl rfl))
  · -- not pushed: it was evaluated, or else it is flagged and so waits
    by_cases he : st.evaluated.mem m = true
    · exact Or.inr he
    · exact Or.inl (h.mem hm (Bool.of_not_eq_false fun hq =>
        hc ⟨Or.inr (Bool.eq_false_iff.mpr he), hq⟩))

theorem mem_foldl_relax_worklist_of_mem (l : List Nat) {st : SolverState α count}
    {u : Fin count} (hu : u ∈ st.worklist) :
    u ∈ (l.foldl (relax d source out) st).worklist := by
  induction l generalizing st with
  | nil => exact hu
  | cons m rest ih => exact ih (mem_relax_worklist_of_mem m hu)

theorem mem_of_mem_foldl_relax_worklist {l : List Nat} {st : SolverState α count}
    {u : Fin count} (hu : u ∈ (l.foldl (relax d source out) st).worklist) :
    u ∈ st.worklist ∨ u.val ∈ l := by
  induction l generalizing st with
  | nil => exact Or.inl hu
  | cons m rest ih =>
    rcases ih hu with hr | hr
    · rcases mem_of_mem_relax_worklist hr with h | h
      · exact Or.inl h
      · exact Or.inr (h ▸ List.mem_cons_self)
    · exact Or.inr (List.mem_cons_of_mem m hr)

/-- After relaxing a list of nodes, each of them in range waits unless it was evaluated. -/
theorem foldl_relax_waits_or_evaluated {l : List Nat} {st : SolverState α count} (h : st.Queue)
    {m : Nat} (hl : m ∈ l) (hm : m < count) :
    (⟨m, hm⟩ : Fin count) ∈ (l.foldl (relax d source out) st).worklist ∨
      st.evaluated.mem m = true := by
  induction l generalizing st with
  | nil => cases hl
  | cons x rest ih =>
    rw [List.foldl_cons]
    rcases List.mem_cons.mp hl with rfl | hr
    · rcases relax_waits_or_evaluated h hm with hw | he
      · exact Or.inl (mem_foldl_relax_worklist_of_mem rest hw)
      · exact Or.inr he
    · rw [← relax_evaluated d source out st x]
      exact ih (h.relax d source out x) hr

end Waiting

/-! ## Relaxing under a semilattice join

From here on the solver's join is the join of a semilattice, so that joining the same exit
twice is joining it once. -/

section Joins

variable [SemilatticeSup α] (hjoin : ∀ a b : α, FlowLattice.join a b = a ⊔ b)
  (d : Discipline) (source : Fin count) (out : α)
include hjoin

theorem relax_entry (st : SolverState α count) (m : Nat) (w : Fin count) :
    (relax d source out st m).entry[w] = if w.val = m then st.entry[w] ⊔ out else st.entry[w] := by
  by_cases hm : m < count
  · rw [relax_of_lt d source out st hm]
    dsimp only
    rw [Fin.getElem_fin, Vector.getElem_set, hjoin]
    by_cases hw : w.val = m
    · have : w = ⟨m, hm⟩ := Fin.ext hw
      subst this
      simp
    · simp [hw, Ne.symm hw]
  · rw [relax_of_ge d source out st hm]
    have : w.val ≠ m := fun e => hm (e ▸ w.isLt)
    simp [this]

theorem mem_relax_worklist {st : SolverState α count} (h : st.Queue) (m : Nat) (u : Fin count) :
    u ∈ (relax d source out st m).worklist ↔
      u ∈ st.worklist ∨
        (u.val = m ∧ (st.entry[u] ⊔ out ≠ st.entry[u] ∨ st.evaluated.mem u = false)) := by
  by_cases hm : m < count
  · rw [relax_of_lt d source out st hm]
    dsimp only
    rw [hjoin]
    split_ifs with hc
    · rw [Discipline.mem_push]
      constructor
      · rintro (rfl | hu)
        · exact Or.inr ⟨rfl, hc.1⟩
        · exact Or.inl hu
      · rintro (hu | ⟨hu, -⟩)
        · exact Or.inr hu
        · exact Or.inl (Fin.ext hu)
    · refine ⟨Or.inl, ?_⟩
      rintro (hu | ⟨hu, hgrow⟩)
      · exact hu
      · -- not pushed although it grew or was never evaluated: it was flagged, so waiting
        have : u = ⟨m, hm⟩ := Fin.ext hu
        subst this
        exact h.mem hm (Bool.of_not_eq_false fun hq => hc ⟨hgrow, hq⟩)
  · rw [relax_of_ge d source out st hm]
    have : u.val ≠ m := fun e => hm (e ▸ u.isLt)
    simp [this]

theorem foldl_relax_entry (l : List Nat) (st : SolverState α count) (w : Fin count) :
    (l.foldl (relax d source out) st).entry[w] =
      if w.val ∈ l then st.entry[w] ⊔ out else st.entry[w] := by
  induction l generalizing st with
  | nil => simp
  | cons m rest ih =>
    rw [List.foldl_cons, ih, relax_entry hjoin]
    by_cases hw : w.val = m <;> by_cases hr : w.val ∈ rest <;> simp [hw, hr]

/-- After relaxing every node of `l`, a node waits if it waited before, or if it is listed
and its entry grew or it was never evaluated. -/
theorem mem_foldl_relax_worklist (l : List Nat) {st : SolverState α count} (h : st.Queue)
    (u : Fin count) :
    u ∈ (l.foldl (relax d source out) st).worklist ↔
      u ∈ st.worklist ∨
        (u.val ∈ l ∧ (st.entry[u] ⊔ out ≠ st.entry[u] ∨ st.evaluated.mem u = false)) := by
  induction l generalizing st with
  | nil => simp
  | cons m rest ih =>
    rw [List.foldl_cons, ih (h.relax d source out m), mem_relax_worklist hjoin d source out h,
      relax_entry hjoin, relax_evaluated]
    by_cases hu : u.val = m
    · -- a second relaxation of `m` cannot grow its entry again
      simp only [hu, if_true, sup_right_idem, ne_eq, not_true_eq_false, false_or,
        List.mem_cons, true_or, true_and]
      exact ⟨fun h => h.elim id fun h => Or.inr (Or.inr h.2), Or.inl⟩
    · simp [hu]

end Joins

/-! ## Rounds and the loop -/

/-- One round of the loop: evaluate `v`, just taken off the worklist with `rest` left, and
join its new exit into the entry of each successor. -/
def round (problem : FlowProblem α) (d : Discipline) (next : Nat → List Nat) (v : Fin count)
    (rest : List (Fin count)) (st : SolverState α count) : SolverState α count :=
  (next v).foldl (relax d v (problem.transfer v st.entry[v])) (evaluate problem v rest st)

/-- Whatever the order, the node taken off and the entries left are the entries before. -/
theorem pop_perm (d : Discipline) {items rest : List (Fin count)} {v : Fin count}
    (h : d.pop items = some (v, rest)) : (v :: rest).Perm items := by
  cases items with
  | nil => simp [Discipline.pop] at h
  | cons w more =>
    simp only [Discipline.pop] at h
    split at h
    · simp only [Option.some.injEq, Prod.mk.injEq] at h
      obtain ⟨rfl, rfl⟩ := h
      exact (List.perm_cons_erase (d.least_mem w more)).symm
    · simp only [Option.some.injEq, Prod.mk.injEq] at h
      obtain ⟨rfl, rfl⟩ := h
      exact List.Perm.refl _

theorem mem_of_pop (d : Discipline) {items rest : List (Fin count)} {v : Fin count}
    (h : d.pop items = some (v, rest)) (u : Fin count) : u ∈ items ↔ u = v ∨ u ∈ rest := by
  rw [← (pop_perm d h).mem_iff, List.mem_cons]

theorem nodup_of_pop (d : Discipline) {items rest : List (Fin count)} {v : Fin count}
    (h : d.pop items = some (v, rest)) (hnd : items.Nodup) : v ∉ rest ∧ rest.Nodup :=
  List.nodup_cons.mp ((pop_perm d h).nodup_iff.mpr hnd)

theorem pop_eq_none_iff (d : Discipline) {items : List (Fin count)} :
    d.pop items = none ↔ items = [] := by
  cases items with
  | nil => simp [Discipline.pop]
  | cons v rest =>
    simp only [Discipline.pop, reduceCtorEq, iff_false]
    split <;> simp

section Loop

variable (problem : FlowProblem α) (d : Discipline) (next : Nat → List Nat)

theorem run_of_pop_some {st : SolverState α count} {v : Fin count} {rest : List (Fin count)}
    (h : d.pop st.worklist = some (v, rest)) :
    run problem d next st = run problem d next (round problem d next v rest st) := by
  rw [run]
  split
  · simp_all
  · rename_i v' rest' h'
    rw [h] at h'
    cases h'
    rfl

/-- A property that every round keeps holds of the state the loop ends in. -/
theorem run_induction (P : SolverState α count → Prop)
    (step : ∀ st v rest, d.pop st.worklist = some (v, rest) → P st →
      P (round problem d next v rest st))
    {st : SolverState α count} (h : P st) : P (run problem d next st) := by
  induction st using SolverState.run.induct problem d next with
  | case1 st hnone => rwa [FlowProblem.run_of_pop_none problem d next hnone]
  | case2 st v rest hsome _ ih =>
    rw [run_of_pop_some problem d next hsome]
    exact ih (step st v rest hsome h)

/-- The loop ends with an empty worklist. -/
theorem run_worklist (st : SolverState α count) : (run problem d next st).worklist = [] := by
  induction st using SolverState.run.induct problem d next with
  | case1 st hnone =>
    rw [FlowProblem.run_of_pop_none problem d next hnone]
    exact (pop_eq_none_iff d).mp hnone
  | case2 st v rest hsome _ ih =>
    rw [run_of_pop_some problem d next hsome]
    exact ih

variable (v : Fin count) (rest : List (Fin count)) (st : SolverState α count)

@[simp] theorem round_evaluated :
    (round problem d next v rest st).evaluated = st.evaluated.insert v := by
  rw [round, foldl_relax_evaluated]
  rfl

@[simp] theorem round_exit :
    (round problem d next v rest st).exit =
      st.exit.set v (problem.transfer v st.entry[v]) v.isLt := by
  rw [round, foldl_relax_exit]
  rfl

@[simp] theorem round_iterations :
    (round problem d next v rest st).iterations = st.iterations + 1 := by
  rw [round, foldl_relax_iterations]
  rfl

section

variable {problem d next v rest st}

theorem round_exit_getElem (w : Fin count) :
    (round problem d next v rest st).exit[w] =
      if w = v then problem.transfer v st.entry[v] else st.exit[w] := by
  rw [round_exit, Fin.getElem_fin, Vector.getElem_set]
  by_cases hw : w = v
  · subst hw
    simp
  · have : v.val ≠ w.val := fun e => hw (Fin.ext e).symm
    simp [hw, this]

theorem mem_round_evaluated (w : Fin count) :
    (round problem d next v rest st).evaluated.mem w = true ↔
      w = v ∨ st.evaluated.mem w = true := by
  rw [round_evaluated, IndexSet.mem_insert]
  simp only [Bool.or_eq_true, Bool.and_eq_true, decide_eq_true_eq, v.isLt, true_and]
  constructor
  · rintro (h | h)
    · exact Or.inr h
    · exact Or.inl (Fin.ext h.symm)
  · rintro (rfl | h)
    · exact Or.inr rfl
    · exact Or.inl h

theorem mem_round_worklist_of_mem_rest {u : Fin count} (hu : u ∈ rest) :
    u ∈ (round problem d next v rest st).worklist :=
  mem_foldl_relax_worklist_of_mem (next v) hu

theorem mem_of_mem_round_worklist {u : Fin count}
    (hu : u ∈ (round problem d next v rest st).worklist) : u ∈ rest ∨ u.val ∈ next v :=
  mem_of_mem_foldl_relax_worklist hu

omit [FlowLattice α] [DecidableEq α] in
/-- Taking a node off and evaluating it keeps the flags in step: the node is unflagged as it
leaves the worklist. -/
theorem Queue.evaluate (h : st.Queue) (hpop : d.pop st.worklist = some (v, rest)) :
    (SolverState.evaluate problem v rest st).Queue where
  nodup := (nodup_of_pop d hpop h.nodup).2
  flags u := by
    have hv : v ∉ rest := (nodup_of_pop d hpop h.nodup).1
    show (st.queued.erase v).mem u = true ↔ u ∈ rest
    rw [IndexSet.mem_erase, Bool.and_eq_true, h.flags u, mem_of_pop d hpop u]
    constructor
    · rintro ⟨rfl | hu, hne⟩
      · simp at hne
      · exact hu
    · intro hu
      refine ⟨Or.inr hu, ?_⟩
      simp only [Bool.not_eq_true', decide_eq_false_iff_not]
      exact fun e => hv (by rwa [Fin.ext e])

/-- A round keeps the flags in step with the worklist. -/
theorem Queue.round (h : st.Queue) (hpop : d.pop st.worklist = some (v, rest)) :
    (round problem d next v rest st).Queue :=
  (h.evaluate hpop).foldl_relax d v _ (next v)

/-- After a round, each successor in range of the evaluated node waits or has been evaluated. -/
theorem round_waits_or_evaluated (h : st.Queue) (hpop : d.pop st.worklist = some (v, rest))
    {m : Nat} (hl : m ∈ next v) (hm : m < count) :
    (⟨m, hm⟩ : Fin count) ∈ (round problem d next v rest st).worklist ∨
      (round problem d next v rest st).evaluated.mem m = true := by
  rw [round_evaluated]
  exact foldl_relax_waits_or_evaluated (h.evaluate hpop) hl hm

end

variable [SemilatticeSup α] (hjoin : ∀ a b : α, FlowLattice.join a b = a ⊔ b)
include hjoin

theorem round_entry (w : Fin count) :
    (round problem d next v rest st).entry[w] =
      if w.val ∈ next v then st.entry[w] ⊔ problem.transfer v st.entry[v] else st.entry[w] := by
  rw [round, foldl_relax_entry hjoin]
  rfl

/-- After a round, a node waits if it was left on the worklist, or if it is a successor of
the evaluated node whose entry grew or that was never evaluated. -/
theorem mem_round_worklist (h : st.Queue) (hpop : d.pop st.worklist = some (v, rest))
    (u : Fin count) :
    u ∈ (round problem d next v rest st).worklist ↔
      u ∈ rest ∨
        (u.val ∈ next v ∧ (st.entry[u] ⊔ problem.transfer v st.entry[v] ≠ st.entry[u] ∨
          (st.evaluated.insert v).mem u = false)) := by
  rw [round, mem_foldl_relax_worklist hjoin _ _ _ _ (h.evaluate hpop)]
  rfl

end Loop

end SolverState

end ReachingDefs
