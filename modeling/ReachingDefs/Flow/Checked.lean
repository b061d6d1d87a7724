import ReachingDefs.Data.BitSet
import ReachingDefs.Flow.Solver

/-!
# The solver over bit sets

`FlowProblem.solve` as it runs on bit sets. The states are bit sets, which check their arguments;
the entry and exit states sit in vectors read and written at node numbers; the marks of the
evaluated and the queued nodes are bit sets over the nodes; and the worklist is a stack, a queue,
or a heap of nodes paired with their ranks, the ranks read from a table. Every one of these
operations may panic: a bit set refuses an index outside its domain or a set over another domain,
and a vector refuses a position at or past its end. A run stops at its first panic.

The loop is a total definition, whatever the transfer. It runs on states whose marks of the
evaluated and the queued nodes have a word for every node of their domains (`Flagged`), as the
marks a solve starts with do, and a round keeps them so. Its measure is the solver's: how far
the words of the entries are below full (`potential`), then twice the nodes neither evaluated
nor queued plus the length of the worklist, in lexicographic order. Taking a node off lowers
the second component; a union that reports a change lowers the potential; a node queued without
one was idle. That a run ends without a panic is not part of the definition; it is proved for
the problems whose sets all share one domain.

## Main definitions

* `Panic`: why a run stopped
* `Worklist`: the waiting nodes, in the order the solve takes them off
* `CheckedProblem`: a forward problem over bit sets
* `CheckedState.loop`: the loop, a total definition on `Flagged` states
* `CheckedProblem.solve`: the solve from a root, under a worklist order
* `CheckedSolution.toSolution`: a solve over bit sets read back as sets of indices

## Main results

* `CheckedState.relax_progress`, `CheckedState.round_progress`: one step never raises the
  measure, and keeps the marks `Flagged`
* `CheckedState.measure_round_lt`: a round after taking a node off lowers it
-/

namespace ReachingDefs

/-- Why a run stopped short. -/
inductive Panic where
  /-- A bit set refused an operation. -/
  | bits (fault : BitSetFault)
  /-- A vector was read or written at a position at or past its length. -/
  | index (index len : Nat)
deriving DecidableEq, Repr

/-- The report of a panic. -/
def Panic.message : Panic → String
  | .bits f => f.message
  | .index i len =>
    "index out of bounds: the len is " ++ toString len ++ " but the index is " ++ toString i

/-- A bit set operation whose refusal is a panic. -/
def Panic.check {α : Type} (r : Except BitSetFault α) : Except Panic α := r.mapError .bits

/-- The entry of a vector at a position, or a panic past its end. -/
def readAt {α : Type} (xs : Array α) (i : Nat) : Except Panic α :=
  if h : i < xs.size then .ok xs[i] else .error (.index i xs.size)

/-- A vector with the entry at a position replaced, or a panic past its end. -/
def writeAt {α : Type} (xs : Array α) (i : Nat) (x : α) : Except Panic (Array α) :=
  if h : i < xs.size then .ok (xs.set i x h) else .error (.index i xs.size)

/-- A bind in `Except` succeeds exactly when both of its parts do. -/
theorem bind_eq_ok {ε α β : Type} {x : Except ε α} {f : α → Except ε β} {b : β} :
    x >>= f = .ok b ↔ ∃ a, x = .ok a ∧ f a = .ok b := by
  cases x with
  | error e => simp only [bind, Except.bind, reduceCtorEq, false_and, exists_false]
  | ok a => simp only [bind, Except.bind, Except.ok.injEq, exists_eq_left']

theorem Panic.check_eq_ok {α : Type} {r : Except BitSetFault α} {a : α} :
    Panic.check r = .ok a ↔ r = .ok a := by
  -- `Panic.check` keeps a value and wraps a refusal, so each side is the other's constructor
  cases r with
  | error e => constructor <;> intro h <;> cases h
  | ok b => constructor <;> intro h <;> cases h <;> rfl

theorem readAt_eq_ok {α : Type} {xs : Array α} {i : Nat} {x : α} :
    readAt xs i = .ok x ↔ ∃ h : i < xs.size, xs[i] = x := by
  unfold readAt
  split <;> simp [*]

theorem writeAt_eq_ok {α : Type} {xs ys : Array α} {i : Nat} {x : α} :
    writeAt xs i x = .ok ys ↔ ∃ h : i < xs.size, xs.set i x h = ys := by
  unfold writeAt
  split <;> simp [*]

/-- The rank of each node in a list of nodes, written position by position into a table of
`count` entries that starts with every node `unranked`. A listed node past the table panics. -/
def rankTableChecked (count : Nat) (order : List Nat) : Except Panic (Array Nat) :=
  order.zipIdx.foldlM (fun table e => writeAt table e.1 e.2) (Array.replicate count unranked)

/-- The nodes waiting to be evaluated: a stack, a queue, or a heap of nodes paired with their
ranks, read from a rank table as the nodes go on. -/
inductive Worklist where
  /-- The node added last comes off first. -/
  | stack (nodes : List Nat)
  /-- The node added first comes off first. -/
  | queue (nodes : List Nat)
  /-- The least pair of rank and node comes off first. -/
  | heap (entries : List (Nat × Nat)) (rank : Array Nat)

namespace Worklist

/-- The empty worklist of an order; under reverse postorder, with the rank table of the graph
seen from the root. -/
def new (order : WorklistOrder) (g : Adjacency) (root : Nat) : Except Panic Worklist :=
  match order with
  | .lifo => pure (.stack [])
  | .fifo => pure (.queue [])
  | .reversePostorder => do
    let rank ← rankTableChecked g.count (g.reversePostorder root)
    pure (.heap [] rank)

/-- Whether a pair of rank and node comes off a heap before another. -/
def before (a b : Nat × Nat) : Bool := a.1 < b.1 || (a.1 == b.1 && a.2 < b.2)

/-- Adds a node; a heap reads the node's rank from its table. -/
def push (w : Worklist) (v : Nat) : Except Panic Worklist :=
  match w with
  | .stack nodes => pure (.stack (v :: nodes))
  | .queue nodes => pure (.queue (nodes ++ [v]))
  | .heap entries rank => do
    let r ← readAt rank v
    pure (.heap ((r, v) :: entries) rank)

/-- Takes the next node off, with what remains. -/
def pop : Worklist → Option (Nat × Worklist)
  | .stack [] => none
  | .stack (v :: rest) => some (v, .stack rest)
  | .queue [] => none
  | .queue (v :: rest) => some (v, .queue rest)
  | .heap [] _ => none
  | .heap (e :: rest) rank =>
    let m := rest.foldl (fun best x => if before x best then x else best) e
    some (m.2, .heap ((e :: rest).erase m) rank)

/-- The number of waiting nodes. -/
def size : Worklist → Nat
  | .stack nodes => nodes.length
  | .queue nodes => nodes.length
  | .heap entries _ => entries.length

/-- The pair a heap hands out is one of its pairs. -/
theorem least_mem (e : Nat × Nat) (rest : List (Nat × Nat)) :
    rest.foldl (fun best x => if before x best then x else best) e ∈ e :: rest := by
  induction rest generalizing e with
  | nil => exact List.mem_singleton_self e
  | cons x more ih =>
    rw [List.foldl_cons]
    split
    · exact List.mem_cons_of_mem e (ih x)
    · rcases List.mem_cons.mp (ih e) with h | h
      · rw [h]
        exact List.mem_cons_self
      · exact List.mem_cons_of_mem e (List.mem_cons_of_mem x h)

theorem size_push {w w' : Worklist} {v : Nat} (h : w.push v = .ok w') : w'.size = w.size + 1 := by
  cases w with
  | stack nodes => cases h; simp [size]
  | queue nodes => cases h; simp [size]
  | heap entries rank =>
    simp only [push, bind_eq_ok] at h
    obtain ⟨r, -, h⟩ := h
    cases h
    simp [size]

/-- Taking a node off leaves one node fewer. -/
theorem size_pop {w rest : Worklist} {v : Nat} (h : w.pop = some (v, rest)) :
    rest.size + 1 = w.size := by
  match w, h with
  | .stack (u :: more), h => cases h; rfl
  | .queue (u :: more), h => cases h; rfl
  | .heap (e :: more) rank, h =>
    simp only [pop, Option.some.injEq, Prod.mk.injEq] at h
    obtain ⟨-, rfl⟩ := h
    simp only [size, List.length_erase_of_mem (least_mem e more)]
    simp

end Worklist

/-- A forward dataflow problem over bit sets whose transfer may panic. -/
structure CheckedProblem where
  /-- The entry state of the root. -/
  boundary : BitSet
  /-- The state of every other entry, and of every exit, before the solve. -/
  initial : BitSet
  /-- The exit state of a node from its entry state. -/
  transfer : Nat → BitSet → Except Panic BitSet

/-- The state of a solve over bit sets. -/
structure CheckedState where
  /-- The entry state of each node. -/
  entry : Array BitSet
  /-- The exit state of each node. -/
  exit : Array BitSet
  /-- The nodes evaluated at least once. -/
  evaluated : BitSet
  /-- The nodes flagged as waiting. -/
  queued : BitSet
  worklist : Worklist
  iterations : Nat
  events : Array SolverEvent

/-- The entry and exit states a solve over bit sets ends with, and how it got there. -/
structure CheckedSolution where
  entry : Array BitSet
  exit : Array BitSet
  iterations : Nat
  events : List SolverEvent

namespace CheckedState

/-- Joins the exit of `v` into the entry of successor `m`, and queues `m` when its entry grew or
it was never evaluated, unless it waits already. A successor at or past `count` is skipped. -/
def relax (count v : Nat) (c : CheckedState) (m : Nat) : Except Panic CheckedState := do
  if count ≤ m then return c
  let old ← readAt c.entry m
  let out ← readAt c.exit v
  let (new, grew) ← Panic.check (old.unionWith out)
  let entry ← writeAt c.entry m new
  if (grew || !c.evaluated.contains m) && !c.queued.contains m then
    let (queued, _) ← Panic.check (c.queued.insert m)
    let worklist ← c.worklist.push m
    let events := if grew then c.events.push (.grew v m) else c.events
    return { c with entry, queued, worklist, events }
  return { c with entry }

/-- Evaluates node `v`, just taken off the worklist, and joins its exit into its successors. -/
def round (p : CheckedProblem) (g : Adjacency) (v : Nat) (c : CheckedState) :
    Except Panic CheckedState := do
  let (queued, _) ← Panic.check (c.queued.remove v)
  let (evaluated, _) ← Panic.check (c.evaluated.insert v)
  let input ← readAt c.entry v
  let out ← p.transfer v input
  let exit ← writeAt c.exit v out
  let c := { c with queued, evaluated, exit, iterations := c.iterations + 1,
                    events := c.events.push (.transfer v) }
  (g.next v).foldlM (relax g.count v) c

/-! ### Why the loop ends -/

/-- How far the words of the entries are below full, summed over the entries. -/
def potentialOf (entry : Array BitSet) : Nat := sumBy BitSet.room entry.toList

/-- Whether a node is neither marked evaluated nor flagged as queued. -/
def idleAt (evaluated queued : BitSet) (v : Nat) : Bool :=
  !evaluated.contains v && !queued.contains v

/-- The idle nodes below `count`. -/
def idleOf (count : Nat) (evaluated queued : BitSet) : Nat :=
  (List.range count).countP (idleAt evaluated queued)

/-- The termination measure of the loop on a graph of `count` nodes. -/
def measure (count : Nat) (c : CheckedState) : Nat × Nat :=
  (potentialOf c.entry, 2 * idleOf count c.evaluated c.queued + c.worklist.size)

/-- A step never raises the measure: it lowers the potential, or keeps it and does not raise the
second component. -/
def Progress (count : Nat) (c c' : CheckedState) : Prop :=
  potentialOf c'.entry < potentialOf c.entry ∨
    (potentialOf c'.entry = potentialOf c.entry ∧
      2 * idleOf count c'.evaluated c'.queued + c'.worklist.size ≤
        2 * idleOf count c.evaluated c.queued + c.worklist.size)

/-- The marks of the evaluated and the queued nodes have a word for every node of their domains,
so that marking a node makes it a member. -/
def Flagged (c : CheckedState) : Prop := c.evaluated.Spans ∧ c.queued.Spans

theorem Progress.refl (count : Nat) (c : CheckedState) : Progress count c c :=
  Or.inr ⟨rfl, Nat.le_refl _⟩

theorem Progress.trans {count : Nat} {a b c : CheckedState} (hab : Progress count a b)
    (hbc : Progress count b c) : Progress count a c := by
  unfold Progress at *
  omega

theorem Progress.of_le {count : Nat} {c c' : CheckedState}
    (hp : potentialOf c'.entry ≤ potentialOf c.entry)
    (hs : potentialOf c'.entry = potentialOf c.entry →
      2 * idleOf count c'.evaluated c'.queued + c'.worklist.size ≤
        2 * idleOf count c.evaluated c.queued + c.worklist.size) :
    Progress count c c' := by
  rcases Nat.lt_or_eq_of_le hp with h | h
  · exact Or.inl h
  · exact Or.inr ⟨h, hs h⟩

/-- Writing over an entry moves the potential by the difference of the two entries' room. -/
theorem potentialOf_write {entry entry' : Array BitSet} {m : Nat} {old new : BitSet}
    (hold : readAt entry m = .ok old) (hwrite : writeAt entry m new = .ok entry') :
    potentialOf entry' + old.room = potentialOf entry + new.room := by
  obtain ⟨hm, rfl⟩ := readAt_eq_ok.mp hold
  obtain ⟨_, rfl⟩ := writeAt_eq_ok.mp hwrite
  have := sumBy_set BitSet.room entry.toList m new (by simpa using hm)
  simpa [potentialOf] using this

/-- Marks whose idle nodes were all idle before have no more of them. -/
theorem idleOf_le {count : Nat} {e q e' q' : BitSet}
    (h : ∀ v, idleAt e' q' v = true → idleAt e q v = true) : idleOf count e' q' ≤ idleOf count e q :=
  List.countP_mono_left fun v _ => h v

/-- ... and fewer, when a node below `count` was idle before and is not now. -/
theorem idleOf_lt {count m : Nat} {e q e' q' : BitSet}
    (h : ∀ v, idleAt e' q' v = true → idleAt e q v = true) (hm : m < count)
    (hwas : idleAt e q m = true) (hnow : idleAt e' q' m = false) :
    idleOf count e' q' < idleOf count e q :=
  countP_lt_countP (fun v _ => h v) ⟨m, List.mem_range.mpr hm, hwas, hnow⟩

/-- **Relaxing a successor makes progress.** A successor out of range changes nothing; a union
that reports a change lowers the potential; a successor queued without one was idle, and is
idle no more. -/
theorem relax_progress {count v m : Nat} {c c' : CheckedState} (h : relax count v c m = .ok c')
    (hc : c.Flagged) : c'.Flagged ∧ Progress count c c' := by
  by_cases hskip : count ≤ m
  · simp only [relax, hskip, if_true] at h
    cases h
    exact ⟨hc, .refl count c⟩
  simp only [relax, hskip, if_false, bind_eq_ok] at h
  obtain ⟨old, hold, out, -, ⟨new, grew⟩, hunion, entry, hwrite, h⟩ := h
  dsimp only at hwrite h
  have hroom := BitSet.room_unionWith (Panic.check_eq_ok.mp hunion)
  have hpot := potentialOf_write hold hwrite
  split at h
  · rename_i hqueue
    simp only [bind_eq_ok] at h
    obtain ⟨⟨queued, _⟩, hins, worklist, hpush, h⟩ := h
    cases h
    have hins := Panic.check_eq_ok.mp hins
    have hsize := Worklist.size_push hpush
    refine ⟨⟨hc.1, BitSet.spans_insert hins hc.2⟩, Progress.of_le (by dsimp only; omega) fun heq => ?_⟩
    dsimp only at heq ⊢
    -- the potential kept, so the union reported no change, and the successor was idle
    have hgrew : grew = false := by
      cases grew
      · rfl
      · have := hroom.2 rfl
        omega
    subst hgrew
    have hidle : idleOf count c.evaluated queued < idleOf count c.evaluated c.queued :=
      idleOf_lt
        (fun u hu => by
          simp only [idleAt, Bool.and_eq_true, Bool.not_eq_true'] at hu ⊢
          exact ⟨hu.1, Bool.eq_false_iff.mpr fun hq => by
            simp [BitSet.contains_insert_of_contains hins hq] at hu⟩)
        (Nat.lt_of_not_le hskip) (by simpa [idleAt] using hqueue)
        (by simp [idleAt, BitSet.contains_of_insert hc.2 hins])
    omega
  · cases h
    exact ⟨hc, Progress.of_le (by dsimp only; omega) fun _ => Nat.le_refl _⟩

theorem foldlM_relax_progress {count v : Nat} : ∀ (l : List Nat) {c c' : CheckedState},
    l.foldlM (relax count v) c = .ok c' → c.Flagged → c'.Flagged ∧ Progress count c c'
  | [], c, _, h, hc => by
    cases h
    exact ⟨hc, .refl count c⟩
  | m :: rest, _, _, h, hc => by
    rw [List.foldlM_cons, bind_eq_ok] at h
    obtain ⟨c₁, h₁, h₂⟩ := h
    obtain ⟨hc₁, hp₁⟩ := relax_progress h₁ hc
    obtain ⟨hc', hp₂⟩ := foldlM_relax_progress rest h₂ hc₁
    exact ⟨hc', hp₁.trans hp₂⟩

/-- **A round makes progress.** Marking the node evaluated and unflagging it idles no node, since
the node itself is now evaluated and every other node keeps its marks; then every successor is
relaxed. -/
theorem round_progress {p : CheckedProblem} {g : Adjacency} {v : Nat} {c c' : CheckedState}
    (h : round p g v c = .ok c') (hc : c.Flagged) : c'.Flagged ∧ Progress g.count c c' := by
  simp only [round, bind_eq_ok] at h
  obtain ⟨⟨queued, _⟩, hrem, ⟨evaluated, _⟩, hins, input, -, out, -, exit, -, h⟩ := h
  dsimp only at h
  have hrem := Panic.check_eq_ok.mp hrem
  have hins := Panic.check_eq_ok.mp hins
  have hidle : idleOf g.count evaluated queued ≤ idleOf g.count c.evaluated c.queued :=
    idleOf_le fun u hu => by
      simp only [idleAt, Bool.and_eq_true, Bool.not_eq_true'] at hu ⊢
      by_cases huv : u = v
      · subst huv
        simp [BitSet.contains_of_insert hc.1 hins] at hu
      · exact ⟨Bool.eq_false_iff.mpr fun he => by
            simp [BitSet.contains_insert_of_contains hins he] at hu,
          Bool.eq_false_iff.mpr fun hq => by
            simp [BitSet.contains_remove_of_ne hrem huv hq] at hu⟩
  have hp₁ : Progress g.count c
      { c with queued := queued, evaluated := evaluated, exit := exit,
               iterations := c.iterations + 1, events := c.events.push (.transfer v) } :=
    Or.inr ⟨rfl, by dsimp only; omega⟩
  obtain ⟨hc', hp⟩ :=
    foldlM_relax_progress _ h ⟨BitSet.spans_insert hins hc.1, BitSet.spans_remove hrem hc.2⟩
  exact ⟨hc', hp₁.trans hp⟩

/-- A round after taking a node off lowers the measure. -/
theorem measure_round_lt {p : CheckedProblem} {g : Adjacency} {v : Nat} {rest : Worklist}
    {c c' : CheckedState} (hpop : c.worklist.pop = some (v, rest))
    (h : round p g v { c with worklist := rest } = .ok c') (hc : c.Flagged) :
    Prod.Lex (· < ·) (· < ·) (c'.measure g.count) (c.measure g.count) := by
  have hsize := Worklist.size_pop hpop
  obtain ⟨-, hp⟩ := round_progress h hc
  rcases hp with hp | ⟨hp, hs⟩
  · exact Prod.Lex.left _ _ hp
  · simp only [measure]
    rw [hp]
    exact Prod.Lex.right _ (by simp only at hs; omega)

-- `hpop` is read only by the termination proof, which the linter does not see
set_option linter.unusedVariables false in
/-- Runs the loop until the worklist is empty or a round panics. -/
def loop (p : CheckedProblem) (g : Adjacency) (c : CheckedState) (hc : c.Flagged) :
    Except Panic CheckedState :=
  match hpop : c.worklist.pop with
  | none => pure c
  | some (v, rest) =>
    match hround : round p g v { c with worklist := rest } with
    | .error e => throw e
    | .ok c' => loop p g c' (round_progress hround hc).1
termination_by c.measure g.count
decreasing_by exact measure_round_lt hpop hround hc

theorem loop_of_pop_none {p : CheckedProblem} {g : Adjacency} {c : CheckedState}
    (hc : c.Flagged) (hpop : c.worklist.pop = none) : loop p g c hc = .ok c := by
  rw [loop]
  split
  · rfl
  · rename_i hsome
    rw [hpop] at hsome
    cases hsome

theorem loop_of_round {p : CheckedProblem} {g : Adjacency} {v : Nat} {rest : Worklist}
    {c c' : CheckedState} (hc : c.Flagged) (hpop : c.worklist.pop = some (v, rest))
    (hround : round p g v { c with worklist := rest } = .ok c') :
    loop p g c hc = loop p g c' (round_progress hround hc).1 := by
  rw [loop]
  split
  · rename_i hnone
    rw [hpop] at hnone
    cases hnone
  · rename_i hsome
    rw [hpop] at hsome
    cases hsome
    split
    · rename_i herr
      rw [hround] at herr
      cases herr
    · rename_i hok
      rw [hround] at hok
      cases hok
      rfl

end CheckedState

/-- Solves a problem over bit sets on a graph from a root, taking nodes off the worklist in the
given order. A root out of range evaluates nothing. -/
def CheckedProblem.solve (p : CheckedProblem) (order : WorklistOrder) (g : Adjacency)
    (root : Nat) : Except Panic CheckedSolution := do
  let blank := Array.replicate g.count p.initial
  if g.count ≤ root then return ⟨blank, blank, 0, []⟩
  let entry ← writeAt blank root p.boundary
  let worklist ← Worklist.new order g root
  let evaluated := BitSet.new g.count
  let worklist ← worklist.push root
  match hqueued : Panic.check ((BitSet.new g.count).insert root) with
  | .error e => throw e
  | .ok (queued, _) =>
    let c ← CheckedState.loop p g ⟨entry, blank, evaluated, queued, worklist, 0, #[]⟩
      ⟨BitSet.spans_new g.count,
       BitSet.spans_insert (Panic.check_eq_ok.mp hqueued) (BitSet.spans_new g.count)⟩
    return ⟨c.entry, c.exit, c.iterations, c.events.toList⟩

/-- The set of indices below `n` that a bit set stands for: its members below `n`. -/
def BitSet.toIndexSet (n : Nat) (b : BitSet) : IndexSet n := IndexSet.ofList b.members

/-- A solution over bit sets, read back as sets of indices below `n` on `count` nodes. -/
def CheckedSolution.toSolution (n count : Nat) (r : CheckedSolution) : Solution (IndexSet n) count :=
  ⟨Vector.ofFn fun v => (r.entry.getD v (BitSet.new n)).toIndexSet n,
   Vector.ofFn fun v => (r.exit.getD v (BitSet.new n)).toIndexSet n, r.iterations, r.events⟩

end ReachingDefs
