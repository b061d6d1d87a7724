import ReachingDefs.Graph.Traversal

/-!
# Worklists

A worklist holds the nodes that still have to be evaluated. The order decides which comes
off next: the most recently added (`lifo`), the earliest added (`fifo`), or the one that
comes first in reverse postorder from the root, ties and unranked nodes going by node number
(`reversePostorder`). Whatever the order, taking a node off leaves every other entry in
place and shortens the list by one; adding a node makes it an entry and lengthens the list
by one.
-/

namespace ReachingDefs

/-- Which node a worklist gives out next. -/
inductive WorklistOrder where
  /-- The node added last. -/
  | lifo
  /-- The node added first. -/
  | fifo
  /-- The node earliest in reverse postorder from the root. -/
  | reversePostorder
deriving DecidableEq, Repr, Inhabited

/-- The name of an order in reports. -/
def WorklistOrder.label : WorklistOrder → String
  | .lifo => "lifo"
  | .fifo => "fifo"
  | .reversePostorder => "reverse_postorder"

/-- The rank of a node the order does not list: the largest 64-bit word, so that it comes after
every listed node. -/
def unranked : Nat := 18446744073709551615

/-- Positions in a list of nodes; a node that is not listed is ranked `unranked`. -/
def rankTable (count : Nat) (order : List Nat) : Array Nat :=
  order.zipIdx.foldl (fun acc (v, i) => acc.setIfInBounds v i) (Array.replicate count unranked)

/-- The queue discipline of a solve: an order and, for `reversePostorder`, the rank of each
node. -/
structure Discipline where
  order : WorklistOrder
  /-- The rank of each node; only `reversePostorder` looks at it. -/
  rank : Nat → Nat

/-- The discipline for an order on a graph seen from a root. -/
def Discipline.ofOrder (order : WorklistOrder) (g : Adjacency) (root : Nat) : Discipline :=
  match order with
  | .reversePostorder =>
    let table := rankTable g.count (g.reversePostorder root)
    ⟨order, fun v => table.getD v unranked⟩
  | o => ⟨o, fun _ => 0⟩

namespace Discipline

variable {count : Nat}

/-- Adds a node to a worklist. -/
def push (d : Discipline) (v : Fin count) (items : List (Fin count)) : List (Fin count) :=
  match d.order with
  | .fifo => items ++ [v]
  | _ => v :: items

/-- Whether `a` comes off a ranked worklist before `b`. -/
def before (d : Discipline) (a b : Fin count) : Bool :=
  d.rank a < d.rank b || (d.rank a == d.rank b && a.val < b.val)

/-- The entry of a non-empty list that comes off first under the ranking. -/
def least (d : Discipline) (first : Fin count) (rest : List (Fin count)) : Fin count :=
  rest.foldl (fun best x => if d.before x best then x else best) first

/-- Takes the next node off a worklist, with what remains. -/
def pop (d : Discipline) : List (Fin count) → Option (Fin count × List (Fin count))
  | [] => none
  | v :: rest =>
    match d.order with
    | .reversePostorder =>
      let m := d.least v rest
      some (m, (v :: rest).erase m)
    | _ => some (v, rest)

theorem least_mem (d : Discipline) (first : Fin count) (rest : List (Fin count)) :
    d.least first rest ∈ first :: rest := by
  unfold least
  induction rest generalizing first with
  | nil => simp
  | cons x more ih =>
    simp only [List.foldl_cons]
    split
    · rcases List.mem_cons.mp (ih x) with h | h
      · rw [h]; exact List.mem_cons_of_mem _ List.mem_cons_self
      · exact List.mem_cons_of_mem _ (List.mem_cons_of_mem _ h)
    · rcases List.mem_cons.mp (ih first) with h | h
      · rw [h]; exact List.mem_cons_self
      · exact List.mem_cons_of_mem _ (List.mem_cons_of_mem _ h)

@[simp] theorem length_push (d : Discipline) (v : Fin count) (items : List (Fin count)) :
    (d.push v items).length = items.length + 1 := by
  unfold push; split <;> simp

@[simp] theorem mem_push (d : Discipline) (v u : Fin count) (items : List (Fin count)) :
    u ∈ d.push v items ↔ u = v ∨ u ∈ items := by
  unfold push; split <;> simp [or_comm]

/-- Taking a node off shortens the worklist by one and keeps every other entry. -/
theorem pop_spec (d : Discipline) {items rest : List (Fin count)} {v : Fin count}
    (h : d.pop items = some (v, rest)) :
    rest.length + 1 = items.length ∧ v ∈ items ∧ ∀ u ∈ items, u ≠ v → u ∈ rest := by
  cases items with
  | nil => simp [pop] at h
  | cons w more =>
    simp only [pop] at h
    split at h
    · simp only [Option.some.injEq, Prod.mk.injEq] at h
      obtain ⟨rfl, rfl⟩ := h
      have hm := d.least_mem w more
      refine ⟨?_, hm, fun u hu hne => (List.mem_erase_of_ne hne).mpr hu⟩
      rw [List.length_erase_of_mem hm]
      simp
    · simp only [Option.some.injEq, Prod.mk.injEq] at h
      obtain ⟨rfl, rfl⟩ := h
      refine ⟨rfl, List.mem_cons_self, fun u hu hne => ?_⟩
      rcases List.mem_cons.mp hu with rfl | h
      · exact absurd rfl hne
      · exact h

end Discipline

end ReachingDefs
