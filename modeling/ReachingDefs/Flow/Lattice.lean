import ReachingDefs.Data.IndexSet

/-!
# States of a dataflow problem

The solver joins states and asks whether a join changed anything. To know that it stops, it
also needs a rank on states that never falls under a join, rises whenever a join changes its
left side, and is bounded by a fixed height. Sets of indices below `n` are such states, with
union as join, the number of members as rank and `n` as height.
-/

namespace ReachingDefs

/-- A join on states, with a bounded rank that every changing join raises. -/
class FlowLattice (α : Type) where
  /-- The least state above both. -/
  join : α → α → α
  /-- How far up a state is. -/
  rank : α → Nat
  /-- No state is ranked above this. -/
  height : Nat
  rank_le_height : ∀ a, rank a ≤ height
  rank_le_join : ∀ a b, rank a ≤ rank (join a b)
  rank_lt_join : ∀ a b, join a b ≠ a → rank a < rank (join a b)

instance (n : Nat) : FlowLattice (IndexSet n) where
  join := IndexSet.union
  rank := IndexSet.card
  height := n
  rank_le_height := IndexSet.card_le
  rank_le_join := IndexSet.card_le_card_union
  rank_lt_join := fun _ _ h => IndexSet.card_lt_card_union h

@[simp] theorem IndexSet.join_eq_union {n : Nat} (s t : IndexSet n) :
    FlowLattice.join s t = s.union t := rfl

end ReachingDefs
