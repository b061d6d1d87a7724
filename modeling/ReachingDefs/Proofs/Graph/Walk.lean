import Mathlib.Logic.Relation
import ReachingDefs.Graph.Traversal

/-!
# Walks in an adjacency

A walk moves from a node to one of its successors that lies in range; a successor at or
beyond the node count is never a move. A node reaches another when a chain of such moves,
possibly empty, leads from the one to the other.

## Main definitions

* `Adjacency.Step`: one move along an in-range successor
* `Adjacency.Reaches`: the reflexive and transitive closure of `Step`
* `Adjacency.ReachesAvoiding`: reaching along a walk that leaves no node of a given set
* `Adjacency.Dominates`: every walk from the root to a node passes through another

## Main results

* `Adjacency.Reaches.lt_count`: from a node in range, every reached node is in range
* `Adjacency.Reaches.mem_of_closed`: a set that holds the start and is closed under moves
  holds every reached node
* `Adjacency.dominates_of_entry`: the head of a region entered only through it dominates it
-/

namespace ReachingDefs

namespace Adjacency

variable (g : Adjacency)

/-- One move of a walk: `b` is a successor of `a` and lies in range. -/
def Step (a b : Nat) : Prop := b ∈ g.next a ∧ b < g.count

/-- `b` is reachable from `a` by a walk of zero or more moves. -/
def Reaches (a : Nat) : Nat → Prop := Relation.ReflTransGen g.Step a

variable {g}

theorem Reaches.refl (a : Nat) : g.Reaches a a := Relation.ReflTransGen.refl

theorem Reaches.tail {a b c : Nat} (hab : g.Reaches a b) (hbc : g.Step b c) : g.Reaches a c :=
  Relation.ReflTransGen.tail hab hbc

/-- Every node reached from a node in range is in range: a move always lands in range. -/
theorem Reaches.lt_count {a b : Nat} (ha : a < g.count) (h : g.Reaches a b) : b < g.count := by
  induction h with
  | refl => exact ha
  | tail _ hstep _ => exact hstep.2

/-- A set that holds the start of a walk and every move out of it holds the walk's end. -/
theorem Reaches.mem_of_closed {S : Nat → Prop} {a b : Nat} (start : S a)
    (closed : ∀ u v, S u → g.Step u v → S v) (h : g.Reaches a b) : S b := by
  induction h with
  | refl => exact start
  | tail _ hstep ih => exact closed _ _ ih hstep

/-- `b` is reachable from `a` by a walk whose every node before the last lies outside `S`. -/
def ReachesAvoiding (S : Nat → Prop) (a : Nat) : Nat → Prop :=
  Relation.ReflTransGen (fun u v => g.Step u v ∧ ¬S u) a

theorem ReachesAvoiding.refl (S : Nat → Prop) (a : Nat) : g.ReachesAvoiding S a a :=
  Relation.ReflTransGen.refl

theorem ReachesAvoiding.tail {S : Nat → Prop} {a b c : Nat} (hab : g.ReachesAvoiding S a b)
    (hbc : g.Step b c) (hb : ¬S b) : g.ReachesAvoiding S a c :=
  Relation.ReflTransGen.tail hab ⟨hbc, hb⟩

/-- A walk that avoids a set avoids every smaller set. -/
theorem ReachesAvoiding.mono {S T : Nat → Prop} (hTS : ∀ u, T u → S u) {a b : Nat}
    (h : g.ReachesAvoiding S a b) : g.ReachesAvoiding T a b := by
  induction h with
  | refl => exact ReachesAvoiding.refl T a
  | tail _ hstep ih => exact ih.tail hstep.1 fun hT => hstep.2 (hTS _ hT)

/-- A set that holds the start of a walk and every move out of it from outside `S` holds the
end of every walk that avoids `S`. -/
theorem ReachesAvoiding.mem_of_closed {S T : Nat → Prop} {a b : Nat} (start : T a)
    (closed : ∀ u v, T u → g.Step u v → ¬S u → T v) (h : g.ReachesAvoiding S a b) :
    T b := by
  induction h with
  | refl => exact start
  | tail _ hstep ih => exact closed _ _ ih hstep.1 hstep.2

/-- `d` dominates `v` from `root`: every walk from the root to `v` passes through `d`. A walk
that avoids `d` before its end can only end at `d`. -/
def Dominates (root d v : Nat) : Prop := g.ReachesAvoiding (· = d) root v → v = d

/-- **A region entered only through its head is dominated by it.** If every move into the nodes
`h + 1, …, h + L - 1` comes from `h, …, h + L - 1`, and the root lies outside them, then `h`
dominates every node from `h` to `h + L - 1`. -/
theorem dominates_of_entry {root h L v : Nat} (hroot : ¬(h < root ∧ root < h + L))
    (hentry : ∀ u w, g.Step u w → h < w → w < h + L → h ≤ u ∧ u < h + L)
    (hv : h ≤ v ∧ v < h + L) : g.Dominates root h v := by
  intro hwalk
  -- a walk that avoids the head never gets inside the region
  have houtside : ¬(h < v ∧ v < h + L) := by
    refine ReachesAvoiding.mem_of_closed (T := fun u => ¬(h < u ∧ u < h + L)) hroot ?_ hwalk
    intro u w hu hstep hne hw
    have := hentry u w hstep hw.1 hw.2
    omega
  omega

end Adjacency

end ReachingDefs
