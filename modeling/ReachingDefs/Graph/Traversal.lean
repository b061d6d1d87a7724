import ReachingDefs.Data.IndexSet
import ReachingDefs.Graph.Digraph

/-!
# Depth-first traversals

Every traversal starts at one root and sees only what the root reaches along successors
that lie in range. There are two searches:

* `Adjacency.dfs` marks a node when it is pushed onto its stack, and pushes the successors of
  a node in reverse so that the first successor comes off first;
* `Adjacency.postorder` marks a node when it is entered and lists it when everything entered
  from it is finished, which is the postorder of the recursive search that enters each
  node's successors in order and skips those already entered.

Both stop because each step either marks a new node or takes an entry off the stack: the
pair (unmarked nodes, stack length) falls in lexicographic order.
-/

namespace ReachingDefs

/-- Successor lists over the nodes `0, …, count - 1`. Successors at or beyond `count` are
ignored by every traversal, and so are roots. -/
structure Adjacency where
  count : Nat
  /-- The successors of each node, in order. -/
  next : Nat → List Nat

namespace Adjacency

variable (g : Adjacency)

/-- Pushes each listed node that is in range and not yet marked, marking it as it is
pushed; the last one pushed ends on top. -/
def pushFresh : IndexSet g.count → List (Fin g.count) → List Nat →
    IndexSet g.count × List (Fin g.count)
  | seen, stack, [] => (seen, stack)
  | seen, stack, s :: rest =>
    if h : s < g.count then
      if seen.mem s then pushFresh seen stack rest
      else pushFresh (seen.insert s) (⟨s, h⟩ :: stack) rest
    else pushFresh seen stack rest

theorem pushFresh_progress (seen : IndexSet g.count) (stack : List (Fin g.count))
    (l : List Nat) :
    seen.card ≤ (g.pushFresh seen stack l).1.card ∧
      (seen.card < (g.pushFresh seen stack l).1.card ∨
        g.pushFresh seen stack l = (seen, stack)) := by
  induction l generalizing seen stack with
  | nil => simp [pushFresh]
  | cons s rest ih =>
    unfold pushFresh
    split
    · rename_i h
      split
      · exact ih seen stack
      · rename_i hs
        have hlt := IndexSet.card_lt_card_insert h (by simpa using hs)
        have := (ih (seen.insert s) (⟨s, h⟩ :: stack)).1
        exact ⟨by omega, Or.inl (by omega)⟩
    · exact ih seen stack

/-- The marking search: pops a node, lists it, and pushes its fresh successors. -/
def walk (seen : IndexSet g.count) (stack : List (Fin g.count)) (order : Array Nat) :
    IndexSet g.count × Array Nat :=
  match stack with
  | [] => (seen, order)
  | v :: rest =>
    let pushed := g.pushFresh seen rest (g.next v).reverse
    walk pushed.1 pushed.2 (order.push v)
termination_by (g.count - seen.card, stack.length)
decreasing_by
  simp only [List.unattach_reverse, List.unattach_attach]
  rcases g.pushFresh_progress seen rest (g.next v).reverse with ⟨_, hlt | heq⟩
  · have := IndexSet.card_le (g.pushFresh seen rest (g.next v).reverse).1
    exact Prod.Lex.left _ _ (by omega)
  · rw [heq]
    exact Prod.Lex.right _ (by simp)

/-- The marks and stack a search starts from: the root alone, if it is in range. -/
def start (root : Nat) : IndexSet g.count × List (Fin g.count) :=
  if h : root < g.count then (IndexSet.empty.insert root, [⟨root, h⟩]) else (.empty, [])

/-- The nodes in the order the marking search lists them. -/
def dfs (root : Nat) : List Nat :=
  (g.walk (g.start root).1 (g.start root).2 #[]).2.toList

/-- The nodes the root reaches, itself included; empty for a root out of range. -/
def reachable (root : Nat) : IndexSet g.count :=
  (g.walk (g.start root).1 (g.start root).2 #[]).1

/-- An entry of the postorder search's stack. -/
inductive Visit (count : Nat) where
  /-- Enter a node, unless it was entered before. -/
  | enter (v : Fin count)
  /-- List a node whose successors are finished. -/
  | leave (v : Nat)

/-- The successors to enter from a node: those in range and not yet entered, in order. -/
def freshVisits (seen : IndexSet g.count) (l : List Nat) : List (Visit g.count) :=
  l.filterMap fun s =>
    if h : s < g.count then (if seen.mem s then none else some (.enter ⟨s, h⟩)) else none

/-- The entering search: entering a node marks it and stacks its fresh successors above the
step that lists it. -/
def postWalk (seen : IndexSet g.count) (stack : List (Visit g.count)) (order : Array Nat) :
    Array Nat :=
  match stack with
  | [] => order
  | .leave v :: rest => postWalk seen rest (order.push v)
  | .enter v :: rest =>
    if seen.mem v then postWalk seen rest order
    else
      let marked := seen.insert v
      postWalk marked (g.freshVisits marked (g.next v) ++ .leave v :: rest) order
termination_by (g.count - seen.card, stack.length)
decreasing_by
  · exact Prod.Lex.right _ (by simp)
  · exact Prod.Lex.right _ (by simp)
  · rename_i hv
    have hlt := IndexSet.card_lt_card_insert v.isLt (by simpa using hv)
    have := IndexSet.card_le (seen.insert v)
    exact Prod.Lex.left _ _ (by omega)

/-- The nodes the root reaches, each listed once all nodes entered from it are listed. -/
def postorder (root : Nat) : List Nat :=
  if h : root < g.count then (g.postWalk .empty [.enter ⟨root, h⟩] #[]).toList else []

/-- The postorder, last node first. -/
def reversePostorder (root : Nat) : List Nat := (g.postorder root).reverse

end Adjacency

/-- The successor view of a graph, over all its nodes. -/
def Digraph.adjacency {N E : Type} (g : Digraph N E) : Adjacency := ⟨g.nodeCount, g.successors⟩

end ReachingDefs
