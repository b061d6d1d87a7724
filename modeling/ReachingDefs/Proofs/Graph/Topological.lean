import ReachingDefs.Proofs.Graph.Search

/-!
# Reverse postorder, retreating edges and cycles

The entering search lists a node once the nodes entered from it are listed. A successor of a
node that is marked but not yet listed when the node is listed is still on the stack below it,
so it reaches the node. Every edge that does not go forward in reverse postorder therefore
closes a cycle, and where the region the root reaches has no cycle, reverse postorder puts every
node before each of its successors.

The search keeps this in `Adjacency.Retreats`: the invariant of `PostInv`, the fact that each
node still to be listed reaches the node of every stack entry above its leave entry (`Nested`),
and every successor of a listed node listed before it or reaching it.

## Main definitions

* `Adjacency.Nested`: the nodes still to be listed reach the entries above them
* `Adjacency.Retreats`: what the entering search keeps about the successors of listed nodes

## Main results

* `Adjacency.acyclic_of_forward`: a region whose moves go to larger nodes has no cycle
* `Adjacency.postorder_retreat`: a successor of a listed node is listed before it or reaches it
* `Adjacency.reversePostorder_retreating`: the root comes first in reverse postorder, an edge that
  does not go forward closes a cycle, and without cycles the order is topological
* `Adjacency.reversePostorder_pair_sublist`: in a region without cycles reverse postorder puts a
  node before its successors
-/

namespace ReachingDefs

namespace Adjacency

/-- The node a visit enters or lists. -/
def Visit.node {n : Nat} : Visit n → Nat
  | .enter v => v.val
  | .leave v => v

variable (g : Adjacency) in
/-- Each node the stack is still to list reaches, in one move or more, the node of every entry
above its leave entry. -/
def Nested : List (Visit g.count) → Prop
  | [] => True
  | x :: rest => (∀ a ∈ Visit.leaves rest, Relation.TransGen g.Step a x.node) ∧ Nested rest

variable {g : Adjacency}

/-- Entries that enter successors of the stack's pending nodes keep the stack nested. -/
theorem Nested.freshVisits {m : IndexSet g.count} {l : List Nat} {S : List (Visit g.count)}
    (hS : g.Nested S)
    (hnew : ∀ s ∈ l, s < g.count → ∀ a ∈ Visit.leaves S, Relation.TransGen g.Step a s) :
    g.Nested (g.freshVisits m l ++ S) := by
  induction l with
  | nil => exact hS
  | cons x rest ih =>
    have hrest := ih fun s hs => hnew s (List.mem_cons_of_mem x hs)
    rw [freshVisits_cons, List.append_assoc]
    by_cases hx : x < g.count
    · cases hm : m.mem x
      · simp only [hx, dite_true, Bool.false_eq_true, if_false, List.singleton_append]
        refine ⟨fun a ha => ?_, hrest⟩
        rw [leaves_freshVisits_append] at ha
        exact hnew x List.mem_cons_self hx a ha
      · simpa [hx] using hrest
    · simpa [hx] using hrest

/-- Entering a node stacks entries for its successors, all reached from the node. -/
theorem Nested.enter {v : Fin g.count} {rest : List (Visit g.count)} (m : IndexSet g.count)
    (h : g.Nested (.enter v :: rest)) :
    g.Nested (g.freshVisits m (g.next v) ++ .leave v :: rest) := by
  refine Nested.freshVisits h fun s hs hlt a ha => ?_
  rcases List.mem_cons.mp ha with rfl | ha
  · exact Relation.TransGen.single ⟨hs, hlt⟩
  · exact (h.1 a ha).tail ⟨hs, hlt⟩

/-- A region where every move out of a reached node goes to a larger node has no cycle. -/
theorem acyclic_of_forward {root : Nat} (hfwd : ∀ a b, g.Reaches root a → g.Step a b → a < b) :
    ∀ v, g.Reaches root v → ¬Relation.TransGen g.Step v v := by
  -- along a walk out of the reached region the nodes only grow
  have hgrow : ∀ a b, Relation.TransGen g.Step a b → g.Reaches root a → a < b := by
    intro a b h
    induction h with
    | single hab => exact fun ha => hfwd _ _ ha hab
    | tail hab hbc ih =>
      exact fun ha =>
        Nat.lt_trans (ih ha) (hfwd _ _ (Relation.ReflTransGen.trans ha hab.to_reflTransGen) hbc)
  exact fun v hv hcycle => Nat.lt_irrefl v (hgrow v v hcycle hv)

variable (g) in
/-- What the entering search keeps about listed nodes: the invariant of the search, a nested
stack, and every successor of a listed node either listed before it or reaching it. -/
structure Retreats (root : Nat) (seen : IndexSet g.count) (stack : List (Visit g.count))
    (order : Array Nat) : Prop where
  post : g.PostInv root seen stack order
  nested : g.Nested stack
  retreat : ∀ u ∈ order.toList, ∀ w, g.Step u w → List.Sublist [w, u] order.toList ∨ g.Reaches w u

section Listing

variable {root : Nat} {seen : IndexSet g.count} {rest : List (Visit g.count)} {order : Array Nat}

/-- Listing a node keeps the invariant: each of its successors is listed already, is the node
itself, or is still on the stack below it and so reaches it. -/
theorem Retreats.leave {v : Nat} (h : g.Retreats root seen (.leave v :: rest) order) :
    g.Retreats root seen rest (order.push v) := by
  have hpost := h.post.leave
  refine ⟨hpost, h.nested.2, fun u hu w hstep => ?_⟩
  rw [Array.toList_push] at hu ⊢
  rcases List.mem_append.mp hu with hu | hu
  · exact (h.retreat u hu w hstep).imp_left fun hs => hs.trans (List.sublist_append_left _ _)
  obtain rfl := List.mem_singleton.mp hu
  have hmarked : seen.mem u = true := (h.post.marked u).mpr (Or.inr List.mem_cons_self)
  have hnot : u ∉ Visit.leaves rest := by
    have hnd := h.post.nodup
    simp only [Visit.leaves_leave, List.nodup_middle, List.nodup_cons] at hnd
    exact fun hin => hnd.1 (List.mem_append_right _ hin)
  have hw := (hpost.marked w).mp (hpost.closed u hmarked hnot w hstep)
  rw [Array.toList_push] at hw
  rcases hw with hw | hw
  · rcases List.mem_append.mp hw with hw | hw
    · exact Or.inl (List.Sublist.append (List.singleton_sublist.mpr hw) (List.Sublist.refl [u]))
    · -- a move from the node to itself
      obtain rfl := List.mem_singleton.mp hw
      exact Or.inr (Reaches.refl w)
  · -- a successor still to be listed lies below and reaches the node
    exact Or.inr (h.nested.1 w hw).to_reflTransGen

theorem Retreats.skip {v : Fin g.count} (hv : seen.mem v = true)
    (h : g.Retreats root seen (.enter v :: rest) order) : g.Retreats root seen rest order :=
  ⟨h.post.skip hv, h.nested.2, h.retreat⟩

theorem Retreats.enter {v : Fin g.count} (hv : seen.mem v = false)
    (h : g.Retreats root seen (.enter v :: rest) order) :
    g.Retreats root (seen.insert v)
      (g.freshVisits (seen.insert v) (g.next v) ++ .leave v :: rest) order :=
  ⟨h.post.enter hv, h.nested.enter _, h.retreat⟩

/-- A whole run keeps the invariant. -/
theorem Retreats.postWalk {stack : List (Visit g.count)} (h : g.Retreats root seen stack order) :
    ∃ seen' : IndexSet g.count, g.Retreats root seen' [] (g.postWalk seen stack order) := by
  fun_induction g.postWalk seen stack order with
  | case1 seen order => exact ⟨seen, h⟩
  | case2 seen order v rest ih => exact ih h.leave
  | case3 seen order v rest hv ih => exact ih (h.skip hv)
  | case4 seen order v rest hv marked ih => exact ih (h.enter (by simpa using hv))

/-- **A successor of a listed node is listed before it, or reaches it.** -/
theorem postorder_retreat {u w : Nat} (hu : u ∈ g.postorder root) (hstep : g.Step u w) :
    List.Sublist [w, u] (g.postorder root) ∨ g.Reaches w u := by
  have hroot : root < g.count := ((mem_postorder_iff root u).mp hu).1
  have hstart : g.Retreats root (IndexSet.empty.insert root)
      (g.freshVisits (IndexSet.empty.insert root) (g.next root) ++ [.leave root]) #[] := by
    refine ⟨postInv_root hroot, ?_, by simp⟩
    exact Nested.enter (v := ⟨root, hroot⟩) _ ⟨by simp, trivial⟩
  obtain ⟨seen, hlisted⟩ := hstart.postWalk
  have hpost : g.postorder root = (g.postWalk (IndexSet.empty.insert root)
      (g.freshVisits (IndexSet.empty.insert root) (g.next root) ++ [.leave root]) #[]).toList := by
    rw [postorder, dif_pos hroot, postWalk_root hroot]
  rw [hpost] at hu ⊢
  exact hlisted.retreat u hu w hstep

variable (hacyclic : ∀ v, g.Reaches root v → ¬Relation.TransGen g.Step v v)
include hacyclic

/-- **In a region without cycles, the postorder lists each successor of a node before the
node.** -/
theorem postorder_pair_sublist {u w : Nat} (hu : u ∈ g.postorder root) (hstep : g.Step u w) :
    List.Sublist [w, u] (g.postorder root) := by
  refine (postorder_retreat hu hstep).resolve_right fun hback => ?_
  -- a successor that reaches the node closes a cycle through it
  exact hacyclic u ((mem_postorder_iff root u).mp hu).2 (Relation.TransGen.head' hstep hback)

/-- **In a region without cycles, reverse postorder puts each node before its successors.** -/
theorem reversePostorder_pair_sublist {u w : Nat} (hu : g.Reaches root u) (hroot : root < g.count)
    (hstep : g.Step u w) : List.Sublist [u, w] (g.reversePostorder root) := by
  have hmem : u ∈ g.postorder root := (mem_postorder_iff root u).mpr ⟨hroot, hu⟩
  simpa [reversePostorder] using
    List.reverse_sublist.mpr (postorder_pair_sublist hacyclic hmem hstep)

end Listing

/-- In a list without repeats, two entries listed in order have their positions in order. -/
theorem idxOf_lt_of_pair_sublist {l : List Nat} (hnd : l.Nodup) {a b : Nat}
    (h : List.Sublist [a, b] l) : l.idxOf a < l.idxOf b := by
  have hpairwise : l.Pairwise fun x y => l.idxOf x < l.idxOf y :=
    List.pairwise_iff_getElem.mpr fun i j hi hj hij => by
      rw [hnd.idxOf_getElem, hnd.idxOf_getElem]
      exact hij
  simpa using hpairwise.sublist h

/-- **Every edge that does not go forward in reverse postorder closes a cycle.** Ranking each
node by its position in the reverse postorder from a root in range, the root ranks first; a
move between reached nodes whose target ranks no later than its source has a target that reaches
the source; so where the reached region has no cycle, every move goes to a later node and the
reverse postorder is a topological order of the region. -/
theorem reversePostorder_retreating {root : Nat} (hroot : root < g.count) :
    (g.reversePostorder root).idxOf root = 0 ∧
    (∀ u v, g.Reaches root u → g.Step u v →
      (g.reversePostorder root).idxOf v ≤ (g.reversePostorder root).idxOf u → g.Reaches v u) ∧
    ((∀ v, g.Reaches root v → ¬Relation.TransGen g.Step v v) →
      ∀ u v, g.Reaches root u → g.Step u v →
        (g.reversePostorder root).idxOf u < (g.reversePostorder root).idxOf v) := by
  have hnd := reversePostorder_nodup (g := g) root
  have hfirst : (g.reversePostorder root).idxOf root = 0 := by
    obtain ⟨rest, hrest⟩ := List.head?_eq_some_iff.mp (reversePostorder_head? hroot)
    rw [hrest, List.idxOf_cons_self]
  refine ⟨hfirst, fun u v hu hstep hle => ?_, fun hacyclic u v hu hstep =>
    idxOf_lt_of_pair_sublist hnd (reversePostorder_pair_sublist hacyclic hu hroot hstep)⟩
  rcases postorder_retreat ((mem_postorder_iff root u).mpr ⟨hroot, hu⟩) hstep with hpair | hback
  · -- listed before the source in postorder, the target would come after it in reverse
    have hforward : List.Sublist [u, v] (g.reversePostorder root) := by
      simpa [reversePostorder] using List.reverse_sublist.mpr hpair
    exact absurd hle (Nat.not_le.mpr (idxOf_lt_of_pair_sublist hnd hforward))
  · exact hback

/-- The loop with an exit of the traversal tests: `0 → 1 → 2 → 1`, `1 → 3`, and node `4` alone.
The move `2 → 1` goes back in reverse postorder, and `1` reaches `2`. -/
theorem reversePostorder_retreating_loop :
    let g : Adjacency := ⟨5, fun v => if v = 0 then [1] else if v = 1 then [2, 3]
      else if v = 2 then [1] else []⟩
    0 < g.count ∧ (g.reversePostorder 0).idxOf 0 = 0 ∧
    (∀ u v, g.Reaches 0 u → g.Step u v →
      (g.reversePostorder 0).idxOf v ≤ (g.reversePostorder 0).idxOf u → g.Reaches v u) ∧
    ((∀ v, g.Reaches 0 v → ¬Relation.TransGen g.Step v v) →
      ∀ u v, g.Reaches 0 u → g.Step u v →
        (g.reversePostorder 0).idxOf u < (g.reversePostorder 0).idxOf v) := by
  intro g
  exact ⟨by decide, reversePostorder_retreating (by decide)⟩

end Adjacency

end ReachingDefs
