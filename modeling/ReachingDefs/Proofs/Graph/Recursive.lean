import ReachingDefs.Proofs.Graph.Search

/-!
# The postorder is that of the recursive depth-first search

The postorder traversal runs on an explicit stack: entering a node marks it and stacks its
successors that are in range and not yet marked, above an entry that lists the node. A node can
be stacked twice, once by each of two predecessors, and is marked only when entered, so the
stack is not a call stack. It still does exactly what the recursive depth-first search does: from
a node not yet visited, mark it, search from each of its successors in range in order, skipping
the visited ones, and list the node once they are done (`Adjacency.visit`).

The simulation is one functional induction over the recursion (`Adjacency.postWalk_visit`):
entering a node on top of any stack lists, before anything below it is touched, what the
recursive search from that node lists. A successor that was marked when it was stacked is
skipped by both, since marks are never taken off (`Adjacency.visit_grows`).

## Main definitions

* `Adjacency.visit`, `Adjacency.visitAll`: the recursive depth-first search

## Main results

* `Adjacency.postWalk_visit`: the stack-based search runs the recursive one
* `Adjacency.mem_dfs_iff`: the marking search lists the nodes it marks
* `Adjacency.postorder_recursive`: the postorder is the recursive search's, lists each node the
  root reaches once, and agrees with the marking search
-/

namespace ReachingDefs

namespace Adjacency

/-- A step that keeps or adds marks and shortens the list goes down in the order that ends the
recursive search. -/
theorem lex_of_card_le {n : Nat} {s t : IndexSet n} {a b : Nat} (hst : s.card ≤ t.card)
    (hab : a < b) : Prod.Lex (· < ·) (· < ·) (n - t.card, a) (n - s.card, b) := by
  rcases Nat.lt_or_eq_of_le (Nat.sub_le_sub_left hst n) with hlt | heq
  · exact Prod.Lex.left _ _ hlt
  · rw [heq]
    exact Prod.Lex.right _ hab

variable (g : Adjacency)

mutual

/-- The recursive depth-first search from `v`, given the nodes visited so far: a node visited
before is skipped; any other is marked, the search goes on from each of its successors in range,
in order, and the node is listed once they are done. Returns the marks and the nodes listed. -/
def visit (seen : IndexSet g.count) (v : Fin g.count) : IndexSet g.count × List Nat :=
  if seen.mem v then (seen, [])
  else
    let r := visitAll (seen.insert v) (g.next v)
    (r.1, r.2 ++ [v.val])
termination_by (g.count - seen.card, 0)
decreasing_by
  rename_i hv
  have := IndexSet.card_lt_card_insert v.isLt (by simpa using hv)
  have := IndexSet.card_le (seen.insert v)
  exact Prod.Lex.left _ _ (by omega)

/-- The recursive search from each node of a list in turn, skipping those out of range. -/
def visitAll (seen : IndexSet g.count) : List Nat → IndexSet g.count × List Nat
  | [] => (seen, [])
  | s :: rest =>
    if h : s < g.count then
      let r := visit seen ⟨s, h⟩
      -- a search only adds marks, so this union is `r.1`; written so, the marks visibly never
      -- shrink, which is what ends the recursion
      let r' := visitAll (seen.union r.1) rest
      (r'.1, r.2 ++ r'.2)
    else visitAll seen rest
termination_by l => (g.count - seen.card, l.length)
decreasing_by
  · exact Prod.Lex.right _ (by simp)
  · exact lex_of_card_le (IndexSet.card_le_card_union _ _) (by simp)
  · exact Prod.Lex.right _ (by simp)

end

variable {g}

/-! ## The recursive search only adds marks -/

theorem visit_of_mem {seen : IndexSet g.count} {v : Fin g.count} (hv : seen.mem v = true) :
    g.visit seen v = (seen, []) := by
  rw [visit, if_pos hv]

theorem visit_of_not_mem {seen : IndexSet g.count} {v : Fin g.count} (hv : seen.mem v = false) :
    g.visit seen v = ((g.visitAll (seen.insert v) (g.next v)).1,
      (g.visitAll (seen.insert v) (g.next v)).2 ++ [v.val]) := by
  rw [visit, if_neg (by simp [hv])]

@[simp] theorem visitAll_nil (seen : IndexSet g.count) : g.visitAll seen [] = (seen, []) := by
  rw [visitAll]

theorem visitAll_cons_of_ge {seen : IndexSet g.count} {s : Nat} (rest : List Nat)
    (hs : ¬s < g.count) : g.visitAll seen (s :: rest) = g.visitAll seen rest := by
  rw [visitAll, dif_neg hs]

theorem visitAll_cons_union {seen : IndexSet g.count} {s : Nat} (rest : List Nat)
    (hs : s < g.count) :
    g.visitAll seen (s :: rest) =
      ((g.visitAll (seen.union (g.visit seen ⟨s, hs⟩).1) rest).1,
        (g.visit seen ⟨s, hs⟩).2 ++ (g.visitAll (seen.union (g.visit seen ⟨s, hs⟩).1) rest).2) := by
  rw [visitAll, dif_pos hs]

/-- **The recursive search never takes a mark off.** -/
theorem visit_grows :
    (∀ (seen : IndexSet g.count) (v : Fin g.count) (i : Nat),
      seen.mem i = true → (g.visit seen v).1.mem i = true) ∧
    (∀ (seen : IndexSet g.count) (l : List Nat) (i : Nat),
      seen.mem i = true → (g.visitAll seen l).1.mem i = true) := by
  apply visit.mutual_induct
  · intro seen v hv i hi
    rw [visit_of_mem hv]
    exact hi
  · intro seen v hv ih i hi
    rw [visit_of_not_mem (by simpa using hv)]
    exact ih i (by simp [hi])
  · intro seen i hi
    simpa using hi
  · intro seen s rest hs r ih₁ ih₂ i hi
    rw [visitAll_cons_union rest hs]
    exact ih₂ i (by simp [hi])
  · intro seen s rest hs ih i hi
    rw [visitAll_cons_of_ge rest hs]
    exact ih i hi

theorem union_visit (seen : IndexSet g.count) (v : Fin g.count) :
    seen.union (g.visit seen v).1 = (g.visit seen v).1 :=
  IndexSet.ext fun i => by
    cases hi : seen.mem i
    · simp [hi]
    · simp [hi, visit_grows.1 seen v i hi]

/-- The recursive search from a list's first node in range, then from the rest. -/
theorem visitAll_cons_of_lt {seen : IndexSet g.count} {s : Nat} (rest : List Nat)
    (hs : s < g.count) :
    g.visitAll seen (s :: rest) =
      ((g.visitAll (g.visit seen ⟨s, hs⟩).1 rest).1,
        (g.visit seen ⟨s, hs⟩).2 ++ (g.visitAll (g.visit seen ⟨s, hs⟩).1 rest).2) := by
  rw [visitAll_cons_union rest hs, union_visit]

/-! ## The entering search runs the recursion -/

/-- **The entering search runs the recursive search.** Entering `v` on top of a stack lists, before
anything below it is touched, what the recursive search from `v` lists, and leaves its marks.
Entering the fresh successors of a node, marked or not when they were stacked, does the same as
the recursive search from each of them in turn, provided the marks they were filtered by are
still held. -/
theorem postWalk_visit :
    (∀ (seen : IndexSet g.count) (v : Fin g.count) (rest : List (Visit g.count))
      (order : Array Nat),
      g.postWalk seen (.enter v :: rest) order =
        g.postWalk (g.visit seen v).1 rest (order ++ (g.visit seen v).2.toArray)) ∧
    (∀ (seen : IndexSet g.count) (l : List Nat) (m : IndexSet g.count)
      (rest : List (Visit g.count)) (order : Array Nat), (∀ i, m.mem i = true → seen.mem i = true) →
      g.postWalk seen (g.freshVisits m l ++ rest) order =
        g.postWalk (g.visitAll seen l).1 rest (order ++ (g.visitAll seen l).2.toArray)) := by
  apply visit.mutual_induct
  · -- entered before: skipped
    intro seen v hv rest order
    rw [visit_of_mem hv, postWalk, if_pos hv]
    simp
  · -- entered now: its successors are searched, then it is listed
    intro seen v hv ih rest order
    rw [visit_of_not_mem (by simpa using hv), postWalk, if_neg hv]
    rw [ih (seen.insert v) (.leave v :: rest) order (fun i hi => hi), postWalk]
    simp
  · intro seen m rest order _
    simp [freshVisits]
  · intro seen s rest hs r ih₁ ih₂ m rest' order hm
    -- the rest is searched with the marks the search from `s` leaves
    simp only [r, union_visit] at ih₂
    rw [freshVisits_cons, dif_pos hs, visitAll_cons_of_lt rest hs]
    cases hms : m.mem s
    · -- a successor fresh when stacked is entered
      rw [if_neg (by simp), List.singleton_append, List.cons_append, ih₁,
        ih₂ m rest' _ (fun i hi => visit_grows.1 seen _ i (hm i hi))]
      simp
    · -- a successor marked when stacked has no entry, and the recursion skips it too
      have hv := visit_of_mem (v := ⟨s, hs⟩) (hm s hms)
      rw [hv] at ih₂ ⊢
      simpa using ih₂ m rest' order hm
  · intro seen s rest hs ih m rest' order hm
    rw [freshVisits_cons, dif_neg hs, visitAll_cons_of_ge rest hs, List.nil_append]
    exact ih m rest' order hm

/-- The postorder from a root in range is what the recursive search from the root lists. -/
theorem postorder_eq_visit (root : Nat) :
    g.postorder root = if h : root < g.count then (g.visit .empty ⟨root, h⟩).2 else [] := by
  unfold postorder
  split
  · rw [postWalk_visit.1 .empty _ [] #[], postWalk]
    simp
  · rfl

/-! ## The marking search lists what it marks -/

/-- The marking search lists a node exactly when it marks it: a node is marked when it is
stacked and listed when it is popped, so at every step the marks are the nodes listed and the
nodes on the stack. -/
theorem walk_listed {seen : IndexSet g.count} {stack : List (Fin g.count)} {order : Array Nat}
    (h : ∀ u, seen.mem u = true ↔ u ∈ order.toList ∨ u ∈ stack.map Fin.val) (u : Nat) :
    (g.walk seen stack order).1.mem u = true ↔ u ∈ (g.walk seen stack order).2.toList := by
  fun_induction g.walk seen stack order with
  | case1 seen order => simpa using h u
  | case2 seen order v rest pushed ih =>
    have hpushed : pushed = g.pushFresh seen rest (g.next v).reverse := by
      simp only [pushed, List.unattach_reverse, List.unattach_attach]
    rw [hpushed] at ih
    obtain ⟨fresh, hstack, -, hnew⟩ := pushFresh_spec seen rest (g.next v).reverse
    refine ih fun w => ?_
    rw [hnew, h, hstack]
    simp only [List.map_cons, List.mem_cons, Array.toList_push, List.mem_append,
      List.map_append]
    tauto

/-- The marking search lists exactly the nodes it marks. -/
theorem mem_dfs_iff (root v : Nat) : v ∈ g.dfs root ↔ (g.reachable root).mem v = true := by
  unfold dfs reachable
  refine (walk_listed (fun u => ?_) v).symm
  unfold start
  split
  · rename_i hroot
    simp [eq_comm, hroot]
  · simp

/-! ## The postorder -/

/-- **The postorder is that of the recursive depth-first search.** From a root in range, the
postorder lists what the recursive search from the root lists: a node once the search from each
of its successors in range, in order and skipping the visited ones, is done; from a root out of
range it lists nothing. It lists every node the root reaches, each once; these are the nodes the
marking search marks and the nodes it lists; and the reverse postorder is the postorder reversed. -/
theorem postorder_recursive (root : Nat) :
    g.postorder root = (if h : root < g.count then (g.visit .empty ⟨root, h⟩).2 else []) ∧
      (g.postorder root).Nodup ∧
      (∀ v, v ∈ g.postorder root ↔ root < g.count ∧ g.Reaches root v) ∧
      (∀ v, v ∈ g.postorder root ↔ (g.reachable root).mem v = true) ∧
      (∀ v, v ∈ g.dfs root ↔ v ∈ g.postorder root) ∧
      g.reversePostorder root = (g.postorder root).reverse := by
  have hmarked : ∀ v, v ∈ g.postorder root ↔ (g.reachable root).mem v = true := fun v => by
    rw [mem_postorder_iff, mem_reachable_iff]
  exact ⟨postorder_eq_visit root, postorder_nodup root, mem_postorder_iff root, hmarked,
    fun v => by rw [mem_dfs_iff, hmarked], rfl⟩

end Adjacency

end ReachingDefs
