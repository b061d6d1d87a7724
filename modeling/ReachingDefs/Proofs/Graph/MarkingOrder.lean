import ReachingDefs.Proofs.Graph.Recursive

/-!
# The order of the marking search

The marking search marks a node when it stacks it, not when it pops it. Popping a node lists it
and stacks, first successor on top, those of its successors in range that are not marked yet,
marking them all at once. So it is not the recursive depth-first search, which goes from a node
to its first successor not yet visited: a successor stacked under a sibling is listed only after
everything the sibling reaches, even when the sibling reaches it too (`Adjacency.dfs_diamond`).

What the marking search does run is the recursion that, on visiting a node, marks all of its
fresh successors at once and then searches from each of them in turn (`Adjacency.markFrom`). As
for the entering search, the simulation is one functional induction over that recursion
(`Adjacency.walk_markFrom`): popping a node lists, before anything under it is popped, what the
recursion from that node lists.

## Main definitions

* `Adjacency.markFrom`, `Adjacency.markEach`: the recursion the marking search runs

## Main results

* `Adjacency.walk_markFrom`: the stack-based marking search runs the recursion
* `Adjacency.dfs_marking_preorder`: the marking search lists the recursion's order, every node
  the root reaches once, the root first
* `Adjacency.dfs_diamond`: a graph on which that order is not the recursive pre-order
-/

namespace ReachingDefs

namespace Adjacency

variable (g : Adjacency)

mutual

/-- The recursion the marking search runs, from a node marked already: list the node, mark at
once its successors in range that are not marked yet, and search from each of them in the order
they are stacked. Returns the marks and the nodes listed. -/
def markFrom (seen : IndexSet g.count) (v : Fin g.count) : IndexSet g.count × List Nat :=
  let pushed := g.pushFresh seen [] (g.next v).reverse
  let r := markEach pushed.1 pushed.2
  (r.1, v.val :: r.2)
termination_by (g.count - seen.card, 1)
decreasing_by
  simp only [List.unattach_reverse, List.unattach_attach]
  rcases g.pushFresh_progress seen [] (g.next v).reverse with ⟨_, hlt | heq⟩
  · have := IndexSet.card_le (g.pushFresh seen [] (g.next v).reverse).1
    exact Prod.Lex.left _ _ (by omega)
  · rw [heq]
    exact Prod.Lex.right _ (by simp)

/-- The marking recursion from each node of a list in turn. -/
def markEach (seen : IndexSet g.count) : List (Fin g.count) → IndexSet g.count × List Nat
  | [] => (seen, [])
  | c :: rest =>
    let r := markFrom seen c
    -- as in `visitAll`, the union is `r.1`, written so that the marks visibly never shrink
    let r' := markEach (seen.union r.1) rest
    (r'.1, r.2 ++ r'.2)
termination_by l => (g.count - seen.card, 2 * l.length)
decreasing_by
  · exact Prod.Lex.right _ (by simp; omega)
  · exact lex_of_card_le (IndexSet.card_le_card_union _ _) (by simp)

end

variable {g}

/-! ## Stacking fresh successors -/

/-- Stacking a list puts the nodes it newly marks on top of the stack, the same nodes whatever
the stack. -/
theorem pushFresh_append (seen : IndexSet g.count) (stack : List (Fin g.count)) (l : List Nat) :
    g.pushFresh seen stack l =
      ((g.pushFresh seen [] l).1, (g.pushFresh seen [] l).2 ++ stack) := by
  induction l generalizing seen stack with
  | nil => rfl
  | cons s rest ih =>
    unfold pushFresh
    by_cases hs : s < g.count
    · cases hm : seen.mem s
      · simp only [hs, dite_true, Bool.false_eq_true, if_false]
        rw [ih _ (⟨s, hs⟩ :: stack), ih _ [⟨s, hs⟩]]
        simp
      · simp only [hs, dite_true, if_true]
        exact ih seen stack
    · simp only [hs, dite_false]
      exact ih seen stack

/-- The nodes stacked by one pop are distinct and were not marked before. -/
theorem pushFresh_fresh (seen : IndexSet g.count) (l : List Nat) :
    ((g.pushFresh seen [] l).2.map Fin.val).Nodup ∧
      ∀ w ∈ (g.pushFresh seen [] l).2, seen.mem w = false := by
  induction l generalizing seen with
  | nil => simp [pushFresh]
  | cons s rest ih =>
    unfold pushFresh
    by_cases hs : s < g.count
    · cases hm : seen.mem s
      · simp only [hs, dite_true, Bool.false_eq_true, if_false]
        rw [pushFresh_append]
        obtain ⟨hnodup, hfresh⟩ := ih (seen.insert s)
        -- what the rest stacks is unmarked even once `s` is marked, so `s` is not among it
        have hne : ∀ w ∈ (g.pushFresh (seen.insert s) [] rest).2, w.val ≠ s := by
          intro w hw hws
          have := hfresh w hw
          simp [hws, hs] at this
        refine ⟨?_, ?_⟩
        · simp only [List.map_append, List.map_cons, List.map_nil]
          refine List.nodup_append.2 ⟨hnodup, List.nodup_singleton _, ?_⟩
          simp only [List.mem_map, List.mem_singleton]
          rintro _ ⟨w, hw, rfl⟩ b rfl
          exact hne w hw
        · intro w hw
          rcases List.mem_append.1 hw with hw | hw
          · have := hfresh w hw
            simp only [IndexSet.mem_insert, Bool.or_eq_false_iff] at this
            exact this.1
          · rw [List.mem_singleton] at hw
            subst hw
            exact hm
      · simp only [hs, dite_true, if_true]
        exact ih seen
    · simp only [hs, dite_false]
      exact ih seen

/-- One pop marks exactly the nodes it stacks. -/
theorem pushFresh_mem (seen : IndexSet g.count) (l : List Nat) (w : Nat) :
    (g.pushFresh seen [] l).1.mem w = true ↔
      seen.mem w = true ∨ w ∈ (g.pushFresh seen [] l).2.map Fin.val := by
  obtain ⟨fresh, hstack, -, hnew⟩ := pushFresh_spec seen [] l
  rw [List.append_nil] at hstack
  rw [hnew, hstack]

/-! ## The marking recursion only adds marks -/

theorem markFrom_eq (seen : IndexSet g.count) (v : Fin g.count) :
    g.markFrom seen v =
      ((g.markEach (g.pushFresh seen [] (g.next v).reverse).1
          (g.pushFresh seen [] (g.next v).reverse).2).1,
        v.val :: (g.markEach (g.pushFresh seen [] (g.next v).reverse).1
          (g.pushFresh seen [] (g.next v).reverse).2).2) := by
  rw [markFrom]

@[simp] theorem markEach_nil (seen : IndexSet g.count) : g.markEach seen [] = (seen, []) := by
  rw [markEach]

theorem markEach_cons_union (seen : IndexSet g.count) (c : Fin g.count)
    (rest : List (Fin g.count)) :
    g.markEach seen (c :: rest) =
      ((g.markEach (seen.union (g.markFrom seen c).1) rest).1,
        (g.markFrom seen c).2 ++ (g.markEach (seen.union (g.markFrom seen c).1) rest).2) := by
  rw [markEach]

/-- **The marking recursion never takes a mark off.** -/
theorem markFrom_grows :
    (∀ (seen : IndexSet g.count) (v : Fin g.count) (i : Nat),
      seen.mem i = true → (g.markFrom seen v).1.mem i = true) ∧
    (∀ (seen : IndexSet g.count) (l : List (Fin g.count)) (i : Nat),
      seen.mem i = true → (g.markEach seen l).1.mem i = true) := by
  apply markFrom.mutual_induct
  · intro seen v pushed ih i hi
    simp only [pushed, List.unattach_reverse, List.unattach_attach] at ih
    rw [markFrom_eq]
    exact ih i ((pushFresh_mem seen _ i).2 (Or.inl hi))
  · intro seen i hi
    simpa using hi
  · intro seen c rest r ih₁ ih₂ i hi
    rw [markEach_cons_union]
    exact ih₂ i (by simp [hi])

theorem union_markFrom (seen : IndexSet g.count) (v : Fin g.count) :
    seen.union (g.markFrom seen v).1 = (g.markFrom seen v).1 :=
  IndexSet.ext fun i => by
    cases hi : seen.mem i
    · simp [hi]
    · simp [hi, markFrom_grows.1 seen v i hi]

/-- The marking recursion from a list's first node, then from the rest. -/
theorem markEach_cons (seen : IndexSet g.count) (c : Fin g.count) (rest : List (Fin g.count)) :
    g.markEach seen (c :: rest) =
      ((g.markEach (g.markFrom seen c).1 rest).1,
        (g.markFrom seen c).2 ++ (g.markEach (g.markFrom seen c).1 rest).2) := by
  rw [markEach_cons_union, union_markFrom]

/-! ## The marking search runs the recursion -/

theorem walk_cons (seen : IndexSet g.count) (v : Fin g.count) (rest : List (Fin g.count))
    (order : Array Nat) :
    g.walk seen (v :: rest) order =
      g.walk (g.pushFresh seen rest (g.next v).reverse).1
        (g.pushFresh seen rest (g.next v).reverse).2 (order.push v) := by
  rw [walk]

/-- **The marking search runs the marking recursion.** Popping `v` from the top of a stack lists,
before anything under it is popped, what the recursion from `v` lists, and leaves its marks; the
nodes of a list stacked on top are popped as the recursion from each of them in turn. -/
theorem walk_markFrom :
    (∀ (seen : IndexSet g.count) (v : Fin g.count) (rest : List (Fin g.count))
      (order : Array Nat),
      g.walk seen (v :: rest) order =
        g.walk (g.markFrom seen v).1 rest (order ++ (g.markFrom seen v).2.toArray)) ∧
    (∀ (seen : IndexSet g.count) (l rest : List (Fin g.count)) (order : Array Nat),
      g.walk seen (l ++ rest) order =
        g.walk (g.markEach seen l).1 rest (order ++ (g.markEach seen l).2.toArray)) := by
  apply markFrom.mutual_induct
  · -- the pop stacks the fresh successors above the rest, which the recursion then searches
    intro seen v pushed ih rest order
    simp only [pushed, List.unattach_reverse, List.unattach_attach] at ih
    rw [walk_cons, pushFresh_append, ih, markFrom_eq]
    simp
  · intro seen rest order
    simp
  · intro seen c l r ih₁ ih₂ rest order
    simp only [r, union_markFrom] at ih₂
    rw [List.cons_append, ih₁, ih₂, markEach_cons]
    simp

/-- The marking search from a root in range lists what the marking recursion from the root
lists. -/
theorem dfs_eq_markFrom (root : Nat) :
    g.dfs root = if h : root < g.count then
      (g.markFrom (IndexSet.empty.insert root) ⟨root, h⟩).2 else [] := by
  unfold dfs start
  split
  · rw [walk_markFrom.1 _ _ [] #[], walk]
    simp
  · rw [walk]

/-! ## Each node once -/

/-- What the marking search keeps: the marks are the nodes listed and the nodes stacked, and no
node is among them twice. -/
structure MarkedOnce (seen : IndexSet g.count) (stack : List (Fin g.count)) (order : Array Nat) :
    Prop where
  marks : ∀ u, seen.mem u = true ↔ u ∈ order.toList ∨ u ∈ stack.map Fin.val
  nodup : (order.toList ++ stack.map Fin.val).Nodup

/-- One pop keeps the marks split, each node once, between the listed and the stacked: the
popped node moves to the list, and the nodes it stacks were marked nowhere. -/
theorem MarkedOnce.pop {seen : IndexSet g.count} {v : Fin g.count} {rest : List (Fin g.count)}
    {order : Array Nat} (h : g.MarkedOnce seen (v :: rest) order) :
    g.MarkedOnce (g.pushFresh seen rest (g.next v).reverse).1
      (g.pushFresh seen rest (g.next v).reverse).2 (order.push v) := by
  rw [pushFresh_append]
  obtain ⟨hnodup, hfresh⟩ := pushFresh_fresh seen (g.next v).reverse
  set fresh := (g.pushFresh seen [] (g.next v).reverse).2
  constructor
  · intro u
    rw [pushFresh_mem, h.marks]
    simp only [Array.toList_push, List.map_append, List.map_cons, List.mem_append, List.mem_cons]
    tauto
  · have hdisj : ∀ u ∈ fresh.map Fin.val, u ∉ order.toList ++ (v :: rest).map Fin.val := by
      intro u hu hmem
      obtain ⟨w, hw, rfl⟩ := List.mem_map.1 hu
      have hmarked := (h.marks w).2 (List.mem_append.1 hmem)
      rw [hfresh w hw] at hmarked
      contradiction
    have hperm : List.Perm ((order.push v).toList ++ (fresh ++ rest).map Fin.val)
        (fresh.map Fin.val ++ (order.toList ++ (v :: rest).map Fin.val)) := by
      simp only [Array.toList_push, List.map_append, List.map_cons]
      rw [List.perm_iff_count]
      intro a
      simp only [List.count_append, List.count_cons, List.count_nil]
      omega
    exact hperm.nodup_iff.2 (List.nodup_append.2
      ⟨hnodup, h.nodup, fun a ha b hb hab => hdisj a ha (hab ▸ hb)⟩)

theorem MarkedOnce.walk {seen : IndexSet g.count} {stack : List (Fin g.count)}
    {order : Array Nat} (h : g.MarkedOnce seen stack order) :
    (g.walk seen stack order).2.toList.Nodup := by
  fun_induction g.walk seen stack order with
  | case1 seen order => simpa using h.nodup
  | case2 seen order v rest pushed ih =>
    have hpushed : pushed = g.pushFresh seen rest (g.next v).reverse := by
      simp only [pushed, List.unattach_reverse, List.unattach_attach]
    rw [hpushed] at ih
    exact ih h.pop

/-- The marking search lists no node twice. -/
theorem dfs_nodup (root : Nat) : (g.dfs root).Nodup := by
  unfold dfs start
  split
  · rename_i hroot
    refine MarkedOnce.walk ⟨fun u => ?_, by simp⟩
    simp [eq_comm, hroot]
  · exact MarkedOnce.walk ⟨fun u => by simp, by simp⟩

/-- **The order of the marking search.** From a root in range the marking search lists what the
marking recursion from the root lists: the root, then, from each of its successors in range in
the order they are stacked, what the recursion lists, a successor marked already being skipped;
from a root out of range it lists nothing. It lists every node the root reaches, each once, the
root first. -/
theorem dfs_marking_preorder (root : Nat) :
    g.dfs root = (if h : root < g.count then
      (g.markFrom (IndexSet.empty.insert root) ⟨root, h⟩).2 else []) ∧
    (g.dfs root).Nodup ∧
    (∀ v, v ∈ g.dfs root ↔ root < g.count ∧ g.Reaches root v) ∧
    (g.dfs root).head? = if root < g.count then some root else none := by
  refine ⟨dfs_eq_markFrom root, dfs_nodup root,
    fun v => by rw [mem_dfs_iff, mem_reachable_iff], ?_⟩
  rw [dfs_eq_markFrom]
  by_cases hroot : root < g.count
  · rw [dif_pos hroot, if_pos hroot, markFrom_eq]
    rfl
  · rw [dif_neg hroot, if_neg hroot]
    rfl

/-! ## The recursive pre-order -/

variable (g)

mutual

/-- The recursive depth-first search from `v` that lists a node when it enters it, given the
nodes visited so far: a node visited before is skipped; any other is listed and marked, and the
search goes on from each of its successors in range, in order. Returns the marks and the nodes
listed. It is `visit` with the node listed first rather than last. -/
def enter (seen : IndexSet g.count) (v : Fin g.count) : IndexSet g.count × List Nat :=
  if seen.mem v then (seen, [])
  else
    let r := enterAll (seen.insert v) (g.next v)
    (r.1, v.val :: r.2)
termination_by (g.count - seen.card, 0)
decreasing_by
  rename_i hv
  have := IndexSet.card_lt_card_insert v.isLt (by simpa using hv)
  have := IndexSet.card_le (seen.insert v)
  exact Prod.Lex.left _ _ (by omega)

/-- The recursive pre-order search from each node of a list in turn, skipping those out of
range. -/
def enterAll (seen : IndexSet g.count) : List Nat → IndexSet g.count × List Nat
  | [] => (seen, [])
  | s :: rest =>
    if h : s < g.count then
      let r := enter seen ⟨s, h⟩
      let r' := enterAll (seen.union r.1) rest
      (r'.1, r.2 ++ r'.2)
    else enterAll seen rest
termination_by l => (g.count - seen.card, l.length)
decreasing_by
  · exact Prod.Lex.right _ (by simp)
  · exact lex_of_card_le (IndexSet.card_le_card_union _ _) (by simp)
  · exact Prod.Lex.right _ (by simp)

end

/-- The depth-first pre-order from a root: the root, then the pre-order from each of its
successors in turn, a node visited already being skipped. Empty for a root out of range. -/
def recursivePreorder (root : Nat) : List Nat :=
  if h : root < g.count then (g.enter .empty ⟨root, h⟩).2 else []

variable {g}

/-- The marking search is not the recursive depth-first pre-order. On the diamond `0 → 1, 2`,
`1 → 2, 3`, popping `0` stacks and marks both `1` and `2`, so popping `1` stacks only `3`, which
is listed before `2`. The recursive search goes from `1` to its first successor `2`, and lists
`0, 1, 2, 3`. -/
theorem dfs_diamond :
    let g : Adjacency := ⟨4, fun v => if v = 0 then [1, 2] else if v = 1 then [2, 3] else []⟩
    g.dfs 0 = [0, 1, 3, 2] ∧ g.recursivePreorder 0 = [0, 1, 2, 3] ∧
      g.dfs 0 ≠ g.recursivePreorder 0 := by
  intro g
  have hpre : g.recursivePreorder 0 = [0, 1, 2, 3] := by
    simp +decide [recursivePreorder, enter, enterAll, g]
  have hdfs : g.dfs 0 = [0, 1, 3, 2] := by
    unfold dfs start
    rw [dif_pos (by decide)]
    -- the walk is well-founded recursion: it is unfolded one pop at a time, of `0`, `1`, `3`, `2`
    rw [walk]
    simp +decide only [↓reduceIte, List.reverse_cons, List.reverse_nil, List.nil_append,
      List.cons_append, pushFresh, ↓reduceDIte, Fin.mk_one, Fin.isValue, Fin.reduceFinMk,
      List.push_toArray, g]
    rw [walk]
    simp +decide only [Fin.isValue, ↓reduceIte, List.reverse_cons, List.reverse_nil,
      List.nil_append, List.cons_append, pushFresh, ↓reduceDIte, Fin.reduceFinMk, Fin.val_one,
      List.push_toArray]
    rw [walk]
    simp +decide only [Fin.isValue, ↓reduceIte, List.reverse_nil, pushFresh, List.push_toArray,
      List.cons_append, List.nil_append]
    rw [walk]
    simp +decide only [↓reduceIte, List.reverse_nil, pushFresh, Fin.isValue, Fin.val_two,
      List.push_toArray, List.cons_append, List.nil_append]
    rw [walk]
    rfl
  refine ⟨hdfs, hpre, ?_⟩
  rw [hdfs, hpre]
  decide

end Adjacency

end ReachingDefs
