import Mathlib.Data.List.Nodup
import ReachingDefs.Proofs.Graph.Walk

/-!
# What the depth-first traversals find

Both searches of an adjacency find exactly the nodes the root reaches. Each is proved by an
invariant that one step of the search keeps and that, once the stack is empty, says that the
marks hold only reached nodes and are closed under moves.

* The marking search keeps every marked node reached, every stacked node marked, and every
  marked node off the stack with all its successors marked.
* The entering search keeps the marked nodes split between those listed and those the stack is
  still to list, with no node twice; a node still to be listed has each successor marked or
  entered above it, so that once it is listed all its successors are marked. The bottom entry
  of the stack lists the root, so the root is listed last.

## Main results

* `Adjacency.mem_reachable_iff`: the marking search marks the nodes the root reaches
* `Adjacency.mem_postorder_iff`, `Adjacency.postorder_nodup`: the postorder lists the nodes the
  root reaches, each once
* `Adjacency.reversePostorder_head?`: the reverse postorder starts at the root
-/

namespace ReachingDefs

namespace Adjacency

/-! ## The marking search -/

section Marking

variable {g : Adjacency}

/-- Pushing a list marks its nodes that are in range, and stacks on top the nodes it newly
marks. -/
theorem pushFresh_spec (seen : IndexSet g.count) (stack : List (Fin g.count)) (l : List Nat) :
    ∃ fresh : List (Fin g.count), (g.pushFresh seen stack l).2 = fresh ++ stack ∧
      (∀ w, (g.pushFresh seen stack l).1.mem w = true ↔
        seen.mem w = true ∨ (w ∈ l ∧ w < g.count)) ∧
      (∀ w, (g.pushFresh seen stack l).1.mem w = true ↔
        seen.mem w = true ∨ w ∈ fresh.map Fin.val) := by
  induction l generalizing seen stack with
  | nil => exact ⟨[], rfl, by simp [pushFresh], by simp [pushFresh]⟩
  | cons s rest ih =>
    unfold pushFresh
    by_cases hs : s < g.count
    · cases hm : seen.mem s with
      | true =>
        -- `s` is marked already: nothing changes
        obtain ⟨fresh, hstack, hmem, hnew⟩ := ih seen stack
        simp only [hs, dite_true, if_true]
        refine ⟨fresh, hstack, fun w => ?_, hnew⟩
        rw [hmem]
        by_cases hw : w = s
        · subst hw
          simp [hm]
        · simp [hw]
      | false =>
        -- `s` is marked and stacked, below what the rest pushes
        obtain ⟨fresh, hstack, hmem, hnew⟩ := ih (seen.insert s) (⟨s, hs⟩ :: stack)
        simp only [hs, dite_true, Bool.false_eq_true, if_false]
        refine ⟨fresh ++ [⟨s, hs⟩], by simp [hstack], fun w => ?_, fun w => ?_⟩
        · rw [hmem, IndexSet.mem_insert]
          by_cases hw : w = s
          · subst hw
            simp [hs]
          · simp [hs, hw, Ne.symm hw]
        · rw [hnew, IndexSet.mem_insert]
          by_cases hw : w = s
          · subst hw
            simp [hs]
          · simp [hs, hw, Ne.symm hw]
    · obtain ⟨fresh, hstack, hmem, hnew⟩ := ih seen stack
      simp only [hs, dite_false]
      refine ⟨fresh, hstack, fun w => ?_, hnew⟩
      rw [hmem]
      by_cases hw : w = s
      · subst hw
        simp [hs]
      · simp [hw]

variable (g) in
/-- What the marking search keeps: every marked node is reached from the root, every node on the
stack is marked, and every marked node off the stack has all its successors marked. -/
structure MarkInv (root : Nat) (seen : IndexSet g.count) (stack : List (Fin g.count)) :
    Prop where
  reached : ∀ u, seen.mem u = true → g.Reaches root u
  stacked : ∀ u ∈ stack, seen.mem u.val = true
  closed : ∀ u, seen.mem u = true → u ∉ stack.map Fin.val →
    ∀ w, g.Step u w → seen.mem w = true

/-- Popping a node and pushing its fresh successors keeps the invariant. -/
theorem MarkInv.pop {root : Nat} {seen : IndexSet g.count} {v : Fin g.count}
    {rest : List (Fin g.count)} (h : g.MarkInv root seen (v :: rest)) :
    g.MarkInv root (g.pushFresh seen rest (g.next v).reverse).1
      (g.pushFresh seen rest (g.next v).reverse).2 := by
  obtain ⟨fresh, hstack, hmem, hnew⟩ := pushFresh_spec seen rest (g.next v).reverse
  have hv : g.Reaches root v := h.reached v (h.stacked v List.mem_cons_self)
  rw [hstack]
  constructor
  · intro u hu
    rcases (hmem u).mp hu with hu | ⟨hnext, hlt⟩
    · exact h.reached u hu
    · exact hv.tail ⟨List.mem_reverse.mp hnext, hlt⟩
  · intro u hu
    rcases List.mem_append.mp hu with hu | hu
    · exact (hnew u).mpr (Or.inr (List.mem_map_of_mem hu))
    · exact (hmem u).mpr (Or.inl (h.stacked u (List.mem_cons_of_mem v hu)))
  · intro u hu hoff w hstep
    -- a node marked just now is on the stack, so `u` was marked before
    have hold : seen.mem u = true := by
      rcases (hnew u).mp hu with hold | hfresh
      · exact hold
      · exact absurd (by simp only [List.map_append, List.mem_append]; exact Or.inl hfresh) hoff
    by_cases huv : u = v.val
    · subst huv
      exact (hmem w).mpr (Or.inr ⟨List.mem_reverse.mpr hstep.1, hstep.2⟩)
    · have hoff' : u ∉ (v :: rest).map Fin.val := by
        simp only [List.map_append, List.mem_append, not_or] at hoff
        simp [huv, hoff.2]
      exact (hmem w).mpr (Or.inl (h.closed u hold hoff' w hstep))

/-- A whole run keeps the invariant and ends with an empty stack; marks are never taken off. -/
theorem MarkInv.walk {root : Nat} {seen : IndexSet g.count} {stack : List (Fin g.count)}
    (order : Array Nat) (h : g.MarkInv root seen stack) :
    g.MarkInv root (g.walk seen stack order).1 [] ∧
      ∀ u, seen.mem u = true → (g.walk seen stack order).1.mem u = true := by
  fun_induction g.walk seen stack order with
  | case1 seen order => exact ⟨h, fun u hu => hu⟩
  | case2 seen order v rest pushed ih =>
    have hpushed : pushed = g.pushFresh seen rest (g.next v).reverse := by
      simp only [pushed, List.unattach_reverse, List.unattach_attach]
    rw [hpushed] at ih
    obtain ⟨hinv, hgrow⟩ := ih h.pop
    obtain ⟨-, -, hmem, -⟩ := pushFresh_spec seen rest (g.next v).reverse
    exact ⟨hinv, fun u hu => hgrow u ((hmem u).mpr (Or.inl hu))⟩

/-- **The marking search marks exactly the nodes the root reaches**, and nothing when the root
is out of range. -/
theorem mem_reachable_iff (root v : Nat) :
    (g.reachable root).mem v = true ↔ root < g.count ∧ g.Reaches root v := by
  unfold reachable start
  split
  · rename_i hroot
    -- the root alone, on the stack and marked
    have hinit : g.MarkInv root (IndexSet.empty.insert root) [⟨root, hroot⟩] := by
      refine ⟨fun u hu => ?_, fun u hu => ?_, fun u hu hoff => ?_⟩
      · simp only [IndexSet.mem_insert, IndexSet.mem_empty, Bool.false_or, Bool.and_eq_true,
          decide_eq_true_eq] at hu
        rw [← hu.2]
        exact Reaches.refl root
      · simp [List.mem_singleton.mp hu, hroot]
      · simp only [IndexSet.mem_insert, IndexSet.mem_empty, Bool.false_or, Bool.and_eq_true,
          decide_eq_true_eq] at hu
        simp [hu.2] at hoff
    obtain ⟨hinv, hgrow⟩ := hinit.walk #[]
    have hmarked := hgrow root (by simp [hroot])
    constructor
    · intro hv
      exact ⟨hroot, hinv.reached v hv⟩
    · rintro ⟨-, hv⟩
      exact hv.mem_of_closed hmarked fun u w hu hstep => hinv.closed u hu (by simp) w hstep
  · rename_i hroot
    simp [walk, hroot]

end Marking

/-! ## The entering search -/

namespace Visit

/-- The nodes a stack of visits is still to list, top first. -/
def leaves {n : Nat} : List (Visit n) → List Nat
  | [] => []
  | .enter _ :: rest => leaves rest
  | .leave v :: rest => v :: leaves rest

@[simp] theorem leaves_nil {n : Nat} : leaves ([] : List (Visit n)) = [] := rfl

@[simp] theorem leaves_enter {n : Nat} (v : Fin n) (rest : List (Visit n)) :
    leaves (.enter v :: rest) = leaves rest := rfl

@[simp] theorem leaves_leave {n : Nat} (v : Nat) (rest : List (Visit n)) :
    leaves (.leave v :: rest) = v :: leaves rest := rfl

end Visit

section Entering

variable (g : Adjacency) in
/-- The leave entries of a stack are covered when each successor of a node still to be listed
is marked or entered by an entry above the node's leave entry; `above` holds the nodes entered
above the stack. -/
def Covered (seen : IndexSet g.count) (above : Nat → Prop) : List (Visit g.count) → Prop
  | [] => True
  | .enter v :: rest => Covered seen (fun w => above w ∨ w = v.val) rest
  | .leave u :: rest =>
    (∀ w, g.Step u w → seen.mem w = true ∨ above w) ∧ Covered seen above rest

variable {g : Adjacency}

/-- Covering survives more marks and more nodes entered above. -/
theorem Covered.mono {seen seen' : IndexSet g.count} {A A' : Nat → Prop}
    (hA : ∀ w, seen.mem w = true ∨ A w → seen'.mem w = true ∨ A' w)
    {s : List (Visit g.count)}
    (h : g.Covered seen A s) : g.Covered seen' A' s := by
  induction s generalizing A A' with
  | nil => trivial
  | cons x rest ih =>
    cases x with
    | enter v =>
      simp only [Covered] at h ⊢
      refine ih (fun w hw => ?_) h
      rcases hw with hw | hw | hw
      · exact (hA w (Or.inl hw)).imp id Or.inl
      · exact (hA w (Or.inr hw)).imp id Or.inl
      · exact Or.inr (Or.inr hw)
    | leave u =>
      exact ⟨fun w hw => hA w (h.1 w hw), ih hA h.2⟩

theorem freshVisits_cons (m : IndexSet g.count) (x : Nat) (rest : List Nat) :
    g.freshVisits m (x :: rest) =
      (if h : x < g.count then (if m.mem x then [] else [.enter ⟨x, h⟩]) else []) ++
        g.freshVisits m rest := by
  unfold freshVisits
  by_cases hx : x < g.count <;> cases hm : m.mem x <;> simp [hx, hm]

theorem leaves_freshVisits_append (m : IndexSet g.count) (l : List Nat)
    (s : List (Visit g.count)) : Visit.leaves (g.freshVisits m l ++ s) = Visit.leaves s := by
  induction l with
  | nil => rfl
  | cons x rest ih =>
    rw [freshVisits_cons, List.append_assoc]
    by_cases hx : x < g.count <;> cases m.mem x <;> simp [hx, ih]

theorem mem_freshVisits {m : IndexSet g.count} {l : List Nat} {v : Fin g.count}
    (h : Visit.enter v ∈ g.freshVisits m l) : v.val ∈ l := by
  induction l with
  | nil => simp [freshVisits] at h
  | cons x rest ih =>
    rw [freshVisits_cons] at h
    by_cases hx : x < g.count <;> cases hm : m.mem x <;> simp [hx, hm] at h
    · rcases h with rfl | h
      · exact List.mem_cons_self
      · exact List.mem_cons_of_mem x (ih h)
    all_goals exact List.mem_cons_of_mem x (ih h)

/-- The entries a node's fresh successors add on top of a stack cover the successors they
enter. -/
theorem Covered.freshVisits {seen m : IndexSet g.count} {A : Nat → Prop} {l : List Nat}
    {s : List (Visit g.count)}
    (h : g.Covered seen (fun w => A w ∨ (w ∈ l ∧ w < g.count ∧ m.mem w = false)) s) :
    g.Covered seen A (g.freshVisits m l ++ s) := by
  induction l generalizing A with
  | nil => exact Covered.mono (fun w hw => by simpa using hw) h
  | cons x rest ih =>
    rw [freshVisits_cons, List.append_assoc]
    by_cases hx : x < g.count
    · cases hm : m.mem x
      · -- `x` is fresh: its entry goes on top and covers it
        simp only [hx, dite_true, Bool.false_eq_true, if_false, List.singleton_append]
        refine ih (A := fun w => A w ∨ w = x) (Covered.mono (fun w hw => ?_) h)
        simp only [List.mem_cons] at hw
        rcases hw with hw | hw | ⟨hw | hw, hlt, hfresh⟩
        · exact Or.inl hw
        · exact Or.inr (Or.inl (Or.inl hw))
        · exact Or.inr (Or.inl (Or.inr hw))
        · exact Or.inr (Or.inr ⟨hw, hlt, hfresh⟩)
      · simp only [hx, dite_true, if_true, List.nil_append]
        refine ih (Covered.mono (fun w hw => ?_) h)
        simp only [List.mem_cons] at hw
        rcases hw with hw | hw | ⟨hw | hw, hlt, hfresh⟩
        · exact Or.inl hw
        · exact Or.inr (Or.inl hw)
        · subst hw
          simp [hm] at hfresh
        · exact Or.inr (Or.inr ⟨hw, hlt, hfresh⟩)
    · simp only [hx, dite_false, List.nil_append]
      refine ih (Covered.mono (fun w hw => ?_) h)
      simp only [List.mem_cons] at hw
      rcases hw with hw | hw | ⟨hw | hw, hlt, hfresh⟩
      · exact Or.inl hw
      · exact Or.inr (Or.inl hw)
      · exact absurd (hw ▸ hlt) hx
      · exact Or.inr (Or.inr ⟨hw, hlt, hfresh⟩)

variable (g) in
/-- What the entering search keeps. Every marked node is reached from the root, and so is every
node an entry of the stack is to enter. The marked nodes are those listed and those the stack is
still to list, with no node twice among them. A marked node the stack is not to list has all its
successors marked, and the nodes the stack is to list are covered. -/
structure PostInv (root : Nat) (seen : IndexSet g.count) (stack : List (Visit g.count))
    (order : Array Nat) : Prop where
  reached : ∀ u, seen.mem u = true → g.Reaches root u
  entered : ∀ v, Visit.enter v ∈ stack → g.Reaches root v
  marked : ∀ u, seen.mem u = true ↔ u ∈ order.toList ∨ u ∈ Visit.leaves stack
  nodup : (order.toList ++ Visit.leaves stack).Nodup
  closed : ∀ u, seen.mem u = true → u ∉ Visit.leaves stack →
    ∀ w, g.Step u w → seen.mem w = true
  covered : g.Covered seen (fun _ => False) stack

variable {root : Nat} {seen : IndexSet g.count} {rest : List (Visit g.count)} {order : Array Nat}

/-- Listing a node whose successors are finished keeps the invariant. -/
theorem PostInv.leave {v : Nat} (h : g.PostInv root seen (.leave v :: rest) order) :
    g.PostInv root seen rest (order.push v) := by
  refine ⟨h.reached, fun u hu => h.entered u (List.mem_cons_of_mem _ hu), fun u => ?_, ?_,
    fun u hu hoff w hstep => ?_, h.covered.2⟩
  · rw [h.marked u]
    simp [or_assoc]
  · simpa using h.nodup
  · -- the node just listed has its successors marked; the others are as before
    by_cases huv : u = v
    · subst huv
      simpa using h.covered.1 w hstep
    · exact h.closed u hu (by simp [huv, hoff]) w hstep

/-- Skipping a node entered before keeps the invariant. -/
theorem PostInv.skip {v : Fin g.count} (hv : seen.mem v = true)
    (h : g.PostInv root seen (.enter v :: rest) order) : g.PostInv root seen rest order := by
  refine ⟨h.reached, fun u hu => h.entered u (List.mem_cons_of_mem _ hu), h.marked, h.nodup,
    h.closed, ?_⟩
  refine Covered.mono (fun w hw => ?_) h.covered
  rcases hw with hw | hw | rfl
  · exact Or.inl hw
  · exact hw.elim
  · exact Or.inl hv

/-- Entering a fresh node, marking it and stacking its fresh successors above the entry that
lists it, keeps the invariant. -/
theorem PostInv.enter {v : Fin g.count} (hv : seen.mem v = false)
    (h : g.PostInv root seen (.enter v :: rest) order) :
    g.PostInv root (seen.insert v)
      (g.freshVisits (seen.insert v) (g.next v) ++ .leave v :: rest) order := by
  have hreach : g.Reaches root v := h.entered v List.mem_cons_self
  have hmem : ∀ u, (seen.insert v).mem u = true ↔ seen.mem u = true ∨ u = v.val := by
    intro u
    rw [IndexSet.mem_insert]
    simp only [v.isLt, decide_true, Bool.true_and, Bool.or_eq_true, decide_eq_true_eq]
    exact or_congr_right eq_comm
  refine ⟨fun u hu => ?_, fun u hu => ?_, fun u => ?_, ?_, fun u hu hoff w hstep => ?_, ?_⟩
  · rcases (hmem u).mp hu with hu | rfl
    · exact h.reached u hu
    · exact hreach
  · rcases List.mem_append.mp hu with hu | hu
    · exact hreach.tail ⟨mem_freshVisits hu, u.isLt⟩
    · simp only [List.mem_cons, reduceCtorEq, false_or] at hu
      exact h.entered u (List.mem_cons_of_mem _ hu)
  · rw [hmem, h.marked, leaves_freshVisits_append]
    simp only [Visit.leaves_leave, Visit.leaves_enter, List.mem_cons]
    constructor
    · rintro ((hu | hu) | hu)
      · exact Or.inl hu
      · exact Or.inr (Or.inr hu)
      · exact Or.inr (Or.inl hu)
    · rintro (hu | hu | hu)
      · exact Or.inl (Or.inl hu)
      · exact Or.inr hu
      · exact Or.inl (Or.inr hu)
  · -- the node entered was neither listed nor waiting to be listed
    rw [leaves_freshVisits_append, Visit.leaves_leave, List.nodup_middle, List.nodup_cons]
    refine ⟨fun hin => ?_, h.nodup⟩
    have hmarked := (h.marked v).mpr
    rw [hv] at hmarked
    rcases List.mem_append.mp hin with hin | hin
    · exact absurd (hmarked (Or.inl hin)) (by simp)
    · exact absurd (hmarked (Or.inr hin)) (by simp)
  · rw [leaves_freshVisits_append, Visit.leaves_leave, List.mem_cons, not_or] at hoff
    have hu' : seen.mem u = true := ((hmem u).mp hu).resolve_right hoff.1
    exact (hmem w).mpr (Or.inl (h.closed u hu' hoff.2 w hstep))
  · refine Covered.freshVisits ⟨fun w hstep => ?_, Covered.mono (fun w hw => ?_) h.covered⟩
    · by_cases hw : (seen.insert v).mem w = true
      · exact Or.inl hw
      · exact Or.inr (Or.inr ⟨hstep.1, hstep.2, by simpa using hw⟩)
    · rcases hw with hw | hw | rfl
      · exact Or.inl ((hmem w).mpr (Or.inl hw))
      · exact hw.elim
      · exact Or.inl ((hmem _).mpr (Or.inr rfl))

/-- A whole run keeps the invariant and ends with an empty stack. -/
theorem PostInv.postWalk {stack : List (Visit g.count)} (h : g.PostInv root seen stack order) :
    ∃ seen' : IndexSet g.count, g.PostInv root seen' [] (g.postWalk seen stack order) := by
  fun_induction g.postWalk seen stack order with
  | case1 seen order => exact ⟨seen, h⟩
  | case2 seen order v rest ih => exact ih h.leave
  | case3 seen order v rest hv ih => exact ih (h.skip hv)
  | case4 seen order v rest hv marked ih => exact ih (h.enter (by simpa using hv))

/-- A run whose stack has the root's leave entry at the bottom lists the root last. -/
theorem postWalk_eq_push {r : Nat} {stack : List (Visit g.count)}
    (hbottom : ∃ s, stack = s ++ [.leave r]) :
    ∃ order' : Array Nat, g.postWalk seen stack order = order'.push r := by
  fun_induction g.postWalk seen stack order with
  | case1 seen order =>
    obtain ⟨s, hs⟩ := hbottom
    simp at hs
  | case2 seen order v rest ih =>
    obtain ⟨s, hs⟩ := hbottom
    cases s with
    | nil =>
      simp only [List.nil_append, List.cons.injEq, Visit.leave.injEq] at hs
      obtain ⟨rfl, rfl⟩ := hs
      exact ⟨order, by rw [Adjacency.postWalk]⟩
    | cons x s =>
      simp only [List.cons_append, List.cons.injEq] at hs
      exact ih ⟨s, hs.2⟩
  | case3 seen order v rest hv ih =>
    obtain ⟨s, hs⟩ := hbottom
    cases s with
    | nil => simp at hs
    | cons x s =>
      simp only [List.cons_append, List.cons.injEq] at hs
      exact ih ⟨s, hs.2⟩
  | case4 seen order v rest hv marked ih =>
    obtain ⟨s, hs⟩ := hbottom
    cases s with
    | nil => simp at hs
    | cons x s =>
      simp only [List.cons_append, List.cons.injEq] at hs
      exact ih ⟨g.freshVisits marked (g.next v) ++ .leave v :: s, by simp [hs.2]⟩

/-- The first step of the entering search: the root is entered, and its leave entry goes to the
bottom of the stack. -/
theorem postWalk_root {r : Nat} (hr : r < g.count) :
    g.postWalk .empty [.enter ⟨r, hr⟩] #[] =
      g.postWalk (IndexSet.empty.insert r)
        (g.freshVisits (IndexSet.empty.insert r) (g.next r) ++ [.leave r]) #[] := by
  rw [Adjacency.postWalk]
  simp

/-- The invariant holds after the first step. -/
theorem postInv_root {r : Nat} (hr : r < g.count) :
    g.PostInv r (IndexSet.empty.insert r)
      (g.freshVisits (IndexSet.empty.insert r) (g.next r) ++ [.leave r]) #[] := by
  have hinit : g.PostInv r .empty [.enter ⟨r, hr⟩] #[] := by
    refine ⟨by simp, fun u hu => ?_, by simp, by simp, by simp, trivial⟩
    obtain rfl : u = ⟨r, hr⟩ := Visit.enter.inj (List.mem_singleton.mp hu)
    exact Reaches.refl r
  exact hinit.enter (IndexSet.mem_empty r)

end Entering

variable {g : Adjacency}

/-- The postorder from a root in range is a run of the entering search that lists the root
last. -/
theorem postorder_spec {root : Nat} (hroot : root < g.count) :
    ∃ (seen : IndexSet g.count) (order : Array Nat),
      g.PostInv root seen [] (order.push root) ∧ g.postorder root = order.toList ++ [root] := by
  have hrun : g.postorder root = (g.postWalk (IndexSet.empty.insert root)
      (g.freshVisits (IndexSet.empty.insert root) (g.next root) ++ [.leave root]) #[]).toList := by
    rw [postorder, dif_pos hroot, postWalk_root hroot]
  obtain ⟨seen, hinv⟩ := (postInv_root hroot).postWalk
  obtain ⟨order, horder⟩ : ∃ order : Array Nat, g.postWalk (IndexSet.empty.insert root)
      (g.freshVisits (IndexSet.empty.insert root) (g.next root) ++ [.leave root]) #[] =
        order.push root :=
    postWalk_eq_push ⟨_, rfl⟩
  rw [horder] at hinv
  exact ⟨seen, order, hinv, by rw [hrun, horder, Array.toList_push]⟩

/-- **The postorder lists exactly the nodes the root reaches**, and nothing for a root out of
range. -/
theorem mem_postorder_iff (root v : Nat) :
    v ∈ g.postorder root ↔ root < g.count ∧ g.Reaches root v := by
  by_cases hroot : root < g.count
  · obtain ⟨seen, order, hinv, hpost⟩ := postorder_spec hroot
    have hmarked : ∀ u, seen.mem u = true ↔ u ∈ g.postorder root := by
      intro u
      rw [hinv.marked, hpost, Array.toList_push]
      simp
    rw [← hmarked]
    constructor
    · intro hv
      exact ⟨hroot, hinv.reached v hv⟩
    · rintro ⟨-, hv⟩
      have hr : seen.mem root = true := (hmarked root).mpr (by simp [hpost])
      exact hv.mem_of_closed hr fun u w hu hstep => hinv.closed u hu (by simp) w hstep
  · simp [postorder, hroot]

/-- **The postorder lists no node twice.** -/
theorem postorder_nodup (root : Nat) : (g.postorder root).Nodup := by
  by_cases hroot : root < g.count
  · obtain ⟨seen, order, hinv, hpost⟩ := postorder_spec hroot
    simpa [hpost] using hinv.nodup
  · simp [postorder, hroot]

theorem mem_reversePostorder_iff (root v : Nat) :
    v ∈ g.reversePostorder root ↔ root < g.count ∧ g.Reaches root v := by
  rw [reversePostorder, List.mem_reverse, mem_postorder_iff]

theorem reversePostorder_nodup (root : Nat) : (g.reversePostorder root).Nodup :=
  List.nodup_reverse.mpr (postorder_nodup root)

/-- **The reverse postorder starts at the root.** -/
theorem reversePostorder_head? {root : Nat} (hroot : root < g.count) :
    (g.reversePostorder root).head? = some root := by
  obtain ⟨seen, order, -, hpost⟩ := postorder_spec hroot
  simp [reversePostorder, hpost]

end Adjacency

end ReachingDefs
