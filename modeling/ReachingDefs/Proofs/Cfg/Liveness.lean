import ReachingDefs.Proofs.Cfg.Shape
import ReachingDefs.Proofs.Graph.Search

/-!
# Which nodes the start reaches

Whether control can get to a statement is decided by the syntax alone. A statement is *live*
when control can enter it: the body is live; the first item of a block is live when the block
is, and each later item when control can leave the item before it; the branches of a
conditional and the body of a loop are live when the conditional or the loop is. Control
leaves a declaration, an assignment, an expression statement or a loop whenever it enters it,
never leaves a return, leaves a conditional when it leaves a branch or, with no else branch,
whenever it enters it, and leaves a block when it leaves its last item.

A node of a procedure's graph is reachable from the start exactly when its statement is live,
and the exit exactly when control can leave the body or enter a live return. This is not the
absence of predecessors: a statement after a return still has its node and its edges out, to
the statements after it and to the exit. The rules carry the equivalence both ways. An edge out
of a live node goes to a live node, or leaves the statement for its continuation when control
can leave the statement, so the live nodes hold the start and are closed under moves. And from
a reached entry every live node of a statement is reached, and its continuation too when
control can leave it.

## Main definitions

* `Stmt.liveOut`: whether control can leave a statement, given whether it can enter it
* `Stmt.LiveIn`: a statement inside another, with whether control can enter it
* `Stmt.LiveNode`: a node whose statement control can enter

## Main results

* `Stmt.flowEdges_live`: an edge out of a live node stays among live nodes, or leaves the
  statement when control can leave it
* `Stmt.live_reached`: from a reached entry, every live node is reached
* `Procedure.lower_reaches_iff_live`: the start reaches exactly the live nodes
* `Procedure.build_reachable_iff_live`: for a procedure that builds, `isReachable` is liveness,
  and both orders list the reachable nodes
-/

namespace ReachingDefs

/-! ## Liveness by the syntax -/

mutual

/-- Whether control can leave a statement, given whether it can enter it. -/
def Stmt.liveOut : Stmt → Bool → Bool
  | .block items, live => Stmt.liveOutAll items live
  | .ret _, _ => false
  | .ifThen _ t, live => t.liveOut live || live
  | .ifElse _ t e, live => t.liveOut live || e.liveOut live
  | .declare _ _, live | .assign _ _, live | .expr _, live | .loop _ _, live => live

/-- Whether control can leave a sequence of statements, given whether it can enter it: each item
is entered when control leaves the one before. -/
def Stmt.liveOutAll : List Stmt → Bool → Bool
  | [], live => live
  | s :: rest, live => Stmt.liveOutAll rest (s.liveOut live)

end

/-- `T`, numbered from `b'`, is a statement of `s`, numbered from `b`, and control can enter `T`
exactly when `l` holds, given that it can enter `s` exactly when `live` holds. -/
inductive Stmt.LiveIn : Stmt → Nat → Bool → Stmt → Nat → Bool → Prop where
  | here (s : Stmt) (b : Nat) (live : Bool) : Stmt.LiveIn s b live s b live
  | ifThen {cond : Expr} {t : Stmt} {b : Nat} {live : Bool} {T : Stmt} {b' : Nat} {l : Bool} :
      Stmt.LiveIn t (b + 1) live T b' l → Stmt.LiveIn (.ifThen cond t) b live T b' l
  | ifElse_then {cond : Expr} {t e : Stmt} {b : Nat} {live : Bool} {T : Stmt} {b' : Nat}
      {l : Bool} :
      Stmt.LiveIn t (b + 1) live T b' l → Stmt.LiveIn (.ifElse cond t e) b live T b' l
  | ifElse_else {cond : Expr} {t e : Stmt} {b : Nat} {live : Bool} {T : Stmt} {b' : Nat}
      {l : Bool} :
      Stmt.LiveIn e (b + 1 + t.nodeCount) live T b' l →
        Stmt.LiveIn (.ifElse cond t e) b live T b' l
  | loop {cond : Expr} {body : Stmt} {b : Nat} {live : Bool} {T : Stmt} {b' : Nat} {l : Bool} :
      Stmt.LiveIn body (b + 1) live T b' l → Stmt.LiveIn (.loop cond body) b live T b' l
  | head {s : Stmt} {rest : List Stmt} {b : Nat} {live : Bool} {T : Stmt} {b' : Nat} {l : Bool} :
      Stmt.LiveIn s b live T b' l → Stmt.LiveIn (.block (s :: rest)) b live T b' l
  | tail {s : Stmt} {rest : List Stmt} {b : Nat} {live : Bool} {T : Stmt} {b' : Nat} {l : Bool} :
      Stmt.LiveIn (.block rest) (b + s.nodeCount) (s.liveOut live) T b' l →
        Stmt.LiveIn (.block (s :: rest)) b live T b' l

/-- A node of `s`, numbered from `b`, whose statement control can enter, given that it can enter
`s` exactly when `live` holds. -/
def Stmt.LiveNode (s : Stmt) (b : Nat) (live : Bool) (v : Nat) : Prop :=
  ∃ T, Stmt.LiveIn s b live T v true ∧ T.isBlock = false

mutual

/-- Control never leaves a statement it cannot enter. -/
theorem Stmt.liveOut_false : ∀ s : Stmt, s.liveOut false = false
  | .block items => Stmt.liveOutAll_false items
  | .ret _ => rfl
  | .ifThen _ t => by rw [Stmt.liveOut, Stmt.liveOut_false t, Bool.or_false]
  | .ifElse _ t e => by rw [Stmt.liveOut, Stmt.liveOut_false t, Stmt.liveOut_false e, Bool.or_false]
  | .declare _ _ | .assign _ _ | .expr _ | .loop _ _ => rfl

theorem Stmt.liveOutAll_false : ∀ items : List Stmt, Stmt.liveOutAll items false = false
  | [] => rfl
  | s :: rest => by rw [Stmt.liveOutAll, Stmt.liveOut_false s, Stmt.liveOutAll_false rest]

end

mutual

/-- Control leaves a statement without nodes exactly when it enters it. -/
theorem Stmt.liveOut_of_nodeCount_eq_zero : ∀ (s : Stmt) (live : Bool), s.nodeCount = 0 →
    s.liveOut live = live
  | .block items, live, h => Stmt.liveOutAll_of_nodeCountAll_eq_zero items live h
  | .declare _ _, _, h | .assign _ _, _, h | .ifThen _ _, _, h | .ifElse _ _ _, _, h
  | .loop _ _, _, h | .ret _, _, h | .expr _, _, h => by simp [Stmt.nodeCount] at h

theorem Stmt.liveOutAll_of_nodeCountAll_eq_zero : ∀ (items : List Stmt) (live : Bool),
    Stmt.nodeCountAll items = 0 → Stmt.liveOutAll items live = live
  | [], _, _ => rfl
  | s :: rest, live, h => by
    simp only [Stmt.nodeCountAll, Nat.add_eq_zero_iff] at h
    rw [Stmt.liveOutAll, Stmt.liveOut_of_nodeCount_eq_zero s live h.1,
      Stmt.liveOutAll_of_nodeCountAll_eq_zero rest live h.2]

end

/-- A statement that is not a block has a node of its own. -/
theorem Stmt.nodeCount_pos {T : Stmt} (hT : T.isBlock = false) : 0 < T.nodeCount := by
  cases T <;> simp_all [Stmt.isBlock, Stmt.nodeCount]

namespace Stmt.LiveIn

variable {s T : Stmt} {b b' : Nat} {live l : Bool}

theorem occurs (h : Stmt.LiveIn s b live T b' l) : Stmt.Occurs s b T b' := by
  induction h with
  | here => exact .here _ _
  | ifThen _ ih => exact .ifThen ih
  | ifElse_then _ ih => exact .ifElse_then ih
  | ifElse_else _ ih => exact .ifElse_else ih
  | loop _ ih => exact .loop ih
  | head _ ih => exact .head ih
  | tail _ ih => exact .tail ih

/-- Nothing inside a statement that control cannot enter can be entered. -/
theorem dead (h : Stmt.LiveIn s b live T b' l) (hlive : live = false) : l = false := by
  induction h with
  | here => exact hlive
  | ifThen _ ih | ifElse_then _ ih | ifElse_else _ ih | loop _ ih | head _ ih => exact ih hlive
  | tail _ ih => exact ih (by rw [hlive, Stmt.liveOut_false])

end Stmt.LiveIn

/-! ## Live nodes -/

namespace Stmt

variable {b v : Nat} {live : Bool}

theorem LiveNode.live_eq {s : Stmt} (h : s.LiveNode b live v) : live = true := by
  obtain ⟨T, hT, -⟩ := h
  cases hl : live
  · exact absurd (hT.dead hl) (by simp)
  · rfl

/-- A live node lies among the statement's nodes. -/
theorem LiveNode.range {s : Stmt} (h : s.LiveNode b live v) : b ≤ v ∧ v < b + s.nodeCount := by
  obtain ⟨T, hT, hTb⟩ := h
  have := hT.occurs.range
  have := Stmt.nodeCount_pos hTb
  omega

/-- The statement of a live node is whichever statement sits there. -/
theorem LiveNode.liveIn_of_occurs {s T : Stmt} (h : s.LiveNode b live v)
    (hT : Stmt.Occurs s b T v) (hTb : T.isBlock = false) : s.LiveIn b live T v true := by
  obtain ⟨T', hT', hT'b⟩ := h
  have hsame : some T' = some T := by
    rw [← hT'.occurs.nodeStmts hT'b, hT.nodeStmts hTb]
  cases hsame
  exact hT'

@[simp] theorem liveNode_ifThen {cond : Expr} {t : Stmt} :
    (Stmt.ifThen cond t).LiveNode b live v ↔
      (v = b ∧ live = true) ∨ t.LiveNode (b + 1) live v := by
  constructor
  · rintro ⟨T, hT, hTb⟩
    cases hT with
    | here => exact Or.inl ⟨rfl, rfl⟩
    | ifThen h => exact Or.inr ⟨T, h, hTb⟩
  · rintro (⟨rfl, rfl⟩ | ⟨T, hT, hTb⟩)
    · exact ⟨_, .here _ _ _, rfl⟩
    · exact ⟨T, .ifThen hT, hTb⟩

@[simp] theorem liveNode_ifElse {cond : Expr} {t e : Stmt} :
    (Stmt.ifElse cond t e).LiveNode b live v ↔ (v = b ∧ live = true) ∨
      t.LiveNode (b + 1) live v ∨ e.LiveNode (b + 1 + t.nodeCount) live v := by
  constructor
  · rintro ⟨T, hT, hTb⟩
    cases hT with
    | here => exact Or.inl ⟨rfl, rfl⟩
    | ifElse_then h => exact Or.inr (Or.inl ⟨T, h, hTb⟩)
    | ifElse_else h => exact Or.inr (Or.inr ⟨T, h, hTb⟩)
  · rintro (⟨rfl, rfl⟩ | ⟨T, hT, hTb⟩ | ⟨T, hT, hTb⟩)
    · exact ⟨_, .here _ _ _, rfl⟩
    · exact ⟨T, .ifElse_then hT, hTb⟩
    · exact ⟨T, .ifElse_else hT, hTb⟩

@[simp] theorem liveNode_loop {cond : Expr} {body : Stmt} :
    (Stmt.loop cond body).LiveNode b live v ↔
      (v = b ∧ live = true) ∨ body.LiveNode (b + 1) live v := by
  constructor
  · rintro ⟨T, hT, hTb⟩
    cases hT with
    | here => exact Or.inl ⟨rfl, rfl⟩
    | loop h => exact Or.inr ⟨T, h, hTb⟩
  · rintro (⟨rfl, rfl⟩ | ⟨T, hT, hTb⟩)
    · exact ⟨_, .here _ _ _, rfl⟩
    · exact ⟨T, .loop hT, hTb⟩

@[simp] theorem liveNode_nil : ¬(Stmt.block []).LiveNode b live v := by
  rintro ⟨T, hT, hTb⟩
  cases hT with
  | here => simp [Stmt.isBlock] at hTb

@[simp] theorem liveNode_cons {s : Stmt} {rest : List Stmt} :
    (Stmt.block (s :: rest)).LiveNode b live v ↔
      s.LiveNode b live v ∨ (Stmt.block rest).LiveNode (b + s.nodeCount) (s.liveOut live) v := by
  constructor
  · rintro ⟨T, hT, hTb⟩
    cases hT with
    | here => simp [Stmt.isBlock] at hTb
    | head h => exact Or.inl ⟨T, h, hTb⟩
    | tail h => exact Or.inr ⟨T, h, hTb⟩
  · rintro (⟨T, hT, hTb⟩ | ⟨T, hT, hTb⟩)
    · exact ⟨T, .head hT, hTb⟩
    · exact ⟨T, .tail hT, hTb⟩

mutual

/-- The first node of a live statement is live: the items before it have no nodes, so control
leaves them whenever it enters them. -/
theorem liveNode_first : ∀ (s : Stmt) (b : Nat), 0 < s.nodeCount → s.LiveNode b true b
  | .block items, b, h => liveNode_firstAll items b h
  | .declare _ _, _, _ | .assign _ _, _, _ | .ret _, _, _ | .expr _, _, _
  | .ifThen _ _, _, _ | .ifElse _ _ _, _, _ | .loop _ _, _, _ => ⟨_, .here _ _ _, rfl⟩

theorem liveNode_firstAll : ∀ (items : List Stmt) (b : Nat), 0 < Stmt.nodeCountAll items →
    (Stmt.block items).LiveNode b true b
  | [], _, h => absurd h (by simp [Stmt.nodeCountAll])
  | s :: rest, b, h => by
    rw [liveNode_cons]
    by_cases hs : s.nodeCount = 0
    · -- the first item has no node: control goes straight on to the rest
      have hrest : 0 < Stmt.nodeCountAll rest := by
        simp only [Stmt.nodeCountAll] at h
        omega
      right
      rw [Stmt.liveOut_of_nodeCount_eq_zero s true hs, hs, Nat.add_zero]
      exact liveNode_firstAll rest b hrest
    · exact Or.inl (liveNode_first s b (Nat.pos_of_ne_zero hs))

end

/-- Where control enters a live statement: its first node, which is live, or its continuation,
when control leaves the statement. -/
theorem enter_live (s : Stmt) (b : Nat) (c : Cont) :
    s.LiveNode b true (s.enter b c).target ∨
      ((s.enter b c).target = c.target ∧ s.liveOut true = true) := by
  rw [Stmt.enter_eq]
  split
  · exact Or.inr ⟨rfl, Stmt.liveOut_of_nodeCount_eq_zero s true ‹_›⟩
  · exact Or.inl (liveNode_first s b (Nat.pos_of_ne_zero ‹_›))

end Stmt

/-! ## Edges out of live nodes -/

mutual

/-- **An edge out of a live node stays among live nodes**, or leaves the statement for its
continuation, and then control can leave the statement. -/
theorem Stmt.flowEdges_live : ∀ (s : Stmt) (b : Nat) (c : Cont) (live : Bool),
    ∀ x ∈ s.flowEdges b c, s.LiveNode b live x.1 →
      s.LiveNode b live x.2.1 ∨ (x.2.1 = c.target ∧ s.liveOut live = true)
  | .block items, b, c, live => Stmt.flowEdgesAll_live items b c live
  | .declare _ _, b, c, live | .assign _ _, b, c, live | .expr _, b, c, live => by
    intro x hx hsrc
    obtain rfl := hsrc.live_eq
    simp only [Stmt.flowEdges, List.mem_singleton] at hx
    subst hx
    exact Or.inr ⟨rfl, rfl⟩
  | .ret _, b, c, live => by simp [Stmt.flowEdges]
  | .ifThen cond t, b, c, live => by
    intro x hx hsrc
    obtain rfl := hsrc.live_eq
    simp only [Stmt.flowEdges, List.mem_append] at hx
    rcases hx with hx | hx
    · -- the true edge enters the branch, the false edge leaves the conditional
      rcases mem_branchEdges hx with rfl | rfl
      · rcases t.enter_live (b + 1) c with h | ⟨h, -⟩
        · exact Or.inl (Stmt.liveNode_ifThen.mpr (Or.inr h))
        · exact Or.inr ⟨h, by simp [Stmt.liveOut]⟩
      · exact Or.inr ⟨rfl, by simp [Stmt.liveOut]⟩
    · have hs := Stmt.flowEdges_source t (b + 1) c x hx
      have hsrc' : t.LiveNode (b + 1) true x.1 := by
        rcases Stmt.liveNode_ifThen.mp hsrc with ⟨h, -⟩ | h
        · omega
        · exact h
      rcases Stmt.flowEdges_live t (b + 1) c true x hx hsrc' with h | ⟨h, hout⟩
      · exact Or.inl (Stmt.liveNode_ifThen.mpr (Or.inr h))
      · exact Or.inr ⟨h, by simp [Stmt.liveOut]⟩
  | .ifElse cond t e, b, c, live => by
    intro x hx hsrc
    obtain rfl := hsrc.live_eq
    simp only [Stmt.flowEdges, List.mem_append] at hx
    rcases hx with hx | hx | hx
    · -- each edge of the conditional enters a branch, or goes on past a branch with no node
      rcases mem_branchEdges hx with rfl | rfl
      · rcases t.enter_live (b + 1) c with h | ⟨h, hout⟩
        · exact Or.inl (Stmt.liveNode_ifElse.mpr (Or.inr (Or.inl h)))
        · exact Or.inr ⟨h, by simp [Stmt.liveOut, hout]⟩
      · rcases e.enter_live (b + 1 + t.nodeCount) c with h | ⟨h, hout⟩
        · exact Or.inl (Stmt.liveNode_ifElse.mpr (Or.inr (Or.inr h)))
        · exact Or.inr ⟨h, by simp [Stmt.liveOut, hout]⟩
    · have hs := Stmt.flowEdges_source t (b + 1) c x hx
      have hsrc' : t.LiveNode (b + 1) true x.1 := by
        rcases Stmt.liveNode_ifElse.mp hsrc with ⟨h, -⟩ | h | h
        · omega
        · exact h
        · have := h.range
          omega
      rcases Stmt.flowEdges_live t (b + 1) c true x hx hsrc' with h | ⟨h, hout⟩
      · exact Or.inl (Stmt.liveNode_ifElse.mpr (Or.inr (Or.inl h)))
      · exact Or.inr ⟨h, by simp [Stmt.liveOut, hout]⟩
    · have hs := Stmt.flowEdges_source e (b + 1 + t.nodeCount) c x hx
      have hsrc' : e.LiveNode (b + 1 + t.nodeCount) true x.1 := by
        rcases Stmt.liveNode_ifElse.mp hsrc with ⟨h, -⟩ | h | h
        · omega
        · have := h.range
          omega
        · exact h
      rcases Stmt.flowEdges_live e (b + 1 + t.nodeCount) c true x hx hsrc' with h | ⟨h, hout⟩
      · exact Or.inl (Stmt.liveNode_ifElse.mpr (Or.inr (Or.inr h)))
      · exact Or.inr ⟨h, by simp [Stmt.liveOut, hout]⟩
  | .loop cond body, b, c, live => by
    intro x hx hsrc
    obtain rfl := hsrc.live_eq
    -- the loop's own node is live, and the body continues to it
    have hhead : (Stmt.loop cond body).LiveNode b true b :=
      Stmt.liveNode_loop.mpr (Or.inl ⟨rfl, rfl⟩)
    simp only [Stmt.flowEdges, List.mem_cons] at hx
    rcases hx with rfl | rfl | hx
    · rcases body.enter_live (b + 1) ⟨b, true⟩ with h | ⟨h, -⟩
      · exact Or.inl (Stmt.liveNode_loop.mpr (Or.inr h))
      · exact Or.inl (by rw [h]; exact hhead)
    · exact Or.inr ⟨rfl, rfl⟩
    · have hs := Stmt.flowEdges_source body (b + 1) ⟨b, true⟩ x hx
      have hsrc' : body.LiveNode (b + 1) true x.1 := by
        rcases Stmt.liveNode_loop.mp hsrc with ⟨h, -⟩ | h
        · omega
        · exact h
      rcases Stmt.flowEdges_live body (b + 1) ⟨b, true⟩ true x hx hsrc' with h | ⟨h, -⟩
      · exact Or.inl (Stmt.liveNode_loop.mpr (Or.inr h))
      · exact Or.inl (by rw [h]; exact hhead)

theorem Stmt.flowEdgesAll_live : ∀ (items : List Stmt) (b : Nat) (c : Cont) (live : Bool),
    ∀ x ∈ Stmt.flowEdgesAll items b c, (Stmt.block items).LiveNode b live x.1 →
      (Stmt.block items).LiveNode b live x.2.1 ∨
        (x.2.1 = c.target ∧ Stmt.liveOutAll items live = true)
  | [], b, c, live => by simp [Stmt.flowEdgesAll]
  | s :: rest, b, c, live => by
    intro x hx hsrc
    obtain rfl := hsrc.live_eq
    simp only [Stmt.flowEdgesAll, List.mem_append] at hx
    rcases hx with hx | hx
    · have hs := Stmt.flowEdges_source s b _ x hx
      have hsrc' : s.LiveNode b true x.1 := by
        rcases Stmt.liveNode_cons.mp hsrc with h | h
        · exact h
        · have := h.range
          omega
      rcases Stmt.flowEdges_live s b _ true x hx hsrc' with h | ⟨h, hout⟩
      · exact Or.inl (Stmt.liveNode_cons.mpr (Or.inl h))
      · -- leaving the first item enters the rest, which is then live
        rw [h]
        rcases (Stmt.block rest).enter_live (b + s.nodeCount) c with h' | ⟨h', hout'⟩
        · left
          rw [Stmt.liveNode_cons, hout]
          exact Or.inr h'
        · refine Or.inr ⟨h', ?_⟩
          rw [Stmt.liveOutAll, hout]
          exact hout'
    · have hs := Stmt.flowEdgesAll_source rest (b + s.nodeCount) c x hx
      rcases Stmt.liveNode_cons.mp hsrc with h | h
      · have := h.range
        omega
      · rcases Stmt.flowEdgesAll_live rest (b + s.nodeCount) c (s.liveOut true) x hx h with
          h' | ⟨h', hout⟩
        · exact Or.inl (Stmt.liveNode_cons.mpr (Or.inr h'))
        · exact Or.inr ⟨h', hout⟩

end

/-! ## Reaching the live nodes -/

/-- A conditional reaches both places it branches to. -/
theorem branchEdges_targets {b : Nat} {T F : Cont} {R : Nat → Prop}
    (h : ∀ x ∈ branchEdges b T F, R x.2.1) : R T.target ∧ R F.target := by
  unfold branchEdges at h
  split at h
  · rename_i heq
    have hT := h _ List.mem_cons_self
    exact ⟨hT, heq ▸ hT⟩
  · exact ⟨h _ List.mem_cons_self, h _ (List.mem_cons_of_mem _ List.mem_cons_self)⟩

mutual

/-- **From a reached entry every live node is reached**, and the continuation too when control
can leave the statement. `R` is any set of nodes closed under the statement's edges. -/
theorem Stmt.live_reached : ∀ (s : Stmt) (b : Nat) (c : Cont) (R : Nat → Prop),
    (∀ x ∈ s.flowEdges b c, R x.1 → R x.2.1) → R (s.enter b c).target →
      (∀ v, s.LiveNode b true v → R v) ∧ (s.liveOut true = true → R c.target)
  | .block items, b, c, R => Stmt.live_reachedAll items b c R
  | .declare _ _, b, c, R | .assign _ _, b, c, R | .expr _, b, c, R => by
    intro hR hb
    refine ⟨fun v ⟨T, hT, _⟩ => ?_, fun _ => hR _ List.mem_cons_self hb⟩
    cases hT
    exact hb
  | .ret _, b, c, R => by
    intro _ hb
    refine ⟨fun v ⟨T, hT, _⟩ => ?_, fun h => absurd h (by simp [Stmt.liveOut])⟩
    cases hT
    exact hb
  | .ifThen cond t, b, c, R => by
    intro hR hb
    have hbranch := branchEdges_targets fun x hx => hR x
      (List.mem_append_left _ hx) (by rw [source_of_mem_branchEdges hx]; exact hb)
    have ht := Stmt.live_reached t (b + 1) c R
      (fun x hx => hR x (List.mem_append_right _ hx)) hbranch.1
    refine ⟨fun v hv => ?_, fun _ => hbranch.2⟩
    rcases Stmt.liveNode_ifThen.mp hv with ⟨rfl, -⟩ | hv
    · exact hb
    · exact ht.1 v hv
  | .ifElse cond t e, b, c, R => by
    intro hR hb
    have hbranch := branchEdges_targets fun x hx => hR x
      (List.mem_append_left _ hx) (by rw [source_of_mem_branchEdges hx]; exact hb)
    have ht := Stmt.live_reached t (b + 1) c R
      (fun x hx => hR x (List.mem_append_right _ (List.mem_append_left _ hx))) hbranch.1
    have he := Stmt.live_reached e (b + 1 + t.nodeCount) c R
      (fun x hx => hR x (List.mem_append_right _ (List.mem_append_right _ hx))) hbranch.2
    refine ⟨fun v hv => ?_, fun hout => ?_⟩
    · rcases Stmt.liveNode_ifElse.mp hv with ⟨rfl, -⟩ | hv | hv
      · exact hb
      · exact ht.1 v hv
      · exact he.1 v hv
    · -- control leaves the conditional through one of its branches
      simp only [Stmt.liveOut, Bool.or_eq_true] at hout
      rcases hout with hout | hout
      · exact ht.2 hout
      · exact he.2 hout
  | .loop cond body, b, c, R => by
    intro hR hb
    have hentry := hR _ List.mem_cons_self hb
    have hexit := hR _ (List.mem_cons_of_mem _ List.mem_cons_self) hb
    have hbody := Stmt.live_reached body (b + 1) ⟨b, true⟩ R
      (fun x hx => hR x (List.mem_cons_of_mem _ (List.mem_cons_of_mem _ hx))) hentry
    refine ⟨fun v hv => ?_, fun _ => hexit⟩
    rcases Stmt.liveNode_loop.mp hv with ⟨rfl, -⟩ | hv
    · exact hb
    · exact hbody.1 v hv

theorem Stmt.live_reachedAll : ∀ (items : List Stmt) (b : Nat) (c : Cont) (R : Nat → Prop),
    (∀ x ∈ Stmt.flowEdgesAll items b c, R x.1 → R x.2.1) →
      R (Stmt.enterAll items b c).target →
      (∀ v, (Stmt.block items).LiveNode b true v → R v) ∧
        (Stmt.liveOutAll items true = true → R c.target)
  | [], b, c, R => fun _ hentry => ⟨fun v hv => absurd hv Stmt.liveNode_nil, fun _ => hentry⟩
  | s :: rest, b, c, R => by
    intro hR hentry
    rw [Stmt.enterAll_cons] at hentry
    have hs := Stmt.live_reached s b _ R (fun x hx => hR x (List.mem_append_left _ hx)) hentry
    have hrest : ∀ x ∈ Stmt.flowEdgesAll rest (b + s.nodeCount) c, R x.1 → R x.2.1 :=
      fun x hx => hR x (List.mem_append_right _ hx)
    -- the rest is live exactly when control leaves the first item, and then it is entered
    cases hout : s.liveOut true with
    | false =>
      refine ⟨fun v hv => ?_, fun h => ?_⟩
      · rcases Stmt.liveNode_cons.mp hv with hv | hv
        · exact hs.1 v hv
        · rw [hout] at hv
          exact absurd hv.live_eq (by simp)
      · rw [Stmt.liveOutAll, hout, Stmt.liveOutAll_false] at h
        exact absurd h (by simp)
    | true =>
      have hr := Stmt.live_reachedAll rest (b + s.nodeCount) c R hrest (hs.2 hout)
      refine ⟨fun v hv => ?_, fun h => ?_⟩
      · rcases Stmt.liveNode_cons.mp hv with hv | hv
        · exact hs.1 v hv
        · rw [hout] at hv
          exact hr.1 v hv
      · rw [Stmt.liveOutAll, hout] at h
        exact hr.2 h

end

/-! ## Returns -/

mutual

/-- The return nodes are the nodes of the return statements. -/
theorem Stmt.occurs_of_mem_returnNodes : ∀ (s : Stmt) (b r : Nat), r ∈ s.returnNodes b →
    ∃ e, Stmt.Occurs s b (.ret e) r
  | .block items, b, r, h => Stmt.occurs_of_mem_returnNodesAll items b r h
  | .ret e, b, r, h => by
    simp only [Stmt.returnNodes, List.mem_singleton] at h
    subst h
    exact ⟨e, .here _ _⟩
  | .ifThen _ t, b, r, h => by
    obtain ⟨e, he⟩ := Stmt.occurs_of_mem_returnNodes t (b + 1) r h
    exact ⟨e, .ifThen he⟩
  | .ifElse _ t e, b, r, h => by
    simp only [Stmt.returnNodes, List.mem_append] at h
    rcases h with h | h
    · obtain ⟨v, hv⟩ := Stmt.occurs_of_mem_returnNodes t (b + 1) r h
      exact ⟨v, .ifElse_then hv⟩
    · obtain ⟨v, hv⟩ := Stmt.occurs_of_mem_returnNodes e (b + 1 + t.nodeCount) r h
      exact ⟨v, .ifElse_else hv⟩
  | .loop _ body, b, r, h => by
    obtain ⟨e, he⟩ := Stmt.occurs_of_mem_returnNodes body (b + 1) r h
    exact ⟨e, .loop he⟩
  | .declare _ _, _, _, h | .assign _ _, _, _, h | .expr _, _, _, h => by
    simp [Stmt.returnNodes] at h

theorem Stmt.occurs_of_mem_returnNodesAll : ∀ (items : List Stmt) (b r : Nat),
    r ∈ Stmt.returnNodesAll items b → ∃ e, Stmt.Occurs (.block items) b (.ret e) r
  | [], _, _, h => by simp [Stmt.returnNodesAll] at h
  | s :: rest, b, r, h => by
    simp only [Stmt.returnNodesAll, List.mem_append] at h
    rcases h with h | h
    · obtain ⟨e, he⟩ := Stmt.occurs_of_mem_returnNodes s b r h
      exact ⟨e, .head he⟩
    · obtain ⟨e, he⟩ := Stmt.occurs_of_mem_returnNodesAll rest (b + s.nodeCount) r h
      exact ⟨e, .tail he⟩

end

theorem Stmt.Occurs.mem_returnNodes {s : Stmt} {b r : Nat} {e : Option Expr}
    (h : Stmt.Occurs s b (.ret e) r) : r ∈ s.returnNodes b := by
  generalize hT : Stmt.ret e = T at h
  induction h with
  | here => subst hT; simp [Stmt.returnNodes]
  | ifThen _ ih => exact ih hT
  | ifElse_then _ ih => simp [Stmt.returnNodes, ih hT]
  | ifElse_else _ ih => simp [Stmt.returnNodes, ih hT]
  | loop _ ih => exact ih hT
  | head _ ih => simp [Stmt.returnNodes, Stmt.returnNodesAll, ih hT]
  | tail _ ih =>
    simp only [Stmt.returnNodes] at ih
    simp [Stmt.returnNodes, Stmt.returnNodesAll, ih hT]

/-! ## Reachability in a procedure's graph -/

namespace Procedure

/-- The nodes control can get to by the syntax: the live nodes of the body, and the exit when
control can leave the body or enter a live return. -/
def Live (p : Procedure) (v : Nat) : Prop :=
  p.body.LiveNode 0 true v ∨
    (v = p.body.nodeCount ∧
      (p.body.liveOut true = true ∨ ∃ e r, p.body.LiveIn 0 true (.ret e) r true))

/-- A live node before the exit is a live node of the body. -/
theorem Live.liveNode {p : Procedure} {v : Nat} (h : p.Live v) (hv : v < p.body.nodeCount) :
    p.body.LiveNode 0 true v := by
  rcases h with h | ⟨rfl, -⟩
  · exact h
  · exact absurd hv (Nat.lt_irrefl _)

variable (p : Procedure)

/-- The start is live: the body's first node, or the exit of a body without nodes. -/
theorem live_start : p.Live 0 := by
  by_cases h : p.body.nodeCount = 0
  · exact Or.inr ⟨h.symm, Or.inl (Stmt.liveOut_of_nodeCount_eq_zero _ _ h)⟩
  · exact Or.inl (Stmt.liveNode_first _ 0 (Nat.pos_of_ne_zero h))

/-- A move out of a live node lands on a live node. -/
theorem live_step {u w : Nat} (hu : p.Live u) (hstep : p.lower.adjacency.Step u w) : p.Live w := by
  obtain ⟨k, hk⟩ := (lower_step_iff p u w).mp hstep
  rcases (mem_edgeRules p).mp hk with hx | ⟨r, hr, hx⟩
  · -- an edge of the body leaves one of its nodes, which is then live
    have hs := Stmt.flowEdges_source p.body 0 _ _ hx
    have hu' := hu.liveNode (by simpa using hs.2)
    rcases Stmt.flowEdges_live p.body 0 _ true _ hx hu' with h | ⟨h, hout⟩
    · exact Or.inl h
    · exact Or.inr ⟨h, Or.inl hout⟩
  · -- a return edge goes to the exit from a live return
    simp only [Prod.mk.injEq] at hx
    obtain ⟨rfl, rfl, -⟩ := hx
    have hrange := ((Stmt.returnNodes_spec p.body 0 ⟨0, false⟩).1 _ hr).2
    have hu' := hu.liveNode (by simpa using hrange)
    obtain ⟨e, he⟩ := Stmt.occurs_of_mem_returnNodes p.body 0 u hr
    exact Or.inr ⟨rfl, Or.inr ⟨e, u, hu'.liveIn_of_occurs he rfl⟩⟩

/-- Every live node is reached from the start. -/
theorem reaches_of_live {v : Nat} (hv : p.Live v) : p.lower.adjacency.Reaches p.lower.start v := by
  have hflow : ∀ x ∈ p.body.flowEdges 0 ⟨p.body.nodeCount, false⟩,
      p.lower.adjacency.Reaches p.lower.start x.1 →
        p.lower.adjacency.Reaches p.lower.start x.2.1 :=
    fun x hx hreach => hreach.tail ((lower_step_iff p _ _).mpr
      ⟨x.2.2, (mem_edgeRules p).mpr (Or.inl hx)⟩)
  -- the body is entered at the start, node zero, whether it has nodes or not
  have hentry : p.lower.adjacency.Reaches p.lower.start
      (p.body.enter 0 ⟨p.body.nodeCount, false⟩).target := by
    rw [lower_start, Stmt.enter_eq]
    split
    · rename_i h
      rw [h]
      exact Adjacency.Reaches.refl 0
    · exact Adjacency.Reaches.refl 0
  have hbody := Stmt.live_reached p.body 0 _ _ hflow hentry
  rcases hv with hv | ⟨rfl, hout | ⟨e, r, hr⟩⟩
  · exact hbody.1 v hv
  · exact hbody.2 hout
  · -- a live return is reached, and goes on to the exit
    have hret : (r, p.body.nodeCount, EdgeKind.toExit) ∈ p.edgeRules :=
      (mem_edgeRules p).mpr (Or.inr ⟨r, hr.occurs.mem_returnNodes, rfl⟩)
    exact (hbody.1 r ⟨_, hr, rfl⟩).tail ((lower_step_iff p _ _).mpr ⟨_, hret⟩)

/-- **The start reaches exactly the live nodes.** -/
theorem lower_reaches_iff_live (v : Nat) :
    p.lower.adjacency.Reaches p.lower.start v ↔ p.Live v := by
  constructor
  · intro h
    rw [lower_start] at h
    exact h.mem_of_closed (live_start p) fun u w hu hstep => live_step p hu hstep
  · exact reaches_of_live p

end Procedure

namespace ControlFlowGraph

variable (cfg : ControlFlowGraph)

/-- A node is reachable exactly when the start is in range and reaches it. -/
theorem isReachable_iff (v : Nat) :
    cfg.isReachable v = true ↔ cfg.start < cfg.nodeCount ∧ cfg.adjacency.Reaches cfg.start v :=
  Adjacency.mem_reachable_iff cfg.start v

theorem isReachable_of_ge {v : Nat} (hv : cfg.nodeCount ≤ v) : cfg.isReachable v = false := by
  cases h : cfg.isReachable v with
  | false => rfl
  | true =>
    have hlt : v < cfg.nodeCount := IndexSet.lt_of_mem h
    exact absurd hv (Nat.not_le.mpr hlt)

theorem mem_postorder_iff (v : Nat) : v ∈ cfg.postorder ↔ cfg.isReachable v = true := by
  rw [isReachable_iff]
  exact Adjacency.mem_postorder_iff cfg.start v

theorem mem_reversePostorder_iff (v : Nat) :
    v ∈ cfg.reversePostorder ↔ cfg.isReachable v = true := by
  rw [isReachable_iff]
  exact Adjacency.mem_reversePostorder_iff cfg.start v

end ControlFlowGraph

namespace Procedure

/-- **Reachability is liveness.** For a procedure that builds: the node of every statement that
is not a block is reachable exactly when control can enter the statement; the exit is reachable
exactly when control can leave the body or enter some live return; no handle past the nodes is
reachable; and the postorder and the reverse postorder each list the reachable nodes once, the
reverse postorder starting at the start. -/
theorem build_reachable_iff_live {p : Procedure} {cfg : ControlFlowGraph}
    (hbuild : p.build = .ok cfg) :
    (∀ T v, Stmt.Occurs p.body 0 T v → T.isBlock = false →
      (cfg.isReachable v = true ↔ p.body.LiveIn 0 true T v true)) ∧
    (cfg.isReachable cfg.exit = true ↔
      p.body.liveOut true = true ∨ ∃ e r, p.body.LiveIn 0 true (.ret e) r true) ∧
    (∀ v, cfg.nodeCount ≤ v → cfg.isReachable v = false) ∧
    (cfg.postorder.Nodup ∧ ∀ v, v ∈ cfg.postorder ↔ cfg.isReachable v = true) ∧
    (cfg.reversePostorder.Nodup ∧
      (∀ v, v ∈ cfg.reversePostorder ↔ cfg.isReachable v = true) ∧
      cfg.reversePostorder.head? = some cfg.start) := by
  obtain ⟨-, rfl⟩ := build_eq_ok.mp hbuild
  have hreach : ∀ v, p.lower.isReachable v = true ↔ p.Live v := by
    intro v
    rw [ControlFlowGraph.isReachable_iff, lower_reaches_iff_live]
    exact and_iff_right (lower_start_lt_count p)
  refine ⟨fun T v hT hTb => ?_, ?_, fun v hv => p.lower.isReachable_of_ge hv,
    ⟨Adjacency.postorder_nodup _, p.lower.mem_postorder_iff⟩,
    ⟨Adjacency.reversePostorder_nodup _, p.lower.mem_reversePostorder_iff,
      Adjacency.reversePostorder_head? (lower_start_lt_count p)⟩⟩
  · -- a statement's node is a node of the body, never the exit
    have hv := hT.range
    have hpos := Stmt.nodeCount_pos hTb
    rw [hreach]
    constructor
    · intro hlive
      exact (hlive.liveNode (by omega)).liveIn_of_occurs hT hTb
    · exact fun h => Or.inl ⟨T, h, hTb⟩
  · -- the exit is numbered after every node of the body
    rw [hreach, lower_exit]
    constructor
    · rintro (hlive | ⟨-, h⟩)
      · have := hlive.range
        omega
      · exact h
    · exact fun h => Or.inr ⟨rfl, h⟩

/-- Dead code after a return, a loop whose body returns on one branch, and dead code nested in a
live branch. -/
theorem build_reachable_iff_live_nested :
    let p : Procedure := ⟨"f", ["n"], .block [.loop (.name "n") (.block [
      .ifElse (.name "n") (.ret none) (.block [.ret none, .expr (.name "n")]),
      .assign "n" (.name "n")]), .ret none, .expr (.name "n")]⟩
    p.build = .ok p.lower ∧
      (∀ T v, Stmt.Occurs p.body 0 T v → T.isBlock = false →
        (p.lower.isReachable v = true ↔ p.body.LiveIn 0 true T v true)) ∧
      (p.lower.isReachable p.lower.exit = true ↔
        p.body.liveOut true = true ∨ ∃ e r, p.body.LiveIn 0 true (.ret e) r true) ∧
      (∀ v, p.lower.nodeCount ≤ v → p.lower.isReachable v = false) ∧
      (p.lower.postorder.Nodup ∧
        ∀ v, v ∈ p.lower.postorder ↔ p.lower.isReachable v = true) ∧
      (p.lower.reversePostorder.Nodup ∧
        (∀ v, v ∈ p.lower.reversePostorder ↔ p.lower.isReachable v = true) ∧
        p.lower.reversePostorder.head? = some p.lower.start) := by
  intro p
  have hbuild : p.build = .ok p.lower := Procedure.build_eq_ok.mpr ⟨rfl, rfl⟩
  exact ⟨hbuild, build_reachable_iff_live hbuild⟩

end Procedure

end ReachingDefs
