import ReachingDefs.Proofs.Cfg.Lowering

/-!
# The edges of a control-flow graph, by rule

The nodes of a procedure are numbered in source pre-order, so a statement numbered from `b`
owns the nodes `b, …, b + nodeCount - 1`, its own node first when it is not a block. The
rules below say which edges leave these nodes, given where control goes once the statement is
done, its *continuation*: a node, and whether going there closes a loop. An edge that closes
a loop is a loop-back edge, whatever kind it would have had.

* A declaration, assignment or expression statement goes to its continuation.
* A conditional goes to where its then branch is entered by a true edge, and to where its
  else branch is entered, or to its continuation when it has none, by a false edge. When
  both go to one node only the true edge is drawn.
* A loop goes to where its body is entered by a true edge, and to its continuation by a false
  edge; the body continues to the loop, closing it, and an empty body is entered at the loop.
* A return goes to the exit; its edges are kept apart, in `returnNodes`.
* A block is entered at its first item that has a node; each item continues to the next item
  that has one, and the last to the block's continuation.

Lowering offers its edges to `connect` in another order: the edges pending out of a
statement are only connected once the next node exists. `edgesIn` and `exits` list what
lowering offers and what it leaves pending. Between two nodes the first edge offered is the one
kept, so edge lists are compared by `firstKind`, the kind of the first edge listed between two
nodes. `firstKind_edgesIn_exits` shows that both orders keep the same kinds.

## Main definitions

* `firstKind`: the kind of the first edge listed between two nodes
* `Cont`, `Stmt.first?`, `Stmt.enter`: continuations, first nodes and where control enters
* `Stmt.flowEdges`, `Stmt.returnNodes`, `Procedure.edgeRules`: the edges by rule
* `Stmt.edgesIn`, `Stmt.exits`: the edges lowering offers, and those it leaves pending

## Main results

* `Stmt.flowEdges_pairwise`: the rules never draw two edges between the same nodes
* `Stmt.firstKind_edgesIn_exits`: lowering's order keeps the kinds the rules give
-/

namespace ReachingDefs

/-! ## The first kind listed between two nodes -/

/-- The ends of an edge given as source, target and kind. -/
def ends (r : Nat × Nat × EdgeKind) : Nat × Nat := (r.1, r.2.1)

theorem source_eq_of_ends_eq {x y : Nat × Nat × EdgeKind} (h : ends x = ends y) :
    x.1 = y.1 := by
  have h₁ := congrArg Prod.fst h
  exact h₁

theorem target_eq_of_ends_eq {x y : Nat × Nat × EdgeKind} (h : ends x = ends y) :
    x.2.1 = y.2.1 := by
  have h₂ := congrArg Prod.snd h
  exact h₂

/-- The kind of the first edge listed from `a` to `u`. -/
def firstKind (L : List (Nat × Nat × EdgeKind)) (a u : Nat) : Option EdgeKind :=
  (L.find? fun r => ends r == (a, u)).map (·.2.2)

@[simp] theorem firstKind_nil (a u : Nat) : firstKind [] a u = none := rfl

theorem firstKind_cons (r : Nat × Nat × EdgeKind) (L : List (Nat × Nat × EdgeKind)) (a u : Nat) :
    firstKind (r :: L) a u = if ends r = (a, u) then some r.2.2 else firstKind L a u := by
  unfold firstKind
  rw [List.find?_cons]
  by_cases h : ends r = (a, u)
  · rw [beq_iff_eq.mpr h, if_pos h]
    rfl
  · rw [beq_eq_false_iff_ne.mpr h, if_neg h]

theorem firstKind_append (L₁ L₂ : List (Nat × Nat × EdgeKind)) :
    firstKind (L₁ ++ L₂) = fun a u => (firstKind L₁ a u).or (firstKind L₂ a u) := by
  funext a u
  simp [firstKind, List.find?_append, Option.map_or]

theorem firstKind_eq_none {L : List (Nat × Nat × EdgeKind)} {a u : Nat} :
    firstKind L a u = none ↔ ∀ r ∈ L, ends r ≠ (a, u) := by
  simp [firstKind, List.find?_eq_none]

theorem exists_of_firstKind_ne_none {L : List (Nat × Nat × EdgeKind)} {a u : Nat}
    (h : firstKind L a u ≠ none) : ∃ r ∈ L, ends r = (a, u) := by
  by_contra hne
  exact h (firstKind_eq_none.mpr fun r hr hre => hne ⟨r, hr, hre⟩)

/-- Two lists with no ends in common can be swapped. -/
theorem firstKind_append_comm {L₁ L₂ : List (Nat × Nat × EdgeKind)}
    (h : ∀ x ∈ L₁, ∀ y ∈ L₂, ends x ≠ ends y) : firstKind (L₁ ++ L₂) = firstKind (L₂ ++ L₁) := by
  rw [firstKind_append, firstKind_append]
  funext a u
  -- at most one of the two lists has an edge from `a` to `u`
  by_cases h₁ : firstKind L₁ a u = none
  · simp [h₁]
  · obtain ⟨x, hx, hxe⟩ := exists_of_firstKind_ne_none h₁
    have h₂ : firstKind L₂ a u = none :=
      firstKind_eq_none.mpr fun y hy hye => h x hx y hy (hxe.trans hye.symm)
    simp [h₂]

/-- An edge listed after another between the same ends changes nothing. -/
theorem firstKind_append_shadowed {L N : List (Nat × Nat × EdgeKind)} {x : Nat × Nat × EdgeKind}
    (h : ∃ y ∈ L, ends y = ends x) : firstKind (L ++ x :: N) = firstKind (L ++ N) := by
  rw [firstKind_append, firstKind_append]
  funext a u
  by_cases hx : ends x = (a, u)
  · -- `L` already has an edge between these ends, and it comes first
    obtain ⟨y, hy, hye⟩ := h
    cases hL : firstKind L a u with
    | none => exact absurd (hye.trans hx) (firstKind_eq_none.mp hL y hy)
    | some k => rfl
  · rw [firstKind_cons, if_neg hx]

/-- With no two edges between the same ends, an edge is listed exactly when it is the first
between its ends. -/
theorem mem_iff_firstKind {L : List (Nat × Nat × EdgeKind)}
    (h : L.Pairwise fun x y => ends x ≠ ends y) (a u : Nat) (k : EdgeKind) :
    (a, u, k) ∈ L ↔ firstKind L a u = some k := by
  induction L with
  | nil => simp
  | cons r L ih =>
    rw [List.pairwise_cons] at h
    rw [firstKind_cons, List.mem_cons]
    by_cases hr : ends r = (a, u)
    · -- `r` is the edge between these ends, and the rest has none
      rw [if_pos hr]
      obtain ⟨s, t, k'⟩ := r
      simp only [ends, Prod.mk.injEq] at hr
      obtain ⟨rfl, rfl⟩ := hr
      have hnot : (s, t, k) ∉ L := fun hm => h.1 _ hm rfl
      simp [hnot, eq_comm]
    · rw [if_neg hr, ← ih h.2]
      constructor
      · rintro (heq | hm)
        · exact absurd (by rw [← heq]; rfl) hr
        · exact hm
      · exact Or.inr

theorem firstKind_append_left {X Y : List (Nat × Nat × EdgeKind)} (h : firstKind X = firstKind Y)
    (A : List (Nat × Nat × EdgeKind)) : firstKind (A ++ X) = firstKind (A ++ Y) := by
  rw [firstKind_append, h, ← firstKind_append]

theorem firstKind_append_right {X Y : List (Nat × Nat × EdgeKind)} (h : firstKind X = firstKind Y)
    (B : List (Nat × Nat × EdgeKind)) : firstKind (X ++ B) = firstKind (Y ++ B) := by
  rw [firstKind_append, h, ← firstKind_append]

/-! ## Continuations and first nodes -/

/-- Where control goes once a statement is done: a node, and whether going there closes a
loop. -/
structure Cont where
  target : Nat
  viaLoop : Bool

/-- The kind of an edge of kind `k` that goes to `c`: one that closes a loop goes back. -/
def Cont.kind (c : Cont) (k : EdgeKind) : EdgeKind := if c.viaLoop then .loopBack else k

/-- Pending edges, completed by going to `c`. -/
def Pending.into (P : Pending) (c : Cont) : List (Nat × Nat × EdgeKind) :=
  P.map fun e => (e.1, c.target, c.kind e.2)

@[simp] theorem Pending.into_nil (c : Cont) : Pending.into [] c = [] := rfl

@[simp] theorem Pending.into_cons (e : Nat × EdgeKind) (P : Pending) (c : Cont) :
    Pending.into (e :: P) c = (e.1, c.target, c.kind e.2) :: Pending.into P c := rfl

@[simp] theorem Pending.into_append (P Q : Pending) (c : Cont) :
    Pending.into (P ++ Q) c = Pending.into P c ++ Pending.into Q c := by
  simp [Pending.into]

theorem Pending.mem_into {P : Pending} {c : Cont} {x : Nat × Nat × EdgeKind}
    (h : x ∈ Pending.into P c) : x.2.1 = c.target := by
  simp only [Pending.into, List.mem_map] at h
  obtain ⟨e, -, rfl⟩ := h
  rfl

mutual

/-- The first node of a statement numbered from `b`: its own node unless it is a block, the
first node of its earliest item that has one for a block. -/
def Stmt.first? : Stmt → Nat → Option Nat
  | .block items, b => Stmt.firstAll? items b
  | .declare _ _, b | .assign _ _, b | .ifThen _ _, b | .ifElse _ _ _, b | .loop _ _, b
  | .ret _, b | .expr _, b => some b

/-- The first node of a sequence of statements numbered from `b`. -/
def Stmt.firstAll? : List Stmt → Nat → Option Nat
  | [], _ => none
  | s :: rest, b => (s.first? b).or (Stmt.firstAll? rest (b + s.nodeCount))

end

/-- Where control enters a statement numbered from `b` that continues to `c`: its first node,
or `c` when it has none. -/
def Stmt.enter (s : Stmt) (b : Nat) (c : Cont) : Cont :=
  ((s.first? b).map fun f => ⟨f, false⟩).getD c

/-- Where control enters a sequence of statements numbered from `b` that continues to `c`. -/
def Stmt.enterAll (items : List Stmt) (b : Nat) (c : Cont) : Cont :=
  ((Stmt.firstAll? items b).map fun f => ⟨f, false⟩).getD c

mutual

/-- A statement has a first node exactly when it has a node, and then it is the first of its
numbers. -/
theorem Stmt.first?_eq : ∀ (s : Stmt) (b : Nat),
    s.first? b = if s.nodeCount = 0 then none else some b
  | .block items, b => Stmt.firstAll?_eq items b
  | .declare _ _, b | .assign _ _, b | .ifThen _ _, b | .ifElse _ _ _, b | .loop _ _, b
  | .ret _, b | .expr _, b => by simp [Stmt.first?, Stmt.nodeCount]

theorem Stmt.firstAll?_eq : ∀ (items : List Stmt) (b : Nat),
    Stmt.firstAll? items b = if Stmt.nodeCountAll items = 0 then none else some b
  | [], b => rfl
  | s :: rest, b => by
    rw [Stmt.firstAll?, Stmt.first?_eq s b, Stmt.firstAll?_eq rest, Stmt.nodeCountAll]
    by_cases hs : s.nodeCount = 0 <;> by_cases hr : Stmt.nodeCountAll rest = 0 <;> simp [hs, hr]

end

theorem Stmt.enter_eq (s : Stmt) (b : Nat) (c : Cont) :
    s.enter b c = if s.nodeCount = 0 then c else ⟨b, false⟩ := by
  rw [Stmt.enter, Stmt.first?_eq]
  split <;> rfl

theorem Stmt.enterAll_eq (items : List Stmt) (b : Nat) (c : Cont) :
    Stmt.enterAll items b c = if Stmt.nodeCountAll items = 0 then c else ⟨b, false⟩ := by
  rw [Stmt.enterAll, Stmt.firstAll?_eq]
  split <;> rfl

@[simp] theorem Stmt.enter_block (items : List Stmt) (b : Nat) (c : Cont) :
    (Stmt.block items).enter b c = Stmt.enterAll items b c := rfl

/-- A block is entered at its first item when that item has a node, and otherwise where the
rest of the block is entered. -/
theorem Stmt.enterAll_cons (s : Stmt) (rest : List Stmt) (b : Nat) (c : Cont) :
    Stmt.enterAll (s :: rest) b c = s.enter b (Stmt.enterAll rest (b + s.nodeCount) c) := by
  rw [Stmt.enterAll_eq, Stmt.enter_eq, Stmt.enterAll_eq, Stmt.nodeCountAll]
  by_cases hs : s.nodeCount = 0 <;> simp [hs]

/-- A continuation out of a statement's range is entered out of the range of an earlier
statement too: where control enters the rest of a block lies past its first item. -/
theorem Stmt.enterAll_target_fresh {items : List Stmt} {b : Nat} {c : Cont} {lo : Nat}
    (hc : c.target < lo ∨ b + Stmt.nodeCountAll items ≤ c.target) :
    (Stmt.enterAll items b c).target < lo ∨ b ≤ (Stmt.enterAll items b c).target := by
  rw [Stmt.enterAll_eq]
  split
  · omega
  · exact Or.inr (Nat.le_refl b)

/-! ## The edges by rule -/

/-- The edges out of a conditional node `b`: a true edge to where the then branch is entered,
a false edge to where control goes otherwise, and only the true edge when both go to one node. -/
def branchEdges (b : Nat) (onTrue onFalse : Cont) : List (Nat × Nat × EdgeKind) :=
  if onTrue.target = onFalse.target then [(b, onTrue.target, onTrue.kind .onTrue)]
  else [(b, onTrue.target, onTrue.kind .onTrue), (b, onFalse.target, onFalse.kind .onFalse)]

theorem source_of_mem_branchEdges {b : Nat} {onTrue onFalse : Cont} {x : Nat × Nat × EdgeKind}
    (h : x ∈ branchEdges b onTrue onFalse) : x.1 = b := by
  unfold branchEdges at h
  split at h <;> simp at h <;> rcases h with rfl | rfl <;> rfl

mutual

/-- The edges out of the nodes of a statement numbered from `b` that continues to `c`, those of
returns aside. -/
def Stmt.flowEdges : Stmt → Nat → Cont → List (Nat × Nat × EdgeKind)
  | .block items, b, c => Stmt.flowEdgesAll items b c
  | .declare _ _, b, c | .assign _ _, b, c | .expr _, b, c => [(b, c.target, c.kind .seq)]
  | .ret _, _, _ => []
  | .ifThen _ t, b, c => branchEdges b (t.enter (b + 1) c) c ++ t.flowEdges (b + 1) c
  | .ifElse _ t e, b, c =>
    branchEdges b (t.enter (b + 1) c) (e.enter (b + 1 + t.nodeCount) c) ++
      (t.flowEdges (b + 1) c ++ e.flowEdges (b + 1 + t.nodeCount) c)
  | .loop _ body, b, c =>
    (b, (body.enter (b + 1) ⟨b, true⟩).target, (body.enter (b + 1) ⟨b, true⟩).kind .onTrue) ::
      (b, c.target, c.kind .onFalse) :: body.flowEdges (b + 1) ⟨b, true⟩

/-- The edges out of a sequence of statements numbered from `b` that continues to `c`: each
item continues to where the rest is entered. -/
def Stmt.flowEdgesAll : List Stmt → Nat → Cont → List (Nat × Nat × EdgeKind)
  | [], _, _ => []
  | s :: rest, b, c =>
    s.flowEdges b (Stmt.enterAll rest (b + s.nodeCount) c) ++
      Stmt.flowEdgesAll rest (b + s.nodeCount) c

end

mutual

/-- The return nodes of a statement numbered from `b`. -/
def Stmt.returnNodes : Stmt → Nat → List Nat
  | .block items, b => Stmt.returnNodesAll items b
  | .ret _, b => [b]
  | .ifThen _ t, b => t.returnNodes (b + 1)
  | .ifElse _ t e, b => t.returnNodes (b + 1) ++ e.returnNodes (b + 1 + t.nodeCount)
  | .loop _ body, b => body.returnNodes (b + 1)
  | .declare _ _, _ | .assign _ _, _ | .expr _, _ => []

/-- The return nodes of a sequence of statements numbered from `b`. -/
def Stmt.returnNodesAll : List Stmt → Nat → List Nat
  | [], _ => []
  | s :: rest, b => s.returnNodes b ++ Stmt.returnNodesAll rest (b + s.nodeCount)

end

/-- The edges of a procedure's graph by rule: the body numbered from zero continues to the exit,
numbered last, and every return goes to the exit. -/
def Procedure.edgeRules (p : Procedure) : List (Nat × Nat × EdgeKind) :=
  p.body.flowEdges 0 ⟨p.body.nodeCount, false⟩ ++
    (p.body.returnNodes 0).map fun r => (r, p.body.nodeCount, .toExit)

/-! ## What lowering offers -/

mutual

/-- The edges lowering offers while it lowers a statement numbered from `b` with the pending
edges `inc`, in the order it offers them: the pending edges into the statement's node, then the
edges inside it. -/
def Stmt.edgesIn : Stmt → Nat → Pending → List (Nat × Nat × EdgeKind)
  | .block items, b, inc => Stmt.edgesInAll items b inc
  | .declare _ _, b, inc | .assign _ _, b, inc | .ret _, b, inc | .expr _, b, inc =>
    Pending.into inc ⟨b, false⟩
  | .ifThen _ t, b, inc => Pending.into inc ⟨b, false⟩ ++ t.edgesIn (b + 1) [(b, .onTrue)]
  | .ifElse _ t e, b, inc =>
    Pending.into inc ⟨b, false⟩ ++ (t.edgesIn (b + 1) [(b, .onTrue)] ++
      e.edgesIn (b + 1 + t.nodeCount) [(b, .onFalse)])
  | .loop _ body, b, inc =>
    Pending.into inc ⟨b, false⟩ ++ (body.edgesIn (b + 1) [(b, .onTrue)] ++
      Pending.into (body.exits (b + 1) [(b, .onTrue)]) ⟨b, true⟩)

/-- The edges lowering offers while it lowers a sequence of statements. -/
def Stmt.edgesInAll : List Stmt → Nat → Pending → List (Nat × Nat × EdgeKind)
  | [], _, _ => []
  | s :: rest, b, inc =>
    s.edgesIn b inc ++ Stmt.edgesInAll rest (b + s.nodeCount) (s.exits b inc)

/-- The edges left pending out of a statement numbered from `b` entered by `inc`; a statement
without nodes passes `inc` on. -/
def Stmt.exits : Stmt → Nat → Pending → Pending
  | .block items, b, inc => Stmt.exitsAll items b inc
  | .declare _ _, b, _ | .assign _ _, b, _ | .expr _, b, _ => [(b, .seq)]
  | .ret _, _, _ => []
  | .ifThen _ t, b, _ => t.exits (b + 1) [(b, .onTrue)] ++ [(b, .onFalse)]
  | .ifElse _ t e, b, _ =>
    t.exits (b + 1) [(b, .onTrue)] ++ e.exits (b + 1 + t.nodeCount) [(b, .onFalse)]
  | .loop _ _, b, _ => [(b, .onFalse)]

/-- The edges left pending out of a sequence of statements. -/
def Stmt.exitsAll : List Stmt → Nat → Pending → Pending
  | [], _, inc => inc
  | s :: rest, b, inc => Stmt.exitsAll rest (b + s.nodeCount) (s.exits b inc)

end

/-! ## Statements without nodes -/

mutual

/-- A statement without nodes draws and offers no edge and passes its pending edges on. -/
theorem Stmt.parts_of_nodeCount_eq_zero : ∀ (s : Stmt), s.nodeCount = 0 → ∀ b c inc,
    s.flowEdges b c = [] ∧ s.edgesIn b inc = [] ∧ s.exits b inc = inc ∧ s.returnNodes b = []
  | .block items, h, b, c, inc => by
    simpa only [Stmt.flowEdges, Stmt.edgesIn, Stmt.exits, Stmt.returnNodes] using
      Stmt.partsAll_of_nodeCountAll_eq_zero items h b c inc
  | .declare _ _, h, _, _, _ | .assign _ _, h, _, _, _ | .ifThen _ _, h, _, _, _
  | .ifElse _ _ _, h, _, _, _ | .loop _ _, h, _, _, _ | .ret _, h, _, _, _
  | .expr _, h, _, _, _ => by simp [Stmt.nodeCount] at h

theorem Stmt.partsAll_of_nodeCountAll_eq_zero : ∀ (items : List Stmt),
    Stmt.nodeCountAll items = 0 → ∀ b c inc,
    Stmt.flowEdgesAll items b c = [] ∧ Stmt.edgesInAll items b inc = [] ∧
      Stmt.exitsAll items b inc = inc ∧ Stmt.returnNodesAll items b = []
  | [], _, _, _, _ => ⟨rfl, rfl, rfl, rfl⟩
  | s :: rest, h, b, c, inc => by
    rw [Stmt.nodeCountAll] at h
    have hs := Stmt.parts_of_nodeCount_eq_zero s (by omega) b (Stmt.enterAll rest
      (b + s.nodeCount) c) inc
    have hr := Stmt.partsAll_of_nodeCountAll_eq_zero rest (by omega) (b + s.nodeCount) c inc
    simp only [Stmt.flowEdgesAll, Stmt.edgesInAll, Stmt.exitsAll, Stmt.returnNodesAll, hs.1,
      hs.2.1, hs.2.2.1, hs.2.2.2, hr.1, hr.2.1, hr.2.2.1, hr.2.2.2, List.nil_append, and_self]

end

/-! ## Where the edges lie -/

mutual

/-- The edges a statement draws leave its own nodes. -/
theorem Stmt.flowEdges_source : ∀ (s : Stmt) (b : Nat) (c : Cont),
    ∀ x ∈ s.flowEdges b c, b ≤ x.1 ∧ x.1 < b + s.nodeCount
  | .block items, b, c => Stmt.flowEdgesAll_source items b c
  | .declare _ _, b, c | .assign _ _, b, c | .expr _, b, c => by
    simp [Stmt.flowEdges, Stmt.nodeCount]
  | .ret _, b, c => by simp [Stmt.flowEdges]
  | .ifThen _ t, b, c => by
    intro x hx
    simp only [Stmt.flowEdges, List.mem_append] at hx
    rcases hx with hx | hx
    · have := source_of_mem_branchEdges hx
      simp only [Stmt.nodeCount]
      omega
    · have := Stmt.flowEdges_source t (b + 1) c x hx
      simp only [Stmt.nodeCount]
      omega
  | .ifElse _ t e, b, c => by
    intro x hx
    simp only [Stmt.flowEdges, List.mem_append] at hx
    rcases hx with hx | hx | hx
    · have := source_of_mem_branchEdges hx
      simp only [Stmt.nodeCount]
      omega
    · have := Stmt.flowEdges_source t (b + 1) c x hx
      simp only [Stmt.nodeCount]
      omega
    · have := Stmt.flowEdges_source e (b + 1 + t.nodeCount) c x hx
      simp only [Stmt.nodeCount]
      omega
  | .loop _ body, b, c => by
    intro x hx
    simp only [Stmt.flowEdges, List.mem_cons] at hx
    rcases hx with rfl | rfl | hx
    · simp [Stmt.nodeCount]
    · simp [Stmt.nodeCount]
    · have := Stmt.flowEdges_source body (b + 1) ⟨b, true⟩ x hx
      simp only [Stmt.nodeCount]
      omega

theorem Stmt.flowEdgesAll_source : ∀ (items : List Stmt) (b : Nat) (c : Cont),
    ∀ x ∈ Stmt.flowEdgesAll items b c, b ≤ x.1 ∧ x.1 < b + Stmt.nodeCountAll items
  | [], b, c => by simp [Stmt.flowEdgesAll]
  | s :: rest, b, c => by
    intro x hx
    simp only [Stmt.flowEdgesAll, List.mem_append] at hx
    simp only [Stmt.nodeCountAll]
    rcases hx with hx | hx
    · have := Stmt.flowEdges_source s b _ x hx
      omega
    · have := Stmt.flowEdgesAll_source rest (b + s.nodeCount) c x hx
      omega

end

mutual

/-- The edges offered while lowering a statement enter its own nodes. -/
theorem Stmt.edgesIn_target : ∀ (s : Stmt) (b : Nat) (inc : Pending),
    ∀ x ∈ s.edgesIn b inc, b ≤ x.2.1 ∧ x.2.1 < b + s.nodeCount
  | .block items, b, inc => Stmt.edgesInAll_target items b inc
  | .declare _ _, b, inc | .assign _ _, b, inc | .ret _, b, inc | .expr _, b, inc => by
    intro x hx
    have hx' : x.2.1 = b := Pending.mem_into hx
    simp only [Stmt.nodeCount]
    omega
  | .ifThen _ t, b, inc => by
    intro x hx
    simp only [Stmt.edgesIn, List.mem_append] at hx
    simp only [Stmt.nodeCount]
    rcases hx with hx | hx
    · have hx' : x.2.1 = b := Pending.mem_into hx
      omega
    · have := Stmt.edgesIn_target t (b + 1) _ x hx
      omega
  | .ifElse _ t e, b, inc => by
    intro x hx
    simp only [Stmt.edgesIn, List.mem_append] at hx
    simp only [Stmt.nodeCount]
    rcases hx with hx | hx | hx
    · have hx' : x.2.1 = b := Pending.mem_into hx
      omega
    · have := Stmt.edgesIn_target t (b + 1) _ x hx
      omega
    · have := Stmt.edgesIn_target e (b + 1 + t.nodeCount) _ x hx
      omega
  | .loop _ body, b, inc => by
    intro x hx
    simp only [Stmt.edgesIn, List.mem_append] at hx
    simp only [Stmt.nodeCount]
    rcases hx with hx | hx | hx
    · have hx' : x.2.1 = b := Pending.mem_into hx
      omega
    · have := Stmt.edgesIn_target body (b + 1) _ x hx
      omega
    · -- the body's exits go back to the loop
      have hx' : x.2.1 = b := Pending.mem_into hx
      omega

theorem Stmt.edgesInAll_target : ∀ (items : List Stmt) (b : Nat) (inc : Pending),
    ∀ x ∈ Stmt.edgesInAll items b inc, b ≤ x.2.1 ∧ x.2.1 < b + Stmt.nodeCountAll items
  | [], b, inc => by simp [Stmt.edgesInAll]
  | s :: rest, b, inc => by
    intro x hx
    simp only [Stmt.edgesInAll, List.mem_append] at hx
    simp only [Stmt.nodeCountAll]
    rcases hx with hx | hx
    · have := Stmt.edgesIn_target s b inc x hx
      omega
    · have := Stmt.edgesInAll_target rest (b + s.nodeCount) _ x hx
      omega

end

mutual

/-- The return nodes of a statement are its own nodes, each once, and no edge the rules draw
leaves one of them. -/
theorem Stmt.returnNodes_spec : ∀ (s : Stmt) (b : Nat) (c : Cont),
    (∀ r ∈ s.returnNodes b, b ≤ r ∧ r < b + s.nodeCount) ∧ (s.returnNodes b).Nodup ∧
      ∀ x ∈ s.flowEdges b c, x.1 ∉ s.returnNodes b
  | .block items, b, c => Stmt.returnNodesAll_spec items b c
  | .declare _ _, b, c | .assign _ _, b, c | .expr _, b, c => by
    simp [Stmt.returnNodes]
  | .ret _, b, c => by simp [Stmt.returnNodes, Stmt.flowEdges, Stmt.nodeCount]
  | .ifThen _ t, b, c => by
    obtain ⟨hr, hnd, hsrc⟩ := Stmt.returnNodes_spec t (b + 1) c
    refine ⟨fun r h => ?_, hnd, fun x hx => ?_⟩
    · have := hr r h
      simp only [Stmt.nodeCount]
      omega
    · simp only [Stmt.flowEdges, List.mem_append] at hx
      rcases hx with hx | hx
      · -- the conditional's own node is no return
        have hb := source_of_mem_branchEdges hx
        intro hmem
        have := hr _ hmem
        omega
      · exact hsrc x hx
  | .ifElse _ t e, b, c => by
    obtain ⟨hrt, hndt, hsrct⟩ := Stmt.returnNodes_spec t (b + 1) c
    obtain ⟨hre, hnde, hsrce⟩ := Stmt.returnNodes_spec e (b + 1 + t.nodeCount) c
    refine ⟨fun r h => ?_, ?_, fun x hx => ?_⟩
    · simp only [Stmt.returnNodes, List.mem_append] at h
      simp only [Stmt.nodeCount]
      rcases h with h | h
      · have := hrt r h
        omega
      · have := hre r h
        omega
    · refine List.nodup_append.mpr ⟨hndt, hnde, fun r h r' h' => ?_⟩
      have := hrt r h
      have := hre r' h'
      omega
    · simp only [Stmt.returnNodes, List.mem_append]
      simp only [Stmt.flowEdges, List.mem_append] at hx
      rintro (hmem | hmem)
      · rcases hx with hx | hx | hx
        · have hb := source_of_mem_branchEdges hx
          have := hrt _ hmem
          omega
        · exact hsrct x hx hmem
        · have := Stmt.flowEdges_source e _ c x hx
          have := hrt _ hmem
          omega
      · rcases hx with hx | hx | hx
        · have hb := source_of_mem_branchEdges hx
          have := hre _ hmem
          omega
        · have := Stmt.flowEdges_source t _ c x hx
          have := hre _ hmem
          omega
        · exact hsrce x hx hmem
  | .loop _ body, b, c => by
    obtain ⟨hr, hnd, hsrc⟩ := Stmt.returnNodes_spec body (b + 1) ⟨b, true⟩
    refine ⟨fun r h => ?_, hnd, fun x hx hmem => ?_⟩
    · have := hr r h
      simp only [Stmt.nodeCount]
      omega
    · simp only [Stmt.flowEdges, List.mem_cons] at hx
      have := hr _ hmem
      rcases hx with rfl | rfl | hx
      · exact absurd this.1 (by omega)
      · exact absurd this.1 (by omega)
      · exact hsrc x hx hmem

theorem Stmt.returnNodesAll_spec : ∀ (items : List Stmt) (b : Nat) (c : Cont),
    (∀ r ∈ Stmt.returnNodesAll items b, b ≤ r ∧ r < b + Stmt.nodeCountAll items) ∧
      (Stmt.returnNodesAll items b).Nodup ∧
      ∀ x ∈ Stmt.flowEdgesAll items b c, x.1 ∉ Stmt.returnNodesAll items b
  | [], b, c => by simp [Stmt.returnNodesAll, Stmt.flowEdgesAll]
  | s :: rest, b, c => by
    obtain ⟨hrs, hnds, hsrcs⟩ := Stmt.returnNodes_spec s b (Stmt.enterAll rest (b + s.nodeCount) c)
    obtain ⟨hrr, hndr, hsrcr⟩ := Stmt.returnNodesAll_spec rest (b + s.nodeCount) c
    refine ⟨fun r h => ?_, ?_, fun x hx hmem => ?_⟩
    · simp only [Stmt.returnNodesAll, List.mem_append] at h
      simp only [Stmt.nodeCountAll]
      rcases h with h | h
      · have := hrs r h
        omega
      · have := hrr r h
        omega
    · refine List.nodup_append.mpr ⟨hnds, hndr, fun r h r' h' => ?_⟩
      have := hrs r h
      have := hrr r' h'
      omega
    · simp only [Stmt.returnNodesAll, List.mem_append] at hmem
      simp only [Stmt.flowEdgesAll, List.mem_append] at hx
      rcases hx with hx | hx <;> rcases hmem with hmem | hmem
      · exact hsrcs x hx hmem
      · have := Stmt.flowEdges_source s b _ x hx
        have := hrr _ hmem
        omega
      · have := Stmt.flowEdgesAll_source rest _ c x hx
        have := hrs _ hmem
        omega
      · exact hsrcr x hx hmem

end

/-! ## The rules draw one edge between two nodes -/

theorem branchEdges_pairwise (b : Nat) (onTrue onFalse : Cont) :
    (branchEdges b onTrue onFalse).Pairwise fun x y => ends x ≠ ends y := by
  unfold branchEdges
  split
  · exact List.pairwise_singleton _ _
  · rename_i hne
    simp [ends, hne]

/-- Two lists of edges that each join two nodes at most once, and whose sources never meet,
join two nodes at most once together. -/
theorem pairwise_append_of_sources_ne {X Y : List (Nat × Nat × EdgeKind)}
    (hX : X.Pairwise fun x y => ends x ≠ ends y) (hY : Y.Pairwise fun x y => ends x ≠ ends y)
    (hsrc : ∀ x ∈ X, ∀ y ∈ Y, x.1 ≠ y.1) : (X ++ Y).Pairwise fun x y => ends x ≠ ends y :=
  List.pairwise_append.mpr
    ⟨hX, hY, fun x hx y hy hxy => hsrc x hx y hy (source_eq_of_ends_eq hxy)⟩

mutual

/-- The rules never draw two edges between the same nodes when the statement continues out of
its own range. -/
theorem Stmt.flowEdges_pairwise : ∀ (s : Stmt) (b : Nat) (c : Cont),
    (c.target < b ∨ b + s.nodeCount ≤ c.target) →
    (s.flowEdges b c).Pairwise fun x y => ends x ≠ ends y
  | .block items, b, c, hc => Stmt.flowEdgesAll_pairwise items b c hc
  | .declare _ _, b, c, _ | .assign _ _, b, c, _ | .expr _, b, c, _ => by simp [Stmt.flowEdges]
  | .ret _, b, c, _ => by simp [Stmt.flowEdges]
  | .ifThen _ t, b, c, hc => by
    simp only [Stmt.nodeCount] at hc
    refine pairwise_append_of_sources_ne (branchEdges_pairwise _ _ _)
      (Stmt.flowEdges_pairwise t (b + 1) c (by omega)) fun x hx y hy => ?_
    -- the conditional's edges leave its own node, the branch's edges leave the branch
    have hx' := source_of_mem_branchEdges hx
    have hy' := Stmt.flowEdges_source t (b + 1) c y hy
    omega
  | .ifElse _ t e, b, c, hc => by
    simp only [Stmt.nodeCount] at hc
    have hbranches : (t.flowEdges (b + 1) c ++ e.flowEdges (b + 1 + t.nodeCount) c).Pairwise
        fun x y => ends x ≠ ends y := by
      refine pairwise_append_of_sources_ne (Stmt.flowEdges_pairwise t (b + 1) c (by omega))
        (Stmt.flowEdges_pairwise e _ c (by omega)) fun x hx y hy => ?_
      -- the two branches are numbered one after the other
      have := Stmt.flowEdges_source t _ c x hx
      have := Stmt.flowEdges_source e _ c y hy
      omega
    refine pairwise_append_of_sources_ne (branchEdges_pairwise _ _ _) hbranches fun x hx y hy => ?_
    have hx' := source_of_mem_branchEdges hx
    rcases List.mem_append.mp hy with hy | hy
    · have := Stmt.flowEdges_source t _ c y hy
      omega
    · have := Stmt.flowEdges_source e _ c y hy
      omega
  | .loop _ body, b, c, hc => by
    simp only [Stmt.nodeCount] at hc
    -- the true edge enters the body, or goes back to an empty loop; the false edge leaves
    have hE : (body.enter (b + 1) ⟨b, true⟩).target ≠ c.target := by
      rw [Stmt.enter_eq]
      split <;> simp <;> omega
    have hsrc : ∀ y ∈ body.flowEdges (b + 1) ⟨b, true⟩, y.1 ≠ b := by
      intro y hy
      have := Stmt.flowEdges_source body (b + 1) _ y hy
      omega
    simp only [Stmt.flowEdges]
    refine List.pairwise_cons.mpr ⟨fun y hy hxy => ?_, List.pairwise_cons.mpr
      ⟨fun y hy hxy => ?_, Stmt.flowEdges_pairwise body (b + 1) ⟨b, true⟩ (by simp)⟩⟩
    · rcases List.mem_cons.mp hy with rfl | hy
      · exact hE (target_eq_of_ends_eq hxy)
      · exact hsrc y hy (source_eq_of_ends_eq hxy).symm
    · exact hsrc y hy (source_eq_of_ends_eq hxy).symm

theorem Stmt.flowEdgesAll_pairwise : ∀ (items : List Stmt) (b : Nat) (c : Cont),
    (c.target < b ∨ b + Stmt.nodeCountAll items ≤ c.target) →
    (Stmt.flowEdgesAll items b c).Pairwise fun x y => ends x ≠ ends y
  | [], _, _, _ => List.Pairwise.nil
  | s :: rest, b, c, hc => by
    simp only [Stmt.nodeCountAll] at hc
    -- the first item continues to where the rest is entered, past its own range
    have hcs : (Stmt.enterAll rest (b + s.nodeCount) c).target < b ∨
        b + s.nodeCount ≤ (Stmt.enterAll rest (b + s.nodeCount) c).target :=
      Stmt.enterAll_target_fresh (by omega)
    refine pairwise_append_of_sources_ne (Stmt.flowEdges_pairwise s b _ (by omega))
      (Stmt.flowEdgesAll_pairwise rest _ c (by omega)) fun x hx y hy => ?_
    have := Stmt.flowEdges_source s b _ x hx
    have := Stmt.flowEdgesAll_source rest _ c y hy
    omega

end

/-- The rules give a procedure at most one edge between two nodes. -/
theorem Procedure.edgeRules_pairwise (p : Procedure) :
    p.edgeRules.Pairwise fun x y => ends x ≠ ends y := by
  obtain ⟨hr, hnd, hsrc⟩ := Stmt.returnNodes_spec p.body 0 ⟨p.body.nodeCount, false⟩
  refine List.pairwise_append.mpr ⟨Stmt.flowEdges_pairwise p.body 0 _ (by simp), ?_, ?_⟩
  · -- one return edge per return node
    refine List.pairwise_map.mpr (hnd.imp fun hne heq => hne ?_)
    exact congrArg Prod.fst heq
  · -- no rule's edge leaves a return node
    intro x hx y hy hxy
    obtain ⟨r, hmem, rfl⟩ := List.mem_map.mp hy
    exact hsrc x hx (source_eq_of_ends_eq hxy ▸ hmem)

/-! ## Lowering's order keeps the rules' kinds -/

/-- Two lists with no ends in common can be swapped inside a list. -/
theorem firstKind_swap {X Y : List (Nat × Nat × EdgeKind)} (h : ∀ x ∈ X, ∀ y ∈ Y, ends x ≠ ends y)
    (A B : List (Nat × Nat × EdgeKind)) :
    firstKind (A ++ (X ++ (Y ++ B))) = firstKind (A ++ (Y ++ (X ++ B))) := by
  rw [← List.append_assoc X, ← List.append_assoc Y]
  exact firstKind_append_left (firstKind_append_right (firstKind_append_comm h) B) A

/-- An edge listed after another between the same ends, inside a list, changes nothing. -/
theorem firstKind_shadowed {x y : Nat × Nat × EdgeKind} (hxy : ends x = ends y)
    (A M N : List (Nat × Nat × EdgeKind)) :
    firstKind (A ++ (y :: (M ++ (x :: N)))) = firstKind (A ++ (y :: (M ++ N))) := by
  have h := firstKind_append_shadowed (L := A ++ y :: M) (N := N) (x := x)
    ⟨y, by simp, hxy.symm⟩
  simpa only [List.append_assoc, List.cons_append] using h

/-- The edges of a statement numbered from `b + 1` never leave node `b`, so none shares its ends
with an edge out of `b`. -/
theorem Stmt.flowEdges_ends_ne_of_source (s : Stmt) (b : Nat) (c : Cont) (t : Nat) (k : EdgeKind) :
    ∀ x ∈ s.flowEdges (b + 1) c, ∀ y ∈ [(b, t, k)], ends x ≠ ends y := by
  intro x hx y hy hxy
  have hsrc := Stmt.flowEdges_source s (b + 1) c x hx
  rw [List.mem_singleton.mp hy] at hxy
  have := source_eq_of_ends_eq hxy
  omega

mutual

/-- **Lowering keeps the kinds the rules give.** While it lowers a statement, lowering offers
`edgesIn`, and leaves `exits` pending until the continuation's node exists. Offered in that
order they keep, between any two nodes, the kind the rules give after the pending edges into
the statement, as long as the continuation lies outside the statement's range. -/
theorem Stmt.firstKind_edgesIn_exits : ∀ (s : Stmt) (b : Nat) (inc : Pending) (c : Cont),
    (c.target < b ∨ b + s.nodeCount ≤ c.target) →
    firstKind (s.edgesIn b inc ++ Pending.into (s.exits b inc) c) =
      firstKind (Pending.into inc (s.enter b c) ++ s.flowEdges b c)
  | .block items, b, inc, c, hc => Stmt.firstKind_edgesInAll_exitsAll items b inc c hc
  | .declare _ _, b, inc, c, _ | .assign _ _, b, inc, c, _ | .expr _, b, inc, c, _ => by
    simp [Stmt.edgesIn, Stmt.exits, Stmt.flowEdges, Stmt.enter_eq, Stmt.nodeCount, Pending.into]
  | .ret _, b, inc, c, _ => by
    simp [Stmt.edgesIn, Stmt.exits, Stmt.flowEdges, Stmt.enter_eq, Stmt.nodeCount]
  | .ifThen cond t, b, inc, c, hc => by
    simp only [Stmt.nodeCount] at hc
    have ih := Stmt.firstKind_edgesIn_exits t (b + 1) [(b, .onTrue)] c (by omega)
    calc firstKind ((Stmt.ifThen cond t).edgesIn b inc ++
          Pending.into ((Stmt.ifThen cond t).exits b inc) c)
        = firstKind (Pending.into inc ⟨b, false⟩ ++ ((t.edgesIn (b + 1) [(b, .onTrue)] ++
            Pending.into (t.exits (b + 1) [(b, .onTrue)]) c) ++
              [(b, c.target, c.kind .onFalse)])) := by
          simp [Stmt.edgesIn, Stmt.exits]
      _ = firstKind (Pending.into inc ⟨b, false⟩ ++
            ((Pending.into [(b, .onTrue)] (t.enter (b + 1) c) ++ t.flowEdges (b + 1) c) ++
              [(b, c.target, c.kind .onFalse)])) :=
          firstKind_append_left (firstKind_append_right ih _) _
      _ = firstKind (Pending.into inc ((Stmt.ifThen cond t).enter b c) ++
            (Stmt.ifThen cond t).flowEdges b c) := by
          rw [Stmt.enter_eq (Stmt.ifThen cond t), if_neg (by simp [Stmt.nodeCount])]
          simp only [Stmt.flowEdges]
          by_cases ht : t.nodeCount = 0
          · -- an empty then branch: the true edge goes where the false edge does, and wins
            rw [Stmt.enter_eq t, if_pos ht, (Stmt.parts_of_nodeCount_eq_zero t ht (b + 1) c []).1]
            simpa [branchEdges] using firstKind_shadowed (x := (b, c.target, c.kind .onFalse))
              (y := (b, c.target, c.kind .onTrue)) rfl (Pending.into inc ⟨b, false⟩) [] []
          · -- the true edge enters the branch, whose edges leave nodes past the conditional
            rw [Stmt.enter_eq t, if_neg ht]
            have hne : b + 1 ≠ c.target := by omega
            have hswap := firstKind_swap (t.flowEdges_ends_ne_of_source b c c.target (c.kind .onFalse))
              (Pending.into inc ⟨b, false⟩ ++ [(b, b + 1, Cont.kind ⟨b + 1, false⟩ .onTrue)]) []
            simpa [branchEdges, hne] using hswap
  | .ifElse cond t e, b, inc, c, hc => by
    simp only [Stmt.nodeCount] at hc
    have iht := Stmt.firstKind_edgesIn_exits t (b + 1) [(b, .onTrue)] c (by omega)
    have ihe := Stmt.firstKind_edgesIn_exits e (b + 1 + t.nodeCount) [(b, .onFalse)] c
      (by omega)
    -- the then branch's exits are connected only after the else branch is lowered; they go
    -- out of the conditional, while every edge offered inside the else branch stays inside
    have hdisj : ∀ x ∈ e.edgesIn (b + 1 + t.nodeCount) [(b, .onFalse)],
        ∀ y ∈ Pending.into (t.exits (b + 1) [(b, .onTrue)]) c, ends x ≠ ends y := by
      intro x hx y hy hxy
      have := Stmt.edgesIn_target e _ _ x hx
      have hy' : y.2.1 = c.target := Pending.mem_into hy
      have := target_eq_of_ends_eq hxy
      omega
    calc firstKind ((Stmt.ifElse cond t e).edgesIn b inc ++
          Pending.into ((Stmt.ifElse cond t e).exits b inc) c)
        = firstKind ((Pending.into inc ⟨b, false⟩ ++ t.edgesIn (b + 1) [(b, .onTrue)]) ++
            (e.edgesIn (b + 1 + t.nodeCount) [(b, .onFalse)] ++
              (Pending.into (t.exits (b + 1) [(b, .onTrue)]) c ++
                Pending.into (e.exits (b + 1 + t.nodeCount) [(b, .onFalse)]) c))) := by
          simp [Stmt.edgesIn, Stmt.exits]
      _ = firstKind ((Pending.into inc ⟨b, false⟩ ++ t.edgesIn (b + 1) [(b, .onTrue)]) ++
            (Pending.into (t.exits (b + 1) [(b, .onTrue)]) c ++
              (e.edgesIn (b + 1 + t.nodeCount) [(b, .onFalse)] ++
                Pending.into (e.exits (b + 1 + t.nodeCount) [(b, .onFalse)]) c))) :=
          firstKind_swap hdisj _ _
      _ = firstKind (Pending.into inc ⟨b, false⟩ ++
            ((t.edgesIn (b + 1) [(b, .onTrue)] ++ Pending.into (t.exits (b + 1) [(b, .onTrue)]) c) ++
              (e.edgesIn (b + 1 + t.nodeCount) [(b, .onFalse)] ++
                Pending.into (e.exits (b + 1 + t.nodeCount) [(b, .onFalse)]) c))) := by
          simp only [List.append_assoc]
      _ = firstKind (Pending.into inc ⟨b, false⟩ ++
            ((Pending.into [(b, .onTrue)] (t.enter (b + 1) c) ++ t.flowEdges (b + 1) c) ++
              (Pending.into [(b, .onFalse)] (e.enter (b + 1 + t.nodeCount) c) ++
                e.flowEdges (b + 1 + t.nodeCount) c))) :=
          (firstKind_append_left (firstKind_append_right iht _) _).trans
            (firstKind_append_left (firstKind_append_left ihe _) _)
      _ = firstKind (Pending.into inc ((Stmt.ifElse cond t e).enter b c) ++
            (Stmt.ifElse cond t e).flowEdges b c) := by
          rw [Stmt.enter_eq (Stmt.ifElse cond t e), if_neg (by simp [Stmt.nodeCount])]
          simp only [Stmt.flowEdges]
          by_cases hsame : (t.enter (b + 1) c).target = (e.enter (b + 1 + t.nodeCount) c).target
          · -- both branches are entered at one node: the false edge is not drawn
            have hends : ends (b, (e.enter (b + 1 + t.nodeCount) c).target,
                (e.enter (b + 1 + t.nodeCount) c).kind .onFalse) =
                ends (b, (t.enter (b + 1) c).target, (t.enter (b + 1) c).kind .onTrue) := by
              simp [ends, hsame]
            simpa [branchEdges, hsame] using firstKind_shadowed hends
              (Pending.into inc ⟨b, false⟩) (t.flowEdges (b + 1) c)
              (e.flowEdges (b + 1 + t.nodeCount) c)
          · -- the false edge leaves the conditional, the then branch's edges leave the branch
            have hswap := firstKind_swap (t.flowEdges_ends_ne_of_source b c
                (e.enter (b + 1 + t.nodeCount) c).target
                ((e.enter (b + 1 + t.nodeCount) c).kind .onFalse))
              (Pending.into inc ⟨b, false⟩ ++ Pending.into [(b, .onTrue)] (t.enter (b + 1) c))
              (e.flowEdges (b + 1 + t.nodeCount) c)
            simpa [branchEdges, hsame] using hswap
  | .loop cond body, b, inc, c, hc => by
    simp only [Stmt.nodeCount] at hc
    have ih := Stmt.firstKind_edgesIn_exits body (b + 1) [(b, .onTrue)] ⟨b, true⟩ (by simp)
    calc firstKind ((Stmt.loop cond body).edgesIn b inc ++
          Pending.into ((Stmt.loop cond body).exits b inc) c)
        = firstKind (Pending.into inc ⟨b, false⟩ ++ ((body.edgesIn (b + 1) [(b, .onTrue)] ++
            Pending.into (body.exits (b + 1) [(b, .onTrue)]) ⟨b, true⟩) ++
              [(b, c.target, c.kind .onFalse)])) := by
          simp [Stmt.edgesIn, Stmt.exits]
      _ = firstKind (Pending.into inc ⟨b, false⟩ ++
            ((Pending.into [(b, .onTrue)] (body.enter (b + 1) ⟨b, true⟩) ++
              body.flowEdges (b + 1) ⟨b, true⟩) ++ [(b, c.target, c.kind .onFalse)])) :=
          firstKind_append_left (firstKind_append_right ih _) _
      _ = firstKind (Pending.into inc ((Stmt.loop cond body).enter b c) ++
            (Stmt.loop cond body).flowEdges b c) := by
          rw [Stmt.enter_eq (Stmt.loop cond body), if_neg (by simp [Stmt.nodeCount])]
          -- the false edge leaves the loop, the body's edges leave the body
          have hswap := firstKind_swap
            (body.flowEdges_ends_ne_of_source b ⟨b, true⟩ c.target (c.kind .onFalse))
            (Pending.into inc ⟨b, false⟩ ++
              Pending.into [(b, .onTrue)] (body.enter (b + 1) ⟨b, true⟩)) []
          simpa [Stmt.flowEdges] using hswap

theorem Stmt.firstKind_edgesInAll_exitsAll : ∀ (items : List Stmt) (b : Nat) (inc : Pending)
    (c : Cont), (c.target < b ∨ b + Stmt.nodeCountAll items ≤ c.target) →
    firstKind (Stmt.edgesInAll items b inc ++ Pending.into (Stmt.exitsAll items b inc) c) =
      firstKind (Pending.into inc (Stmt.enterAll items b c) ++ Stmt.flowEdgesAll items b c)
  | [], b, inc, c, _ => by simp [Stmt.edgesInAll, Stmt.exitsAll, Stmt.flowEdgesAll, Stmt.enterAll_eq,
      Stmt.nodeCountAll]
  | s :: rest, b, inc, c, hc => by
    simp only [Stmt.nodeCountAll] at hc
    have hcs : (Stmt.enterAll rest (b + s.nodeCount) c).target < b ∨
        b + s.nodeCount ≤ (Stmt.enterAll rest (b + s.nodeCount) c).target :=
      Stmt.enterAll_target_fresh (by omega)
    -- the rest continues to `c`; then the first item continues to where the rest is entered
    have ihr := Stmt.firstKind_edgesInAll_exitsAll rest (b + s.nodeCount) (s.exits b inc) c
      (by omega)
    have ihs := Stmt.firstKind_edgesIn_exits s b inc (Stmt.enterAll rest (b + s.nodeCount) c)
      (by omega)
    simp only [Stmt.edgesInAll, Stmt.exitsAll, Stmt.flowEdgesAll, Stmt.enterAll_cons,
      List.append_assoc]
    rw [firstKind_append_left ihr, ← List.append_assoc, firstKind_append_right ihs,
      List.append_assoc]

end

end ReachingDefs
