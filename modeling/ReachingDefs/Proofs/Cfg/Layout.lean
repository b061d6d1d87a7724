import ReachingDefs.Proofs.Cfg.Lowering

/-!
# Where each statement's node lies

Lowering lays the nodes out in source pre-order: a statement numbered from `b` owns the nodes
`b, …, b + nodeCount - 1`, its own node first unless it is a block, then the nodes of the
statements inside it. `Stmt.nodeStmts` lists the statements that become nodes in that order,
and `Stmt.Occurs` says where a statement sits inside another, with the number its nodes start
at. A node of a built graph carries the statement it is numbered for, and that statement's kind.

## Main definitions

* `Stmt.nodeStmts`: the statements that become nodes, in the order of their nodes
* `Stmt.Occurs`: a statement and its first number, inside another statement and its own

## Main results

* `Lowering.lower_shapes`: lowering appends one node per statement of `nodeStmts`
* `Stmt.Occurs.range`, `Stmt.Occurs.nodeStmts`: an inner statement's nodes lie within the
  outer one's, and the first of them is its own
* `Procedure.lower_node_of_occurs`: the node of a statement of the body carries it
-/

namespace ReachingDefs

/-- What a node shows of itself: its statement and its kind. -/
def CfgNode.shape (n : CfgNode) : Option Stmt × Option NodeKind := (n.stmt, some n.kind)

/-- The statement and the kind of the node a statement becomes. -/
def Stmt.nodeShape (s : Stmt) : Option Stmt × Option NodeKind := (some s, s.kind?)

mutual

/-- The statements inside a statement that become nodes, itself included unless it is a block,
in source pre-order. -/
def Stmt.nodeStmts : Stmt → List Stmt
  | .block items => Stmt.nodeStmtsAll items
  | s@(.ifThen _ t) => s :: t.nodeStmts
  | s@(.ifElse _ t e) => s :: (t.nodeStmts ++ e.nodeStmts)
  | s@(.loop _ body) => s :: body.nodeStmts
  | s@(.declare _ _) | s@(.assign _ _) | s@(.ret _) | s@(.expr _) => [s]

/-- The statements of a sequence that become nodes, one statement after another. -/
def Stmt.nodeStmtsAll : List Stmt → List Stmt
  | [] => []
  | s :: rest => s.nodeStmts ++ Stmt.nodeStmtsAll rest

end

mutual

theorem Stmt.length_nodeStmts : ∀ s : Stmt, s.nodeStmts.length = s.nodeCount
  | .block items => Stmt.length_nodeStmtsAll items
  | .ifThen _ t => by simp [Stmt.nodeStmts, Stmt.nodeCount, Stmt.length_nodeStmts t]
  | .ifElse _ t e => by
    simp [Stmt.nodeStmts, Stmt.nodeCount, Stmt.length_nodeStmts t, Stmt.length_nodeStmts e]
  | .loop _ body => by simp [Stmt.nodeStmts, Stmt.nodeCount, Stmt.length_nodeStmts body]
  | .declare _ _ | .assign _ _ | .ret _ | .expr _ => rfl

theorem Stmt.length_nodeStmtsAll : ∀ items : List Stmt,
    (Stmt.nodeStmtsAll items).length = Stmt.nodeCountAll items
  | [] => rfl
  | s :: rest => by
    simp [Stmt.nodeStmtsAll, Stmt.nodeCountAll, Stmt.length_nodeStmts s,
      Stmt.length_nodeStmtsAll rest]

end

/-- A statement that is not a block heads its own list. -/
theorem Stmt.nodeStmts_head {s : Stmt} (hs : s.isBlock = false) : s.nodeStmts[0]? = some s := by
  cases s <;> simp_all [Stmt.nodeStmts, Stmt.isBlock]

namespace Lowering

@[simp] theorem bind_shapes (st : Lowering) (node var : Nat) :
    (st.bind node var).graph.nodes.toList.map CfgNode.shape =
      st.graph.nodes.toList.map CfgNode.shape := by
  apply List.ext_getElem?
  intro i
  simp only [bind_graph_nodes, List.getElem?_map, Array.getElem?_toList, Array.getElem?_modify]
  split <;> cases st.graph.nodes[i]? <;> rfl

mutual

/-- **Lowering lays out the statement's nodes in pre-order.** It appends one node per
statement of `nodeStmts`, each carrying its statement and that statement's kind. -/
theorem lower_shapes : ∀ (s : Stmt) (inc : Pending) (st : Lowering),
    (lower s inc st).2.graph.nodes.toList.map CfgNode.shape =
      st.graph.nodes.toList.map CfgNode.shape ++ s.nodeStmts.map Stmt.nodeShape
  | .block items, inc, st => by
    simpa only [lower, restore_graph, openScope_graph, advance_graph, Stmt.nodeStmts] using
      lowerAll_shapes items inc st.advance.openScope
  | .declare _ _, inc, st | .assign _ _, inc, st => by
    -- binding the node to its variable changes neither its statement nor its kind
    simp only [lower]
    rw [bind_shapes]
    simp [Stmt.nodeStmts, CfgNode.shape, Stmt.nodeShape, Stmt.kind?]
  | .ret _, inc, st | .expr _, inc, st => by
    simp [lower, Stmt.nodeStmts, CfgNode.shape, Stmt.nodeShape, Stmt.kind?]
  | .ifThen _ t, inc, st => by
    simp [lower, Stmt.nodeStmts, lower_shapes t, CfgNode.shape, Stmt.nodeShape, Stmt.kind?]
  | .ifElse _ t e, inc, st => by
    simp [lower, Stmt.nodeStmts, lower_shapes t, lower_shapes e, CfgNode.shape, Stmt.nodeShape,
      Stmt.kind?]
  | .loop _ body, inc, st => by
    simp [lower, Stmt.nodeStmts, lower_shapes body, CfgNode.shape, Stmt.nodeShape, Stmt.kind?]

theorem lowerAll_shapes : ∀ (items : List Stmt) (inc : Pending) (st : Lowering),
    (lowerAll items inc st).2.graph.nodes.toList.map CfgNode.shape =
      st.graph.nodes.toList.map CfgNode.shape ++ (Stmt.nodeStmtsAll items).map Stmt.nodeShape
  | [], inc, st => by simp [lowerAll, Stmt.nodeStmtsAll]
  | s :: rest, inc, st => by
    simp [lowerAll, Stmt.nodeStmtsAll, lowerAll_shapes rest, lower_shapes s]

end

/-! ## Addresses

A statement's address is its position in the pre-order of the body, blocks counted. The cursor
`next` walks that pre-order: every statement, a block included, takes the address it finds and
moves the cursor on, and every statement that is not a block hands its address to its node. -/

@[simp] theorem bind_addresses (st : Lowering) (node var : Nat) :
    (st.bind node var).graph.nodes.toList.map CfgNode.address =
      st.graph.nodes.toList.map CfgNode.address := by
  apply List.ext_getElem?
  intro i
  simp only [bind_graph_nodes, List.getElem?_map, Array.getElem?_toList, Array.getElem?_modify]
  split <;> cases st.graph.nodes[i]? <;> rfl

mutual

/-- Lowering moves the cursor past every statement of the pre-order, blocks included. -/
theorem lower_next : ∀ (s : Stmt) (inc : Pending) (st : Lowering),
    (lower s inc st).2.next = st.next + s.preorder.length
  | .block items, inc, st => by
    simp only [lower, restore_next, lowerAll_next items inc st.advance.openScope, openScope_next,
      advance_next, Stmt.preorder, List.length_cons]
    omega
  | .declare _ _, inc, st | .assign _ _, inc, st => by simp [lower, Stmt.preorder]
  | .ret _, inc, st | .expr _, inc, st => by simp [lower, Stmt.preorder]
  | .ifThen _ t, inc, st => by
    simp [lower, Stmt.preorder, lower_next t]
    omega
  | .ifElse _ t e, inc, st => by
    simp [lower, Stmt.preorder, lower_next t, lower_next e]
    omega
  | .loop _ body, inc, st => by
    simp [lower, Stmt.preorder, lower_next body]
    omega

theorem lowerAll_next : ∀ (items : List Stmt) (inc : Pending) (st : Lowering),
    (lowerAll items inc st).2.next = st.next + (Stmt.preorderAll items).length
  | [], inc, st => by simp [lowerAll]
  | s :: rest, inc, st => by
    simp [lowerAll, lowerAll_next rest, lower_next s]
    omega

end

mutual

/-- **Lowering addresses each node by its statement's position.** The nodes it appends carry, in
order, the positions from the cursor on of the statements of the pre-order that are not
blocks. -/
theorem lower_addresses : ∀ (s : Stmt) (inc : Pending) (st : Lowering),
    (lower s inc st).2.graph.nodes.toList.map CfgNode.address =
      st.graph.nodes.toList.map CfgNode.address ++
        ((s.preorder.zipIdx st.next).filter fun e => !e.1.isBlock).map fun e => some e.2
  | .block items, inc, st => by
    simpa [lower, Stmt.preorder, Stmt.isBlock] using
      lowerAll_addresses items inc st.advance.openScope
  | .declare _ _, inc, st | .assign _ _, inc, st => by
    simp only [lower]
    rw [bind_addresses]
    simp [Stmt.preorder, Stmt.isBlock]
  | .ret _, inc, st | .expr _, inc, st => by simp [lower, Stmt.preorder, Stmt.isBlock]
  | .ifThen _ t, inc, st => by
    simp [lower, Stmt.preorder, Stmt.isBlock, lower_addresses t]
  | .ifElse _ t e, inc, st => by
    -- the else branch starts where the then branch left the cursor
    simp [lower, Stmt.preorder, Stmt.isBlock, lower_addresses t, lower_addresses e, lower_next t,
      List.zipIdx_append, Nat.add_assoc]
  | .loop _ body, inc, st => by
    simp [lower, Stmt.preorder, Stmt.isBlock, lower_addresses body]

theorem lowerAll_addresses : ∀ (items : List Stmt) (inc : Pending) (st : Lowering),
    (lowerAll items inc st).2.graph.nodes.toList.map CfgNode.address =
      st.graph.nodes.toList.map CfgNode.address ++
        (((Stmt.preorderAll items).zipIdx st.next).filter fun e => !e.1.isBlock).map
          fun e => some e.2
  | [], inc, st => by simp [lowerAll]
  | s :: rest, inc, st => by
    simp [lowerAll, lowerAll_addresses rest, lower_addresses s, lower_next s, List.zipIdx_append]

end

end Lowering

/-! ## Statements inside statements -/

/-- `T`, numbered from `b'`, is a statement of `s`, numbered from `b`: `s` itself, or a statement
of one of its parts numbered as lowering numbers that part. -/
inductive Stmt.Occurs : Stmt → Nat → Stmt → Nat → Prop where
  | here (s : Stmt) (b : Nat) : Stmt.Occurs s b s b
  | ifThen {cond : Expr} {t : Stmt} {b : Nat} {T : Stmt} {b' : Nat} :
      Stmt.Occurs t (b + 1) T b' → Stmt.Occurs (.ifThen cond t) b T b'
  | ifElse_then {cond : Expr} {t e : Stmt} {b : Nat} {T : Stmt} {b' : Nat} :
      Stmt.Occurs t (b + 1) T b' → Stmt.Occurs (.ifElse cond t e) b T b'
  | ifElse_else {cond : Expr} {t e : Stmt} {b : Nat} {T : Stmt} {b' : Nat} :
      Stmt.Occurs e (b + 1 + t.nodeCount) T b' → Stmt.Occurs (.ifElse cond t e) b T b'
  | loop {cond : Expr} {body : Stmt} {b : Nat} {T : Stmt} {b' : Nat} :
      Stmt.Occurs body (b + 1) T b' → Stmt.Occurs (.loop cond body) b T b'
  | head {s : Stmt} {rest : List Stmt} {b : Nat} {T : Stmt} {b' : Nat} :
      Stmt.Occurs s b T b' → Stmt.Occurs (.block (s :: rest)) b T b'
  | tail {s : Stmt} {rest : List Stmt} {b : Nat} {T : Stmt} {b' : Nat} :
      Stmt.Occurs (.block rest) (b + s.nodeCount) T b' → Stmt.Occurs (.block (s :: rest)) b T b'

namespace Stmt.Occurs

variable {s T : Stmt} {b b' : Nat}

/-- A statement inside a statement inside `s` is inside `s`. -/
theorem trans {t : Stmt} {b₁ : Nat} (h₁ : Stmt.Occurs s b t b₁)
    (h₂ : Stmt.Occurs t b₁ T b') : Stmt.Occurs s b T b' := by
  induction h₁ with
  | here => exact h₂
  | ifThen _ ih => exact .ifThen (ih h₂)
  | ifElse_then _ ih => exact .ifElse_then (ih h₂)
  | ifElse_else _ ih => exact .ifElse_else (ih h₂)
  | loop _ ih => exact .loop (ih h₂)
  | head _ ih => exact .head (ih h₂)
  | tail _ ih => exact .tail (ih h₂)

/-- The nodes of a statement inside another lie among the other's. -/
theorem range (h : Stmt.Occurs s b T b') : b ≤ b' ∧ b' + T.nodeCount ≤ b + s.nodeCount := by
  induction h with
  | here => omega
  | ifThen _ ih | loop _ ih =>
    simp only [Stmt.nodeCount] at ih ⊢
    omega
  | ifElse_then _ ih | ifElse_else _ ih =>
    simp only [Stmt.nodeCount] at ih ⊢
    omega
  | head _ ih | tail _ ih =>
    simp only [Stmt.nodeCount, Stmt.nodeCountAll] at ih ⊢
    omega

/-- A statement inside another that is not a block is the one listed at its first number. -/
theorem nodeStmts (h : Stmt.Occurs s b T b') (hT : T.isBlock = false) :
    s.nodeStmts[b' - b]? = some T := by
  induction h with
  | here => simpa using Stmt.nodeStmts_head hT
  | @ifThen cond t b T b' h ih | @loop cond t b T b' h ih =>
    have hb := h.range.1
    rw [show b' - b = (b' - (b + 1)) + 1 by omega]
    simpa [Stmt.nodeStmts] using ih hT
  | @ifElse_then cond t e b T b' h ih =>
    have hlt : b' - (b + 1) < t.nodeStmts.length := (List.getElem?_eq_some_iff.mp (ih hT)).1
    rw [show b' - b = (b' - (b + 1)) + 1 by have := h.range.1; omega]
    simp [Stmt.nodeStmts, List.getElem?_append_left hlt, ih hT]
  | @ifElse_else cond t e b T b' h ih =>
    have hb := h.range.1
    rw [show b' - b = (t.nodeStmts.length + (b' - (b + 1 + t.nodeCount))) + 1 by
      rw [Stmt.length_nodeStmts]; omega]
    simp [Stmt.nodeStmts, List.getElem?_append_right, ih hT]
  | @head s rest b T b' h ih =>
    have hlt : b' - b < s.nodeStmts.length := (List.getElem?_eq_some_iff.mp (ih hT)).1
    simp [Stmt.nodeStmts, Stmt.nodeStmtsAll, List.getElem?_append_left hlt, ih hT]
  | @tail s rest b T b' h ih =>
    have hb := h.range.1
    rw [show b' - b = s.nodeStmts.length + (b' - (b + s.nodeCount)) by
      rw [Stmt.length_nodeStmts]; omega]
    simpa [Stmt.nodeStmts, Stmt.nodeStmtsAll, List.getElem?_append_right] using ih hT

end Stmt.Occurs

namespace Procedure

open Lowering

/-- A procedure's graph has the body's nodes in pre-order, then the exit. -/
theorem lower_shapes (p : Procedure) :
    p.lower.graph.nodes.toList.map CfgNode.shape =
      p.body.nodeStmts.map Stmt.nodeShape ++ [CfgNode.exitNode.shape] := by
  simp [Procedure.lower, Procedure.assemble, Lowering.lower_shapes]

/-- **The node of a statement carries it.** A statement of the body that is not a block has its
node at its first number, with the statement and the kind it becomes. -/
theorem lower_node_of_occurs {p : Procedure} {T : Stmt} {v : Nat}
    (h : Stmt.Occurs p.body 0 T v) (hT : T.isBlock = false) :
    ∃ n, p.lower.node? v = some n ∧ n.stmt = some T ∧ some n.kind = T.kind? := by
  have hnode := congrArg (·[v]?) (lower_shapes p)
  simp only [List.getElem?_map, Array.getElem?_toList] at hnode
  have hat := h.nodeStmts hT
  rw [Nat.sub_zero] at hat
  have hlt : v < p.body.nodeStmts.length := (List.getElem?_eq_some_iff.mp hat).1
  rw [List.getElem?_append_left (by simpa using hlt), List.getElem?_map, hat] at hnode
  cases hn : p.lower.graph.nodes[v]? with
  | none => simp [hn] at hnode
  | some n =>
    simp only [hn, Option.map_some, Option.some.injEq, CfgNode.shape, Stmt.nodeShape,
      Prod.mk.injEq] at hnode
    exact ⟨n, hn, hnode.1, hnode.2⟩

end Procedure

end ReachingDefs
