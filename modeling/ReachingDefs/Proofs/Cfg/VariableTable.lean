import ReachingDefs.Proofs.Cfg.Resolution
import ReachingDefs.Proofs.Cfg.NodeTable

/-!
# The variable table of a built graph

Lowering makes a variable for each parameter, in order; for each declaration, made at the
declaration's node and bound to it; and for the first assignment of a name that no declaration
binds where it stands, which every later such assignment writes again. This module accounts for
every entry of the table: each is a parameter, the variable of exactly one declaration, or the one
free variable of its name, written by some assignment.

An assignment is bound while the graph is being built, when the free variables of names assigned
further on do not exist yet, while a read is resolved after the build, against the whole free
table. The two agree: an assignment's node is bound to the variable a read of its name resolves
to at that node.

## Main definitions

* `BindsAt`: a node carries a statement and is bound to a variable
* `VarOrigin`: where a variable of a table comes from
* `VarTable`: a variable table accounted for against the nodes and the free bindings of a run

## Main results

* `Lowering.lower_varTable`: lowering keeps the table accounted for
* `Procedure.lower_assign_resolve`: an assignment writes what a read of its name resolves to
* `Procedure.build_variables`: the variable table of a built graph
-/

namespace ReachingDefs

/-- Node `n` of `nodes` carries the statement `s` and is bound to the variable `v`. -/
def BindsAt (nodes : Array CfgNode) (n : Nat) (s : Stmt) (v : Nat) : Prop :=
  ∃ node, nodes[n]? = some node ∧ node.stmt = some s ∧ node.boundVar = some v

/-- Where variable `v`, that is `var`, of a table comes from: the parameter at position `v`,
among the first `k`; a declaration's node bound to `v`; or the free binding of its name, with an
assignment's node bound to `v`. -/
def VarOrigin (k : Nat) (nodes : Array CfgNode) (free : Bindings) (v : Nat) (var : Variable) :
    Prop :=
  (var.kind = .parameter ∧ v < k) ∨
    (var.kind = .declared ∧ ∃ n init, BindsAt nodes n (.declare var.name init) v) ∨
    (var.kind = .free ∧ free.lookup var.name = some v ∧
      ∃ n e, BindsAt nodes n (.assign var.name e) v)

/-- A variable table accounted for against the nodes and the free bindings of a run: the
parameters come first, in order; a declaration's node is bound to a declared variable of its
name, made at that node; and every variable has its origin. -/
structure VarTable (params : List String) (nodes : Array CfgNode) (vars : Array Variable)
    (free : Bindings) : Prop where
  param : ∀ i (h : i < params.length), vars[i]? = some ⟨params[i], .parameter, none⟩
  declared : ∀ n (node : CfgNode) x init, nodes[n]? = some node →
    node.stmt = some (.declare x init) → ∃ v, node.boundVar = some v ∧ vars[v]? = some ⟨x, .declared, some n⟩
  origin : ∀ v var, vars[v]? = some var → VarOrigin params.length nodes free v var

/-! ## Arrays that grow at their end -/

section Push

variable {α : Type} {xs : Array α} {i : Nat} {a b : α}

theorem getElem?_push_of_some (h : xs[i]? = some a) (b : α) : (xs.push b)[i]? = some a := by
  rw [Array.getElem?_push, if_neg (Nat.ne_of_lt (Array.getElem?_eq_some_iff.mp h).1)]
  exact h

/-- Past the old entries, the one pushed is the only one. -/
theorem eq_of_getElem?_push (hi : xs.size ≤ i) (h : (xs.push b)[i]? = some a) :
    i = xs.size ∧ a = b := by
  rw [Array.getElem?_push] at h
  split at h
  · exact ⟨‹_›, (Option.some.inj h).symm⟩
  · rw [Array.getElem?_eq_none hi] at h
    cases h

/-- Past the old nodes, the node pushed and then bound is the only one. -/
theorem eq_of_getElem?_push_bind {nodes : Array CfgNode} {m node : CfgNode} {v : Nat}
    (hi : nodes.size ≤ i)
    (h : ((nodes.push m).modify nodes.size fun c => { c with boundVar := some v })[i]? =
      some node) :
    i = nodes.size ∧ node = { m with boundVar := some v } := by
  rw [Array.getElem?_modify] at h
  split at h
  · rename_i hsize
    subst hsize
    simp only [Array.getElem?_push_size, Option.map_some, Option.some.injEq] at h
    exact ⟨rfl, h.symm⟩
  · obtain ⟨rfl, -⟩ := eq_of_getElem?_push hi h
    contradiction

end Push

variable {ps : List String} {nodes nodes' : Array CfgNode} {vars vars' : Array Variable}
  {free free' : Bindings}

namespace BindsAt

variable {n : Nat} {s : Stmt} {v : Nat}

theorem keeps (h : BindsAt nodes n s v) (hk : KeepsNodes nodes nodes') : BindsAt nodes' n s v := by
  obtain ⟨node, hn, hs, hv⟩ := h
  exact ⟨node, (hk n (Array.getElem?_eq_some_iff.mp hn).1).trans hn, hs, hv⟩

/-- The node pushed and bound last carries its statement and its variable. -/
theorem push_bind (nodes : Array CfgNode) (s : Stmt) (k : NodeKind) (a : Option Nat) (v : Nat) :
    BindsAt ((nodes.push ⟨some s, k, none, a⟩).modify nodes.size
      fun c => { c with boundVar := some v }) nodes.size s v :=
  ⟨⟨some s, k, some v, a⟩, by rw [Array.getElem?_modify, if_pos rfl, Array.getElem?_push_size]; rfl,
    rfl, rfl⟩

end BindsAt

namespace VarOrigin

variable {k v : Nat} {var : Variable}

/-- An origin stays while the nodes are kept and the free bindings only grow. -/
theorem keeps (h : VarOrigin k nodes free v var) (hk : KeepsNodes nodes nodes')
    (hfree : ∀ y w, free.lookup y = some w → free'.lookup y = some w) :
    VarOrigin k nodes' free' v var := by
  rcases h with hp | ⟨hkind, n, init, hb⟩ | ⟨hkind, hf, n, e, hb⟩
  · exact .inl hp
  · exact .inr (.inl ⟨hkind, n, init, hb.keeps hk⟩)
  · exact .inr (.inr ⟨hkind, hfree _ _ hf, n, e, hb.keeps hk⟩)

/-- A free variable is the free binding of its name. -/
theorem free_lookup (h : VarOrigin k nodes free v var) (hkind : var.kind = .free) :
    free.lookup var.name = some v := by
  rcases h with ⟨hp, -⟩ | ⟨hd, -⟩ | ⟨-, hf, -⟩
  · rw [hkind] at hp
    cases hp
  · rw [hkind] at hd
    cases hd
  · exact hf

end VarOrigin

namespace VarTable

/-! ## The steps of a run -/

/-- What a step may do to an accounted table: keep the nodes, the variables and the free
bindings, bind the node of every new declaration to a declared variable made at it, and give
every new variable its origin. -/
theorem grow (h : VarTable ps nodes vars free) (hk : KeepsNodes nodes nodes')
    (hvars : ∀ (v : Nat) (var : Variable), vars[v]? = some var → vars'[v]? = some var)
    (hfree : ∀ y w, free.lookup y = some w → free'.lookup y = some w)
    (hdecl : ∀ n (node : CfgNode) x init, nodes.size ≤ n → nodes'[n]? = some node →
      node.stmt = some (.declare x init) →
        ∃ v, node.boundVar = some v ∧ vars'[v]? = some ⟨x, .declared, some n⟩)
    (hnew : ∀ (v : Nat) (var : Variable), vars.size ≤ v → vars'[v]? = some var →
      VarOrigin ps.length nodes' free' v var) :
    VarTable ps nodes' vars' free' where
  param i hi := hvars _ _ (h.param i hi)
  declared n node x init hn hs := by
    by_cases hlt : n < nodes.size
    · rw [hk n hlt] at hn
      obtain ⟨v, hv, hvar⟩ := h.declared n node x init hn hs
      exact ⟨v, hv, hvars _ _ hvar⟩
    · exact hdecl n node x init (Nat.le_of_not_lt hlt) hn hs
  origin v var hv := by
    by_cases hlt : v < vars.size
    · obtain rfl : var = vars[v] :=
        Option.some.inj (hv.symm.trans (hvars v _ (Array.getElem?_eq_getElem hlt)))
      exact (h.origin v _ (Array.getElem?_eq_getElem hlt)).keeps hk hfree
    · exact hnew v var (Nat.le_of_not_lt hlt) hv

/-- A step that adds nodes declaring nothing, and no variable. -/
theorem quiet (h : VarTable ps nodes vars free) (hk : KeepsNodes nodes nodes')
    (hnew : ∀ n (node : CfgNode) x init, nodes.size ≤ n → nodes'[n]? = some node →
      node.stmt ≠ some (.declare x init)) :
    VarTable ps nodes' vars free :=
  h.grow hk (fun _ _ h => h) (fun _ _ h => h)
    (fun n node x init hn hget hs => absurd hs (hnew n node x init hn hget))
    (fun _ _ hv hget => absurd (Array.getElem?_eq_some_iff.mp hget).1 (Nat.not_lt_of_ge hv))

/-- A node that declares nothing. -/
theorem push (h : VarTable ps nodes vars free) (node : CfgNode)
    (hnode : ∀ x init, node.stmt ≠ some (.declare x init)) :
    VarTable ps (nodes.push node) vars free :=
  h.quiet (KeepsNodes.push node) fun _ _ x init hn hget => by
    rw [(eq_of_getElem?_push hn hget).2]
    exact hnode x init

/-- An assignment bound to a variable that exists. -/
theorem assign (h : VarTable ps nodes vars free) (x : String) (e : Expr) (a : Option Nat)
    (v : Nat) :
    VarTable ps ((nodes.push ⟨some (.assign x e), .assign, none, a⟩).modify nodes.size
      fun c => { c with boundVar := some v }) vars free :=
  h.quiet ((KeepsNodes.push _).modify (Nat.le_refl _) _) fun _ _ y init hn hget => by
    rw [(eq_of_getElem?_push_bind hn hget).2]
    simp

/-- A declaration: its node is bound to a new declared variable of its name, made at it. -/
theorem declare (h : VarTable ps nodes vars free) (x : String) (init : Option Expr)
    (a : Option Nat) :
    VarTable ps ((nodes.push ⟨some (.declare x init), .declare, none, a⟩).modify nodes.size
        fun c => { c with boundVar := some vars.size })
      (vars.push ⟨x, .declared, some nodes.size⟩) free := by
  refine h.grow ((KeepsNodes.push _).modify (Nat.le_refl _) _)
    (fun _ _ hv => getElem?_push_of_some hv _) (fun _ _ h => h) ?_ ?_
  · intro n node y init' hn hget hs
    obtain ⟨rfl, rfl⟩ := eq_of_getElem?_push_bind hn hget
    simp only [Option.some.injEq, Stmt.declare.injEq] at hs
    obtain ⟨rfl, -⟩ := hs
    exact ⟨vars.size, rfl, by simp⟩
  · -- the one new variable is the declared one
    intro v var hv hget
    obtain ⟨rfl, rfl⟩ := eq_of_getElem?_push hv hget
    exact .inr (.inl ⟨rfl, nodes.size, init, BindsAt.push_bind nodes _ _ _ _⟩)

/-- The first assignment of a name with no binding: its node is bound to a new free variable of
the name, which the free bindings now give. -/
theorem assignFresh (h : VarTable ps nodes vars free) (x : String) (e : Expr) (a : Option Nat)
    (hx : free.lookup x = none) :
    VarTable ps ((nodes.push ⟨some (.assign x e), .assign, none, a⟩).modify nodes.size
        fun c => { c with boundVar := some vars.size })
      (vars.push ⟨x, .free, none⟩) ((x, vars.size) :: free) := by
  refine h.grow ((KeepsNodes.push _).modify (Nat.le_refl _) _)
    (fun _ _ hv => getElem?_push_of_some hv _) (fun y w hy => ?_) ?_ ?_
  · -- the name had no free binding, so every bound name keeps its own
    have hne : x ≠ y := by
      rintro rfl
      rw [hx] at hy
      cases hy
    rw [Bindings.lookup_cons, if_neg hne]
    exact hy
  · intro n node y init hn hget hs
    rw [(eq_of_getElem?_push_bind hn hget).2] at hs
    simp at hs
  · intro v var hv hget
    obtain ⟨rfl, rfl⟩ := eq_of_getElem?_push hv hget
    exact .inr (.inr ⟨rfl, by simp [Bindings.lookup_cons], nodes.size, e,
      BindsAt.push_bind nodes _ _ _ _⟩)

/-! ## What an accounted table says -/

/-- No two declarations' nodes are bound to one variable. -/
theorem declared_unique (h : VarTable ps nodes vars free) {n n' v : Nat} {x x' : String}
    {init init' : Option Expr} (hb : BindsAt nodes n (.declare x init) v)
    (hb' : BindsAt nodes n' (.declare x' init') v) : n = n' := by
  obtain ⟨node, hn, hs, hv⟩ := hb
  obtain ⟨node', hn', hs', hv'⟩ := hb'
  obtain ⟨w, hw, hvar⟩ := h.declared n node x init hn hs
  obtain ⟨w', hw', hvar'⟩ := h.declared n' node' x' init' hn' hs'
  rw [hv, Option.some.injEq] at hw
  rw [hv', Option.some.injEq] at hw'
  subst hw hw'
  -- the variable records the one node it was made at
  have hsame := hvar.symm.trans hvar'
  simp only [Option.some.injEq, Variable.mk.injEq] at hsame
  exact hsame.2.2

/-- A name has at most one free variable. -/
theorem free_unique (h : VarTable ps nodes vars free) {v w : Nat} {var var' : Variable}
    (hv : vars[v]? = some var) (hw : vars[w]? = some var') (hk : var.kind = .free)
    (hk' : var'.kind = .free) (hname : var.name = var'.name) : v = w := by
  have hfv := (h.origin v var hv).free_lookup hk
  have hfw := (h.origin w var' hw).free_lookup hk'
  rw [hname, hfw] at hfv
  exact (Option.some.inj hfv).symm

/-- Every variable is a parameter, the variable of exactly one declaration's node, or a free
variable that some assignment's node is bound to. -/
theorem origin_exact (h : VarTable ps nodes vars free) {v : Nat} {var : Variable}
    (hv : vars[v]? = some var) :
    (var.kind = .parameter ∧ v < ps.length) ∨
      (var.kind = .declared ∧ ∃! n, ∃ x init, BindsAt nodes n (.declare x init) v) ∨
      (var.kind = .free ∧ ∃ n e, BindsAt nodes n (.assign var.name e) v) := by
  rcases h.origin v var hv with hp | ⟨hk, n, init, hb⟩ | ⟨hk, -, hw⟩
  · exact .inl hp
  · refine .inr (.inl ⟨hk, n, ⟨var.name, init, hb⟩, ?_⟩)
    rintro n' ⟨x', init', hb'⟩
    exact h.declared_unique hb' hb
  · exact .inr (.inr ⟨hk, hw⟩)

end VarTable

/-! ## Lowering keeps the table accounted for -/

namespace Lowering

variable {st : Lowering}

/-- Moving on to the next address and adding a node that declares nothing. -/
theorem varTable_addNode (h : VarTable ps st.graph.nodes st.vars st.scopes.free)
    (node : CfgNode) (hnode : ∀ x init, node.stmt ≠ some (.declare x init)) (P : Pending) :
    VarTable ps (st.advance.addNode node P).1.graph.nodes (st.advance.addNode node P).1.vars
      (st.advance.addNode node P).1.scopes.free := by
  simpa using h.push node hnode

mutual

/-- **Lowering a statement keeps the variable table accounted for.** -/
theorem lower_varTable : ∀ (s : Stmt) (inc : Pending) (st : Lowering),
    VarTable ps st.graph.nodes st.vars st.scopes.free →
      VarTable ps (lower s inc st).2.graph.nodes (lower s inc st).2.vars
        (lower s inc st).2.scopes.free
  | .block items, inc, st, h => lowerAll_varTable items inc st.advance.openScope h
  | .declare name init, inc, st, h => by
    have hnodes : (lower (.declare name init) inc st).2.graph.nodes =
        (st.graph.nodes.push ⟨some (.declare name init), .declare, none, some st.next⟩).modify
          st.graph.nodes.size (fun c => { c with boundVar := some st.vars.size }) := by
      simp [lower, newVariable]
    have hvars : (lower (.declare name init) inc st).2.vars =
        st.vars.push ⟨name, .declared, some st.graph.nodes.size⟩ := by
      simp [lower, newVariable]
    have hfree : (lower (.declare name init) inc st).2.scopes.free = st.scopes.free := by
      simp [lower, newVariable]
    rw [hnodes, hvars, hfree]
    exact h.declare name init (some st.next)
  | .assign name value, inc, st, h => by
    let st₁ := (st.advance.addNode ⟨some (.assign name value), .assign, none, some st.next⟩ inc).1
    have hst : (lower (.assign name value) inc st).2 =
        (st₁.resolve name).1.bind st.graph.nodes.size (st₁.resolve name).2 := rfl
    rw [hst]
    -- the three ways a name resolves: a declaration, its free variable, or a fresh one
    cases hl : st₁.scopes.lookup st₁.point name with
    | some v =>
      rw [resolve_of_lookup hl]
      simpa [st₁] using h.assign name value (some st.next) v
    | none =>
      cases hf : st₁.scopes.freeVar? name with
      | some v =>
        rw [resolve_of_freeVar hl hf]
        simpa [st₁] using h.assign name value (some st.next) v
      | none =>
        rw [resolve_of_fresh hl hf]
        simpa [st₁, newVariable] using
          h.assignFresh name value (some st.next) (by simpa [st₁, Scopes.freeVar?] using hf)
  | .ifThen c t, inc, st, h => by
    simp only [lower]
    refine lower_varTable t _ _ ?_
    exact varTable_addNode h _ (by simp) inc
  | .ifElse c t e, inc, st, h => by
    simp only [lower]
    let node : CfgNode := ⟨some (.ifElse c t e), .branch, none, some st.next⟩
    have hthen := lower_varTable t [((st.advance.addNode node inc).2, .onTrue)]
      (st.advance.addNode node inc).1.openScope (varTable_addNode h node (by simp [node]) inc)
    refine lower_varTable e _ _ ?_
    exact hthen
  | .loop c b, inc, st, h => by
    simp only [lower]
    let node : CfgNode := ⟨some (.loop c b), .loop, none, some st.next⟩
    have hbody := lower_varTable b [((st.advance.addNode node inc).2, .onTrue)]
      (st.advance.addNode node inc).1.openScope (varTable_addNode h node (by simp [node]) inc)
    simpa using hbody
  | .ret v, inc, st, h => by
    simp only [lower]
    exact varTable_addNode h _ (by simp) inc
  | .expr v, inc, st, h => by
    simp only [lower]
    exact varTable_addNode h _ (by simp) inc

/-- Lowering a sequence keeps the variable table accounted for. -/
theorem lowerAll_varTable : ∀ (items : List Stmt) (inc : Pending) (st : Lowering),
    VarTable ps st.graph.nodes st.vars st.scopes.free →
      VarTable ps (lowerAll items inc st).2.graph.nodes (lowerAll items inc st).2.vars
        (lowerAll items inc st).2.scopes.free
  | [], inc, st, h => h
  | s :: rest, inc, st, h => by
    simp only [lowerAll]
    exact lowerAll_varTable rest _ _ (lower_varTable s inc st h)

end

/-- Declaring parameters adds their variables, in order. -/
theorem foldl_declareParam_vars (params : List String) (st : Lowering) :
    (params.foldl declareParam st).vars.toList =
      st.vars.toList ++ params.map fun x => ⟨x, .parameter, none⟩ := by
  induction params generalizing st with
  | nil => simp
  | cons x rest ih =>
    rw [List.foldl_cons, ih]
    simp [declareParam, newVariable]

/-- After the parameters, the table is the parameters, and there is no node yet. -/
theorem ofParams_varTable (params : List String) :
    VarTable params (ofParams params).graph.nodes (ofParams params).vars
      (ofParams params).scopes.free := by
  have hget : ∀ v : Nat, (ofParams params).vars[v]? =
      (params[v]?).map fun x => (⟨x, .parameter, none⟩ : Variable) := by
    intro v
    have hvars := foldl_declareParam_vars params {}
    rw [← Array.getElem?_toList, ofParams, hvars]
    simp
  refine ⟨fun i hi => by simp [hget, hi], fun n node x init hn => by simp at hn,
    fun v var hv => ?_⟩
  rw [hget] at hv
  obtain ⟨x, hx, rfl⟩ := Option.map_eq_some_iff.mp hv
  exact .inl ⟨rfl, (List.getElem?_eq_some_iff.mp hx).1⟩

end Lowering

/-! ## The variable table of a built graph -/

mutual

theorem Stmt.map_fst_scoped : ∀ (s : Stmt) (b : Nat) (E : Candidates),
    (s.scoped b E).map Prod.fst = s.nodeStmts
  | .block items, b, E => Stmt.map_fst_scopedAll items b E
  | .ifThen _ t, b, E => by simp [Stmt.scoped, Stmt.nodeStmts, Stmt.map_fst_scoped t]
  | .ifElse _ t e, b, E => by
    simp [Stmt.scoped, Stmt.nodeStmts, Stmt.map_fst_scoped t, Stmt.map_fst_scoped e]
  | .loop _ body, b, E => by simp [Stmt.scoped, Stmt.nodeStmts, Stmt.map_fst_scoped body]
  | .declare _ _, _, _ | .assign _ _, _, _ | .ret _, _, _ | .expr _, _, _ => rfl

theorem Stmt.map_fst_scopedAll : ∀ (items : List Stmt) (b : Nat) (E : Candidates),
    (Stmt.scopedAll items b E).map Prod.fst = Stmt.nodeStmtsAll items
  | [], _, _ => rfl
  | s :: rest, b, E => by
    simp [Stmt.scopedAll, Stmt.nodeStmtsAll, Stmt.map_fst_scoped s, Stmt.map_fst_scopedAll rest]

end

theorem mem_freeWritesIn {L : List (Stmt × Candidates)} {m : Nat} {se : Stmt × Candidates}
    {x : String} (hm : L[m]? = some se) (hx : Stmt.freeWrite? se = some x) :
    m ∈ freeWritesIn L x := by
  simp only [freeWritesIn, List.mem_filterMap]
  exact ⟨(se, m), List.mem_zipIdx_iff_getElem?.mpr hm, by simp [hx]⟩

namespace Procedure

open Lowering

/-- The variable table of a procedure's graph is accounted for. -/
theorem lower_varTable (p : Procedure) :
    VarTable p.params p.lower.graph.nodes p.lower.vars p.lower.scopes.free := by
  have hbody := Lowering.lower_varTable p.body [] (ofParams p.params).openScope
    (ofParams_varTable p.params)
  -- the exit node declares nothing, and the edges drawn into it change no node
  have hexit := hbody.push CfgNode.exitNode (by simp [CfgNode.exitNode])
  rw [lower_graph_nodes, lower_scopes]
  simpa [Procedure.lower, Procedure.assemble] using hexit

/-- A node of the body is recorded with its statement and its candidates. -/
theorem scoped_getElem?_of_node {p : Procedure} {n : Nat} {node : CfgNode} {s : Stmt}
    (hn : p.lower.node? n = some node) (hs : node.stmt = some s) :
    ∃ E, (p.body.scoped 0 p.paramCandidates)[n]? = some (s, E) ∧ p.candidatesAt n = some E := by
  have h : ((p.body.scoped 0 p.paramCandidates).map Prod.fst)[n]? = p.body.nodeStmts[n]? := by
    rw [Stmt.map_fst_scoped]
  rw [List.getElem?_map, getElem?_nodeStmts_of_node hn hs] at h
  obtain ⟨⟨s', E⟩, hse, hs'⟩ := Option.map_eq_some_iff.mp h
  cases hs'
  refine ⟨E, hse, ?_⟩
  have hlt := (List.getElem?_eq_some_iff.mp hse).1
  rw [candidatesAt, List.getElem?_append_left (by simpa using hlt), List.getElem?_map, hse]
  rfl

/-- **An assignment writes the variable a read of its name resolves to** at its node: the
variable of its first candidate, or else the free variable of its name, which exists by the end
of the build. -/
theorem lower_assign_resolve {p : Procedure} {n : Nat} {node : CfgNode} {x : String} {e : Expr}
    (hn : p.lower.node? n = some node) (hs : node.stmt = some (.assign x e)) :
    ∃ v, p.lower.boundVar? n = some v ∧ p.lower.resolve n x = some v := by
  obtain ⟨E, hse, hE⟩ := scoped_getElem?_of_node hn hs
  rw [lower_resolve, hE]
  dsimp only
  cases hβ : E.lookup x with
  | some β =>
    -- a candidate binds the name, and the node was bound to its variable
    dsimp only
    exact lower_boundVar?_of_boundWrite p (by simp [hse, Stmt.boundWrite?, hβ])
  | none =>
    -- no candidate: the node writes the free variable of its name, which therefore exists
    dsimp only
    have hm : n ∈ p.freeWrites x := mem_freeWritesIn hse (by simp [Stmt.freeWrite?, hβ])
    obtain ⟨v, hv⟩ := Option.isSome_iff_exists.mp
      ((lower_freeVar?_isSome p x).mpr (List.ne_nil_of_mem hm))
    exact ⟨v, (lower_boundVar?_of_freeWrite p hm).trans hv, hv⟩

/-- **The variable table of a built graph.** The parameters are the first variables, in order.
The node of every declaration is bound to a declared variable of its name, made at that node, so
no two declarations share a variable. The node of every assignment of `x` is bound to a variable
named `x`: the one a read of `x` resolves to at that node, after the build. A name has at most one
free variable, and every variable is a parameter, the variable of exactly one declaration, or a
free variable that the node of some assignment of its name is bound to. -/
theorem build_variables {p : Procedure} {cfg : ControlFlowGraph} (hbuild : p.build = .ok cfg) :
    (∀ i (h : i < p.params.length), cfg.vars[i]? = some ⟨p.params[i], .parameter, none⟩) ∧
    (∀ n x init, (cfg.node? n).bind (·.stmt) = some (.declare x init) →
      ∃ v, cfg.boundVar? n = some v ∧ cfg.vars[v]? = some ⟨x, .declared, some n⟩) ∧
    (∀ n n' x x' init init' v, BindsAt cfg.graph.nodes n (.declare x init) v →
      BindsAt cfg.graph.nodes n' (.declare x' init') v → n = n') ∧
    (∀ n x e, (cfg.node? n).bind (·.stmt) = some (.assign x e) →
      ∃ v, cfg.boundVar? n = some v ∧ cfg.resolve n x = some v ∧ VarNamed cfg.vars v x) ∧
    (∀ (v w : Nat) (var var' : Variable), cfg.vars[v]? = some var → cfg.vars[w]? = some var' →
      var.kind = .free → var'.kind = .free → var.name = var'.name → v = w) ∧
    ∀ v (var : Variable), cfg.vars[v]? = some var →
      (var.kind = .parameter ∧ v < p.params.length) ∨
      (var.kind = .declared ∧ ∃! n, ∃ x init, BindsAt cfg.graph.nodes n (.declare x init) v) ∨
      (var.kind = .free ∧ ∃ n e, BindsAt cfg.graph.nodes n (.assign var.name e) v) := by
  obtain ⟨-, rfl⟩ := build_eq_ok.mp hbuild
  have h := p.lower_varTable
  refine ⟨h.param, fun n x init hn => ?_, fun _ _ _ _ _ _ _ hb hb' => h.declared_unique hb hb',
    fun n x e hn => ?_, fun _ _ _ _ hv hw hk hk' hname => h.free_unique hv hw hk hk' hname,
    fun _ _ hv => h.origin_exact hv⟩
  · obtain ⟨node, hnode, hs⟩ := Option.bind_eq_some_iff.mp hn
    obtain ⟨v, hbv, hvar⟩ := h.declared n node x init hnode hs
    exact ⟨v, by simp [ControlFlowGraph.boundVar?, hnode, hbv], hvar⟩
  · obtain ⟨node, hnode, hs⟩ := Option.bind_eq_some_iff.mp hn
    obtain ⟨v, hbv, hres⟩ := lower_assign_resolve hnode hs
    have hbound : node.boundVar = some v := by
      simpa [ControlFlowGraph.boundVar?, hnode] using hbv
    exact ⟨v, hbv, hres, p.lower_namedVars.writes node (Array.mem_of_getElem? hnode) x v
      (by simp [hs, Stmt.definedName?]) hbound⟩

/-- A declaration shadowed in a block, an assignment of the inner one, and two assignments of an
undeclared name, one of them inside a branch, which share its free variable. -/
theorem build_variables_shadowing :
    let p : Procedure := ⟨"f", ["a", "b"], .block [.declare "x" none,
      .block [.declare "x" (some (.name "a")), .assign "x" (.name "b")],
      .assign "y" (.name "x"), .ifThen (.name "a") (.assign "y" (.literal "1")),
      .assign "a" (.name "y")]⟩
    let cfg := p.lower
    p.build = .ok cfg ∧
    (∀ i (h : i < p.params.length), cfg.vars[i]? = some ⟨p.params[i], .parameter, none⟩) ∧
    (∀ n x init, (cfg.node? n).bind (·.stmt) = some (.declare x init) →
      ∃ v, cfg.boundVar? n = some v ∧ cfg.vars[v]? = some ⟨x, .declared, some n⟩) ∧
    (∀ n n' x x' init init' v, BindsAt cfg.graph.nodes n (.declare x init) v →
      BindsAt cfg.graph.nodes n' (.declare x' init') v → n = n') ∧
    (∀ n x e, (cfg.node? n).bind (·.stmt) = some (.assign x e) →
      ∃ v, cfg.boundVar? n = some v ∧ cfg.resolve n x = some v ∧ VarNamed cfg.vars v x) ∧
    (∀ (v w : Nat) (var var' : Variable), cfg.vars[v]? = some var → cfg.vars[w]? = some var' →
      var.kind = .free → var'.kind = .free → var.name = var'.name → v = w) ∧
    ∀ v (var : Variable), cfg.vars[v]? = some var →
      (var.kind = .parameter ∧ v < p.params.length) ∨
      (var.kind = .declared ∧ ∃! n, ∃ x init, BindsAt cfg.graph.nodes n (.declare x init) v) ∨
      (var.kind = .free ∧ ∃ n e, BindsAt cfg.graph.nodes n (.assign var.name e) v) := by
  intro p
  have hbuild : p.build = .ok p.lower := build_eq_ok.mpr ⟨rfl, rfl⟩
  exact ⟨hbuild, build_variables hbuild⟩

/-- The table of that procedure: the parameters, the two declarations of `x`, and one free `y`. -/
example : (⟨"f", ["a", "b"], .block [.declare "x" none,
    .block [.declare "x" (some (.name "a")), .assign "x" (.name "b")],
    .assign "y" (.name "x"), .ifThen (.name "a") (.assign "y" (.literal "1")),
    .assign "a" (.name "y")]⟩ : Procedure).lower.vars.toList =
    [⟨"a", .parameter, none⟩, ⟨"b", .parameter, none⟩, ⟨"x", .declared, some 0⟩,
      ⟨"x", .declared, some 1⟩, ⟨"y", .free, none⟩] := by
  decide +kernel

end Procedure

end ReachingDefs
