import ReachingDefs.Proofs.Cfg.Lowering

/-!
# The variables of a built graph carry their names

Lowering creates a variable for every parameter, in order, for every declaration, and for the
first assignment of a name that no declaration binds. Every variable a name is bound to in a
frame of the scope tree, every free variable, and every variable a writing node is bound to has
that name: a declaration creates the variable of its name, and an assignment resolves its name
to a binding of that name or creates a free variable of it. Variables are only ever added, so a
variable keeps its name to the end.

So in a built graph the parameter at position `i` is variable `i`, and a node that writes `x`
writes a variable named `x`.

## Main definitions

* `VarNamed`: a variable handle exists and has a given name
* `Scopes.Bound`: a binding made in some frame of the scope tree
* `Lowering.NamesAgree`: every binding and every bound writing node points at a variable of its
  name
* `ControlFlowGraph.NamedVars`: the parameters and writes of a graph are named by their variables

## Main results

* `Lowering.lower_namesAgree`: lowering keeps the names in agreement
* `Procedure.lower_namedVars`: a procedure's graph names its parameters and writes by their
  variables
-/

namespace ReachingDefs

/-- The variable `v` exists and is named `x`. -/
def VarNamed (vars : Array Variable) (v : Nat) (x : String) : Prop :=
  (vars[v]?).map (·.name) = some x

namespace VarNamed

variable {vars : Array Variable} {v : Nat} {x : String}

/-- A variable has one name. -/
theorem unique {y : String} (h : VarNamed vars v x) (h' : VarNamed vars v y) : x = y :=
  Option.some.inj (h.symm.trans h')

theorem lt_size (h : VarNamed vars v x) : v < vars.size := by
  by_contra hge
  rw [VarNamed, Array.getElem?_eq_none (Nat.le_of_not_lt hge)] at h
  cases h

/-- Adding a variable keeps the names of the others. -/
theorem push (h : VarNamed vars v x) (var : Variable) : VarNamed (vars.push var) v x := by
  rw [VarNamed, Array.getElem?_push, if_neg (Nat.ne_of_lt h.lt_size)]
  exact h

theorem push_self (vars : Array Variable) (var : Variable) :
    VarNamed (vars.push var) vars.size var.name := by
  simp [VarNamed]

end VarNamed

/-- The first binding of a name is a binding of that name. -/
theorem Bindings.mem_of_lookup {b : Bindings} {name : String} {v : Nat}
    (h : b.lookup name = some v) : (name, v) ∈ b := by
  obtain ⟨p, hp, rfl⟩ := Option.map_eq_some_iff.mp h
  have hname : p.1 = name := by simpa using List.find?_some hp
  have hmem := List.mem_of_find?_eq_some hp
  rw [← hname]
  exact hmem

namespace Scopes

/-- `name` is bound to `v` in some frame of the tree. -/
def Bound (s : Scopes) (name : String) (v : Nat) : Prop := ∃ f ∈ s.frames, (name, v) ∈ f.bindings

theorem bound_openFrame {s : Scopes} {p : ScopePoint} {name : String} {v : Nat} :
    (s.openFrame p).1.Bound name v ↔ s.Bound name v := by
  simp [Bound, openFrame, Array.mem_push, or_and_right, exists_or]

@[simp] theorem declare_free (s : Scopes) (p : ScopePoint) (x : String) (id : Nat) :
    (s.declare p x id).1.free = s.free := by
  unfold declare
  split <;> rfl

@[simp] theorem declare_atNode (s : Scopes) (p : ScopePoint) (x : String) (id : Nat) :
    (s.declare p x id).1.atNode = s.atNode := by
  unfold declare
  split <;> rfl

/-- Declaring binds the new name and keeps the old bindings. -/
theorem bound_declare {s : Scopes} {p : ScopePoint} {x name : String} {id v : Nat}
    (h : (s.declare p x id).1.Bound name v) : (name = x ∧ v = id) ∨ s.Bound name v := by
  unfold declare at h
  split at h
  · exact Or.inr h
  · obtain ⟨f, hf, hb⟩ := h
    obtain ⟨i, hi, rfl⟩ := Array.mem_iff_getElem.mp hf
    simp only [Array.getElem_modify] at hb
    split at hb
    · rcases Array.mem_push.mp hb with hb | hb
      · exact Or.inr ⟨_, Array.getElem_mem _, hb⟩
      · simp only [Prod.mk.injEq] at hb
        exact Or.inl hb
    · exact Or.inr ⟨_, Array.getElem_mem _, hb⟩

/-- What a look-up finds is bound in the tree. -/
theorem bound_of_lookup {s : Scopes} {p : ScopePoint} {name : String} {v : Nat}
    (h : s.lookup p name = some v) : s.Bound name v := by
  fun_induction s.lookup p name with
  | case1 => cases h
  | case2 p f hf id hid =>
    cases h
    refine ⟨f, Array.mem_of_getElem? hf, ?_⟩
    exact Array.mem_toList_iff.mp (List.mem_of_mem_take (List.mem_reverse.mp (Bindings.mem_of_lookup hid)))
  | case3 | case5 => cases h
  | case4 p f hf hid q hq hlt ih => exact ih h

end Scopes

namespace Lowering

/-- The variables of `st'` keep the names of the variables of `st`. -/
def VarsGrow (st st' : Lowering) : Prop := ∀ v x, VarNamed st.vars v x → VarNamed st'.vars v x

theorem VarsGrow.refl (st : Lowering) : VarsGrow st st := fun _ _ h => h

theorem VarsGrow.trans {st st' st'' : Lowering} (h : VarsGrow st st') (h' : VarsGrow st' st'') :
    VarsGrow st st'' := fun v x hv => h' v x (h v x hv)

theorem VarsGrow.of_vars_eq {st st' : Lowering} (h : st'.vars = st.vars) : VarsGrow st st' := by
  intro v x hv
  rw [VarNamed, h]
  exact hv

theorem VarsGrow.restore {st st' : Lowering} (h : VarsGrow st st') (p : ScopePoint) :
    VarsGrow st (st'.restore p) := h

theorem VarsGrow.openScope {st st' : Lowering} (h : VarsGrow st st') : VarsGrow st st'.openScope :=
  h

/-- Every binding of the scope tree, every free binding, and every writing node bound to a
variable point at a variable named as they are written. -/
structure NamesAgree (st : Lowering) : Prop where
  bound : ∀ x v, st.scopes.Bound x v → VarNamed st.vars v x
  free : ∀ x v, (x, v) ∈ st.scopes.free → VarNamed st.vars v x
  nodes : ∀ n ∈ st.graph.nodes, ∀ x var, n.stmt.bind Stmt.definedName? = some x →
    n.boundVar = some var → VarNamed st.vars var x

/-! ## The primitives -/

@[simp] theorem connect_vars (st : Lowering) (P : Pending) (t : Nat) :
    (st.connect P t).vars = st.vars := by
  rw [connect_eq]

@[simp] theorem addNode_vars (st : Lowering) (n : CfgNode) (P : Pending) :
    (st.addNode n P).1.vars = st.vars := by
  simp [addNode]

theorem NamesAgree.connect {st : Lowering} (h : st.NamesAgree) (P : Pending) (t : Nat) :
    (st.connect P t).NamesAgree := by
  rw [connect_eq]
  exact ⟨h.bound, h.free, h.nodes⟩

/-- A node bound to no variable can be added. -/
theorem NamesAgree.addNode {st : Lowering} (h : st.NamesAgree) (s : Option Stmt) (k : NodeKind)
    (a : Option Nat) (P : Pending) : (st.addNode ⟨s, k, none, a⟩ P).1.NamesAgree := by
  simp only [Lowering.addNode, Digraph.addNode]
  apply NamesAgree.connect
  refine ⟨h.bound, h.free, ?_⟩
  intro n hn x var hx hb
  rcases Array.mem_push.mp hn with hn | rfl
  · exact h.nodes n hn x var hx hb
  · cases hb

/-- Declaring a new variable and binding its name to it at the current position. -/
theorem NamesAgree.declare {st : Lowering} (h : st.NamesAgree) (var : Variable) :
    ((st.newVariable var).1.declare var.name (st.newVariable var).2).NamesAgree := by
  refine ⟨?_, fun x v hv => ?_, fun n hn x v hx hb => (h.nodes n hn x v hx hb).push var⟩
  · intro x v hv
    rcases Scopes.bound_declare hv with ⟨rfl, rfl⟩ | hv
    · exact VarNamed.push_self st.vars var
    · exact (h.bound x v hv).push var
  · have hv' : (x, v) ∈ st.scopes.free := by simpa [Lowering.declare, newVariable] using hv
    exact (h.free x v hv').push var

theorem varsGrow_declare (st : Lowering) (var : Variable) :
    VarsGrow st ((st.newVariable var).1.declare var.name (st.newVariable var).2) :=
  fun _ _ hv => hv.push var

theorem NamesAgree.advance {st : Lowering} (h : st.NamesAgree) : st.advance.NamesAgree :=
  ⟨h.bound, h.free, h.nodes⟩

/-- A fresh frame binds nothing. -/
theorem NamesAgree.openScope {st : Lowering} (h : st.NamesAgree) : st.openScope.NamesAgree :=
  ⟨fun x v hv => h.bound x v (Scopes.bound_openFrame.mp hv), h.free, h.nodes⟩

/-- Binding a node to a variable named as the node writes. -/
theorem NamesAgree.bind {st : Lowering} (h : st.NamesAgree) {node var : Nat}
    (hvar : ∀ n, st.graph.nodes[node]? = some n →
      ∀ x, n.stmt.bind Stmt.definedName? = some x → VarNamed st.vars var x) :
    (st.bind node var).NamesAgree := by
  refine ⟨h.bound, h.free, ?_⟩
  intro n hn x var' hx hb
  obtain ⟨j, hj⟩ := Array.mem_iff_getElem?.mp hn
  rw [bind_graph_nodes, Array.getElem?_modify] at hj
  split at hj
  · -- the bound node: its statement is the old one, and its variable the new one
    rename_i hnode
    subst hnode
    obtain ⟨m, hm, rfl⟩ := Option.map_eq_some_iff.mp hj
    cases hb
    exact hvar m hm x hx
  · exact h.nodes n (Array.mem_of_getElem? hj) x var' hx hb

theorem varsGrow_resolve (st : Lowering) (name : String) : VarsGrow st (st.resolve name).1 := by
  unfold Lowering.resolve
  split
  · exact VarsGrow.refl st
  · split
    · exact VarsGrow.refl st
    · exact fun _ _ hv => hv.push _

/-- Resolving a name gives a variable of that name, creating a free one if none is visible. -/
theorem NamesAgree.resolve {st : Lowering} (h : st.NamesAgree) (name : String) :
    (st.resolve name).1.NamesAgree ∧ VarNamed (st.resolve name).1.vars (st.resolve name).2 name := by
  unfold Lowering.resolve
  split
  · rename_i v hv
    exact ⟨h, h.bound name v (Scopes.bound_of_lookup hv)⟩
  · split
    · rename_i v hv
      exact ⟨h, h.free name v (Bindings.mem_of_lookup hv)⟩
    · -- a fresh free variable of the name
      refine ⟨⟨fun x v hv => (h.bound x v hv).push _, ?_,
        fun n hn x v hx hb => (h.nodes n hn x v hx hb).push _⟩,
        VarNamed.push_self st.vars _⟩
      intro x v hv
      rcases List.mem_cons.mp hv with hv | hv
      · cases hv
        exact VarNamed.push_self st.vars _
      · exact (h.free x v hv).push _

/-- Going back to an enclosing position keeps the names in agreement. -/
theorem NamesAgree.restore {st : Lowering} (h : st.NamesAgree) (p : ScopePoint) :
    (st.restore p).NamesAgree :=
  ⟨h.bound, h.free, h.nodes⟩

/-! ## Lowering a statement -/

mutual

/-- Lowering only adds variables. -/
theorem lower_varsGrow : ∀ (s : Stmt) (inc : Pending) (st : Lowering),
    VarsGrow st (lower s inc st).2
  | .block items, inc, st => lowerAll_varsGrow items inc st.advance.openScope
  | .declare name init, inc, st => by
    simp only [lower]
    exact (VarsGrow.of_vars_eq (addNode_vars st.advance _ inc)).trans
      (varsGrow_declare (st.advance.addNode _ inc).1 ⟨name, .declared, _⟩)
  | .assign name v, inc, st => by
    simp only [lower]
    exact (VarsGrow.of_vars_eq (addNode_vars st.advance _ inc)).trans
      (varsGrow_resolve (st.advance.addNode _ inc).1 name)
  | .ifThen c t, inc, st => by
    simp only [lower]
    exact ((VarsGrow.of_vars_eq (addNode_vars st.advance _ inc)).openScope.trans (lower_varsGrow t _ _)).restore _
  | .ifElse c t e, inc, st => by
    simp only [lower]
    let node : CfgNode := ⟨some (.ifElse c t e), .branch, none, some st.next⟩
    have hthen := (VarsGrow.of_vars_eq (addNode_vars st.advance node inc)).openScope.trans
      (lower_varsGrow t [((st.advance.addNode node inc).2, .onTrue)] _)
    exact ((hthen.restore _).openScope.trans (lower_varsGrow e _ _)).restore _
  | .loop c b, inc, st => by
    simp only [lower]
    let node : CfgNode := ⟨some (.loop c b), .loop, none, some st.next⟩
    have hbody := (VarsGrow.of_vars_eq (addNode_vars st.advance node inc)).openScope.trans
      (lower_varsGrow b [((st.advance.addNode node inc).2, .onTrue)] _)
    exact (hbody.restore _).trans (VarsGrow.of_vars_eq (connect_vars _ _ _))
  | .ret v, inc, st | .expr v, inc, st => by
    simp only [lower]
    exact VarsGrow.of_vars_eq (addNode_vars _ _ _)

theorem lowerAll_varsGrow : ∀ (items : List Stmt) (inc : Pending) (st : Lowering),
    VarsGrow st (lowerAll items inc st).2
  | [], inc, st => VarsGrow.refl st
  | s :: rest, inc, st => by
    simp only [lowerAll]
    exact (lower_varsGrow s inc st).trans (lowerAll_varsGrow rest _ _)

end

@[simp] theorem getElem?_addNode_graph_nodes (st : Lowering) (n : CfgNode) (P : Pending) :
    (st.addNode n P).1.graph.nodes[(st.addNode n P).2]? = some n := by
  simp

mutual

/-- Lowering keeps every variable named as it is bound and written. -/
theorem lower_namesAgree : ∀ (s : Stmt) (inc : Pending) (st : Lowering),
    st.NamesAgree → (lower s inc st).2.NamesAgree
  | .block items, inc, st, h => (lowerAll_namesAgree items inc _ h.advance.openScope).restore _
  | .declare name init, inc, st, h => by
    simp only [lower]
    refine ((h.advance.addNode _ _ _ inc).declare ⟨name, .declared, _⟩).bind ?_
    intro n hn x hx
    simp only [declare_graph, newVariable_graph, getElem?_addNode_graph_nodes,
      Option.some.injEq] at hn
    subst hn
    have hname : x = name := by
      cases init <;> simp [Stmt.definedName?] at hx
      exact hx.symm
    subst hname
    exact VarNamed.push_self _ _
  | .assign name v, inc, st, h => by
    simp only [lower]
    obtain ⟨hres, hnamed⟩ := (h.advance.addNode _ _ _ inc).resolve name
    refine hres.bind ?_
    intro n hn x hx
    simp only [resolve_graph, getElem?_addNode_graph_nodes, Option.some.injEq] at hn
    subst hn
    simp only [Option.bind_some, Stmt.definedName?, Option.some.injEq] at hx
    subst hx
    exact hnamed
  | .ifThen c t, inc, st, h => by
    simp only [lower]
    exact (lower_namesAgree t _ _
      (h.advance.addNode (some (.ifThen c t)) .branch (some st.next) inc).openScope).restore _
  | .ifElse c t e, inc, st, h => by
    simp only [lower]
    let node : CfgNode := ⟨some (.ifElse c t e), .branch, none, some st.next⟩
    have hthen := lower_namesAgree t [((st.advance.addNode node inc).2, .onTrue)] _
      (h.advance.addNode node.stmt node.kind node.address inc).openScope
    exact (lower_namesAgree e _ _ (hthen.restore _).openScope).restore _
  | .loop c b, inc, st, h => by
    simp only [lower]
    let node : CfgNode := ⟨some (.loop c b), .loop, none, some st.next⟩
    have hbody := lower_namesAgree b [((st.advance.addNode node inc).2, .onTrue)] _
      (h.advance.addNode node.stmt node.kind node.address inc).openScope
    exact (hbody.restore _).connect _ _
  | .ret v, inc, st, h => by
    simp only [lower]
    have hst := h.advance.addNode (some (.ret v)) .ret (some st.next) inc
    exact ⟨hst.bound, hst.free, hst.nodes⟩
  | .expr v, inc, st, h => by
    simp only [lower]
    exact h.advance.addNode _ _ _ inc

theorem lowerAll_namesAgree : ∀ (items : List Stmt) (inc : Pending) (st : Lowering),
    st.NamesAgree → (lowerAll items inc st).2.NamesAgree
  | [], inc, st, h => h
  | s :: rest, inc, st, h => by
    simp only [lowerAll]
    exact lowerAll_namesAgree rest _ _ (lower_namesAgree s inc st h)

end

/-! ## The parameters -/

theorem namesAgree_empty : ({} : Lowering).NamesAgree where
  bound _ _ h := by
    -- the tree starts with one frame and no binding
    obtain ⟨f, hf, hb⟩ := h
    simp only [Scopes.new, List.mem_toArray, List.mem_singleton] at hf
    subst hf
    simp at hb
  free _ _ h := by cases h
  nodes _ h := by simp at h

/-- Declaring the parameters in order names variable `k + i` after the parameter at position
`i`, counting from the `k` variables already there. -/
theorem foldl_declare_namesAgree (params : List String) :
    ∀ (st : Lowering), st.NamesAgree →
      let st' := params.foldl declareParam st
      st'.NamesAgree ∧ VarsGrow st st' ∧
        ∀ i (h : i < params.length), VarNamed st'.vars (st.vars.size + i) params[i] := by
  induction params with
  | nil => exact fun st h => ⟨h, VarsGrow.refl st, fun i hi => absurd hi (Nat.not_lt_zero i)⟩
  | cons p rest ih =>
    intro st h
    obtain ⟨hagree, hgrow, hnamed⟩ := ih _ (h.declare ⟨p, .parameter, none⟩)
    refine ⟨hagree, (varsGrow_declare st _).trans hgrow, ?_⟩
    intro i hi
    cases i with
    | zero => exact hgrow _ _ (VarNamed.push_self st.vars ⟨p, .parameter, none⟩)
    | succ j =>
      have := hnamed j (by simpa using hi)
      simp only [declare_vars, newVariable, Array.size_push] at this
      rw [show st.vars.size + (j + 1) = st.vars.size + 1 + j by omega]
      exact this

theorem ofParams_namesAgree (params : List String) :
    (ofParams params).NamesAgree ∧
      ∀ i (h : i < params.length), VarNamed (ofParams params).vars i params[i] := by
  obtain ⟨hagree, -, hnamed⟩ := foldl_declare_namesAgree params {} namesAgree_empty
  refine ⟨hagree, fun i hi => ?_⟩
  have h := hnamed i hi
  rwa [show ({} : Lowering).vars.size = 0 from rfl, Nat.zero_add] at h

end Lowering

namespace ControlFlowGraph

/-- The variables of a graph are named as the graph uses them: the parameter at position `i`
is variable `i` and has the parameter's name, and a node that writes `x` to a variable writes
a variable named `x`. -/
structure NamedVars (cfg : ControlFlowGraph) : Prop where
  params : ∀ i (h : i < cfg.params.length), VarNamed cfg.vars i cfg.params[i]
  writes : ∀ n ∈ cfg.graph.nodes, ∀ x var, n.stmt.bind Stmt.definedName? = some x →
    n.boundVar = some var → VarNamed cfg.vars var x

end ControlFlowGraph

open Lowering in
/-- A procedure's graph names its parameters and its writes by their variables. -/
theorem Procedure.lower_namedVars (p : Procedure) : p.lower.NamedVars := by
  obtain ⟨h₀, hparams⟩ := ofParams_namesAgree p.params
  have hgrow := lower_varsGrow p.body [] (ofParams p.params).openScope
  -- after the body, the parameters' position comes back, the exit is added and edges are drawn
  have hbody := (lower_namesAgree p.body [] _ h₀.openScope).restore (ofParams p.params).point
  constructor
  · intro i hi
    simp only [Procedure.lower, Procedure.assemble, connect_vars, addNode_vars]
    exact hgrow _ _ (hparams i hi)
  · simp only [Procedure.lower, Procedure.assemble]
    exact (((hbody.addNode none .exit none []).connect _ _).connect _ _).nodes

end ReachingDefs
