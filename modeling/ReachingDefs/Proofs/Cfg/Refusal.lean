import ReachingDefs.Proofs.Cfg.ScopeTree
import ReachingDefs.Proofs.Cfg.Indexed

/-!
# When a procedure is refused

Building checks each name as it reaches it. The parameters are declared one after another in
the root frame, and a parameter is refused when its name is empty or already bound there. The
body is lowered with a declaration or an assignment refused, before its node is added, when its
name is empty, and the first refusal ends the build.

Every edge goes into the graph through its checked `addEdge`, which would refuse an edge from or
to a node the graph does not have. It never does: lowering keeps the state indexed
(`Lowering.Indexed`), every edge it holds pending leaving a node it made, and it wires them into
the node it has just made or into an enclosing loop node (`Lowering.connectChecked_eq`).

The checks touch nothing that lowering reads, so the same build is: the first fault read off
the syntax (the parameters in order, then the body in source pre-order), or else the plain
lowering. Lowering a statement with its checks refuses with the statement's first fault in
pre-order, or lowers it (`Lowering.lowerChecked_eq`), since the checked lowering visits the
statement and what is inside it in pre-order and stops at the first refusal. A name is bound in
the root frame exactly when an earlier parameter has it (`Lowering.new_eq`), since declaring
at the end of the root frame puts each parameter in front of the view.

## Main definitions

* `Stmt.firstFault?`: the first refused statement inside a statement, in pre-order

## Main results

* `Lowering.connectChecked_eq`, `Lowering.addNodeChecked_eq`: from an indexed state the graph
  takes every edge lowering asks for
* `Lowering.lowerChecked_eq`, `Lowering.new_eq`: each check refuses with the first fault
* `Procedure.build_eq`: a procedure is refused with its first fault, or built into its lowering
-/

namespace ReachingDefs

/-- The fault of the first statement inside `s`, itself included, in source pre-order. -/
def Stmt.firstFault? (s : Stmt) : Option BuildError := s.preorder.findSome? Stmt.ownFault?

namespace Stmt

-- A statement that nests others has no fault of its own, so its first fault is theirs.

theorem firstFault?_block (items : List Stmt) :
    (Stmt.block items).firstFault? = (Stmt.preorderAll items).findSome? Stmt.ownFault? := rfl

theorem firstFault?_ifThen (c : Expr) (t : Stmt) :
    (Stmt.ifThen c t).firstFault? = t.firstFault? := rfl

theorem firstFault?_ifElse (c : Expr) (t e : Stmt) :
    (Stmt.ifElse c t e).firstFault? = t.firstFault?.or e.firstFault? :=
  List.findSome?_append

theorem firstFault?_loop (c : Expr) (body : Stmt) :
    (Stmt.loop c body).firstFault? = body.firstFault? := rfl

theorem findSome?_preorderAll_cons (s : Stmt) (rest : List Stmt) :
    (Stmt.preorderAll (s :: rest)).findSome? Stmt.ownFault? =
      s.firstFault?.or ((Stmt.preorderAll rest).findSome? Stmt.ownFault?) := by
  simp [firstFault?, List.findSome?_append]

end Stmt

namespace Lowering

/-! ## The graph takes every edge -/

variable {st : Lowering} {P : Pending}

theorem connectChecked_cons (st : Lowering) (source : Nat) (kind : EdgeKind) (rest : Pending)
    (t : Nat) :
    st.connectChecked ((source, kind) :: rest) t =
      (if st.graph.containsEdge source t then pure st
        else match st.graph.addEdge source t kind with
          | .ok graph => pure { st with graph }
          | .error err => throw (.graph err)) >>= fun st => st.connectChecked rest t := rfl

/-- **Connecting from an indexed state never refuses**: every pending edge leaves a node, and the
target is a node, so the graph takes each edge `connect` adds. -/
theorem connectChecked_eq (h : st.Indexed P) {t : Nat} (ht : t < st.graph.nodeCount) :
    st.connectChecked P t = .ok (st.connect P t) := by
  induction P generalizing st with
  | nil => rfl
  | cons e rest ih =>
    obtain ⟨source, kind⟩ := e
    have hsource : source < st.graph.nodeCount := h.pending_lt _ List.mem_cons_self
    rw [connectChecked_cons, connect_cons]
    by_cases hjoined : st.graph.containsEdge source t = true
    · rw [if_pos hjoined, if_pos hjoined]
      exact ih h.of_cons ht
    · rw [if_neg hjoined, if_neg hjoined, Digraph.addEdge_of_lt kind hsource ht]
      exact ih (h.of_cons.link hsource ht kind) ht

/-- Adding a node to an indexed state and wiring the pending edges into it never refuses. -/
theorem addNodeChecked_eq (h : st.Indexed P) (n : CfgNode) :
    st.addNodeChecked n P = .ok (st.addNode n P) := by
  have hnew : (st.graph.addNode n).2 < (st.graph.addNode n).1.nodeCount := by
    simp [Digraph.addNode, Digraph.nodeCount]
  simp only [addNodeChecked, addNode]
  rw [connectChecked_eq (h.unwired n) hnew]
  rfl

/-! ## Lowering with the checks -/

private theorem ok_bind {α β : Type} (a : α) (f : α → Except BuildError β) :
    (Except.ok a >>= f) = f a := rfl

/-- The pair `addNode` returns, split into the state and the new node. -/
private theorem addNode_eq_pair (st : Lowering) (n : CfgNode) (P : Pending) :
    st.addNode n P = ((st.addNode n P).1, st.graph.nodes.size) := rfl

/-- Continuing after a check that may refuse. -/
private theorem elim_bind {α β : Type} (fault : Option BuildError) (a : α)
    (f : α → Except BuildError β) :
    fault.elim (.ok a) .error >>= f = fault.elim (f a) .error := by
  cases fault <;> rfl

mutual

/-- **Lowering with the checks refuses with the first fault in pre-order, or lowers.** From an
indexed state the edge checks never refuse, so only the name checks can. -/
theorem lowerChecked_eq : ∀ (s : Stmt) (inc : Pending) (st : Lowering), st.Indexed inc →
    lowerChecked s inc st = s.firstFault?.elim (.ok (lower s inc st)) .error
  | .block items, inc, st, h => by
    rw [lowerChecked, lowerAllChecked_eq items inc st.advance.openScope h.advance.openScope,
      elim_bind, Stmt.firstFault?_block]
    cases (Stmt.preorderAll items).findSome? Stmt.ownFault? <;> rfl
  | .declare name init, inc, st, h => by
    simp only [lowerChecked, checkName, addNodeChecked_eq h.advance, Stmt.firstFault?,
      Stmt.preorder, List.findSome?_cons, Stmt.ownFault?, List.findSome?_nil]
    cases name.isEmpty <;> rfl
  | .assign name v, inc, st, h => by
    simp only [lowerChecked, checkName, addNodeChecked_eq h.advance, Stmt.firstFault?,
      Stmt.preorder, List.findSome?_cons, Stmt.ownFault?, List.findSome?_nil]
    cases name.isEmpty <;> rfl
  | .ifThen c t, inc, st, h => by
    have h₁ := indexed_addNode h.advance ⟨some (.ifThen c t), .branch, none, some st.next⟩ .onTrue
    rw [lowerChecked, addNodeChecked_eq h.advance, ok_bind, addNode_eq_pair,
      Stmt.firstFault?_ifThen]
    dsimp only
    rw [lowerChecked_eq t _ _ h₁.openScope]
    cases t.firstFault? <;> rfl
  | .ifElse c t e, inc, st, h => by
    have h₁ := indexed_addNode h.advance ⟨some (.ifElse c t e), .branch, none, some st.next⟩
      .onTrue
    have h₃ := (lower_indexed t _ _ h₁.openScope).elseEntry
    rw [lowerChecked, addNodeChecked_eq h.advance, ok_bind, addNode_eq_pair,
      Stmt.firstFault?_ifElse]
    dsimp only
    rw [lowerChecked_eq t _ _ h₁.openScope]
    cases t.firstFault? with
    | some err => rfl
    | none =>
      simp only [Option.elim_none, ok_bind]
      rw [lowerChecked_eq e _ _ h₃]
      cases e.firstFault? <;> rfl
  | .loop c body, inc, st, h => by
    have h₁ := indexed_addNode h.advance ⟨some (.loop c body), .loop, none, some st.next⟩ .onTrue
    have hback := (lower_indexed body _ _ h₁.openScope).loopEntry
    rw [lowerChecked, addNodeChecked_eq h.advance, ok_bind, addNode_eq_pair,
      Stmt.firstFault?_loop]
    dsimp only
    rw [lowerChecked_eq body _ _ h₁.openScope]
    cases body.firstFault? with
    | some err => rfl
    | none =>
      simp only [Option.elim_none, ok_bind]
      rw [connectChecked_eq hback (self_lt_lower_addNode _ _ _ _)]
      rfl
  | .ret v, inc, st, h | .expr v, inc, st, h => by
    simp only [lowerChecked, addNodeChecked_eq h.advance]
    rfl

/-- Lowering a sequence with the checks stops at the first item with a fault. -/
theorem lowerAllChecked_eq : ∀ (items : List Stmt) (inc : Pending) (st : Lowering),
    st.Indexed inc → lowerAllChecked items inc st =
      ((Stmt.preorderAll items).findSome? Stmt.ownFault?).elim (.ok (lowerAll items inc st))
        .error
  | [], inc, st, _ => rfl
  | s :: rest, inc, st, h => by
    rw [lowerAllChecked, lowerChecked_eq s inc st h, Stmt.findSome?_preorderAll_cons, elim_bind]
    cases s.firstFault? with
    | some e => rfl
    | none =>
      simp only [lowerAllChecked_eq rest _ _ (lower_indexed s inc st h), lowerAll,
        Option.none_or, Option.elim_none]

end

/-- The parameter loop, from a state whose view holds exactly the earlier parameters, refuses
as the check against those parameters does, or declares the rest. The invariant is that the
position stays at the end of the root frame, so each declaration puts its name in front of the
view. -/
theorem new_go_eq (rest : List String) (position : Nat) (st : Lowering)
    (earlier : List String) (hwf : st.scopes.WF) (hend : st.scopes.AtEnd st.point)
    (hview : (st.scopes.visible st.point).map Prod.fst = earlier) :
    new.go rest position st =
      (paramFault?.go rest earlier position).elim (.ok (rest.foldl declareParam st)) .error := by
  induction rest generalizing position st earlier with
  | nil => rfl
  | cons name rest ih =>
    have hbound : (st.scopes.lookup st.point name).isSome ↔ name ∈ earlier := by
      rw [Scopes.lookup_eq_visible, Bindings.lookup_isSome, hview]
    rw [new.go, paramFault?.go]
    by_cases hempty : name.isEmpty
    · simp [hempty]
    by_cases hmem : name ∈ earlier
    · simp [hempty, hmem, hbound.mpr hmem]
    have hfree : ¬(st.scopes.lookup st.point name).isSome := fun h => hmem (hbound.mp h)
    simp only [hempty, hmem, hfree, if_false, Bool.false_eq_true, List.foldl_cons]
    refine ih (position + 1) (st.declareParam name) (name :: earlier) ?_ ?_ ?_
    · exact Scopes.WF.declare hwf
    · exact Scopes.atEnd_declare hend
    · simp [declareParam, Scopes.visible_declare hwf hend, hview]

/-- **The parameters are declared unless one is refused**, with the first fault of the list. -/
theorem new_eq (params : List String) :
    new params = (paramFault? params).elim (.ok (ofParams params)) .error :=
  new_go_eq params 0 {} [] Scopes.new_wf Scopes.new_atEnd (by simp)

end Lowering

namespace Procedure

open Lowering

/-- Finishing the graph with the checks never refuses: the body's exits and its returns leave
nodes of the body, and the exit is a node. -/
theorem assembleChecked_eq (p : Procedure) :
    let st₀ := ofParams p.params
    let r := Lowering.lower p.body [] st₀.openScope
    p.assembleChecked st₀.point r.1 r.2 = .ok (p.assemble st₀.point r.1 r.2) := by
  intro st₀ r
  obtain ⟨-, h₂, hexit, h₃⟩ := lower_stages_indexed p
  simp only [assembleChecked, assemble]
  rw [connectChecked_eq h₂ hexit, ok_bind]
  rw [connectChecked_eq h₃ (by simpa using hexit)]
  rfl

/-- **A procedure is refused with its first fault, or built into its lowering.** -/
theorem build_eq (p : Procedure) : p.build = p.fault?.elim (.ok p.lower) .error := by
  unfold build
  rw [Lowering.new_eq, fault?]
  cases paramFault? p.params with
  | some e => rfl
  | none =>
    change (Lowering.lowerChecked p.body [] (Lowering.ofParams p.params).openScope >>= _) = _
    rw [Lowering.lowerChecked_eq _ _ _ (indexed_ofParams _).openScope, Option.none_or]
    change _ = p.body.firstFault?.elim _ _
    cases p.body.firstFault? with
    | some e => rfl
    | none => exact assembleChecked_eq p

/-- A procedure builds exactly when it has no fault, and then into its lowering. -/
theorem build_eq_ok {p : Procedure} {cfg : ControlFlowGraph} :
    p.build = .ok cfg ↔ p.fault? = none ∧ p.lower = cfg := by
  rw [build_eq]
  cases p.fault? <;> simp

end Procedure

/-- A parameter list without fault has no repeated name. -/
theorem paramFault?_nodup {params : List String} (h : paramFault? params = none) :
    params.Nodup := by
  -- the check runs against the parameters seen so far, which it keeps in reverse
  suffices ∀ (rest earlier : List String) (i : Nat), paramFault?.go rest earlier i = none →
      earlier.Nodup → (earlier.reverse ++ rest).Nodup from by
    simpa using this params [] 0 h List.nodup_nil
  intro rest
  induction rest with
  | nil =>
    intro earlier _ _ hnd
    simpa using List.nodup_reverse.mpr hnd
  | cons q rest ih =>
    intro earlier i hgo hnd
    simp only [paramFault?.go] at hgo
    split at hgo
    · exact absurd hgo (by simp)
    · rename_i hq
      split at hgo
      · exact absurd hgo (by simp)
      · rename_i hmem
        have := ih (q :: earlier) (i + 1) hgo (List.nodup_cons.mpr ⟨hmem, hnd⟩)
        simpa using this

/-- A procedure that builds has no repeated parameter. -/
theorem Procedure.params_nodup_of_build {p : Procedure} {cfg : ControlFlowGraph}
    (h : p.build = .ok cfg) : cfg.params.Nodup := by
  obtain ⟨hfault, rfl⟩ := Procedure.build_eq_ok.mp h
  have hp : paramFault? p.params = none := by
    simp only [Procedure.fault?, Option.or_eq_none_iff] at hfault
    exact hfault.1
  exact paramFault?_nodup hp

/-! ## Every fault, in the order of the checks -/

/-- The fault of the parameter at a position of `params`: an empty name, else a name that a
parameter before it already has. -/
def parameterFault (params : List String) (entry : String × Nat) : Option BuildError :=
  if entry.1.isEmpty then some (.emptyParameter entry.2)
  else if entry.1 ∈ params.take entry.2 then some (.duplicateParameter entry.1)
  else none

/-- Every fault of a procedure, in the order they are checked: the parameters by position, then
the statements of the body, dead ones included, in source pre-order. -/
def Procedure.faults (p : Procedure) : List BuildError :=
  p.params.zipIdx.filterMap (parameterFault p.params) ++ p.body.preorder.filterMap Stmt.ownFault?

/-- The check of the parameters from position `pre.length` on, against the names before them,
finds the first fault of those positions. -/
theorem paramFault?_go_eq (pre rest : List String) :
    paramFault?.go rest pre.reverse pre.length =
      ((rest.zipIdx pre.length).filterMap (parameterFault (pre ++ rest))).head? := by
  induction rest generalizing pre with
  | nil => rfl
  | cons q rest ih =>
    have htake : (pre ++ q :: rest).take pre.length = pre := List.take_left
    rw [paramFault?.go, List.zipIdx_cons, List.filterMap_cons, parameterFault]
    simp only [htake, List.mem_reverse]
    by_cases hempty : q.isEmpty
    · simp [hempty]
    by_cases hmem : q ∈ pre
    · simp [hempty, hmem]
    -- the parameter passes: go on with it among the earlier ones
    simp only [hempty, hmem, if_false, Bool.false_eq_true]
    simpa using ih (pre ++ [q])

theorem paramFault?_eq_head? (params : List String) :
    paramFault? params = (params.zipIdx.filterMap (parameterFault params)).head? :=
  paramFault?_go_eq [] params

/-- The first reason a procedure is refused is the first of all its faults. -/
theorem Procedure.fault?_eq_head? (p : Procedure) : p.fault? = p.faults.head? := by
  rw [fault?, faults, List.head?_append, paramFault?_eq_head?, List.head?_filterMap,
    List.head?_filterMap]

/-- A statement has a fault of its own exactly when it declares or assigns the empty name. -/
theorem Stmt.ownFault?_ne_none_iff (s : Stmt) :
    s.ownFault? ≠ none ↔ (∃ init, s = .declare "" init) ∨ ∃ value, s = .assign "" value := by
  cases s <;> simp [ownFault?, String.isEmpty_iff]

theorem parameterFault_ne_none_iff (params : List String) (entry : String × Nat) :
    parameterFault params entry ≠ none ↔ entry.1 = "" ∨ entry.1 ∈ params.take entry.2 := by
  unfold parameterFault
  by_cases hempty : entry.1.isEmpty
  · simp [String.isEmpty_iff.mp hempty]
  · by_cases hmem : entry.1 ∈ params.take entry.2 <;> simp [hempty, hmem, ← String.isEmpty_iff]

/-- A procedure has a fault exactly when a parameter is empty or repeats an earlier one, or a
declaration or an assignment anywhere in the body has the empty name. -/
theorem Procedure.faults_ne_nil_iff (p : Procedure) :
    p.faults ≠ [] ↔
      (∃ i, ∃ h : i < p.params.length, p.params[i] = "" ∨ p.params[i] ∈ p.params.take i) ∨
        ∃ s ∈ p.body.preorder, (∃ init, s = .declare "" init) ∨ ∃ value, s = .assign "" value := by
  have hparams : p.params.zipIdx.filterMap (parameterFault p.params) ≠ [] ↔
      ∃ i, ∃ h : i < p.params.length, p.params[i] = "" ∨ p.params[i] ∈ p.params.take i := by
    simp only [ne_eq, List.filterMap_eq_nil_iff, not_forall, exists_prop,
      parameterFault_ne_none_iff, Prod.exists, List.mem_zipIdx_iff_getElem?,
      List.getElem?_eq_some_iff]
    constructor
    · rintro ⟨name, i, ⟨hi, hname⟩, hfault⟩
      exact ⟨i, hi, hname ▸ hfault⟩
    · rintro ⟨i, hi, hfault⟩
      exact ⟨_, i, ⟨hi, rfl⟩, hfault⟩
  have hbody : p.body.preorder.filterMap Stmt.ownFault? ≠ [] ↔
      ∃ s ∈ p.body.preorder, (∃ init, s = .declare "" init) ∨ ∃ value, s = .assign "" value := by
    simp only [ne_eq, List.filterMap_eq_nil_iff, not_forall, exists_prop,
      Stmt.ownFault?_ne_none_iff]
  rw [faults, ← hparams, ← hbody, ne_eq, List.append_eq_nil_iff, not_and_or]

/-- **A procedure is refused exactly when it has a fault, with the first one in the order of the
checks, and is built otherwise.** A fault is a parameter with an empty name or the name of an
earlier parameter, or a declaration or an assignment with an empty name anywhere in the body,
dead code included. The parameters are checked by position, the empty name first at each, and
then the body in source pre-order. -/
theorem Procedure.build_refused_iff_fault (p : Procedure) :
    ((∃ e, p.build = .error e) ↔
      (∃ i, ∃ h : i < p.params.length, p.params[i] = "" ∨ p.params[i] ∈ p.params.take i) ∨
        ∃ s ∈ p.body.preorder, (∃ init, s = .declare "" init) ∨ ∃ value, s = .assign "" value) ∧
    p.build = match p.faults with
      | [] => .ok p.lower
      | e :: _ => .error e := by
  have hbuild : p.build = match p.faults with
      | [] => .ok p.lower
      | e :: _ => .error e := by
    rw [build_eq, fault?_eq_head?]
    cases p.faults <;> rfl
  refine ⟨?_, hbuild⟩
  rw [← faults_ne_nil_iff, hbuild]
  cases p.faults <;> simp

/-- The faults are listed by position among the parameters, then in pre-order in the body. -/
example : Procedure.faults ⟨"f", ["x", "", "x"], .block [.assign "" (.name "x"),
    .ifThen (.name "x") (.declare "" none)]⟩ =
    [.emptyParameter 1, .duplicateParameter "x", .emptyAssignment, .emptyDeclaration] := by
  decide

end ReachingDefs
