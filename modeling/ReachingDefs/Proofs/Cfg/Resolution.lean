import ReachingDefs.Proofs.Cfg.ScopeTree
import ReachingDefs.Proofs.Cfg.Variables
import ReachingDefs.Proofs.Cfg.Refusal

/-!
# Reads resolve by lexical scope

A read of a name at a node of a built graph resolves to the innermost declaration of that name
the node's statement lies in the scope of, else to a parameter, else to the procedure's free
variable of the name. Read off the syntax, the candidates of a statement are the declarations
made by the earlier items of every block around it, the innermost block first and the latest
item first, and then the parameters (`Stmt.scoped`). A declaration is not its own candidate, a
declaration that is a branch or loop body on its own is nobody's, and the exit node sees the
parameters alone. The free variable of a name exists exactly when some assignment of the name,
anywhere in the body, has no candidate of that name, and it is the variable those assignments
write.

The graph keeps, for every node, the position in the scope tree it was lowered at, and the
tree keeps growing after that. The proof follows lowering with one invariant (`ScopedAs`): the
view of each recorded position names, binding by binding, the candidates of its node, each
binding holding the variable of its candidate's binder. Views of recorded positions never
change (`Scopes.visible_of_extends`), so what holds when a node is added holds in the built
graph.

## Main definitions

* `Binder`, `Candidates`: where a visible binding comes from, and the bindings of a node
* `Stmt.scoped`: each node of a statement with its statement and its candidates
* `Procedure.candidatesAt`, `Procedure.freeWrites`: the candidates of a node of a procedure, and
  the assignments of a name that no candidate binds
* `Lowering.ScopedAs`: the recorded positions realize the candidates of their nodes

## Main results

* `Lowering.lower_scopedAs`: lowering a statement records its nodes' candidates
* `Procedure.build_resolve_lexical`: a read resolves to the innermost candidate, else to the free
  variable of its name
-/

namespace ReachingDefs

/-! ## Lexical scope, read off the syntax -/

/-- Where a binding visible at a node comes from: the parameter at a position, or the declaration
lowered to a node. -/
inductive Binder where
  | param (position : Nat)
  | decl (node : Nat)
deriving DecidableEq, Repr

/-- The bindings visible at a node, innermost and latest first. -/
abbrev Candidates := List (String × Binder)

/-- The binder of the first candidate of a name. -/
def Candidates.lookup (E : Candidates) (name : String) : Option Binder :=
  (E.find? (·.1 == name)).map (·.2)

/-- The binding a statement makes for the items after it in its block: a declaration binds its
name to its node. -/
def Stmt.declares : Stmt → Nat → Candidates
  | .declare name _, b => [(name, .decl b)]
  | _, _ => []

mutual

/-- The nodes of `s`, numbered from `b`, in order, each with its statement and its candidates,
where `E` holds the candidates around `s`. The items of a block see the declarations of the items
before them; what a block or a branch declares is not seen outside it. -/
def Stmt.scoped : Stmt → Nat → Candidates → List (Stmt × Candidates)
  | .block items, b, E => Stmt.scopedAll items b E
  | s@(.ifThen _ t), b, E => (s, E) :: t.scoped (b + 1) E
  | s@(.ifElse _ t e), b, E => (s, E) :: (t.scoped (b + 1) E ++ e.scoped (b + 1 + t.nodeCount) E)
  | s@(.loop _ body), b, E => (s, E) :: body.scoped (b + 1) E
  | s@(.declare _ _), _, E | s@(.assign _ _), _, E | s@(.ret _), _, E | s@(.expr _), _, E =>
    [(s, E)]

/-- The nodes of a sequence of items, each item seeing the declarations of those before it. -/
def Stmt.scopedAll : List Stmt → Nat → Candidates → List (Stmt × Candidates)
  | [], _, _ => []
  | s :: rest, b, E => s.scoped b E ++ Stmt.scopedAll rest (b + s.nodeCount) (s.declares b ++ E)

end

/-- The name an assignment writes when none of its candidates binds it. -/
def Stmt.freeWrite? : Stmt × Candidates → Option String
  | (.assign name _, E) => if E.lookup name = none then some name else none
  | _ => none

/-- The candidate an assignment writes: the first of its name, if it has one. -/
def Stmt.boundWrite? : Stmt × Candidates → Option Binder
  | (.assign name _, E) => E.lookup name
  | _ => none

/-- The nodes, numbered from zero, that assign `x` with no candidate of that name. -/
def freeWritesIn (L : List (Stmt × Candidates)) (x : String) : List Nat :=
  L.zipIdx.filterMap fun (se, m) => if Stmt.freeWrite? se = some x then some m else none

namespace Procedure

/-- The parameters as candidates, the last first. -/
def paramCandidates (p : Procedure) : Candidates :=
  (p.params.zipIdx.map fun (name, i) => (name, Binder.param i)).reverse

/-- The candidates of the node `n`: those of its statement, the parameters alone for the exit
node, and none past it. -/
def candidatesAt (p : Procedure) (n : Nat) : Option Candidates :=
  ((p.body.scoped 0 p.paramCandidates).map (·.2) ++ [p.paramCandidates])[n]?

/-- The assignments of `x`, anywhere in the body, that no candidate binds. -/
def freeWrites (p : Procedure) (x : String) : List Nat :=
  freeWritesIn (p.body.scoped 0 p.paramCandidates) x

end Procedure

/-- The variable of a binder in a graph's nodes: a parameter's is its position, a declaration's
is the one its node is bound to. -/
def Binder.var? (nodes : Array CfgNode) : Binder → Option Nat
  | .param i => some i
  | .decl d => nodes[d]?.bind (·.boundVar)

/-! ### Small lemmas of the spec -/

@[simp] theorem Candidates.lookup_nil (name : String) : Candidates.lookup [] name = none := rfl

theorem Candidates.lookup_cons (x : String) (b : Binder) (E : Candidates) (name : String) :
    Candidates.lookup ((x, b) :: E) name = if x = name then some b else E.lookup name := by
  simp only [Candidates.lookup, List.find?_cons]
  by_cases h : x = name
  · subst h
    simp
  · rw [beq_false_of_ne h, if_neg h]

mutual

theorem Stmt.length_scoped : ∀ (s : Stmt) (b : Nat) (E : Candidates),
    (s.scoped b E).length = s.nodeCount
  | .block items, b, E => Stmt.length_scopedAll items b E
  | .ifThen _ t, b, E => by simp [Stmt.scoped, Stmt.nodeCount, Stmt.length_scoped t]
  | .ifElse _ t e, b, E => by
    simp [Stmt.scoped, Stmt.nodeCount, Stmt.length_scoped t, Stmt.length_scoped e]
  | .loop _ body, b, E => by simp [Stmt.scoped, Stmt.nodeCount, Stmt.length_scoped body]
  | .declare _ _, _, _ | .assign _ _, _, _ | .ret _, _, _ | .expr _, _, _ => rfl

theorem Stmt.length_scopedAll : ∀ (items : List Stmt) (b : Nat) (E : Candidates),
    (Stmt.scopedAll items b E).length = Stmt.nodeCountAll items
  | [], _, _ => rfl
  | s :: rest, b, E => by
    simp [Stmt.scopedAll, Stmt.nodeCountAll, Stmt.length_scoped s, Stmt.length_scopedAll rest]

end

theorem freeWritesIn_nil (x : String) : freeWritesIn [] x = [] := rfl

/-- A node added after the others is a free write of its name, if it is one, after the others. -/
theorem freeWritesIn_concat (L : List (Stmt × Candidates)) (se : Stmt × Candidates)
    (x : String) :
    freeWritesIn (L ++ [se]) x =
      freeWritesIn L x ++ if Stmt.freeWrite? se = some x then [L.length] else [] := by
  simp only [freeWritesIn, List.zipIdx_append, List.filterMap_append, Nat.zero_add]
  congr 1
  simp only [List.zipIdx_cons, List.zipIdx_nil, List.filterMap_cons, List.filterMap_nil]
  by_cases h : Stmt.freeWrite? se = some x <;> simp [h]

theorem lt_of_mem_freeWritesIn {L : List (Stmt × Candidates)} {x : String} {m : Nat}
    (h : m ∈ freeWritesIn L x) : m < L.length := by
  simp only [freeWritesIn, List.mem_filterMap] at h
  obtain ⟨⟨se, k⟩, hk, hm⟩ := h
  split at hm
  · cases hm
    simpa using (List.mem_zipIdx hk).2.1
  · cases hm

/-! ## Views that realize candidates -/

/-- `nodes'` keeps every node of `nodes` as it is. -/
def KeepsNodes (nodes nodes' : Array CfgNode) : Prop := ∀ i < nodes.size, nodes'[i]? = nodes[i]?

namespace KeepsNodes

variable {nodes nodes' nodes'' : Array CfgNode}

theorem refl (nodes : Array CfgNode) : KeepsNodes nodes nodes := fun _ _ => rfl

theorem size_le (h : KeepsNodes nodes nodes') : nodes.size ≤ nodes'.size := by
  rcases Nat.lt_or_ge nodes'.size nodes.size with hlt | hle
  · have hlast := h nodes'.size hlt
    rw [Array.getElem?_eq_none (Nat.le_refl _), Array.getElem?_eq_getElem hlt] at hlast
    cases hlast
  · exact hle

theorem trans (h : KeepsNodes nodes nodes') (h' : KeepsNodes nodes' nodes'') :
    KeepsNodes nodes nodes'' :=
  fun i hi => (h' i (Nat.lt_of_lt_of_le hi h.size_le)).trans (h i hi)

theorem push (n : CfgNode) : KeepsNodes nodes (nodes.push n) := fun i hi => by
  simp [Array.getElem?_push, Nat.ne_of_lt hi]

/-- Changing a node past the old ones keeps them. -/
theorem modify (h : KeepsNodes nodes nodes') {j : Nat} (hj : nodes.size ≤ j)
    (f : CfgNode → CfgNode) : KeepsNodes nodes (nodes'.modify j f) := fun i hi => by
  rw [Array.getElem?_modify, if_neg (by omega)]
  exact h i hi

end KeepsNodes

/-- A binder keeps its variable while its node is kept. -/
theorem Binder.var?_of_keeps {nodes nodes' : Array CfgNode} (h : KeepsNodes nodes nodes')
    {β : Binder} {v : Nat} (hv : β.var? nodes = some v) : β.var? nodes' = some v := by
  cases β with
  | param i => exact hv
  | decl d =>
    have hd : d < nodes.size := by
      by_contra hge
      simp [Binder.var?, Array.getElem?_eq_none (Nat.le_of_not_lt hge)] at hv
    simpa only [Binder.var?, h d hd] using hv

/-- A view realizes candidates in a graph's nodes: binding by binding, the same name, the
binding holding the variable of the candidate's binder. -/
def Realizes (nodes : Array CfgNode) (view : Bindings) (E : Candidates) : Prop :=
  List.Forall₂ (fun (b : String × Nat) (c : String × Binder) =>
    b.1 = c.1 ∧ c.2.var? nodes = some b.2) view E

namespace Realizes

variable {nodes nodes' : Array CfgNode} {view : Bindings} {E : Candidates}

theorem cons (h : Realizes nodes view E) {x : String} {v : Nat} {β : Binder}
    (hv : β.var? nodes = some v) : Realizes nodes ((x, v) :: view) ((x, β) :: E) :=
  List.Forall₂.cons ⟨rfl, hv⟩ h

theorem keeps (h : Realizes nodes view E) (hk : KeepsNodes nodes nodes') :
    Realizes nodes' view E :=
  h.imp fun _ _ hbc => ⟨hbc.1, Binder.var?_of_keeps hk hbc.2⟩

/-- **A look-up in the view finds the variable of the first candidate of the name.** -/
theorem lookup (h : Realizes nodes view E) (x : String) :
    view.lookup x = (E.lookup x).bind (Binder.var? nodes) := by
  induction h with
  | nil => rfl
  | @cons b c view E hbc _ ih =>
    obtain ⟨y, v⟩ := b
    obtain ⟨z, β⟩ := c
    obtain ⟨hyz, hv⟩ := hbc
    simp only at hyz hv
    subst hyz
    rw [Bindings.lookup_cons, Candidates.lookup_cons]
    split
    · simp [hv]
    · exact ih

/-- Every candidate's binder has a variable, so a name the candidates bind is found. -/
theorem lookup_eq_none_iff (h : Realizes nodes view E) (x : String) :
    view.lookup x = none ↔ E.lookup x = none := by
  induction h with
  | nil => simp
  | @cons b c view E hbc _ ih =>
    obtain ⟨y, v⟩ := b
    obtain ⟨z, β⟩ := c
    obtain ⟨hyz, hv⟩ := hbc
    simp only at hyz hv
    subst hyz
    rw [Bindings.lookup_cons, Candidates.lookup_cons]
    split
    · simp
    · exact ih

end Realizes

/-! ## Lowering records the candidates -/

@[simp] theorem Scopes.freeVar?_record (s : Scopes) (p : ScopePoint) (x : String) :
    (s.record p).freeVar? x = s.freeVar? x := rfl

@[simp] theorem Scopes.visible_record (s : Scopes) (p q : ScopePoint) :
    (s.record p).visible q = s.visible q := by
  have hframes : (s.record p).frames = s.frames := rfl
  exact Scopes.visible_congr hframes q

namespace Lowering

/-! ### The primitives and the scope tree -/

@[simp] theorem connect_scopes (st : Lowering) (P : Pending) (t : Nat) :
    (st.connect P t).scopes = st.scopes := by
  rw [connect_eq]

@[simp] theorem connect_point (st : Lowering) (P : Pending) (t : Nat) :
    (st.connect P t).point = st.point := by
  rw [connect_eq]

@[simp] theorem addNode_scopes (st : Lowering) (n : CfgNode) (P : Pending) :
    (st.addNode n P).1.scopes = st.scopes.record st.point := by
  simp [addNode]

@[simp] theorem addNode_point (st : Lowering) (n : CfgNode) (P : Pending) :
    (st.addNode n P).1.point = st.point := by
  simp [addNode]

@[simp] theorem bind_scopes (st : Lowering) (node var : Nat) :
    (st.bind node var).scopes = st.scopes := rfl

@[simp] theorem bind_point (st : Lowering) (node var : Nat) :
    (st.bind node var).point = st.point := rfl

/-- Resolving a name leaves the frames, the positions and the recorded positions alone. -/
theorem resolve_scopes (st : Lowering) (name : String) :
    (st.resolve name).1.scopes.frames = st.scopes.frames ∧
      (st.resolve name).1.scopes.atNode = st.scopes.atNode ∧
      (st.resolve name).1.point = st.point := by
  unfold resolve
  split
  · exact ⟨rfl, rfl, rfl⟩
  · split
    · exact ⟨rfl, rfl, rfl⟩
    · exact ⟨rfl, rfl, rfl⟩

/-- A name declared where it is resolved writes its declaration's variable. -/
theorem resolve_of_lookup {st : Lowering} {name : String} {v : Nat}
    (h : st.scopes.lookup st.point name = some v) : st.resolve name = (st, v) := by
  simp [resolve, h]

/-- A name declared nowhere visible writes its free variable, if it has one. -/
theorem resolve_of_freeVar {st : Lowering} {name : String} {v : Nat}
    (h : st.scopes.lookup st.point name = none) (hfv : st.scopes.freeVar? name = some v) :
    st.resolve name = (st, v) := by
  simp [resolve, h, hfv]

/-- The first write of a name declared nowhere visible makes its free variable. -/
theorem resolve_of_fresh {st : Lowering} {name : String}
    (h : st.scopes.lookup st.point name = none) (hfv : st.scopes.freeVar? name = none) :
    st.resolve name = ({ (st.newVariable ⟨name, .free, none⟩).1 with
      scopes := st.scopes.insertFree name st.vars.size }, st.vars.size) := by
  simp [resolve, h, hfv, newVariable]

/-! ### The invariant -/

/-- The position of `st` is at the end of its frame, and its view realizes `E`. -/
def At (st : Lowering) (E : Candidates) : Prop :=
  st.scopes.AtEnd st.point ∧ Realizes st.graph.nodes (st.scopes.visible st.point) E

/-- What a run has recorded, against `done`, the scoped nodes lowered so far in order: a node
and a recorded position per entry, each position fitting and its view realizing the candidates
of its node; the free variable of a name exists exactly when some node so far assigns it with no
candidate, and it is the variable every such node writes; a node that assigns a name with a
candidate writes the variable of that candidate. -/
structure ScopedAs (st : Lowering) (done : List (Stmt × Candidates)) : Prop where
  wf : st.scopes.WF
  nodes : st.graph.nodes.size = done.length
  recorded : List.Forall₂ (fun pt (se : Stmt × Candidates) =>
    st.scopes.Fits pt ∧ Realizes st.graph.nodes (st.scopes.visible pt) se.2)
    st.scopes.atNode.toList done
  free_isSome : ∀ x, (st.scopes.freeVar? x).isSome ↔ freeWritesIn done x ≠ []
  free_written : ∀ x, ∀ m ∈ freeWritesIn done x,
    (Binder.decl m).var? st.graph.nodes = st.scopes.freeVar? x
  bound_written : ∀ m β, (done[m]?).bind Stmt.boundWrite? = some β →
    ∃ v, (Binder.decl m).var? st.graph.nodes = some v ∧ β.var? st.graph.nodes = some v

/-- How lowering from `st` may change it: the tree only grows, the nodes stay as they are, the
position stays in its frame, and every other frame of `st` is kept. -/
structure Grows (st st' : Lowering) : Prop where
  scopes : st.scopes.Extends st'.scopes
  nodes : KeepsNodes st.graph.nodes st'.graph.nodes
  frame : st'.point.frame = st.point.frame
  others : ∀ i < st.scopes.frames.size, i ≠ st.point.frame →
    st'.scopes.frames[i]? = st.scopes.frames[i]?

variable {st st' st'' : Lowering} {done : List (Stmt × Candidates)} {E : Candidates}

/-- A fitting position keeps its view, realized as before, while the tree grows at its ends
and the nodes are kept. -/
theorem realizes_of_extends (hwf : st.scopes.WF) (hext : st.scopes.Extends st'.scopes)
    (hk : KeepsNodes st.graph.nodes st'.graph.nodes) {pt : ScopePoint} {E : Candidates}
    (h : st.scopes.Fits pt ∧ Realizes st.graph.nodes (st.scopes.visible pt) E) :
    st'.scopes.Fits pt ∧ Realizes st'.graph.nodes (st'.scopes.visible pt) E := by
  refine ⟨hext.fits h.1, ?_⟩
  rw [Scopes.visible_of_extends hwf hext pt h.1]
  exact h.2.keeps hk

namespace Grows

theorem refl (st : Lowering) : st.Grows st :=
  ⟨Scopes.Extends.refl _, KeepsNodes.refl _, rfl, fun _ _ _ => rfl⟩

theorem trans (h : st.Grows st') (h' : st'.Grows st'') : st.Grows st'' where
  scopes := h.scopes.trans h'.scopes
  nodes := h.nodes.trans h'.nodes
  frame := h'.frame.trans h.frame
  others i hi hne := by
    have hi' : i < st'.scopes.frames.size := by
      obtain ⟨g, hg, -, -⟩ := h.scopes i _ (Array.getElem?_eq_getElem hi)
      exact (Array.getElem?_eq_some_iff.mp hg).1
    rw [h'.others i hi' (h.frame ▸ hne), h.others i hi hne]

/-- A step that keeps the frames and the position. -/
theorem of_frames_eq (hframes : st'.scopes.frames = st.scopes.frames)
    (hpoint : st'.point = st.point) (hk : KeepsNodes st.graph.nodes st'.graph.nodes) :
    st.Grows st' where
  scopes := Scopes.Extends.of_frames_eq hframes.symm
  nodes := hk
  frame := by rw [hpoint]
  others i _ _ := by rw [hframes]

end Grows

theorem At.of_frames_eq (hat : st.At E) (hframes : st'.scopes.frames = st.scopes.frames)
    (hpoint : st'.point = st.point) (hk : KeepsNodes st.graph.nodes st'.graph.nodes) :
    st'.At E := by
  obtain ⟨⟨f, hf, hlen⟩, hr⟩ := hat
  refine ⟨⟨f, by rw [hframes, hpoint, hf], by rw [hpoint, hlen]⟩, ?_⟩
  rw [Scopes.visible_congr hframes, hpoint]
  exact hr.keeps hk

theorem ScopedAs.of_frames_eq (h : st.ScopedAs done)
    (hframes : st'.scopes.frames = st.scopes.frames)
    (hatNode : st'.scopes.atNode = st.scopes.atNode) (hfree : st'.scopes.free = st.scopes.free)
    (hnodes : st'.graph.nodes = st.graph.nodes) : st'.ScopedAs done where
  wf := Scopes.WF.of_frames_eq h.wf hframes.symm
  nodes := by rw [hnodes, h.nodes]
  recorded := by
    rw [hatNode]
    refine h.recorded.imp fun pt se hpt => ?_
    have hfits : st'.scopes.Fits pt := by
      obtain ⟨f, hf, hlen⟩ := hpt.1
      exact ⟨f, by rw [hframes, hf], hlen⟩
    rw [hnodes, Scopes.visible_congr hframes]
    exact ⟨hfits, hpt.2⟩
  free_isSome x := by rw [Scopes.freeVar?, hfree]; exact h.free_isSome x
  free_written x m hm := by rw [Scopes.freeVar?, hfree, hnodes]; exact h.free_written x m hm
  bound_written m β hm := by rw [hnodes]; exact h.bound_written m β hm

theorem ScopedAs.restore (h : st.ScopedAs done) (p : ScopePoint) : (st.restore p).ScopedAs done :=
  ⟨h.wf, h.nodes, h.recorded, h.free_isSome, h.free_written, h.bound_written⟩

/-! Moving the address cursor touches neither the tree nor the nodes. -/

theorem ScopedAs.advance (h : st.ScopedAs done) : st.advance.ScopedAs done :=
  ⟨h.wf, h.nodes, h.recorded, h.free_isSome, h.free_written, h.bound_written⟩

theorem At.advance (hat : st.At E) : st.advance.At E := hat

theorem Grows.advance (st : Lowering) : st.Grows st.advance :=
  Grows.of_frames_eq rfl rfl (KeepsNodes.refl _)

/-! ### One step each -/

/-- Adding the node of `s`, with candidates `E`, at the position of `st`, given what the free
variables are afterwards. -/
theorem ScopedAs.push {s : Stmt} (h : st.ScopedAs done) (hat : st.At E)
    (hwf : st'.scopes.WF) (hext : st.scopes.Extends st'.scopes)
    (hk : KeepsNodes st.graph.nodes st'.graph.nodes)
    (hsize : st'.graph.nodes.size = st.graph.nodes.size + 1)
    (hrec : st'.scopes.atNode = st.scopes.atNode.push st.point)
    (hfree₁ : ∀ x, (st'.scopes.freeVar? x).isSome ↔ freeWritesIn (done ++ [(s, E)]) x ≠ [])
    (hfree₂ : ∀ x, ∀ m ∈ freeWritesIn (done ++ [(s, E)]) x,
      (Binder.decl m).var? st'.graph.nodes = st'.scopes.freeVar? x)
    (hbound : ∀ m β, ((done ++ [(s, E)])[m]?).bind Stmt.boundWrite? = some β →
      ∃ v, (Binder.decl m).var? st'.graph.nodes = some v ∧ β.var? st'.graph.nodes = some v) :
    st'.ScopedAs (done ++ [(s, E)]) where
  wf := hwf
  nodes := by rw [hsize, h.nodes, List.length_append, List.length_singleton]
  recorded := by
    rw [hrec, Array.toList_push]
    refine List.rel_append (h.recorded.imp fun _ _ hpt => realizes_of_extends h.wf hext hk hpt) ?_
    exact List.Forall₂.cons (realizes_of_extends h.wf hext hk ⟨hat.1.fits, hat.2⟩) .nil
  free_isSome := hfree₁
  free_written := hfree₂
  bound_written := hbound

/-- The nodes written before keep their variables while the nodes are kept; the new one writes
what `hnew` says. -/
theorem ScopedAs.bound_push {s : Stmt} (h : st.ScopedAs done)
    (hk : KeepsNodes st.graph.nodes st'.graph.nodes)
    (hnew : ∀ β, Stmt.boundWrite? (s, E) = some β → ∃ v,
      (Binder.decl done.length).var? st'.graph.nodes = some v ∧ β.var? st'.graph.nodes = some v) :
    ∀ m β, ((done ++ [(s, E)])[m]?).bind Stmt.boundWrite? = some β →
      ∃ v, (Binder.decl m).var? st'.graph.nodes = some v ∧ β.var? st'.graph.nodes = some v := by
  intro m β hm
  rcases Nat.lt_or_ge m done.length with hlt | hge
  · rw [List.getElem?_append_left hlt] at hm
    obtain ⟨v, hm', hβ⟩ := h.bound_written m β hm
    exact ⟨v, Binder.var?_of_keeps hk hm', Binder.var?_of_keeps hk hβ⟩
  · rw [List.getElem?_append_right hge, List.getElem?_singleton] at hm
    split at hm
    · obtain rfl : m = done.length := by omega
      exact hnew β hm
    · cases hm

/-- A node that is no free write leaves the free variables as they are. -/
theorem ScopedAs.free_quiet {s : Stmt} (h : st.ScopedAs done) (hs : Stmt.freeWrite? (s, E) = none)
    (hfree : st'.scopes.free = st.scopes.free) (hk : KeepsNodes st.graph.nodes st'.graph.nodes) :
    (∀ x, (st'.scopes.freeVar? x).isSome ↔ freeWritesIn (done ++ [(s, E)]) x ≠ []) ∧
      ∀ x, ∀ m ∈ freeWritesIn (done ++ [(s, E)]) x,
        (Binder.decl m).var? st'.graph.nodes = st'.scopes.freeVar? x := by
  have hw : ∀ x, freeWritesIn (done ++ [(s, E)]) x = freeWritesIn done x := by
    intro x
    simp [freeWritesIn_concat, hs]
  have hfv : ∀ x, st'.scopes.freeVar? x = st.scopes.freeVar? x := by
    intro x
    simp only [Scopes.freeVar?, hfree]
  refine ⟨fun x => ?_, fun x m hm => ?_⟩
  · rw [hw, hfv]
    exact h.free_isSome x
  · rw [hw] at hm
    have hm' : m < st.graph.nodes.size := h.nodes ▸ lt_of_mem_freeWritesIn hm
    rw [hfv, ← h.free_written x m hm]
    simp only [Binder.var?, hk m hm']

/-- Adding a node for a statement that is no free write. -/
theorem ScopedAs.addNode {s : Stmt} (h : st.ScopedAs done) (hat : st.At E)
    (hs : Stmt.freeWrite? (s, E) = none) (hb : Stmt.boundWrite? (s, E) = none) (k : NodeKind)
    (a : Option Nat) (P : Pending) :
    let st' := (st.addNode ⟨some s, k, none, a⟩ P).1
    st'.ScopedAs (done ++ [(s, E)]) ∧ st'.At E ∧ st.Grows st' := by
  intro st'
  have hk : KeepsNodes st.graph.nodes st'.graph.nodes := by
    simp only [st', addNode_graph_nodes]
    exact KeepsNodes.push _
  have hframes : st'.scopes.frames = st.scopes.frames := by simp [st']
  have hpoint : st'.point = st.point := by simp [st']
  obtain ⟨hfree₁, hfree₂⟩ := h.free_quiet hs (by simp [st']) hk
  refine ⟨h.push hat (Scopes.WF.of_frames_eq h.wf hframes.symm)
    (Scopes.Extends.of_frames_eq hframes.symm) hk (by simp [st']) (by simp [st'])
    hfree₁ hfree₂ (h.bound_push hk fun β hβ => by simp [hb] at hβ),
    hat.of_frames_eq hframes hpoint hk, Grows.of_frames_eq hframes hpoint hk⟩

/-- Opening a frame below the position keeps its view. -/
theorem ScopedAs.openScope (h : st.ScopedAs done) (hat : st.At E) :
    st.openScope.ScopedAs done ∧ st.openScope.At E := by
  have hfits := hat.1.fits
  refine ⟨⟨?_, h.nodes, ?_, h.free_isSome, h.free_written, h.bound_written⟩, ?_, ?_⟩
  · simpa using h.wf.openFrame hfits
  · have hext : st.scopes.Extends st.openScope.scopes := Scopes.openFrame_extends
    exact h.recorded.imp fun _ _ hpt => realizes_of_extends h.wf hext (KeepsNodes.refl _) hpt
  · simpa using Scopes.atEnd_openFrame
  · simp only [openScope_scopes, openScope_point, openScope_graph]
    rw [Scopes.visible_openFrame h.wf hfits]
    exact hat.2

/-- Back at the position of `st` after lowering from a fresh frame below it: the frames of `st`
are as they were, so its position is still at the end of its frame, with the same view. -/
theorem Grows.restore (hat : st.At E) (hwf : st.scopes.WF) (hg : st.openScope.Grows st') :
    (st'.restore st.point).At E ∧ st.Grows (st'.restore st.point) := by
  have hfits := hat.1.fits
  have hlt := hfits.frame_lt
  -- every frame of `st` lies below the fresh one
  have hkept : ∀ i < st.scopes.frames.size, st'.scopes.frames[i]? = st.scopes.frames[i]? := by
    intro i hi
    have hi' : i < st.openScope.scopes.frames.size := by simp; omega
    rw [hg.others i hi' (by simp; omega)]
    simpa using Scopes.getElem?_openFrame_frames_lt hi
  have hext : st.scopes.Extends st'.scopes := Scopes.openFrame_extends.trans hg.scopes
  obtain ⟨f, hf, hlen⟩ := hat.1
  refine ⟨⟨⟨f, by rw [restore_scopes, restore_point, hkept _ hlt, hf], hlen⟩, ?_⟩, ?_⟩
  · rw [restore_scopes, restore_point, Scopes.visible_of_extends hwf hext _ hfits, restore_graph]
    exact hat.2.keeps hg.nodes
  · exact ⟨hext, hg.nodes, rfl, fun i hi _ => hkept i hi⟩

/-- **A declaration binds its name at the end of the position's frame**, to the variable its node
is bound to, so the items after it see the declaration and the declaration does not. -/
theorem scopedAs_declare (h : st.ScopedAs done) (hat : st.At E) (name : String)
    (init : Option Expr) (inc : Pending) :
    let st' := (lower (.declare name init) inc st).2
    st'.ScopedAs (done ++ [(.declare name init, E)]) ∧
      st'.At ((name, .decl done.length) :: E) ∧ st.Grows st' := by
  intro st'
  -- the node is recorded at the old position, then the name is declared there
  have hscopes : st'.scopes =
      ((st.scopes.record st.point).declare st.point name st.vars.size).1 := by
    simp [st', lower, newVariable]
  have hpoint : st'.point =
      ((st.scopes.record st.point).declare st.point name st.vars.size).2 := by
    simp [st', lower, newVariable]
  have hnodes : st'.graph.nodes =
      (st.graph.nodes.push ⟨some (.declare name init), .declare, none, some st.next⟩).modify
        st.graph.nodes.size
        (fun n => { n with boundVar := some st.vars.size }) := by
    simp [st', lower, newVariable]
  have hk : KeepsNodes st.graph.nodes st'.graph.nodes := by
    rw [hnodes]
    exact (KeepsNodes.push _).modify (Nat.le_refl _) _
  have hwf₀ : (st.scopes.record st.point).WF := Scopes.WF.of_frames_eq h.wf rfl
  have hend₀ : (st.scopes.record st.point).AtEnd st.point := hat.1
  have hext : st.scopes.Extends st'.scopes := by
    rw [hscopes]
    exact (Scopes.Extends.of_frames_eq rfl : st.scopes.Extends (st.scopes.record st.point)).trans
      Scopes.declare_extends
  obtain ⟨hfree₁, hfree₂⟩ :=
    h.free_quiet (s := .declare name init) rfl (by rw [hscopes]; simp) hk
  refine ⟨h.push hat (by rw [hscopes]; exact hwf₀.declare) hext hk (by rw [hnodes]; simp)
    (by rw [hscopes]; simp) hfree₁ hfree₂ (h.bound_push hk fun β hβ => by cases hβ), ⟨?_, ?_⟩, ?_⟩
  · rw [hscopes, hpoint]
    exact Scopes.atEnd_declare hend₀
  · rw [hscopes, hpoint, Scopes.visible_declare hwf₀ hend₀, Scopes.visible_record]
    -- the new binding holds the variable the declaration's node is bound to
    refine (hat.2.keeps hk).cons ?_
    simp [Binder.var?, hnodes, ← h.nodes, Array.getElem_modify]
  · refine ⟨hext, hk, by rw [hpoint]; simp, fun i _ hne => ?_⟩
    rw [hscopes, Scopes.getElem?_declare_frames_of_ne hne]
    rfl

/-- An assignment that no candidate binds writes the free variable of its name: the node so far
written, or a fresh one. -/
theorem ScopedAs.free_write {s : Stmt} {name : String} (h : st.ScopedAs done)
    (hs : Stmt.freeWrite? (s, E) = some name) (hk : KeepsNodes st.graph.nodes st'.graph.nodes)
    (hb : (Binder.decl st.graph.nodes.size).var? st'.graph.nodes = st'.scopes.freeVar? name)
    (hsome : (st'.scopes.freeVar? name).isSome)
    (hold : freeWritesIn done name ≠ [] → st'.scopes.freeVar? name = st.scopes.freeVar? name)
    (hother : ∀ x, name ≠ x → st'.scopes.freeVar? x = st.scopes.freeVar? x) :
    (∀ x, (st'.scopes.freeVar? x).isSome ↔ freeWritesIn (done ++ [(s, E)]) x ≠ []) ∧
      ∀ x, ∀ m ∈ freeWritesIn (done ++ [(s, E)]) x,
        (Binder.decl m).var? st'.graph.nodes = st'.scopes.freeVar? x := by
  have hw : ∀ x, freeWritesIn (done ++ [(s, E)]) x =
      freeWritesIn done x ++ if name = x then [done.length] else [] := by
    intro x
    simp [freeWritesIn_concat, hs]
  -- a node written before keeps its variable
  have hkept : ∀ x, ∀ m ∈ freeWritesIn done x,
      (Binder.decl m).var? st'.graph.nodes = st.scopes.freeVar? x := by
    intro x m hm
    have hm' : m < st.graph.nodes.size := h.nodes ▸ lt_of_mem_freeWritesIn hm
    rw [← h.free_written x m hm]
    simp only [Binder.var?, hk m hm']
  refine ⟨fun x => ?_, fun x m hm => ?_⟩
  · by_cases hx : name = x
    · subst hx
      simp [hw, hsome]
    · rw [hw, if_neg hx, List.append_nil, hother x hx]
      exact h.free_isSome x
  · rw [hw] at hm
    by_cases hx : name = x
    · subst hx
      rw [if_pos rfl] at hm
      rcases List.mem_append.mp hm with hm | hm
      · rw [hkept name m hm, hold (List.ne_nil_of_mem hm)]
      · rw [List.mem_singleton.mp hm, ← h.nodes]
        exact hb
    · rw [if_neg hx, List.append_nil] at hm
      rw [hkept x m hm, hother x hx]

/-- The node of an assignment, bound to the variable a resolution gave, where the resolution
kept the tree, the position and the graph. -/
theorem scopedAs_bind {s : Stmt} {st₂ : Lowering} {v : Nat} {a : Option Nat} (h : st.ScopedAs done)
    (hat : st.At E) (hframes : st₂.scopes.frames = st.scopes.frames)
    (hatNode : st₂.scopes.atNode = st.scopes.atNode.push st.point) (hpoint : st₂.point = st.point)
    (hnodes : st₂.graph.nodes = st.graph.nodes.push ⟨some s, .assign, none, a⟩)
    (hnew : ∀ β, Stmt.boundWrite? (s, E) = some β → β.var? st.graph.nodes = some v)
    (hfree : (∀ x, ((st₂.bind st.graph.nodes.size v).scopes.freeVar? x).isSome ↔
        freeWritesIn (done ++ [(s, E)]) x ≠ []) ∧
      ∀ x, ∀ m ∈ freeWritesIn (done ++ [(s, E)]) x,
        (Binder.decl m).var? (st₂.bind st.graph.nodes.size v).graph.nodes =
          (st₂.bind st.graph.nodes.size v).scopes.freeVar? x) :
    let st' := st₂.bind st.graph.nodes.size v
    st'.ScopedAs (done ++ [(s, E)]) ∧ st'.At E ∧ st.Grows st' := by
  intro st'
  have hk : KeepsNodes st.graph.nodes st'.graph.nodes := by
    simp only [st', bind_graph_nodes, hnodes]
    exact (KeepsNodes.push _).modify (Nat.le_refl _) _
  have hframes' : st'.scopes.frames = st.scopes.frames := hframes
  refine ⟨h.push hat (Scopes.WF.of_frames_eq h.wf hframes'.symm)
    (Scopes.Extends.of_frames_eq hframes'.symm) hk (by simp [st', hnodes]) hatNode hfree.1 hfree.2
    (h.bound_push hk fun β hβ => ⟨v, ?_, Binder.var?_of_keeps hk (hnew β hβ)⟩),
    hat.of_frames_eq hframes' hpoint hk, Grows.of_frames_eq hframes' hpoint hk⟩
  -- the new node is bound to `v`
  simp [Binder.var?, st', hnodes, ← h.nodes, Array.getElem_modify]

/-- **An assignment writes the variable of its first candidate**, or else the free variable of
its name, made at the first such assignment. -/
theorem scopedAs_assign (h : st.ScopedAs done) (hat : st.At E) (name : String) (value : Expr)
    (inc : Pending) :
    let st' := (lower (.assign name value) inc st).2
    st'.ScopedAs (done ++ [(.assign name value, E)]) ∧ st'.At E ∧ st.Grows st' := by
  intro st'
  let st₁ := (st.advance.addNode ⟨some (.assign name value), .assign, none, some st.next⟩ inc).1
  have hst' : st' = (st₁.resolve name).1.bind st.graph.nodes.size (st₁.resolve name).2 := rfl
  -- the look-up reads the candidates through the realized view
  have hlookup : st₁.scopes.lookup st₁.point name =
      (E.lookup name).bind (Binder.var? st.graph.nodes) := by
    simp only [st₁, addNode_scopes, addNode_point, advance_scopes, advance_point]
    rw [Scopes.lookup_eq_visible, Scopes.visible_record, hat.2.lookup]
  have hkeep₁ : KeepsNodes st.graph.nodes (st₁.graph.nodes.modify st.graph.nodes.size
      fun n => { n with boundVar := some (st₁.resolve name).2 }) := by
    simp only [st₁, addNode_graph_nodes]
    exact (KeepsNodes.push _).modify (Nat.le_refl _) _
  -- a candidate of the name: the look-up finds its variable
  have hcand : ∀ β, E.lookup name = some β →
      ∃ v, β.var? st.graph.nodes = some v ∧ st₁.resolve name = (st₁, v) := by
    intro β hE
    have hsome : ((st.scopes.visible st.point).lookup name).isSome := by
      cases hv : (st.scopes.visible st.point).lookup name with
      | none => simp [(hat.2.lookup_eq_none_iff name).mp hv] at hE
      | some v => rfl
    obtain ⟨v, hv⟩ := Option.isSome_iff_exists.mp hsome
    rw [hat.2.lookup, hE] at hv
    exact ⟨v, by simpa using hv, resolve_of_lookup (by simp [hlookup, hE, hv])⟩
  have hres := resolve_scopes st₁ name
  rw [hst']
  refine scopedAs_bind (a := some st.next) h hat (by simp [hres.1, st₁]) (by simp [hres.2.1, st₁])
    (by simp [hres.2.2, st₁]) (by simp [st₁]) (fun β hβ => ?_) ?_
  · obtain ⟨v, hv, hres'⟩ := hcand β hβ
    rw [hres']
    exact hv
  cases hE : E.lookup name with
  | some β =>
    -- a candidate binds the name: no free variable is touched
    obtain ⟨v, -, hres'⟩ := hcand β hE
    rw [hres']
    exact h.free_quiet (by simp [Stmt.freeWrite?, hE]) (by simp [st₁])
      (by simpa [hres'] using hkeep₁)
  | none =>
    have hfw : Stmt.freeWrite? (.assign name value, E) = some name := by
      simp [Stmt.freeWrite?, hE]
    cases hfv : st.scopes.freeVar? name with
    | some v =>
      -- the free variable exists: its earlier writes stay as they are
      have hres' : st₁.resolve name = (st₁, v) :=
        resolve_of_freeVar (by simp [hlookup, hE]) (by simpa [st₁] using hfv)
      rw [hres']
      have hk : KeepsNodes st.graph.nodes (st₁.bind st.graph.nodes.size v).graph.nodes := by
        simpa [hres'] using hkeep₁
      refine h.free_write hfw hk ?_ ?_ (fun _ => by simp [st₁]) (fun x _ => by simp [st₁])
      · simp [Binder.var?, st₁, hfv, Array.getElem_modify]
      · simp [st₁, hfv]
    | none =>
      -- the first write of a free name makes its variable
      have hnone : freeWritesIn done name = [] := by
        by_contra hne
        have := (h.free_isSome name).mpr hne
        rw [hfv] at this
        cases this
      have hres' : st₁.resolve name = ({ (st₁.newVariable ⟨name, .free, none⟩).1 with
          scopes := st₁.scopes.insertFree name st₁.vars.size }, st₁.vars.size) :=
        resolve_of_fresh (by simp [hlookup, hE]) (by simpa [st₁] using hfv)
      rw [hres']
      have hk : KeepsNodes st.graph.nodes ({ (st₁.newVariable ⟨name, .free, none⟩).1 with
          scopes := st₁.scopes.insertFree name st₁.vars.size }.bind st.graph.nodes.size
            st₁.vars.size).graph.nodes := by
        simpa [hres'] using hkeep₁
      refine h.free_write hfw hk ?_ ?_ (fun hne => absurd hnone hne) (fun x hx => ?_)
      · simp [Binder.var?, st₁, Scopes.freeVar?, Bindings.lookup_cons, Array.getElem_modify]
      · simp [st₁, Scopes.freeVar?, Bindings.lookup_cons]
      · simp [st₁, Scopes.freeVar?, Bindings.lookup_cons, hx]

theorem ScopedAs.connect (h : st.ScopedAs done) (P : Pending) (t : Nat) :
    (st.connect P t).ScopedAs done :=
  h.of_frames_eq (by simp) (by simp) (by simp) (by simp)

theorem At.connect (hat : st.At E) (P : Pending) (t : Nat) : (st.connect P t).At E :=
  hat.of_frames_eq (by simp) (by simp) (by simpa using KeepsNodes.refl _)

theorem Grows.connect (st : Lowering) (P : Pending) (t : Nat) : st.Grows (st.connect P t) :=
  Grows.of_frames_eq (by simp) (by simp) (by simpa using KeepsNodes.refl _)

/-! ### A whole statement -/

mutual

/-- **Lowering a statement records its nodes with their candidates.** From a state that has
recorded `done`, with candidates `E` at its position, lowering `s` records the nodes of `s`
with their candidates, and leaves the position with the binding `s` makes in front of `E`. -/
theorem lower_scopedAs : ∀ (s : Stmt) (inc : Pending) (st : Lowering)
    (done : List (Stmt × Candidates)) (E : Candidates), st.ScopedAs done → st.At E →
      (lower s inc st).2.ScopedAs (done ++ s.scoped done.length E) ∧
        (lower s inc st).2.At (s.declares done.length ++ E) ∧ st.Grows (lower s inc st).2
  | .block items, inc, st, done, E, h, hat => by
    -- the items are lowered in a frame of their own, then the position goes back
    obtain ⟨h₁, hat₁⟩ := h.advance.openScope hat.advance
    obtain ⟨h₂, hg₂⟩ := lowerAll_scopedAs items inc st.advance.openScope done E h₁ hat₁
    obtain ⟨hat₃, hg₃⟩ := hg₂.restore hat.advance h.wf
    exact ⟨h₂.restore st.point, hat₃, (Grows.advance st).trans hg₃⟩
  | .declare name init, inc, st, done, E, h, hat => scopedAs_declare h hat name init inc
  | .assign name value, inc, st, done, E, h, hat => scopedAs_assign h hat name value inc
  | .ifThen c t, inc, st, done, E, h, hat => by
    let node : CfgNode := ⟨some (.ifThen c t), .branch, none, some st.next⟩
    obtain ⟨h₁, hat₁, hg₁⟩ :=
      h.advance.addNode hat.advance (s := .ifThen c t) rfl rfl .branch (some st.next) inc
    obtain ⟨h₁', hat₁'⟩ := h₁.openScope hat₁
    obtain ⟨h₂, -, hg₂⟩ := lower_scopedAs t [((st.advance.addNode node inc).2, .onTrue)] _ _ E h₁' hat₁'
    obtain ⟨hat₃, hg₃⟩ := hg₂.restore hat₁ h₁.wf
    have hlist : done ++ (Stmt.ifThen c t).scoped done.length E =
        done ++ [(Stmt.ifThen c t, E)] ++ t.scoped (done ++ [(Stmt.ifThen c t, E)]).length E := by
      simp [Stmt.scoped]
    rw [hlist]
    exact ⟨h₂.restore _, hat₃, (Grows.advance st).trans (hg₁.trans hg₃)⟩
  | .ifElse c t e, inc, st, done, E, h, hat => by
    let node : CfgNode := ⟨some (.ifElse c t e), .branch, none, some st.next⟩
    obtain ⟨h₁, hat₁, hg₁⟩ :=
      h.advance.addNode hat.advance (s := .ifElse c t e) rfl rfl .branch (some st.next) inc
    obtain ⟨h₁', hat₁'⟩ := h₁.openScope hat₁
    -- the then-branch, and back
    obtain ⟨h₂, -, hg₂⟩ := lower_scopedAs t [((st.advance.addNode node inc).2, .onTrue)] _ _ E h₁' hat₁'
    obtain ⟨hat₃, hg₃⟩ := hg₂.restore hat₁ h₁.wf
    have h₃ := h₂.restore (st.advance.addNode node inc).1.point
    -- the else-branch, from the same position, and back
    obtain ⟨h₃', hat₃'⟩ := h₃.openScope hat₃
    obtain ⟨h₄, -, hg₄⟩ := lower_scopedAs e [((st.advance.addNode node inc).2, .onFalse)] _ _ E h₃' hat₃'
    obtain ⟨hat₅, hg₅⟩ := hg₄.restore hat₃ h₃.wf
    have hlen : (done ++ [(Stmt.ifElse c t e, E)] ++
        t.scoped (done ++ [(Stmt.ifElse c t e, E)]).length E).length =
          done.length + 1 + t.nodeCount := by
      simp [Stmt.length_scoped]
      omega
    have hlist : done ++ (Stmt.ifElse c t e).scoped done.length E =
        done ++ [(Stmt.ifElse c t e, E)] ++ t.scoped (done ++ [(Stmt.ifElse c t e, E)]).length E ++
          e.scoped (done ++ [(Stmt.ifElse c t e, E)] ++
            t.scoped (done ++ [(Stmt.ifElse c t e, E)]).length E).length E := by
      rw [hlen]
      simp [Stmt.scoped]
    rw [hlist]
    exact ⟨h₄.restore _, hat₅, (Grows.advance st).trans (hg₁.trans (hg₃.trans hg₅))⟩
  | .loop c body, inc, st, done, E, h, hat => by
    let node : CfgNode := ⟨some (.loop c body), .loop, none, some st.next⟩
    obtain ⟨h₁, hat₁, hg₁⟩ :=
      h.advance.addNode hat.advance (s := .loop c body) rfl rfl .loop (some st.next) inc
    obtain ⟨h₁', hat₁'⟩ := h₁.openScope hat₁
    obtain ⟨h₂, -, hg₂⟩ :=
      lower_scopedAs body [((st.advance.addNode node inc).2, .onTrue)] _ _ E h₁' hat₁'
    obtain ⟨hat₃, hg₃⟩ := hg₂.restore hat₁ h₁.wf
    have hlist : done ++ (Stmt.loop c body).scoped done.length E =
        done ++ [(Stmt.loop c body, E)] ++ body.scoped (done ++ [(Stmt.loop c body, E)]).length E := by
      simp [Stmt.scoped]
    rw [hlist]
    -- the edges back to the loop's node change neither the tree nor the nodes
    exact ⟨(h₂.restore _).connect _ _, hat₃.connect _ _,
      (Grows.advance st).trans (hg₁.trans (hg₃.trans (Grows.connect _ _ _)))⟩
  | .ret v, inc, st, done, E, h, hat => by
    obtain ⟨h₁, hat₁, hg₁⟩ := h.advance.addNode hat.advance (s := .ret v) rfl rfl .ret (some st.next) inc
    exact ⟨h₁.of_frames_eq rfl rfl rfl rfl, hat₁.of_frames_eq rfl rfl (KeepsNodes.refl _),
      (Grows.advance st).trans (hg₁.trans (Grows.of_frames_eq rfl rfl (KeepsNodes.refl _)))⟩
  | .expr v, inc, st, done, E, h, hat => by
    obtain ⟨h₁, hat₁, hg₁⟩ :=
      h.advance.addNode hat.advance (s := .expr v) rfl rfl .expr (some st.next) inc
    exact ⟨h₁, hat₁, (Grows.advance st).trans hg₁⟩

/-- Lowering a sequence records each item's nodes with the declarations of the items before it
among their candidates. -/
theorem lowerAll_scopedAs : ∀ (items : List Stmt) (inc : Pending) (st : Lowering)
    (done : List (Stmt × Candidates)) (E : Candidates), st.ScopedAs done → st.At E →
      (lowerAll items inc st).2.ScopedAs (done ++ Stmt.scopedAll items done.length E) ∧
        st.Grows (lowerAll items inc st).2
  | [], inc, st, done, E, h, _ => ⟨by rw [Stmt.scopedAll, List.append_nil]; exact h, Grows.refl st⟩
  | s :: rest, inc, st, done, E, h, hat => by
    obtain ⟨h₁, hat₁, hg₁⟩ := lower_scopedAs s inc st done E h hat
    obtain ⟨h₂, hg₂⟩ := lowerAll_scopedAs rest _ _ _ _ h₁ hat₁
    have hlist : done ++ Stmt.scopedAll (s :: rest) done.length E =
        done ++ s.scoped done.length E ++ Stmt.scopedAll rest (done ++ s.scoped done.length E).length
          (s.declares done.length ++ E) := by
      simp [Stmt.scopedAll, Stmt.length_scoped]
    rw [hlist]
    exact ⟨h₂, hg₁.trans hg₂⟩

end

/-! ### The parameters -/

/-- Declaring parameters one after another, from `st`: each goes in front of the view, bound to
the variable numbered by its position. -/
theorem foldl_declareParam_at (rest : List String) :
    ∀ (st : Lowering) (E : Candidates), st.scopes.WF → st.At E →
      let st' := rest.foldl declareParam st
      st'.scopes.WF ∧
        st'.At (((rest.zipIdx st.vars.size).map fun (x, i) => (x, Binder.param i)).reverse ++ E) ∧
        st'.scopes.atNode = st.scopes.atNode ∧ st'.scopes.free = st.scopes.free ∧
        st'.graph = st.graph := by
  induction rest with
  | nil =>
    intro st E hwf hat
    exact ⟨hwf, by simpa using hat, rfl, rfl, rfl⟩
  | cons name rest ih =>
    intro st E hwf hat
    have hwf₁ : (st.declareParam name).scopes.WF := by
      simpa [declareParam] using hwf.declare
    have hat₁ : (st.declareParam name).At ((name, .param st.vars.size) :: E) := by
      refine ⟨by simpa [declareParam] using Scopes.atEnd_declare hat.1, ?_⟩
      simp only [declareParam, declare_scopes, declare_point, newVariable_scopes, newVariable_point]
      rw [Scopes.visible_declare hwf hat.1]
      exact hat.2.cons rfl
    obtain ⟨hwf', hat', hatNode, hfree, hgraph⟩ := ih _ _ hwf₁ hat₁
    have hsize : (st.declareParam name).vars.size = st.vars.size + 1 := by
      simp [declareParam, newVariable]
    refine ⟨hwf', ?_, by simpa [declareParam] using hatNode, by simpa [declareParam] using hfree,
      by simpa [declareParam] using hgraph⟩
    rw [hsize] at hat'
    simpa [List.zipIdx_cons] using hat'

/-- After the parameters, nothing is recorded, and the view is the parameters, the last first. -/
theorem ofParams_scopedAs (p : Procedure) :
    (ofParams p.params).ScopedAs [] ∧ (ofParams p.params).At p.paramCandidates := by
  obtain ⟨hwf, hat, hatNode, hfree, hgraph⟩ :=
    foldl_declareParam_at p.params {} [] Scopes.new_wf ⟨Scopes.new_atEnd, by simp [Realizes]⟩
  refine ⟨⟨hwf, by simp [ofParams, hgraph], ?_, fun x => ?_, fun x m hm => ?_,
    fun m β hm => by simp at hm⟩, ?_⟩
  · rw [ofParams, hatNode]
    exact List.Forall₂.nil
  · rw [Scopes.freeVar?, ofParams, hfree]
    simp [freeWritesIn_nil, Scopes.new]
  · simp [freeWritesIn_nil] at hm
  · have hzero : ({} : Lowering).vars.size = 0 := rfl
    rw [hzero, List.append_nil] at hat
    exact hat

end Lowering

/-! ## Resolution in the built graph -/

namespace Scopes

/-- A read at a node whose recorded position realizes candidates: the variable of the first
candidate of the name, else the free variable of the name. -/
theorem resolve_of_realizes {s : Scopes} {n : Nat} {pt : ScopePoint} {nodes : Array CfgNode}
    {E : Candidates} (hpt : s.atNode[n]? = some pt) (hr : Realizes nodes (s.visible pt) E)
    (x : String) :
    s.resolve n x =
      match E.lookup x with
      | some β => β.var? nodes
      | none => s.freeVar? x := by
  unfold resolve
  rw [hpt]
  simp only
  rw [lookup_eq_visible, hr.lookup]
  cases hE : E.lookup x with
  | none => simp
  | some β =>
    -- the binder has a variable, since the view binds the name too
    have hne : (s.visible pt).lookup x ≠ none := by
      rw [Ne, hr.lookup_eq_none_iff, hE]
      simp
    rw [hr.lookup, hE, Option.bind_some] at hne
    obtain ⟨v, hv⟩ := Option.ne_none_iff_exists'.mp hne
    simp [hv]

end Scopes

namespace Procedure

open Lowering

theorem lower_scopes (p : Procedure) :
    p.lower.scopes = (Lowering.lower p.body [] (ofParams p.params).openScope).2.scopes.record
      (ofParams p.params).point := by
  simp [Procedure.lower, Procedure.assemble]

theorem lower_graph_nodes (p : Procedure) :
    p.lower.graph.nodes =
      (Lowering.lower p.body [] (ofParams p.params).openScope).2.graph.nodes.push
        CfgNode.exitNode := by
  simp [Procedure.lower, Procedure.assemble]

/-- Lowering the body records each of its nodes with its candidates, and comes back to the
parameters' position with its view. -/
theorem lower_body_scopedAs (p : Procedure) :
    let st := (Lowering.lower p.body [] (ofParams p.params).openScope).2
    st.ScopedAs (p.body.scoped 0 p.paramCandidates) ∧
      (st.restore (ofParams p.params).point).At p.paramCandidates := by
  intro st
  obtain ⟨h₀, hat₀⟩ := ofParams_scopedAs p
  obtain ⟨h₁, hat₁⟩ := h₀.openScope hat₀
  obtain ⟨h₂, -, hg₂⟩ := lower_scopedAs p.body [] _ [] p.paramCandidates h₁ hat₁
  exact ⟨by simpa using h₂, (hg₂.restore hat₀ h₀.wf).1⟩

/-- **Every node of the graph, the exit included, has a recorded position whose view realizes
its candidates.** -/
theorem lower_recorded (p : Procedure) :
    List.Forall₂ (fun pt E => Realizes p.lower.graph.nodes (p.lower.scopes.visible pt) E)
      p.lower.scopes.atNode.toList
      ((p.body.scoped 0 p.paramCandidates).map (·.2) ++ [p.paramCandidates]) := by
  obtain ⟨h, hat⟩ := lower_body_scopedAs p
  have hk : KeepsNodes (Lowering.lower p.body [] (ofParams p.params).openScope).2.graph.nodes
      p.lower.graph.nodes := by
    rw [lower_graph_nodes]
    exact KeepsNodes.push _
  -- recording the exit's position changes no frame, so no view
  have hview : ∀ pt, p.lower.scopes.visible pt =
      (Lowering.lower p.body [] (ofParams p.params).openScope).2.scopes.visible pt := by
    intro pt
    rw [lower_scopes, Scopes.visible_record]
  simp only [hview]
  rw [lower_scopes, Scopes.record_atNode, Array.toList_push]
  refine List.rel_append ?_ (List.Forall₂.cons (hat.2.keeps hk) .nil)
  rw [List.forall₂_map_right_iff]
  exact h.recorded.imp fun _ _ hpt => hpt.2.keeps hk

/-- The free variable of a name exists exactly when some assignment of it has no candidate. -/
theorem lower_freeVar?_isSome (p : Procedure) (x : String) :
    (p.lower.scopes.freeVar? x).isSome ↔ p.freeWrites x ≠ [] := by
  rw [lower_scopes, Scopes.freeVar?_record]
  exact (lower_body_scopedAs p).1.free_isSome x

/-- Every assignment with no candidate writes the free variable of its name. -/
theorem lower_boundVar?_of_freeWrite (p : Procedure) {x : String} {m : Nat}
    (hm : m ∈ p.freeWrites x) : p.lower.boundVar? m = p.lower.scopes.freeVar? x := by
  have h := (lower_body_scopedAs p).1
  have hm' : m < (Lowering.lower p.body [] (ofParams p.params).openScope).2.graph.nodes.size :=
    h.nodes ▸ lt_of_mem_freeWritesIn hm
  have hkeep := (KeepsNodes.push CfgNode.exitNode) m hm'
  rw [← lower_graph_nodes] at hkeep
  rw [lower_scopes, Scopes.freeVar?_record, ← h.free_written x m hm]
  simp [ControlFlowGraph.boundVar?, ControlFlowGraph.node?, Digraph.node?, Binder.var?, hkeep]

/-- Every assignment with a candidate writes the variable of that candidate. -/
theorem lower_boundVar?_of_boundWrite (p : Procedure) {m : Nat} {β : Binder}
    (hm : ((p.body.scoped 0 p.paramCandidates)[m]?).bind Stmt.boundWrite? = some β) :
    ∃ v, p.lower.boundVar? m = some v ∧ β.var? p.lower.graph.nodes = some v := by
  obtain ⟨v, hm', hβ⟩ := (lower_body_scopedAs p).1.bound_written m β hm
  have hk : KeepsNodes (Lowering.lower p.body [] (ofParams p.params).openScope).2.graph.nodes
      p.lower.graph.nodes := by
    rw [lower_graph_nodes]
    exact KeepsNodes.push _
  refine ⟨v, ?_, Binder.var?_of_keeps hk hβ⟩
  simpa [ControlFlowGraph.boundVar?, ControlFlowGraph.node?, Digraph.node?, Binder.var?] using
    Binder.var?_of_keeps hk hm'

/-- A node has candidates exactly when it is a node of the graph. -/
theorem candidatesAt_eq_none_iff (p : Procedure) (n : Nat) :
    p.candidatesAt n = none ↔ p.lower.nodeCount ≤ n := by
  rw [candidatesAt, List.getElem?_eq_none_iff, lower_nodeCount]
  simp [Stmt.length_scoped]

/-- A position where one of two related lists has an entry, the other has a related one. -/
private theorem exists_getElem?_of_forall₂ {α β : Type} {R : α → β → Prop} :
    ∀ {l₁ : List α} {l₂ : List β}, List.Forall₂ R l₁ l₂ → ∀ {n : Nat} {b : β},
      l₂[n]? = some b → ∃ a, l₁[n]? = some a ∧ R a b
  | _, _, .nil, _, _, hb => by simp at hb
  | _, _, .cons hab _, 0, _, hb => by
    simp only [List.getElem?_cons_zero, Option.some.injEq] at hb
    subst hb
    exact ⟨_, rfl, hab⟩
  | _, _, .cons _ h, n + 1, _, hb => by
    simpa using exists_getElem?_of_forall₂ h (n := n) (by simpa using hb)

/-- **A read resolves by lexical scope.** At a node of a procedure's graph, a read of `x`
resolves to the variable of the innermost candidate named `x`, else to the free variable of `x`;
past the exit node, to nothing. -/
theorem lower_resolve (p : Procedure) (n : Nat) (x : String) :
    p.lower.resolve n x =
      match p.candidatesAt n with
      | none => none
      | some E =>
        match E.lookup x with
        | some β => β.var? p.lower.graph.nodes
        | none => p.lower.scopes.freeVar? x := by
  have hrec := lower_recorded p
  cases hE : p.candidatesAt n with
  | none =>
    -- no node there, so no position was recorded
    have hnone : p.lower.scopes.atNode[n]? = none := by
      rw [candidatesAt, List.getElem?_eq_none_iff] at hE
      rw [← Array.getElem?_toList, List.getElem?_eq_none_iff, hrec.length_eq]
      exact hE
    simp [ControlFlowGraph.resolve, Scopes.resolve, hnone]
  | some E =>
    obtain ⟨pt, hpt, hr⟩ := exists_getElem?_of_forall₂ hrec hE
    rw [Array.getElem?_toList] at hpt
    exact Scopes.resolve_of_realizes hpt hr x

/-- **A read of a built procedure resolves by lexical scope.** A node's candidates are the
declarations made by the earlier items of every block around its statement, innermost first,
then the parameters; the exit node has the parameters alone, and a number past it has none. A
read of `x` gives the variable of the innermost candidate named `x`; with none, the free
variable of `x`, which exists exactly when some assignment of `x` anywhere in the body has no
candidate named `x`, and which every such assignment writes; past the exit, nothing. -/
theorem build_resolve_lexical {p : Procedure} {cfg : ControlFlowGraph}
    (hbuild : p.build = .ok cfg) (n : Nat) (x : String) :
    cfg.resolve n x =
      (match p.candidatesAt n with
        | none => none
        | some E =>
          match E.lookup x with
          | some β => β.var? cfg.graph.nodes
          | none => cfg.scopes.freeVar? x) ∧
    (p.candidatesAt n = none ↔ cfg.nodeCount ≤ n) ∧
    ((cfg.scopes.freeVar? x).isSome ↔ p.freeWrites x ≠ []) ∧
    ∀ m ∈ p.freeWrites x, cfg.boundVar? m = cfg.scopes.freeVar? x := by
  obtain ⟨-, rfl⟩ := build_eq_ok.mp hbuild
  exact ⟨lower_resolve p n x, candidatesAt_eq_none_iff p n, lower_freeVar?_isSome p x,
    fun m hm => lower_boundVar?_of_freeWrite p hm⟩

/-- An inner declaration shadows an outer one of the same name, and a name no declaration binds
is written to the free variable. -/
theorem build_resolve_lexical_shadowing :
    let p : Procedure := ⟨"f", ["a"], .block [.declare "x" none,
      .block [.declare "x" none, .assign "x" (.name "a")], .assign "x" (.name "x"),
      .assign "y" (.name "x")]⟩
    p.build = .ok p.lower ∧
      (p.lower.resolve 2 "x" =
        (match p.candidatesAt 2 with
          | none => none
          | some E =>
            match E.lookup "x" with
            | some β => β.var? p.lower.graph.nodes
            | none => p.lower.scopes.freeVar? "x") ∧
        (p.candidatesAt 2 = none ↔ p.lower.nodeCount ≤ 2) ∧
        ((p.lower.scopes.freeVar? "x").isSome ↔ p.freeWrites "x" ≠ []) ∧
        ∀ m ∈ p.freeWrites "x", p.lower.boundVar? m = p.lower.scopes.freeVar? "x") := by
  intro p
  have hbuild : p.build = .ok p.lower := build_eq_ok.mpr ⟨rfl, rfl⟩
  exact ⟨hbuild, build_resolve_lexical hbuild 2 "x"⟩

/-- The inner assignment sees the inner declaration, then the outer one, then the parameter. -/
example : (⟨"f", ["a"], .block [.declare "x" none,
    .block [.declare "x" none, .assign "x" (.name "a")], .assign "x" (.name "x"),
    .assign "y" (.name "x")]⟩ : Procedure).candidatesAt 2 =
    some [("x", .decl 1), ("x", .decl 0), ("a", .param 0)] := by
  decide

end Procedure

end ReachingDefs
