import ReachingDefs.Syntax.Procedure
import ReachingDefs.Cfg.Graph

/-!
# Building the control-flow graph of a procedure

A procedure is refused when a parameter has an empty name, repeats an earlier parameter, or
when a declaration or assignment anywhere in its body, dead code included, has an empty
name. The checks run as the graph is built: each parameter is checked, the empty name before
the repetition, when it is declared; a declaration or assignment is checked when lowering
reaches it, and the first refusal ends the build. `Procedure.fault?` reads the same first
fault off the syntax: the parameters in order, then the body in source pre-order.

Lowering walks the body once. Each statement receives the *pending* edges that must enter
the next node created, and hands on the pending edges that leave it:

* a declaration, assignment or expression statement leaves by a fall-through edge;
* a conditional enters its then branch by a true edge, and its else branch, or what follows
  it when there is none, by a false edge;
* a loop enters its body by a true edge, every exit of the body goes back to the loop head,
  and the loop is left by a false edge;
* a return leaves nothing pending and goes to the exit node;
* a block passes the pending edges through its items.

A block, each branch and a loop's body are lowered in a scope of their own, so a declaration
is visible only to the later items of the block it is an item of.

Statements after a return in the same block therefore get no predecessor. An edge between
two nodes that are already connected is not added again, so the first kind recorded stays.

Each statement's node carries the statement's address: its position in the source pre-order of
the body. Lowering reaches the statements in that order, blocks included, so it keeps the
address of the next statement as it goes.

The build adds every edge through the graph's checked `addEdge`, which refuses an edge whose
source or target is not a node, and a refusal ends the build. `Lowering.lower` is the same
lowering with the name checks and the edge checks taken out.
-/

namespace ReachingDefs

/-- Why a procedure has no control-flow graph. -/
inductive BuildError where
  /-- The parameter at this position has an empty name. -/
  | emptyParameter (position : Nat)
  /-- A parameter repeats the name of an earlier one. -/
  | duplicateParameter (name : String)
  /-- A declaration has an empty name. -/
  | emptyDeclaration
  /-- An assignment has an empty name. -/
  | emptyAssignment
  /-- The graph refused an edge. -/
  | graph (e : GraphError)
deriving DecidableEq, Repr

/-- The report of a refused procedure. -/
def BuildError.message : BuildError → String
  | .emptyParameter position => "parameter " ++ toString position ++ " has an empty name"
  | .duplicateParameter name => "duplicate parameter name '" ++ name ++ "'"
  | .emptyDeclaration => "declaration with an empty variable name"
  | .emptyAssignment => "assignment with an empty variable name"
  | .graph e => e.message

/-- The first fault of a parameter list, each parameter checked against those before it. -/
def paramFault? (params : List String) : Option BuildError :=
  go params [] 0
where
  /-- Checks the remaining parameters, given the earlier ones and the current position. -/
  go : List String → List String → Nat → Option BuildError
    | [], _, _ => none
    | p :: rest, earlier, i =>
      if p.isEmpty then some (.emptyParameter i)
      else if p ∈ earlier then some (.duplicateParameter p)
      else go rest (p :: earlier) (i + 1)

/-- The fault of a single statement, inner statements aside. -/
def Stmt.ownFault? : Stmt → Option BuildError
  | .declare name _ => if name.isEmpty then some .emptyDeclaration else none
  | .assign name _ => if name.isEmpty then some .emptyAssignment else none
  | _ => none

/-- The first reason a procedure has no control-flow graph. -/
def Procedure.fault? (p : Procedure) : Option BuildError :=
  (paramFault? p.params).or (p.body.preorder.findSome? Stmt.ownFault?)

/-- Edges waiting for their target: the source and the kind. -/
abbrev Pending := List (Nat × EdgeKind)

/-- The state of a lowering run. -/
structure Lowering where
  graph : Digraph CfgNode EdgeKind := {}
  vars : Array Variable := #[]
  scopes : Scopes := Scopes.new.1
  /-- The innermost open scope position; it starts in the parameter frame. -/
  point : ScopePoint := Scopes.new.2
  returns : Array Nat := #[]
  /-- The address of the statement lowering reaches next. -/
  next : Nat := 0

namespace Lowering

/-- Adds an edge from every pending source to `target`, skipping pairs already connected. -/
def connect (st : Lowering) (pending : Pending) (target : Nat) : Lowering :=
  pending.foldl (fun st (source, kind) =>
    if st.graph.containsEdge source target then st
    else { st with graph := st.graph.link source target kind }) st

/-- Connects as `connect` does, adding each edge through the graph's checked `addEdge`: an edge
the graph refuses ends the wiring with its error. -/
def connectChecked (st : Lowering) (pending : Pending) (target : Nat) :
    Except BuildError Lowering :=
  pending.foldlM (fun st e =>
    if st.graph.containsEdge e.1 target then pure st
    else match st.graph.addEdge e.1 target e.2 with
      | .ok graph => pure { st with graph }
      | .error err => throw (.graph err)) st

/-- Adds a node, records the scope position it sees, and wires the pending edges into it. A
declaration's own binding is not yet visible there. -/
def addNode (st : Lowering) (node : CfgNode) (incoming : Pending) : Lowering × Nat :=
  let (graph, v) := st.graph.addNode node
  ({ st with graph, scopes := st.scopes.record st.point }.connect incoming v, v)

/-- Adds a node as `addNode` does, wiring the pending edges in with their checks. -/
def addNodeChecked (st : Lowering) (node : CfgNode) (incoming : Pending) :
    Except BuildError (Lowering × Nat) := do
  let (graph, v) := st.graph.addNode node
  let st ← { st with graph, scopes := st.scopes.record st.point }.connectChecked incoming v
  pure (st, v)

/-- Moves past the statement at the current address. -/
def advance (st : Lowering) : Lowering := { st with next := st.next + 1 }

/-- Adds a variable and returns its handle. -/
def newVariable (st : Lowering) (var : Variable) : Lowering × Nat :=
  ({ st with vars := st.vars.push var }, st.vars.size)

/-- Binds a node to a variable. -/
def bind (st : Lowering) (node var : Nat) : Lowering :=
  { st with graph := { st.graph with
      nodes := st.graph.nodes.modify node fun n => { n with boundVar := some var } } }

/-- Binds `name` to a variable at the current position, and moves past the binding. -/
def declare (st : Lowering) (name : String) (var : Nat) : Lowering :=
  let (scopes, point) := st.scopes.declare st.point name var
  { st with scopes, point }

/-- The variable an assignment of `name` writes: the innermost visible declaration, else the
free variable of that name, created on first use. -/
def resolve (st : Lowering) (name : String) : Lowering × Nat :=
  match st.scopes.lookup st.point name with
  | some v => (st, v)
  | none =>
    match st.scopes.freeVar? name with
    | some v => (st, v)
    | none =>
      let (st, v) := st.newVariable ⟨name, .free, none⟩
      ({ st with scopes := st.scopes.insertFree name v }, v)

/-- Opens a fresh scope below the current position. -/
def openScope (st : Lowering) : Lowering :=
  let (scopes, point) := st.scopes.openFrame st.point
  { st with scopes, point }

/-- Goes back to an enclosing position. -/
def restore (st : Lowering) (point : ScopePoint) : Lowering := { st with point }

mutual

/-- Lowers one statement given the pending edges into it, and returns those out of it. The
statement is at the current address; its node, if it has one, carries that address. -/
def lower : Stmt → Pending → Lowering → Pending × Lowering
  | .block items, incoming, st =>
    let (out, st') := lowerAll items incoming st.advance.openScope
    (out, st'.restore st.point)
  | s@(.declare name _), incoming, st =>
    let (st, node) := st.advance.addNode ⟨some s, .declare, none, some st.next⟩ incoming
    let (st, v) := st.newVariable ⟨name, .declared, some node⟩
    ([(node, .seq)], (st.declare name v).bind node v)
  | s@(.assign name _), incoming, st =>
    let (st, node) := st.advance.addNode ⟨some s, .assign, none, some st.next⟩ incoming
    let (st, v) := st.resolve name
    ([(node, .seq)], st.bind node v)
  | s@(.ifThen _ thenBranch), incoming, st =>
    let (st, node) := st.advance.addNode ⟨some s, .branch, none, some st.next⟩ incoming
    let (exits, st') := lower thenBranch [(node, .onTrue)] st.openScope
    (exits ++ [(node, .onFalse)], st'.restore st.point)
  | s@(.ifElse _ thenBranch elseBranch), incoming, st =>
    let (st, node) := st.advance.addNode ⟨some s, .branch, none, some st.next⟩ incoming
    let (exits, st') := lower thenBranch [(node, .onTrue)] st.openScope
    let (exits', st'') := lower elseBranch [(node, .onFalse)] (st'.restore st.point).openScope
    (exits ++ exits', st''.restore st.point)
  | s@(.loop _ body), incoming, st =>
    let (st, node) := st.advance.addNode ⟨some s, .loop, none, some st.next⟩ incoming
    let (exits, st') := lower body [(node, .onTrue)] st.openScope
    let back := exits.map fun (source, _) => (source, EdgeKind.loopBack)
    ([(node, .onFalse)], (st'.restore st.point).connect back node)
  | s@(.ret _), incoming, st =>
    let (st, node) := st.advance.addNode ⟨some s, .ret, none, some st.next⟩ incoming
    ([], { st with returns := st.returns.push node })
  | s@(.expr _), incoming, st =>
    let (st, node) := st.advance.addNode ⟨some s, .expr, none, some st.next⟩ incoming
    ([(node, .seq)], st)

/-- Lowers a sequence of statements, threading the pending edges through them. -/
def lowerAll : List Stmt → Pending → Lowering → Pending × Lowering
  | [], incoming, st => (incoming, st)
  | s :: rest, incoming, st =>
    let (out, st) := lower s incoming st
    lowerAll rest out st

end

/-- Refuses an empty name. -/
def checkName (name : String) (fault : BuildError) : Except BuildError Unit :=
  if name.isEmpty then .error fault else .ok ()

mutual

/-- Lowers a statement as `lower` does, refusing a declaration or an assignment with an empty
name before its node is added, and adding every edge with its check. A refusal inside a statement
ends the lowering. -/
def lowerChecked : Stmt → Pending → Lowering → Except BuildError (Pending × Lowering)
  | .block items, incoming, st => do
    let (out, st') ← lowerAllChecked items incoming st.advance.openScope
    pure (out, st'.restore st.point)
  | s@(.declare name _), incoming, st => do
    checkName name .emptyDeclaration
    let (st, node) ← st.advance.addNodeChecked ⟨some s, .declare, none, some st.next⟩ incoming
    let (st, v) := st.newVariable ⟨name, .declared, some node⟩
    pure ([(node, .seq)], (st.declare name v).bind node v)
  | s@(.assign name _), incoming, st => do
    checkName name .emptyAssignment
    let (st, node) ← st.advance.addNodeChecked ⟨some s, .assign, none, some st.next⟩ incoming
    let (st, v) := st.resolve name
    pure ([(node, .seq)], st.bind node v)
  | s@(.ifThen _ thenBranch), incoming, st => do
    let (st, node) ← st.advance.addNodeChecked ⟨some s, .branch, none, some st.next⟩ incoming
    let (exits, st') ← lowerChecked thenBranch [(node, .onTrue)] st.openScope
    pure (exits ++ [(node, .onFalse)], st'.restore st.point)
  | s@(.ifElse _ thenBranch elseBranch), incoming, st => do
    let (st, node) ← st.advance.addNodeChecked ⟨some s, .branch, none, some st.next⟩ incoming
    let (exits, st') ← lowerChecked thenBranch [(node, .onTrue)] st.openScope
    let (exits', st'') ← lowerChecked elseBranch [(node, .onFalse)] (st'.restore st.point).openScope
    pure (exits ++ exits', st''.restore st.point)
  | s@(.loop _ body), incoming, st => do
    let (st, node) ← st.advance.addNodeChecked ⟨some s, .loop, none, some st.next⟩ incoming
    let (exits, st') ← lowerChecked body [(node, .onTrue)] st.openScope
    let back := exits.map fun (source, _) => (source, EdgeKind.loopBack)
    let st'' ← (st'.restore st.point).connectChecked back node
    pure ([(node, .onFalse)], st'')
  | s@(.ret _), incoming, st => do
    let (st, node) ← st.advance.addNodeChecked ⟨some s, .ret, none, some st.next⟩ incoming
    pure ([], { st with returns := st.returns.push node })
  | s@(.expr _), incoming, st => do
    let (st, node) ← st.advance.addNodeChecked ⟨some s, .expr, none, some st.next⟩ incoming
    pure ([(node, .seq)], st)

/-- Lowers a sequence of statements with their checks, stopping at the first refusal. -/
def lowerAllChecked : List Stmt → Pending → Lowering → Except BuildError (Pending × Lowering)
  | [], incoming, st => pure (incoming, st)
  | s :: rest, incoming, st => do
    let (out, st) ← lowerChecked s incoming st
    lowerAllChecked rest out st

end

/-- Adds a parameter's variable and binds its name at the current position. -/
def declareParam (st : Lowering) (name : String) : Lowering :=
  let (st, v) := st.newVariable ⟨name, .parameter, none⟩
  st.declare name v

/-- The state after declaring the parameters, in order, in the root frame. -/
def ofParams (params : List String) : Lowering :=
  params.foldl declareParam {}

/-- Declares the parameters in order in the root frame, refusing a parameter whose name is empty
or already bound there, the empty name first. -/
def new (params : List String) : Except BuildError Lowering :=
  go params 0 {}
where
  /-- Declares the remaining parameters, the first of them at `position`. -/
  go : List String → Nat → Lowering → Except BuildError Lowering
    | [], _, st => .ok st
    | name :: rest, position, st =>
      if name.isEmpty then .error (.emptyParameter position)
      else if (st.scopes.lookup st.point name).isSome then .error (.duplicateParameter name)
      else go rest (position + 1) (st.declareParam name)

end Lowering

namespace Procedure

/-- Finishes a procedure's graph once its body is lowered: back at the parameters' position, the
exit node is added, and the edges left pending by the body and every return go into it. -/
def assemble (p : Procedure) (params : ScopePoint) (pending : Pending) (st : Lowering) :
    ControlFlowGraph :=
  let st := st.restore params
  let (st, exit) := st.addNode CfgNode.exitNode []
  let st := st.connect pending exit
  let st := st.connect (st.returns.toList.map fun v => (v, EdgeKind.toExit)) exit
  { name := p.name, params := p.params, graph := st.graph, vars := st.vars,
    scopes := st.scopes, start := if exit = 0 then exit else 0, exit }

/-- Finishes the graph as `assemble` does, adding the edges into the exit with their checks. -/
def assembleChecked (p : Procedure) (params : ScopePoint) (pending : Pending) (st : Lowering) :
    Except BuildError ControlFlowGraph := do
  let st := st.restore params
  let (st, exit) := st.addNode CfgNode.exitNode []
  let st ← st.connectChecked pending exit
  let st ← st.connectChecked (st.returns.toList.map fun v => (v, EdgeKind.toExit)) exit
  return { name := p.name, params := p.params, graph := st.graph, vars := st.vars,
           scopes := st.scopes, start := if exit = 0 then exit else 0, exit := exit }

/-- The control-flow graph of a procedure whose names are all valid. -/
def lower (p : Procedure) : ControlFlowGraph :=
  let st₀ := Lowering.ofParams p.params
  -- the body is lowered in a scope of its own below the parameters
  let (pending, st) := Lowering.lower p.body [] st₀.openScope
  p.assemble st₀.point pending st

/-- The control-flow graph of a procedure, or why it has none: the first refused parameter, or
the first refused statement in the order lowering reaches them, or an edge the graph refuses. -/
def build (p : Procedure) : Except BuildError ControlFlowGraph := do
  let st₀ ← Lowering.new p.params
  let (pending, st) ← Lowering.lowerChecked p.body [] st₀.openScope
  p.assembleChecked st₀.point pending st

end Procedure

/-- The control-flow graphs of every procedure of a program, or the first refusal. -/
def Program.build (prog : Program) : Except BuildError (List ControlFlowGraph) :=
  prog.procedures.mapM Procedure.build

end ReachingDefs
