import ReachingDefs.Syntax.Stmt

/-!
# Nodes, edges and variables of a control-flow graph

Every statement but a block is one node, and one more node stands for the exit of the
procedure. An edge records why control can move along it. A variable is what a name
resolves to: a parameter, a local declared in the body, or a free variable that the body
assigns or reads without declaring it.
-/

namespace ReachingDefs

/-- What a node of the control-flow graph stands for. -/
inductive NodeKind where
  | declare
  | assign
  | branch
  | loop
  | ret
  | expr
  /-- The synthetic exit node of the procedure. -/
  | exit
deriving DecidableEq, Repr, Inhabited

namespace NodeKind

/-- The name of a kind in reports. -/
def label : NodeKind → String
  | .declare => "var_decl"
  | .assign => "assign"
  | .branch => "if"
  | .loop => "while"
  | .ret => "return"
  | .expr => "expr"
  | .exit => "end"

/-- All kinds, in the order reports list them. -/
def all : List NodeKind := [.declare, .assign, .branch, .loop, .ret, .expr, .exit]

end NodeKind

/-- The kind of node a statement becomes; a block becomes none. -/
def Stmt.kind? : Stmt → Option NodeKind
  | .block _ => none
  | .declare _ _ => some .declare
  | .assign _ _ => some .assign
  | .ifThen _ _ => some .branch
  | .ifElse _ _ _ => some .branch
  | .loop _ _ => some .loop
  | .ret _ => some .ret
  | .expr _ => some .expr

/-- Why control can move along an edge. -/
inductive EdgeKind where
  /-- Fall-through from one statement to the next. -/
  | seq
  /-- Into the then branch of a conditional, or into the body of a loop. -/
  | onTrue
  /-- Into the else branch of a conditional or past it, or out of a loop. -/
  | onFalse
  /-- From the end of a loop body back to the loop head. -/
  | loopBack
  /-- From a return to the exit. -/
  | toExit
deriving DecidableEq, Repr, Inhabited

/-- The name of an edge kind in reports and drawings. -/
def EdgeKind.label : EdgeKind → String
  | .seq => "seq"
  | .onTrue => "true"
  | .onFalse => "false"
  | .loopBack => "loop"
  | .toExit => "return"

/-- Where a variable comes from. -/
inductive VariableKind where
  /-- A formal parameter. -/
  | parameter
  /-- A variable declared in the body. -/
  | declared
  /-- A name the body uses without any visible declaration. -/
  | free
deriving DecidableEq, Repr, Inhabited

/-- The name of a variable kind in reports. -/
def VariableKind.label : VariableKind → String
  | .parameter => "parameter"
  | .declared => "local"
  | .free => "free"

/-- A resolved variable of a procedure. -/
structure Variable where
  name : String
  kind : VariableKind
  /-- The declaration node of a declared variable. -/
  declaredAt : Option Nat
deriving DecidableEq, Repr, Inhabited

/-- A node of the control-flow graph. -/
structure CfgNode where
  /-- The statement of the node; the exit node has none. -/
  stmt : Option Stmt
  kind : NodeKind
  /-- The variable a declaration or assignment is bound to. -/
  boundVar : Option Nat
  /-- Where the node's statement stands in the procedure body: its position in source pre-order,
  which is what the statement's address is to the graph. The exit node has none. -/
  address : Option Nat
deriving Repr, Inhabited

namespace CfgNode

/-- The exit node. -/
def exitNode : CfgNode := ⟨none, .exit, none, none⟩

/-- Whether the node writes a variable: an initialized declaration or an assignment. -/
def isDefinition (n : CfgNode) : Bool :=
  n.boundVar.isSome && (n.stmt.bind Stmt.definedName?).isSome

/-- The text of a node in a drawing: its statement, or `end` for the exit. -/
def text (n : CfgNode) : String :=
  match n.stmt with
  | some s => s.text
  | none => "end"

end CfgNode

/-- The handle of a node as reports write it, `n3`. -/
def nodeName (i : Nat) : String := "n" ++ toString i

/-- The handle of a node in debug form, `NodeId(3)`. -/
def nodeDebug (i : Nat) : String := "NodeId(" ++ toString i ++ ")"

/-- The handle of a variable as reports write it, `v3`. -/
def variableName (i : Nat) : String := "v" ++ toString i

end ReachingDefs
