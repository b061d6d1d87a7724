import ReachingDefs.Syntax.Expr

/-!
# Statements

A procedure body is a tree of structured statements: blocks, declarations, assignments,
conditionals with or without an else branch, loops, returns and expression statements.
Every statement but a block becomes one node of the control-flow graph, in the source
pre-order that `Stmt.preorder` lists.
-/

namespace ReachingDefs

/-- A structured statement. -/
inductive Stmt where
  /-- A sequence of statements that opens a lexical scope. -/
  | block (items : List Stmt)
  /-- A local declaration, with or without an initial value. -/
  | declare (name : String) (init : Option Expr)
  /-- An assignment to a variable. -/
  | assign (name : String) (value : Expr)
  /-- A conditional without an else branch. -/
  | ifThen (cond : Expr) (thenBranch : Stmt)
  /-- A conditional with an else branch. -/
  | ifElse (cond : Expr) (thenBranch elseBranch : Stmt)
  /-- A loop that tests its condition before each round. -/
  | loop (cond : Expr) (body : Stmt)
  /-- A return, with or without a value. -/
  | ret (value : Option Expr)
  /-- An expression evaluated for its effect. -/
  | expr (value : Expr)
deriving Repr, Inhabited

namespace Stmt

/-- The items of a block; every other statement has none. -/
def children : Stmt → List Stmt
  | .block items => items
  | _ => []

/-- The variable a statement writes: an initialized declaration or an assignment. -/
def definedName? : Stmt → Option String
  | .declare name (some _) => some name
  | .assign name _ => some name
  | _ => none

/-- The expression a statement carries: the initial value of a declaration, the assigned
value, the condition of a conditional or loop, the returned value, or the evaluated one. -/
def expr? : Stmt → Option Expr
  | .block _ => none
  | .declare _ init => init
  | .assign _ value => some value
  | .ifThen cond _ => some cond
  | .ifElse cond _ _ => some cond
  | .loop cond _ => some cond
  | .ret value => value
  | .expr value => some value

/-- The one-line text of a statement. A block shows only how many items it has; a
conditional or loop shows only its head. -/
def text : Stmt → String
  | .block items => "\x7b " ++ toString items.length ++ " statements \x7d"
  | .declare name none => "var " ++ name ++ ";"
  | .declare name (some init) => "var " ++ name ++ " = " ++ init.text ++ ";"
  | .assign name value => name ++ " = " ++ value.text ++ ";"
  | .ifThen cond _ => "if (" ++ cond.text ++ ")"
  | .ifElse cond _ _ => "if (" ++ cond.text ++ ")"
  | .loop cond _ => "while (" ++ cond.text ++ ")"
  | .ret none => "return;"
  | .ret (some value) => "return " ++ value.text ++ ";"
  | .expr value => value.text ++ ";"

/-- Whether the statement is a block. -/
def isBlock : Stmt → Bool
  | .block _ => true
  | _ => false

mutual

/-- The statement and all statements inside it, in source pre-order: a block's items in
order, a then branch before its else branch, a loop's body after its head. -/
def preorder : Stmt → List Stmt
  | .block items => .block items :: preorderAll items
  | .ifThen cond t => .ifThen cond t :: t.preorder
  | .ifElse cond t e => .ifElse cond t e :: (t.preorder ++ e.preorder)
  | .loop cond body => .loop cond body :: body.preorder
  | s => [s]

/-- The pre-orders of a list of statements, one after another. -/
def preorderAll : List Stmt → List Stmt
  | [] => []
  | s :: rest => s.preorder ++ preorderAll rest

end

/-- The names a single statement mentions, inner statements aside: the variable it
declares or assigns and the name its expression reads. -/
def ownNames (s : Stmt) : List String :=
  let written := match s with
    | .declare name _ => [name]
    | .assign name _ => [name]
    | _ => []
  written ++ (s.expr?.map Expr.names).getD []

@[simp] theorem preorderAll_nil : preorderAll [] = [] := rfl

@[simp] theorem preorderAll_cons (s : Stmt) (rest : List Stmt) :
    preorderAll (s :: rest) = s.preorder ++ preorderAll rest := rfl

theorem preorderAll_append (xs ys : List Stmt) :
    preorderAll (xs ++ ys) = preorderAll xs ++ preorderAll ys := by
  induction xs with
  | nil => rfl
  | cons s rest ih => simp [ih]

end Stmt

end ReachingDefs
