import ReachingDefs.Syntax.Stmt

/-!
# Procedures and programs

A procedure has a name, formal parameters and a body. A program is a list of procedures,
looked up by name; the first procedure of a name is the one a look-up finds.
-/

namespace ReachingDefs

/-- A named procedure with formal parameters and a body. -/
structure Procedure where
  name : String := "f"
  /-- Formal parameter names, in declaration order. -/
  params : List String := []
  /-- The body, usually a block. -/
  body : Stmt := .block []
deriving Repr, Inhabited

namespace Procedure

/-- Every name the procedure mentions: its parameters, then each declared or assigned
variable and each bare read, in source pre-order. -/
def mentionedNames (p : Procedure) : List String :=
  p.params ++ p.body.preorder.flatMap Stmt.ownNames

end Procedure

/-- Sorts names by code point order, which for UTF-8 text is byte order, and keeps one
copy of each. -/
def sortNames (names : List String) : List String :=
  (names.mergeSort (fun a b => !decide (b < a))).eraseDups

/-- A list of procedures, in declaration order. -/
structure Program where
  procedures : List Procedure
deriving Repr, Inhabited

namespace Program

/-- The position of the first procedure with the given name. -/
def indexOf? (prog : Program) (name : String) : Option Nat :=
  prog.procedures.findIdx? (·.name == name)

end Program

end ReachingDefs
