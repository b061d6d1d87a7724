/-!
# Expressions

The analyses look at an expression only far enough to see whether it is a bare variable read.
Everything else is kept as the text that stands for it, so printing an expression gives back
exactly the text it was built from.
-/

namespace ReachingDefs

/-- An expression of a procedure body, kept as its source text. -/
inductive Expr where
  /-- A constant, written as its literal text (`3`, `true`, `3.14`). -/
  | literal (text : String)
  /-- A read of a single variable. -/
  | name (ident : String)
  /-- Any other expression; nothing inside it is looked at. -/
  | other (text : String)
deriving DecidableEq, Repr, Inhabited

namespace Expr

/-- The integer literal written in decimal, with a minus sign when negative. -/
def ofInt (value : Int) : Expr :=
  .literal (toString value)

/-- The boolean literal `true` or `false`. -/
def ofBool (value : Bool) : Expr :=
  .literal (if value then "true" else "false")

/-- The text of an expression, as it appears inside a statement. -/
def text : Expr → String
  | .literal t => t
  | .name t => t
  | .other t => t

/-- The variable read by a bare name expression. -/
def asName? : Expr → Option String
  | .name t => some t
  | _ => none

/-- Whether the expression is a literal constant. -/
def isLiteral : Expr → Bool
  | .literal _ => true
  | _ => false

/-- The names an expression reads: its own name if it is a bare read, else none. -/
def names (e : Expr) : List String :=
  e.asName?.toList

@[simp] theorem text_ofInt (value : Int) : (ofInt value).text = toString value := rfl

@[simp] theorem asName?_name (t : String) : (name t).asName? = some t := rfl

@[simp] theorem isLiteral_iff (e : Expr) : e.isLiteral = true ↔ ∃ t, e = .literal t := by
  cases e <;> simp [isLiteral]

end Expr

end ReachingDefs
