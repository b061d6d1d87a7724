import ReachingDefs.Cfg.Node
import ReachingDefs.Text.Quoted

/-!
# Definitions

A definition is a write of a named variable: by a parameter on entry to the procedure, or by
a node. It is written `x@param` or `x@n3`. Definitions are ordered by name, in code point
order, and then by origin, a parameter before any node and nodes by number.
-/

namespace ReachingDefs

/-- A write of the variable `name`, by a parameter (`origin = none`) or by a node. -/
structure Definition where
  name : String
  /-- The node that writes it; none for a parameter. -/
  origin : Option Nat
deriving DecidableEq, Repr, Inhabited

namespace Definition

/-- The text of a definition, `x@param` or `x@n3`. -/
def text (d : Definition) : String :=
  match d.origin with
  | some v => d.name ++ "@" ++ nodeName v
  | none => d.name ++ "@param"

/-- Whether a parameter comes before a node's origin: none first, then by number. -/
def originLE : Option Nat → Option Nat → Bool
  | none, _ => true
  | some _, none => false
  | some a, some b => a ≤ b

/-- Whether `a` comes no later than `b`: by name, then by origin. -/
def le (a b : Definition) : Bool :=
  decide (a.name < b.name) || (a.name == b.name && originLE a.origin b.origin)

/-- A definition in debug form. -/
def debugText (d : Definition) : String :=
  let origin := match d.origin with
    | some v => "Some(" ++ nodeDebug v ++ ")"
    | none => "None"
  "Definition \x7b name: " ++ Quoted.quote d.name ++ ", origin: " ++ origin ++ " \x7d"

end Definition

/-- Definitions as a sorted set: ordered by name and origin, each once. -/
def sortDefinitions (ds : List Definition) : List Definition :=
  (ds.mergeSort Definition.le).eraseDups

/-- A set of definitions in debug form, between braces and separated by commas. -/
def debugSet (ds : List Definition) : String :=
  "\x7b" ++ ", ".intercalate (ds.map Definition.debugText) ++ "\x7d"

end ReachingDefs
