import ReachingDefs.Flow.Worklist

/-!
# Analysis settings

An analysis is set by what counts as one variable, by the worklist order, and by whether
independent procedures may be analysed side by side. Side-by-side work never changes an
answer; the setting is kept so that it can be reported.
-/

namespace ReachingDefs

/-- What makes two definitions definitions of the same variable. -/
inductive Identity where
  /-- The variable a name resolves to by lexical scoping. -/
  | scoped
  /-- The name alone. -/
  | byName
deriving DecidableEq, Repr, Inhabited

/-- The name of an identity in reports. -/
def Identity.label : Identity → String
  | .scoped => "scoped"
  | .byName => "name"

/-- The settings of an analysis. -/
structure AnalysisConfig where
  /-- What counts as one variable. -/
  identity : Identity := .scoped
  /-- The worklist order of the solver. -/
  order : WorklistOrder := .reversePostorder
  /-- Whether independent procedures may be analysed side by side. -/
  parallel : Bool := true
deriving DecidableEq, Repr, Inhabited

namespace AnalysisConfig

/-- Scoped variables, reverse postorder, side by side. -/
def standard : AnalysisConfig := {}

/-- The standard settings, one procedure at a time. -/
def sequential : AnalysisConfig := { parallel := false }

/-- Variables by name, last in first out, one procedure at a time. -/
def compatible : AnalysisConfig := { identity := .byName, order := .lifo, parallel := false }

end AnalysisConfig

end ReachingDefs
