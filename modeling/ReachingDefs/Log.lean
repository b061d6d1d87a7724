import ReachingDefs.Cfg.Build
import ReachingDefs.Reaching.Checked
import ReachingDefs.Reaching.Results

/-!
# The log of an analysis

Analysing a procedure reports what it does as a sequence of events: one when its graph is
built, one for every evaluation the solver makes and for every successor that goes back onto
the worklist because its entry grew, and one when the solve has converged. The build and
convergence events are at the debug level, the solver's at the finer trace level. A listener
at one level hears the events at that level and above.
-/

namespace ReachingDefs

/-- How fine-grained an event is. -/
inductive LogLevel where
  /-- Every step of the solver. -/
  | trace
  /-- The milestones of an analysis. -/
  | debug
deriving DecidableEq, Repr, Inhabited

/-- The name of a level in reports. -/
def LogLevel.label : LogLevel → String
  | .trace => "TRACE"
  | .debug => "DEBUG"

/-- Whether a listener at level `listener` hears an event at level `event`. -/
def LogLevel.hears : LogLevel → LogLevel → Bool
  | .trace, _ => true
  | .debug, .debug => true
  | .debug, .trace => false

/-- The value of a field of an event. -/
inductive LogValue where
  | text (s : String)
  | number (n : Nat)
deriving DecidableEq, Repr

/-- One event of the log. -/
structure LogEvent where
  level : LogLevel
  message : String
  fields : List (String × LogValue)
deriving DecidableEq, Repr

/-- The event of a built graph. -/
def ControlFlowGraph.builtEvent (cfg : ControlFlowGraph) : LogEvent :=
  ⟨.debug, "built control-flow graph",
    [("procedure", .text cfg.name), ("nodes", .number cfg.nodeCount),
     ("edges", .number cfg.edgeCount), ("variables", .number cfg.vars.size)]⟩

/-- The event of a solver step. -/
def SolverEvent.toLog : SolverEvent → LogEvent
  | .transfer v => ⟨.trace, "transfer", [("node", .text (nodeName v))]⟩
  | .grew a b => ⟨.trace, "entry grew", [("from", .text (nodeName a)), ("to", .text (nodeName b))]⟩

/-- The event of a converged solve. -/
def ReachingDefinitions.convergedEvent (rd : ReachingDefinitions) : LogEvent :=
  ⟨.debug, "reaching definitions converged",
    [("procedure", .text rd.procedure), ("iterations", .number rd.iterations),
     ("definitions", .number rd.sites.size), ("identity", .text rd.identity.label),
     ("order", .text rd.order.label)]⟩

/-- A procedure analysed: its graph and its reaching definitions. -/
structure Analysis where
  cfg : ControlFlowGraph
  reaching : ReachingDefinitions

namespace Analysis

/-- Every event of the analysis, in the order they happen. -/
def events (a : Analysis) : List LogEvent :=
  a.cfg.builtEvent :: a.reaching.solution.events.map SolverEvent.toLog ++
    [a.reaching.convergedEvent]

/-- The events a listener at a level hears. -/
def log (a : Analysis) (level : LogLevel) : List LogEvent :=
  a.events.filter fun e => level.hears e.level

end Analysis

/-- Why a procedure has no analysis: its graph was refused, or the solve panicked. -/
inductive AnalyzeError where
  | build (e : BuildError)
  | panic (p : Panic)
deriving DecidableEq, Repr

/-- Builds the graph of a procedure and solves reaching definitions on it over bit sets. -/
def Procedure.analyze (p : Procedure) (config : AnalysisConfig) :
    Except AnalyzeError Analysis := do
  let cfg ← (p.build).mapError AnalyzeError.build
  let rd ← (cfg.reachingChecked config).mapError AnalyzeError.panic
  return ⟨cfg, rd⟩

/-- Analyses every procedure of a program, or reports the first refusal or panic. -/
def Program.analyze (prog : Program) (config : AnalysisConfig) :
    Except AnalyzeError (List Analysis) :=
  prog.procedures.mapM (Procedure.analyze · config)

end ReachingDefs
