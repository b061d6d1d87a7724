import ReachingDefs.Flow.Checked
import ReachingDefs.Reaching.Analysis

/-!
# Reaching definitions over bit sets

The reaching-definitions problem as it is built and solved on bit sets. Building it reads the
numbering of the definitions and their key numbers, and makes one mask per key number: a bit set
over the definitions, into which every definition with that key is inserted. The parameters are
the bit set of the first `params` numbers. The transfer of a node that writes definition `d`
reads the key number of `d`, then the mask of that key number, takes the mask out of a copy of
the entry, and inserts `d`. Every read and every bit set operation checks its arguments, so
building and solving may panic.
-/

namespace ReachingDefs

/-- The reaching-definitions problem of a graph over bit sets. -/
structure ReachingAnalysis where
  /-- The definitions in number order, with their variables. -/
  definitions : Array DefSite
  /-- The number of the definition each node writes. -/
  gen : Array (Option Nat)
  /-- The key number of each definition. -/
  keys : Array Nat
  /-- For each key number, the definitions with that key. -/
  masks : Array BitSet
  /-- The numbers of the parameters. -/
  parameters : BitSet

namespace ReachingAnalysis

/-- Builds the problem of a graph: the numbering, the key numbers, a mask per key number filled
definition by definition, and the parameters. -/
def new (cfg : ControlFlowGraph) (identity : Identity) : Except Panic ReachingAnalysis := do
  let t := cfg.defTable
  let len := t.sites.size
  let keys := t.keys identity
  let masks ← keys.toList.zipIdx.foldlM (fun masks e => do
      let mask ← readAt masks e.1
      let (mask, _) ← Panic.check (mask.insert e.2)
      writeAt masks e.1 mask) (Array.replicate (t.keyCount identity) (BitSet.new len))
  let parameters ← Panic.check (BitSet.fromIndices len (List.range t.params))
  pure ⟨t.sites, t.gen, keys, masks, parameters⟩

/-- The exit of a node from its entry: a node that writes a definition takes the mask of the
definition's key out of the entry and inserts the definition; any other node passes the entry
through. -/
def transfer (a : ReachingAnalysis) (v : Nat) (entry : BitSet) : Except Panic BitSet :=
  match a.gen[v]? with
  | some (some d) => do
    let key ← readAt a.keys d
    let mask ← readAt a.masks key
    let (exit, _) ← Panic.check (entry.differenceWith mask)
    let (exit, _) ← Panic.check (exit.insert d)
    pure exit
  | _ => pure entry

/-- The problem the solver is handed: the parameters at the root, the empty set elsewhere. -/
def toProblem (a : ReachingAnalysis) : CheckedProblem :=
  ⟨a.parameters, BitSet.new a.definitions.size, a.transfer⟩

end ReachingAnalysis

/-- Builds and solves reaching definitions on a graph over bit sets. -/
def ControlFlowGraph.reachingChecked (cfg : ControlFlowGraph) (config : AnalysisConfig) :
    Except Panic ReachingDefinitions := do
  let a ← ReachingAnalysis.new cfg config.identity
  let r ← a.toProblem.solve config.order cfg.adjacency cfg.start
  return { procedure := cfg.name, identity := config.identity, order := config.order,
           sites := a.definitions, nodeCount := cfg.adjacency.count,
           solution := r.toSolution a.definitions.size cfg.adjacency.count, scopes := cfg.scopes }

end ReachingDefs
