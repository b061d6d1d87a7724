import ReachingDefs.Cfg.Graph
import ReachingDefs.Config
import ReachingDefs.Flow.Solver
import ReachingDefs.Reaching.Definition

/-!
# Reaching definitions

A definition reaches a node if some path from the start to the node passes it and then no
other definition of the same variable. The definitions of a procedure are numbered once: the
parameters in order, then one per node that writes a variable (an assignment or an initialized
declaration), in node order. States are sets of these numbers.

At the start the parameters reach. A writing node removes every definition of its variable and
adds its own; every other node passes its entry through. "The same variable" is the resolved
variable under `Identity.scoped` and the name under `Identity.byName`.

What a write removes is read through kill keys. Each definition has a key, its variable or its
name; the keys are numbered in the order they first appear among the definitions, each definition
gets the number of its key (`DefTable.keys`), and each key number the set of the definitions with
that key (`DefTable.masks`). A write of definition `d` removes `masks[keys[d]]`.
-/

namespace ReachingDefs

/-- A definition together with the variable it writes. -/
structure DefSite where
  definition : Definition
  owner : Nat
deriving DecidableEq, Repr, Inhabited

/-- Whether two definitions write the same variable under an identity. -/
def Identity.sameVariable : Identity → DefSite → DefSite → Bool
  | .scoped, a, b => a.owner == b.owner
  | .byName, a, b => a.definition.name == b.definition.name

/-- What a write kills: the definitions of one variable, or of one name. -/
inductive KillKey where
  /-- Every definition of the variable with this number. -/
  | var (var : Nat)
  /-- Every definition of this name. -/
  | name (name : String)
deriving DecidableEq, Repr

/-- The kill key of a write of `name` to the variable `var`: the variable under scoped
identity, the name under by-name identity. A write kills every definition with its key. -/
def Identity.killKey : Identity → String → Nat → KillKey
  | .scoped, _, var => .var var
  | .byName, name, _ => .name name

/-- The kill key of a definition. -/
def DefSite.key (d : DefSite) (identity : Identity) : KillKey :=
  identity.killKey d.definition.name d.owner

/-- The numbering of a procedure's definitions. -/
structure DefTable where
  /-- The definitions in number order. -/
  sites : Array DefSite
  /-- The number of the definition each node writes. -/
  gen : Array (Option Nat)
  /-- How many of the first definitions are parameters. -/
  params : Nat

namespace ControlFlowGraph

/-- The definition a node writes, with its variable. -/
def siteOf (v : Nat) (n : CfgNode) : Option DefSite :=
  if n.isDefinition then
    match n.boundVar, n.stmt.bind Stmt.definedName? with
    | some var, some name => some ⟨⟨name, some v⟩, var⟩
    | _, _ => none
  else none

/-- The numbering of the definitions of a graph: parameters, then writing nodes. -/
def defTable (cfg : ControlFlowGraph) : DefTable :=
  let params : Array DefSite :=
    (cfg.params.zipIdx.map fun (p, i) => (⟨⟨p, none⟩, i⟩ : DefSite)).toArray
  let step := fun (acc : Array DefSite × Array (Option Nat)) (entry : CfgNode × Nat) =>
    match siteOf entry.2 entry.1 with
    | some site => (acc.1.push site, acc.2.push (some acc.1.size))
    | none => (acc.1, acc.2.push none)
  let (sites, gen) := cfg.graph.nodes.toList.zipIdx.foldl step (params, #[])
  ⟨sites, gen, cfg.params.length⟩

end ControlFlowGraph

namespace DefTable

/-- Reads one more definition while the kill keys are numbered: its key keeps the number the
table gives it, or takes the next number. -/
def keyStep (identity : Identity) (acc : Array Nat × List (KillKey × Nat)) (d : DefSite) :
    Array Nat × List (KillKey × Nat) :=
  match acc.2.lookup (d.key identity) with
  | some k => (acc.1.push k, acc.2)
  | none => (acc.1.push acc.2.length, (d.key identity, acc.2.length) :: acc.2)

/-- Numbers the kill keys in the order they first appear among the definitions: the key number
of each definition, and the table from keys to numbers. -/
def keyNumbers (t : DefTable) (identity : Identity) : Array Nat × List (KillKey × Nat) :=
  t.sites.foldl (keyStep identity) (#[], [])

/-- The key number of each definition. -/
def keys (t : DefTable) (identity : Identity) : Array Nat := (t.keyNumbers identity).1

/-- How many kill keys the definitions have. -/
def keyCount (t : DefTable) (identity : Identity) : Nat := (t.keyNumbers identity).2.length

/-- For each key number, the set of the definitions with that key. -/
def masks (t : DefTable) (identity : Identity) : Array (IndexSet t.sites.size) :=
  (t.keys identity).toList.zipIdx.foldl (fun masks e => masks.modify e.1 (·.insert e.2))
    (Array.replicate (t.keyCount identity) .empty)

/-- What a write of definition `d` removes: the mask of its key, read through its key number. -/
def killMask (t : DefTable) (identity : Identity) (d : Nat) : IndexSet t.sites.size :=
  (((t.keys identity)[d]?).bind fun k => (t.masks identity)[k]?).getD .empty

/-- The reaching-definitions problem of a numbering. -/
def problem (t : DefTable) (identity : Identity) : FlowProblem (IndexSet t.sites.size) :=
  { boundary := IndexSet.below t.params
    initial := .empty
    transfer := fun v entry =>
      match t.gen[v]? with
      | some (some d) => (entry.diff (t.killMask identity d)).insert d
      | _ => entry }

end DefTable

/-- The reaching definitions of a procedure at every node. -/
structure ReachingDefinitions where
  procedure : String
  identity : Identity
  order : WorklistOrder
  sites : Array DefSite
  nodeCount : Nat
  /-- The states the solver ended with. -/
  solution : Solution (IndexSet sites.size) nodeCount
  /-- The scopes of the nodes, for resolving names. -/
  scopes : Scopes

/-- Solves reaching definitions on a graph. -/
def ControlFlowGraph.reaching (cfg : ControlFlowGraph) (config : AnalysisConfig) :
    ReachingDefinitions :=
  let table := cfg.defTable
  { procedure := cfg.name, identity := config.identity, order := config.order,
    sites := table.sites, nodeCount := cfg.adjacency.count,
    solution := (table.problem config.identity).solve config.order cfg.adjacency cfg.start,
    scopes := cfg.scopes }

end ReachingDefs
