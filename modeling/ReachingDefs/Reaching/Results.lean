import ReachingDefs.Reaching.Analysis

/-!
# Asking about reaching definitions

The definitions that reach a node are listed in number order: parameters first, then writing
nodes by number. A node outside the procedure has no reaching definitions.

`definitionsOf` answers which definitions a read of a name at a node may see. Under
`Identity.byName` these are the reaching definitions of that name; under `Identity.scoped`,
those of the variable the name resolves to at the node, and none if it resolves to nothing.
-/

namespace ReachingDefs

namespace ReachingDefinitions

variable (rd : ReachingDefinitions)

/-- All definitions of the procedure, in number order. -/
def definitions : List Definition := rd.sites.toList.map (·.definition)

/-- The number of evaluations the solver made. -/
def iterations : Nat := rd.solution.iterations

/-- The numbers of the definitions in a state, with their sites. -/
def sitesIn (s : IndexSet rd.sites.size) : List DefSite := s.toList.filterMap (rd.sites[·]?)

/-- The definitions that reach the entry of a node, with their variables. -/
def entrySites (v : Nat) : List DefSite :=
  match rd.solution.entry[v]? with
  | some s => rd.sitesIn s
  | none => []

/-- The definitions that reach the exit of a node, with their variables. -/
def exitSites (v : Nat) : List DefSite :=
  match rd.solution.exit[v]? with
  | some s => rd.sitesIn s
  | none => []

/-- The definitions that reach the entry of a node, in number order. -/
def get (v : Nat) : List Definition := (rd.entrySites v).map (·.definition)

/-- The definitions that reach the exit of a node, in number order. -/
def exit (v : Nat) : List Definition := (rd.exitSites v).map (·.definition)

/-- The definitions that reach the entry of a node, sorted by name and origin. -/
def getSorted (v : Nat) : List Definition := sortDefinitions (rd.get v)

/-- The definitions a read of `name` at a node may see. -/
def definitionsOf (v : Nat) (name : String) : List Definition :=
  match rd.identity with
  | .byName => ((rd.entrySites v).filter (·.definition.name == name)).map (·.definition)
  | .scoped =>
    match rd.scopes.resolve v name with
    | some var => ((rd.entrySites v).filter (·.owner == var)).map (·.definition)
    | none => []

/-- The reaching definitions of one variable at a node. -/
def definitionsOfVariable (v var : Nat) : List Definition :=
  ((rd.entrySites v).filter (·.owner == var)).map (·.definition)

/-- The one definition a read of `name` at a node sees, if there is exactly one. -/
def uniqueDefinition (v : Nat) (name : String) : Option Definition :=
  match rd.definitionsOf v name with
  | [d] => some d
  | _ => none

/-- Whether a definition reaches a node. -/
def contains (v : Nat) (d : Definition) : Bool := (rd.get v).contains d

/-- Whether the parameter of a name reaches a node. -/
def containsParameter (v : Nat) (name : String) : Bool :=
  (rd.get v).any fun d => d.origin.isNone && d.name == name

/-- Whether the definition of a name by a given node reaches a node. -/
def containsOrigin (v : Nat) (name : String) (origin : Nat) : Bool :=
  (rd.get v).any fun d => d.origin == some origin && d.name == name

/-- The definitions that reach a node, in debug form. -/
def debugAt (v : Nat) : String := debugSet (rd.get v)

end ReachingDefinitions

end ReachingDefs
