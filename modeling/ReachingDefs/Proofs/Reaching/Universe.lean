import Mathlib.Data.Finset.Card
import ReachingDefs.Proofs.Reaching.MeetOverPaths
import ReachingDefs.Proofs.Cfg.NodeTable

/-!
# The definitions of a procedure, and the questions asked of them

The universe of a procedure's reaching definitions is built in one pass over the nodes: the
parameters first, each the definition of its own variable, then the definition of every node that
writes, in node order, with the variable the node is bound to. Read off the syntax, it is the
parameters followed by the assignments and initialized declarations of the body in source
pre-order, each at its node (`Procedure.lower_definitions`). No two are equal: the parameters are
distinct because a repeated one is refused, and the nodes' definitions have distinct origins.

The questions a result answers all read the universe through the bits of a state: which
definitions reach a node, in universe order (`ReachingDefinitions.get_sublist`); which of them a
read of a name may see, by name or by the variable the name resolves to; whether one reaches.
Because the universe has no repetition, the number of reaching definitions is the number of
distinct ones.

## Main results

* `Procedure.lower_definitions`, `Procedure.lower_definitions_nodup`: the universe of a built
  procedure, and its entries are distinct
* `ReachingDefinitions.get_sublist`: reaching definitions come in universe order
* `ControlFlowGraph.definitionsOf_scoped`: under scoped identity a read sees the definitions of
  the variable its name resolves to
* `Procedure.build_reaching_definitions`: the universe and the queries of a built procedure
-/

/-- Reading a list at every index below its length gives the list back. -/
theorem List.filterMap_getElem?_range {α : Type} (l : List α) :
    (List.range l.length).filterMap (l[·]?) = l := by
  induction l using List.reverseRecOn with
  | nil => rfl
  | append_singleton l a ih =>
    rw [List.length_append, List.length_singleton, List.range_succ, List.filterMap_append,
      List.filterMap_congr (fun i hi => by rw [List.getElem?_append_left (List.mem_range.mp hi)]),
      ih]
    simp

namespace ReachingDefs

namespace DefTable

/-- The numbering fold lists the sites it had, then the site of each writing node. -/
theorem foldl_numberStep_sites (l : List (CfgNode × Nat)) (sites : Array DefSite)
    (gen : Array (Option Nat)) :
    (l.foldl numberStep (sites, gen)).1.toList =
      sites.toList ++ l.filterMap fun e => ControlFlowGraph.siteOf e.2 e.1 := by
  induction l generalizing sites gen with
  | nil => simp
  | cons e rest ih =>
    rw [List.foldl_cons, List.filterMap_cons]
    cases hs : ControlFlowGraph.siteOf e.2 e.1 with
    | none =>
      have hstep : numberStep (sites, gen) e = (sites, gen.push none) := by simp [numberStep, hs]
      rw [hstep, ih]
    | some s =>
      have hstep : numberStep (sites, gen) e = (sites.push s, gen.push (some sites.size)) := by
        simp [numberStep, hs]
      rw [hstep, ih]
      simp

end DefTable

namespace ControlFlowGraph

variable (cfg : ControlFlowGraph)

/-- The numbering lists the parameters' sites, then the site of each writing node in node order. -/
theorem defTable_sites :
    cfg.defTable.sites.toList = (DefTable.paramSites cfg.params).toList ++
      cfg.graph.nodes.toList.zipIdx.filterMap fun e => siteOf e.2 e.1 :=
  DefTable.foldl_numberStep_sites _ _ _

theorem paramSites_definitions (params : List String) :
    (DefTable.paramSites params).toList.map (·.definition) = params.map fun x => ⟨x, none⟩ := by
  simp only [DefTable.paramSites, List.toList_toArray, List.map_map]
  rw [show ((·.definition) ∘ fun (e : String × Nat) => (⟨⟨e.1, none⟩, e.2⟩ : DefSite)) =
      (fun x => (⟨x, none⟩ : Definition)) ∘ Prod.fst from rfl, ← List.map_map,
    List.zipIdx_map_fst]

/-- A writing node that carries its variable defines the name it writes, at itself. -/
theorem siteOf_definition {v : Nat} {n : CfgNode}
    (hb : (n.stmt.bind Stmt.definedName?).isSome → n.boundVar.isSome) :
    (siteOf v n).map (·.definition) = (n.stmt.bind Stmt.definedName?).map fun x => ⟨x, some v⟩ := by
  cases hx : n.stmt.bind Stmt.definedName? with
  | none => simp [siteOf, CfgNode.isDefinition, hx]
  | some x =>
    obtain ⟨var, hvar⟩ := Option.isSome_iff_exists.mp (hb (by simp [hx]))
    simp [siteOf_of_bound hx hvar]

/-- The definitions of a graph whose writing nodes carry their variables: the parameters', then
each writing node's, in node order. -/
theorem reaching_definitions {cfg : ControlFlowGraph} (hbound : NodesBound cfg.graph.nodes)
    (config : AnalysisConfig) :
    (cfg.reaching config).definitions = cfg.params.map (fun x => ⟨x, none⟩) ++
      cfg.graph.nodes.toList.zipIdx.filterMap fun e =>
        (e.1.stmt.bind Stmt.definedName?).map fun x => ⟨x, some e.2⟩ := by
  simp only [ReachingDefinitions.definitions, reaching]
  rw [defTable_sites, List.map_append, paramSites_definitions, List.map_filterMap]
  congr 1
  refine List.filterMap_congr fun e he => siteOf_definition fun hdef => ?_
  -- a node of the graph that writes is bound
  have hat := List.mem_zipIdx_iff_getElem?.mp he
  rw [Array.getElem?_toList] at hat
  obtain ⟨hlt, hget⟩ := Array.getElem?_eq_some_iff.mp hat
  have := hbound e.2 hlt
  rw [hget] at this
  exact this hdef

end ControlFlowGraph

/-- The definitions made at numbered positions, read off the statements those positions carry. -/
theorem filterMap_zipIdx_stmt (l : List CfgNode) :
    l.zipIdx.filterMap (fun e => (e.1.stmt.bind Stmt.definedName?).map fun x => (⟨x, some e.2⟩ : Definition)) =
      (l.map (·.stmt)).zipIdx.filterMap fun e => (e.1.bind Stmt.definedName?).map fun x => ⟨x, some e.2⟩ := by
  rw [List.zipIdx_map, List.filterMap_map]
  rfl

namespace Procedure

/-- **The definitions of a procedure**: the parameters, then each statement of the body that
writes, an assignment or an initialized declaration, at its node. -/
theorem lower_definitions (p : Procedure) (config : AnalysisConfig) :
    (p.lower.reaching config).definitions = p.params.map (fun x => ⟨x, none⟩) ++
      (p.body.preorder.filter fun s => !s.isBlock).zipIdx.filterMap fun e =>
        e.1.definedName?.map fun x => ⟨x, some e.2⟩ := by
  rw [ControlFlowGraph.reaching_definitions (lower_nodesBound p), filterMap_zipIdx_stmt]
  rw [lower_stmts, Stmt.nodeStmts_eq_filter, List.zipIdx_append, List.filterMap_append, List.zipIdx_map, List.filterMap_map]
  simp

/-- The definitions of a procedure whose parameters are distinct are distinct: a parameter's has
no origin, and the nodes' have distinct origins. -/
theorem lower_definitions_nodup {p : Procedure} (hnd : p.params.Nodup) (config : AnalysisConfig) :
    (p.lower.reaching config).definitions.Nodup := by
  rw [lower_definitions]
  refine List.nodup_append.mpr ⟨hnd.map fun a b h => by simpa using congrArg Definition.name h,
    ?_, ?_⟩
  · -- the nodes' definitions carry their numbers, which increase
    have hlt : ((p.body.preorder.filter fun s => !s.isBlock).zipIdx).Pairwise
        (fun a b => a.2 < b.2) := by
      apply List.pairwise_map.mp
      rw [List.zipIdx_map_snd]
      exact List.pairwise_lt_range' 1
    refine List.pairwise_filterMap.mpr (hlt.imp fun {a b} hab d hd d' hd' hdd => ?_)
    obtain ⟨x, -, rfl⟩ := Option.map_eq_some_iff.mp hd
    obtain ⟨y, -, rfl⟩ := Option.map_eq_some_iff.mp hd'
    have horigin := congrArg Definition.origin hdd
    simp only [Option.some.injEq] at horigin
    omega
  · intro a ha b hb hab
    obtain ⟨x, -, rfl⟩ := List.mem_map.mp ha
    obtain ⟨e, -, he⟩ := List.mem_filterMap.mp hb
    obtain ⟨y, -, rfl⟩ := Option.map_eq_some_iff.mp he
    cases hab

end Procedure

namespace ReachingDefinitions

variable (rd : ReachingDefinitions)

/-- **The definitions reaching a node come in universe order**: they are picked from all the
definitions of the procedure. -/
theorem get_sublist (v : Nat) : (rd.get v).Sublist rd.definitions := by
  rw [get_eq]
  cases rd.solution.entry[v]? with
  | none => simp
  | some s =>
    simp only [Option.map_some, Option.getD_some, definitions]
    refine List.Sublist.map _ ?_
    have hsub : s.toList.Sublist (List.range rd.sites.size) := by
      rw [IndexSet.toList_eq_filter]
      exact List.filter_sublist
    have hall := List.filterMap_getElem?_range rd.sites.toList
    simp only [Array.length_toList, Array.getElem?_toList] at hall
    rw [← hall]
    exact hsub.filterMap _

theorem get_nodup {v : Nat} (hnd : rd.definitions.Nodup) : (rd.get v).Nodup :=
  hnd.sublist (rd.get_sublist v)

theorem definitionsOf_byName (hid : rd.identity = .byName) (v : Nat) (x : String) :
    rd.definitionsOf v x = (rd.get v).filter (·.name == x) := by
  simp [definitionsOf, hid, get, List.filter_map, Function.comp_def]

/-- A unique definition is the only one a read may see. -/
theorem uniqueDefinition_eq_some_iff (v : Nat) (x : String) (d : Definition) :
    rd.uniqueDefinition v x = some d ↔ rd.definitionsOf v x = [d] := by
  unfold uniqueDefinition
  split
  · rename_i e he
    rw [he]
    simp [eq_comm]
  · rename_i hne
    simp only [reduceCtorEq, false_iff]
    exact hne d

theorem contains_iff (v : Nat) (d : Definition) : rd.contains v d = true ↔ d ∈ rd.get v := by
  simp [contains]

theorem containsParameter_iff (v : Nat) (x : String) :
    rd.containsParameter v x = true ↔ ⟨x, none⟩ ∈ rd.get v := by
  simp only [containsParameter, List.any_eq_true, Bool.and_eq_true, Option.isNone_iff_eq_none,
    beq_iff_eq]
  constructor
  · rintro ⟨⟨y, o⟩, hd, ho, hy⟩
    simp only at ho hy
    subst ho hy
    exact hd
  · intro hd
    exact ⟨_, hd, rfl, rfl⟩

theorem containsOrigin_iff (v : Nat) (x : String) (w : Nat) :
    rd.containsOrigin v x w = true ↔ ⟨x, some w⟩ ∈ rd.get v := by
  simp only [containsOrigin, List.any_eq_true, Bool.and_eq_true, beq_iff_eq]
  constructor
  · rintro ⟨⟨y, o⟩, hd, ho, hy⟩
    simp only at ho hy
    subst ho hy
    exact hd
  · intro hd
    exact ⟨_, hd, rfl, rfl⟩

theorem exists_site_of_mem_entrySites {v : Nat} {s : DefSite} (hs : s ∈ rd.entrySites v) :
    ∃ d : Nat, rd.sites[d]? = some s := by
  unfold entrySites at hs
  split at hs
  · obtain ⟨d, -, hd⟩ := (rd.mem_sitesIn _ s).mp hs
    exact ⟨d, hd⟩
  · cases hs

end ReachingDefinitions

namespace ControlFlowGraph

/-- Under scoped identity a read sees the reaching definitions of the variable its name resolves
to: those whose kill key is that variable. -/
theorem definitionsOf_scoped {cfg : ControlFlowGraph} (hnd : cfg.params.Nodup)
    {config : AnalysisConfig} (hid : config.identity = .scoped) (v : Nat) (x : String) :
    (cfg.reaching config).definitionsOf v x =
      match cfg.resolve v x with
      | some var =>
        ((cfg.reaching config).get v).filter fun d => cfg.keyOf? .scoped d = some (.var var)
      | none => [] := by
  have hres : (cfg.reaching config).scopes.resolve v x = cfg.resolve v x := rfl
  simp only [ReachingDefinitions.definitionsOf, reaching, hid] at hres ⊢
  rw [hres]
  cases cfg.resolve v x with
  | none => rfl
  | some var =>
    simp only [ReachingDefinitions.get, List.filter_map]
    congr 1
    refine List.filter_congr fun s hs => ?_
    -- the owner of a site is the variable of its definition's kill key
    obtain ⟨d, hd⟩ := ReachingDefinitions.exists_site_of_mem_entrySites _ hs
    rw [Function.comp_apply, keyOf?_of_site hnd hd]
    by_cases howner : s.owner = var <;> simp [Identity.killKey, howner]

end ControlFlowGraph

namespace Procedure

open ReachingDefinitions in
/-- **The definitions of a built procedure, and what is asked of them.** Under either identity and
any worklist order, the definitions are the parameters', in order, followed by one for each
statement of the body that writes, an assignment or an initialized declaration, at its node and in
node order; no two are equal, which rests on the parameters being distinct. At every node `h` and
for every name `x`: the definitions reaching `h` come in that order; a read of `x` sees those of
them whose variable is the one `x` resolves to at `h` under scoped identity (none if it resolves
to nothing), and those named `x` under by-name identity; the unique definition it sees is the one
it sees when it sees exactly one; the reaching definitions are as many as they are distinct; and
asking whether a definition, a parameter's or a node's, reaches is asking whether it is among
them. -/
theorem build_reaching_definitions {p : Procedure} {cfg : ControlFlowGraph}
    (hbuild : p.build = .ok cfg) (config : AnalysisConfig) :
    let rd := cfg.reaching config
    rd.definitions = p.params.map (fun x => ⟨x, none⟩) ++
        (p.body.preorder.filter fun s => !s.isBlock).zipIdx.filterMap
          (fun e => e.1.definedName?.map fun x => ⟨x, some e.2⟩) ∧
      rd.definitions.Nodup ∧
      ∀ h x, (rd.get h).Sublist rd.definitions ∧
        rd.definitionsOf h x =
          (match config.identity with
            | .byName => (rd.get h).filter (·.name == x)
            | .scoped =>
              match cfg.resolve h x with
              | some var => (rd.get h).filter fun d => cfg.keyOf? .scoped d = some (.var var)
              | none => []) ∧
        (∀ d, rd.uniqueDefinition h x = some d ↔ rd.definitionsOf h x = [d]) ∧
        (rd.get h).length = (rd.get h).toFinset.card ∧
        (∀ d, rd.contains h d = true ↔ d ∈ (rd.get h).toFinset) ∧
        (rd.containsParameter h x = true ↔ ⟨x, none⟩ ∈ (rd.get h).toFinset) ∧
        ∀ n, rd.containsOrigin h x n = true ↔ ⟨x, some n⟩ ∈ (rd.get h).toFinset := by
  intro rd
  have hnd : cfg.params.Nodup := params_nodup_of_build hbuild
  obtain ⟨-, rfl⟩ := build_eq_ok.mp hbuild
  have hdefs : rd.definitions.Nodup := lower_definitions_nodup hnd config
  refine ⟨lower_definitions p config, hdefs, fun h x => ⟨rd.get_sublist h, ?_,
    rd.uniqueDefinition_eq_some_iff h x, (List.toFinset_card_of_nodup (rd.get_nodup hdefs)).symm,
    fun d => by rw [contains_iff, List.mem_toFinset], by rw [containsParameter_iff,
    List.mem_toFinset], fun n => by rw [containsOrigin_iff, List.mem_toFinset]⟩⟩
  -- which definitions a read sees depends on the identity
  cases hid : config.identity
  · exact ControlFlowGraph.definitionsOf_scoped hnd hid h x
  · exact rd.definitionsOf_byName hid h x

/-- A parameter, a shadowing declaration and an assignment to the outer name: under scoped identity
the read of `x` at the expression statement sees only the inner declaration's definition. -/
theorem build_reaching_definitions_shadowing :
    let p : Procedure := ⟨"f", ["a"], .block [.declare "x" (some (.name "a")),
      .block [.declare "x" (some (.literal "1")), .expr (.name "x")], .assign "x" (.name "a")]⟩
    let rd := p.lower.reaching .standard
    p.build = .ok p.lower ∧
      (rd.definitions = p.params.map (fun x => ⟨x, none⟩) ++
          (p.body.preorder.filter fun s => !s.isBlock).zipIdx.filterMap
            (fun e => e.1.definedName?.map fun x => ⟨x, some e.2⟩) ∧
        rd.definitions.Nodup ∧
        ∀ h x, (rd.get h).Sublist rd.definitions ∧
          rd.definitionsOf h x =
            (match AnalysisConfig.standard.identity with
              | .byName => (rd.get h).filter (·.name == x)
              | .scoped =>
                match p.lower.resolve h x with
                | some var => (rd.get h).filter fun d => p.lower.keyOf? .scoped d = some (.var var)
                | none => []) ∧
          (∀ d, rd.uniqueDefinition h x = some d ↔ rd.definitionsOf h x = [d]) ∧
          (rd.get h).length = (rd.get h).toFinset.card ∧
          (∀ d, rd.contains h d = true ↔ d ∈ (rd.get h).toFinset) ∧
          (rd.containsParameter h x = true ↔ ⟨x, none⟩ ∈ (rd.get h).toFinset) ∧
          ∀ n, rd.containsOrigin h x n = true ↔ ⟨x, some n⟩ ∈ (rd.get h).toFinset) := by
  intro p
  have hbuild : p.build = .ok p.lower := build_eq_ok.mpr ⟨rfl, rfl⟩
  exact ⟨hbuild, build_reaching_definitions hbuild .standard⟩

end Procedure

end ReachingDefs
