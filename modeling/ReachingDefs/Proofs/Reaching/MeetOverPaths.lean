import ReachingDefs.Proofs.Reaching.Numbering
import ReachingDefs.Proofs.Cfg.Refusal
import ReachingDefs.Reaching.Results

/-!
# Reaching definitions are the definitions along some path

A definition reaches a node when some path from the start passes where it is made and then
no node that writes its variable again. This file proves that the solve computes exactly these
definitions, at every node the start reaches, under both identities and every worklist order.

The argument is the classical one for gen/kill problems. The sets of definitions that reach
each node along a path, with their transfers, bound the solve's equations from above, so the
least solution lies below them (`pathSet_postSolves`). Conversely a solution holds every
definition along every path, by induction on the path (`mem_of_reachesAlongPath`). Both
work on the numbering; the second half of the file reads the numbers back as the definitions
the procedure makes and the variables they write.

## Main definitions

* `DefTable.ReachesAlongPath`: a definition's number reaches a node along a path
* `ControlFlowGraph.writeAt?`, `ControlFlowGraph.keyOf?`: what a node writes, and the kill key
  of a definition of the procedure
* `ControlFlowGraph.MeetOverPaths`: the reaching definitions are the meet-over-paths solution

## Main results

* `DefTable.mem_of_reachesAlongPath`: a solution holds what reaches along a path
* `DefTable.solve_entry_mem_iff`: on numbers, the solve holds what reaches along a path
* `ControlFlowGraph.build_reaching_meetOverPaths`: on the definitions of a built procedure
-/

namespace ReachingDefs

namespace DefTable

variable (t : DefTable) (identity : Identity) (g : Adjacency) (root : Nat)

/-- Definition `d` reaches `v` along a path from the root: a parameter along a path through no
node that kills it, a node's definition along a path that leaves the node and then passes no
node that kills it. -/
def ReachesAlongPath (d v : Nat) : Prop :=
  (d < t.params ∧ g.ReachesAvoiding (t.Kills identity · d) root v) ∨
    ∃ w u, t.gen[w]? = some (some d) ∧ g.Reaches root w ∧ g.Step w u ∧
      g.ReachesAvoiding (t.Kills identity · d) u v

/-- The definitions that reach `v` along some path. -/
noncomputable def pathSet (v : Fin g.count) : IndexSet t.sites.size :=
  IndexSet.ofList ((List.range t.sites.size).filter fun d =>
    @decide (t.ReachesAlongPath identity g root d v) (Classical.propDecidable _))

theorem mem_pathSet (v : Fin g.count) (d : Nat) :
    (t.pathSet identity g root v).mem d = true ↔
      d < t.sites.size ∧ t.ReachesAlongPath identity g root d v := by
  simp only [pathSet, IndexSet.mem_ofList, Bool.and_eq_true, decide_eq_true_eq, List.mem_filter,
    List.mem_range]
  constructor
  · rintro ⟨hd, -, hpath⟩
    exact ⟨hd, hpath⟩
  · rintro ⟨hd, hpath⟩
    exact ⟨hd, hd, hpath⟩

theorem mem_boundary (d : Nat) :
    (t.problem identity).boundary.mem d = true ↔ d < t.sites.size ∧ d < t.params := by
  simp [problem, IndexSet.below]

variable {t identity g root}

/-- The path sets and their transfers bound the equations from above: what flows into a node
reaches it along a path. -/
theorem pathSet_postSolves :
    (t.problem identity).PostSolves g root (t.pathSet identity g root)
      (fun v => (t.problem identity).transfer v (t.pathSet identity g root v)) where
  inflow_le v _ x hx d hd := by
    rw [mem_pathSet]
    rcases hx with ⟨hroot, rfl⟩ | ⟨p, hp, hstep, rfl⟩
    · -- the boundary holds the parameters, which reach the root along the empty path
      obtain ⟨hds, hpar⟩ := (mem_boundary t identity d).mp hd
      refine ⟨hds, Or.inl ⟨hpar, ?_⟩⟩
      rw [hroot]
      exact Adjacency.ReachesAvoiding.refl _ _
    · rcases (mem_transfer t identity p _ d).mp hd with ⟨hds, hgen⟩ | ⟨hin, hkill⟩
      · exact ⟨hds, Or.inr ⟨p, v, hgen, hp, hstep, Adjacency.ReachesAvoiding.refl _ _⟩⟩
      · obtain ⟨hds, hpath⟩ := (mem_pathSet t identity g root p d).mp hin
        refine ⟨hds, ?_⟩
        -- the path to `p` goes on to `v`, and `p` does not kill the definition
        rcases hpath with ⟨hpar, hav⟩ | ⟨w, u, hgen, hw, hwu, hav⟩
        · exact Or.inl ⟨hpar, hav.tail hstep hkill⟩
        · exact Or.inr ⟨w, u, hgen, hw, hwu, hav.tail hstep hkill⟩
  transfer_le _ _ := le_refl _

/-- A solution holds every definition at every node it reaches along a path. -/
theorem mem_of_reachesAlongPath {entry exit : Fin g.count → IndexSet t.sites.size}
    (hsol : (t.problem identity).Solves g root entry exit) (hroot : root < g.count) {d : Nat}
    (hd : d < t.sites.size) (v : Fin g.count) (hpath : t.ReachesAlongPath identity g root d v) :
    (entry v).mem d = true := by
  -- the nodes along the path are reached and their entries hold `d`
  let Holds : Nat → Prop := fun u =>
    ∃ hu : u < g.count, g.Reaches root u ∧ (entry ⟨u, hu⟩).mem d = true
  have flow : ∀ (p : Fin g.count) (q : Nat), g.Reaches root p → g.Step p q →
      (exit p).mem d = true → Holds q := by
    intro p q hp hpq hx
    have hq : g.Reaches root q := hp.tail hpq
    exact ⟨hpq.2, hq,
      (hsol.entry_isLUB ⟨q, hpq.2⟩ hq).1 (Or.inr ⟨p, hp, hpq, rfl⟩) d hx⟩
  have closed : ∀ u w, Holds u → g.Step u w → ¬t.Kills identity u d → Holds w := by
    rintro u w ⟨hu, hr, hin⟩ hstep hk
    apply flow ⟨u, hu⟩ w hr hstep
    rw [hsol.exit_eq ⟨u, hu⟩ hr]
    exact (mem_transfer t identity u _ d).mpr (Or.inr ⟨hin, hk⟩)
  rcases hpath with ⟨hpar, hav⟩ | ⟨w, u, hgen, hw, hwu, hav⟩
  · -- a parameter is in the boundary, which flows into the root
    have hstart : Holds root := by
      refine ⟨hroot, Adjacency.Reaches.refl root, ?_⟩
      exact (hsol.entry_isLUB ⟨root, hroot⟩ (Adjacency.Reaches.refl root)).1
        (Or.inl ⟨rfl, rfl⟩) d ((mem_boundary t identity d).mpr ⟨hd, hpar⟩)
    obtain ⟨_, _, hin⟩ := hav.mem_of_closed hstart closed
    exact hin
  · -- a node's definition leaves the node into its successor
    have hwlt : w < g.count := hw.lt_count hroot
    have hstart : Holds u := by
      apply flow ⟨w, hwlt⟩ u hw hwu
      rw [hsol.exit_eq ⟨w, hwlt⟩ hw]
      exact (mem_transfer t identity w _ d).mpr (Or.inl ⟨hd, hgen⟩)
    obtain ⟨_, _, hin⟩ := hav.mem_of_closed hstart closed
    exact hin

/-- **Meet over paths**, on numbers: at a node the root reaches, the solve holds exactly the
definitions that reach the node along some path. -/
theorem solve_entry_mem_iff (order : WorklistOrder) (hroot : root < g.count) (v : Fin g.count)
    (hv : g.Reaches root v) (d : Nat) :
    (((t.problem identity).solve order g root).entry.get v).mem d = true ↔
      d < t.sites.size ∧ t.ReachesAlongPath identity g root d v := by
  obtain ⟨-, hsol, -⟩ := FlowProblem.solve_isLeastSolution (t.problem identity)
    IndexSet.join_eq_sup IndexSet.empty_le (transfer_monotone t identity) order g hroot
  constructor
  · intro hin
    have hle := (FlowProblem.solve_le_postSolves (t.problem identity) IndexSet.join_eq_sup
      IndexSet.empty_le (transfer_monotone t identity) order g hroot pathSet_postSolves v hv).1
    exact (mem_pathSet t identity g root v d).mp (hle d hin)
  · rintro ⟨hd, hpath⟩
    exact mem_of_reachesAlongPath hsol hroot hd v hpath

end DefTable

/-! ## Definitions and kill keys of a procedure -/

namespace ControlFlowGraph

variable (cfg : ControlFlowGraph) (identity : Identity)

/-- The write a node makes: the name an assignment or an initialized declaration writes, and
the variable the node is bound to. -/
def writeAt? (w : Nat) : Option (String × Nat) :=
  match cfg.node? w with
  | some n =>
    match n.stmt.bind Stmt.definedName?, n.boundVar with
    | some x, some var => some (x, var)
    | _, _ => none
  | none => none

/-- Node `w` writes a definition with kill key `key`. -/
def WritesKey (key : KillKey) (w : Nat) : Prop :=
  ∃ x var, cfg.writeAt? w = some (x, var) ∧ identity.killKey x var = key

/-- The kill key of a definition the procedure makes: a parameter owns the variable of its
position, a node's write the variable the node is bound to. None for any other definition. -/
def keyOf? : Definition → Option KillKey
  | ⟨name, none⟩ =>
    if name ∈ cfg.params then some (identity.killKey name (cfg.params.idxOf name)) else none
  | ⟨name, some w⟩ =>
    match cfg.writeAt? w with
    | some (x, var) => if x = name then some (identity.killKey name var) else none
    | none => none

/-- Where a definition must come from to reach `v` with kill key `key`: a parameter along a path
from the start that passes no node writing the key; a node's write along a path from the
start through the node, then on through no node writing the key. -/
def ReachesWith (key : KillKey) (v : Nat) : Definition → Prop
  | ⟨_, none⟩ => cfg.adjacency.ReachesAvoiding (cfg.WritesKey identity key) cfg.start v
  | ⟨_, some g⟩ => cfg.adjacency.Reaches cfg.start g ∧
      ∃ w, cfg.adjacency.Step g w ∧ cfg.adjacency.ReachesAvoiding (cfg.WritesKey identity key) w v

variable {cfg identity}

theorem node?_eq_getElem?_toList (w : Nat) : cfg.node? w = cfg.graph.nodes.toList[w]? := by
  rw [Array.getElem?_toList]
  rfl

theorem writeAt?_eq_some {w : Nat} {x : String} {var : Nat} :
    cfg.writeAt? w = some (x, var) ↔ ∃ n, cfg.node? w = some n ∧
      n.stmt.bind Stmt.definedName? = some x ∧ n.boundVar = some var := by
  unfold writeAt?
  split
  · rename_i n hn
    split
    · rename_i x' var' hx hb
      simp only [Option.some.injEq, Prod.mk.injEq]
      constructor
      · rintro ⟨rfl, rfl⟩
        exact ⟨n, hn, hx, hb⟩
      · rintro ⟨n', hn', hx', hb'⟩
        cases hn.symm.trans hn'
        exact ⟨Option.some.inj (hx.symm.trans hx'), Option.some.inj (hb.symm.trans hb')⟩
    · rename_i hnone
      simp only [reduceCtorEq, false_iff, not_exists, not_and]
      intro n' hn' hx' hb'
      cases hn.symm.trans hn'
      exact hnone x var hx' hb'
  · rename_i hn
    simp [hn]

/-- A node writes `x` to `var` exactly when its number's definition is `x` at the node, owned
by `var`. -/
theorem writeAt?_eq_some_iff {w : Nat} {x : String} {var : Nat} :
    cfg.writeAt? w = some (x, var) ↔ ∃ e, cfg.defTable.gen[w]? = some (some e) ∧
      cfg.defTable.sites[e]? = some ⟨⟨x, some w⟩, var⟩ := by
  have hnum := cfg.defTable_numbers
  rw [writeAt?_eq_some]
  constructor
  · rintro ⟨n, hn, hx, hb⟩
    have hn' : cfg.graph.nodes.toList[w]? = some n := by
      rw [← node?_eq_getElem?_toList]
      exact hn
    exact hnum.gen_of_siteOf hn' (siteOf_of_bound hx hb)
  · rintro ⟨e, he, hs⟩
    obtain ⟨-, n, s, hn, hsite, hs'⟩ := hnum.gen_some he
    rw [hs] at hs'
    cases hs'
    obtain ⟨x', hx', hb, hdef⟩ := siteOf_eq_some hsite
    cases hdef
    exact ⟨n, by rw [node?_eq_getElem?_toList]; exact hn, hx', hb⟩

/-- A node kills a definition exactly when it writes the definition's kill key. -/
theorem kills_iff {d : Nat} {s : DefSite} (hs : cfg.defTable.sites[d]? = some s) (w : Nat) :
    cfg.defTable.Kills identity w d ↔
      cfg.WritesKey identity (identity.killKey s.definition.name s.owner) w := by
  have hnum := cfg.defTable_numbers
  constructor
  · rintro ⟨e, he, hmask⟩
    have hlt := hnum.lt_of_gen he
    obtain ⟨-, n, se, hn, hsite, hse⟩ := hnum.gen_some he
    obtain ⟨x, hx, hb, hdef⟩ := siteOf_eq_some hsite
    obtain ⟨s', hs', hsame⟩ := (DefTable.mem_killMask cfg.defTable identity hlt d).mp hmask
    rw [hs] at hs'
    cases hs'
    have hse' : cfg.defTable.sites[e] = se := by
      rw [Array.getElem?_eq_getElem hlt] at hse
      exact Option.some.inj hse
    rw [hse'] at hsame
    refine ⟨x, se.owner, ?_, ?_⟩
    · exact writeAt?_eq_some.mpr ⟨n, by rw [node?_eq_getElem?_toList]; exact hn, hx, hb⟩
    · rw [(Identity.sameVariable_iff identity _ _).mp hsame, hdef]
  · rintro ⟨x, var, hw, hkey⟩
    obtain ⟨e, he, hse⟩ := writeAt?_eq_some_iff.mp hw
    have hlt := cfg.defTable_numbers.lt_of_gen he
    refine ⟨e, he, (DefTable.mem_killMask cfg.defTable identity hlt d).mpr ⟨s, hs, ?_⟩⟩
    rw [Identity.sameVariable_iff, Array.getElem_eq_iff.mpr hse, ← hkey]

/-- The definition of a number has the kill key of its site. -/
theorem keyOf?_of_site (hnd : cfg.params.Nodup) {d : Nat} {s : DefSite}
    (hs : cfg.defTable.sites[d]? = some s) :
    cfg.keyOf? identity s.definition = some (identity.killKey s.definition.name s.owner) := by
  rcases cfg.defTable_numbers.site_cases hs with ⟨hp, rfl⟩ | ⟨w, n, -, hn, hsite⟩
  · -- a parameter owns its position, and distinct names have distinct positions
    simp [keyOf?, List.getElem_mem, hnd.idxOf_getElem]
  · obtain ⟨x, hx, hb, hdef⟩ := siteOf_eq_some hsite
    have hw : cfg.writeAt? w = some (x, s.owner) :=
      writeAt?_eq_some.mpr ⟨n, by rw [node?_eq_getElem?_toList]; exact hn, hx, hb⟩
    rw [hdef]
    simp [keyOf?, hw]

/-- A definition with a kill key has a number, whose site carries the key. -/
theorem site_of_keyOf? {D : Definition} {key : KillKey}
    (h : cfg.keyOf? identity D = some key) :
    ∃ (d : Nat) (s : DefSite), cfg.defTable.sites[d]? = some s ∧ s.definition = D ∧
      identity.killKey D.name s.owner = key := by
  obtain ⟨name, origin⟩ := D
  cases origin with
  | none =>
    simp only [keyOf?] at h
    split at h
    · rename_i hmem
      cases h
      have hi := List.idxOf_lt_length_iff.mpr hmem
      refine ⟨cfg.params.idxOf name, _, cfg.defTable_numbers.param_site _ hi, ?_, rfl⟩
      rw [List.getElem_idxOf hi]
    · cases h
  | some w =>
    simp only [keyOf?] at h
    split at h
    · rename_i x var hw
      split at h
      · rename_i hx
        subst hx
        cases h
        obtain ⟨e, -, hse⟩ := writeAt?_eq_some_iff.mp hw
        exact ⟨e, _, hse, rfl, rfl⟩
      · cases h
    · cases h

/-- On a number, reaching along a path is reaching with the kill key of its site. -/
theorem reachesAlongPath_iff {d : Nat} {s : DefSite} (hs : cfg.defTable.sites[d]? = some s)
    (v : Nat) :
    cfg.defTable.ReachesAlongPath identity cfg.adjacency cfg.start d v ↔
      cfg.ReachesWith identity (identity.killKey s.definition.name s.owner) v s.definition := by
  have hnum := cfg.defTable_numbers
  have hkills : (cfg.defTable.Kills identity · d) =
      cfg.WritesKey identity (identity.killKey s.definition.name s.owner) :=
    funext fun w => propext (kills_iff hs w)
  unfold DefTable.ReachesAlongPath
  rw [hkills, hnum.params_eq]
  rcases hnum.site_cases hs with ⟨hp, rfl⟩ | ⟨w, n, hw, hn, hsite⟩
  · -- a parameter's number is no node's
    simp only [ReachesWith, hp, true_and, or_iff_left_iff_imp]
    rintro ⟨w, u, hgen, -⟩
    exact absurd (hnum.gen_some hgen).1 (Nat.not_le.mpr hp)
  · -- a node's number is that node's alone, and above the parameters
    obtain ⟨x, -, -, hdef⟩ := siteOf_eq_some hsite
    have hge := (hnum.gen_some hw).1
    have hunique : ∀ w', cfg.defTable.gen[w']? = some (some d) → w' = w := by
      intro w' hw'
      obtain ⟨-, n', s', -, hsite', hs'⟩ := hnum.gen_some hw'
      rw [hs] at hs'
      cases hs'
      obtain ⟨_, _, _, hdef'⟩ := siteOf_eq_some hsite'
      exact Option.some.inj (congrArg Definition.origin (hdef'.symm.trans hdef))
    rw [hdef]
    simp only [ReachesWith, Nat.not_lt.mpr hge, false_and, false_or]
    constructor
    · rintro ⟨w', u, hgen, hr, hstep, hav⟩
      cases hunique w' hgen
      exact ⟨hr, u, hstep, hav⟩
    · rintro ⟨hr, u, hstep, hav⟩
      exact ⟨w, u, hw, hr, hstep, hav⟩

/-- A node that writes nothing generates no definition. -/
theorem gen_ne_of_writeAt?_eq_none {v : Nat} (hw : cfg.writeAt? v = none) (e : Nat) :
    cfg.defTable.gen[v]? ≠ some (some e) := by
  intro he
  obtain ⟨n, s, hn, hsite, -⟩ := (cfg.defTable_numbers.gen_some he).2
  obtain ⟨x, hx, hb, -⟩ := siteOf_eq_some hsite
  rw [writeAt?_eq_some.mpr ⟨n, by rw [node?_eq_getElem?_toList]; exact hn, hx, hb⟩] at hw
  cases hw

/-- A node that writes `x` as the variable `var` kills exactly the definitions of its key. -/
theorem kills_iff_of_writeAt? {v : Nat} {x : String} {var : Nat}
    (hw : cfg.writeAt? v = some (x, var)) {d : Nat} {s : DefSite}
    (hs : cfg.defTable.sites[d]? = some s) :
    cfg.defTable.Kills identity v d ↔
      identity.killKey s.definition.name s.owner = identity.killKey x var := by
  rw [kills_iff hs]
  constructor
  · rintro ⟨x', var', hw', hkey⟩
    rw [hw] at hw'
    cases hw'
    exact hkey.symm
  · intro hkey
    exact ⟨x, var, hw, hkey.symm⟩

/-- Every writing node of a graph whose writing nodes are bound makes a write. -/
theorem writeAt?_isSome_iff (hbound : NodesBound cfg.graph.nodes) (w : Nat) :
    (cfg.writeAt? w).isSome ↔
      ∃ n, cfg.node? w = some n ∧ (n.stmt.bind Stmt.definedName?).isSome := by
  constructor
  · intro h
    obtain ⟨⟨x, var⟩, hw⟩ := Option.isSome_iff_exists.mp h
    obtain ⟨n, hn, hx, -⟩ := writeAt?_eq_some.mp hw
    exact ⟨n, hn, by simp [hx]⟩
  · rintro ⟨n, hn, hdef⟩
    obtain ⟨x, hx⟩ := Option.isSome_iff_exists.mp hdef
    -- the node is in range, and bound because it writes
    have hlt : w < cfg.graph.nodes.size := (Array.getElem?_eq_some_iff.mp hn).1
    have hnode : cfg.graph.nodes[w] = n := (Array.getElem?_eq_some_iff.mp hn).2
    obtain ⟨var, hb⟩ := Option.isSome_iff_exists.mp (hnode ▸ hbound w hlt (hnode ▸ hdef))
    rw [writeAt?_eq_some.mpr ⟨n, hn, hx, hb⟩]
    rfl

end ControlFlowGraph

/-! ## Reading the states back as definitions -/

namespace ReachingDefinitions

variable (rd : ReachingDefinitions)

/-- The definitions reaching a node's entry, read without matching on the state. -/
theorem get_eq (v : Nat) :
    rd.get v = ((rd.solution.entry[v]?.map fun s => s.toList.filterMap (rd.sites[·]?)).getD
      []).map (·.definition) := by
  unfold get entrySites sitesIn
  split <;> simp_all

/-- The definitions reaching a node's exit, read without matching on the state. -/
theorem exit_eq (v : Nat) :
    rd.exit v = ((rd.solution.exit[v]?.map fun s => s.toList.filterMap (rd.sites[·]?)).getD
      []).map (·.definition) := by
  unfold exit exitSites sitesIn
  split <;> simp_all

theorem mem_sitesIn (S : IndexSet rd.sites.size) (s : DefSite) :
    s ∈ rd.sitesIn S ↔ ∃ d, S.mem d = true ∧ rd.sites[d]? = some s := by
  simp [sitesIn]

theorem mem_get_iff {v : Nat} (hv : v < rd.nodeCount) (D : Definition) :
    D ∈ rd.get v ↔ ∃ d s, rd.solution.entry[v].mem d = true ∧ rd.sites[d]? = some s ∧
      s.definition = D := by
  simp only [get, entrySites, Vector.getElem?_eq_getElem hv, List.mem_map, mem_sitesIn]
  constructor
  · rintro ⟨s, ⟨d, hd, hs⟩, rfl⟩
    exact ⟨d, s, hd, hs, rfl⟩
  · rintro ⟨d, s, hd, hs, rfl⟩
    exact ⟨s, ⟨d, hd, hs⟩, rfl⟩

theorem mem_exit_iff {v : Nat} (hv : v < rd.nodeCount) (D : Definition) :
    D ∈ rd.exit v ↔ ∃ d s, rd.solution.exit[v].mem d = true ∧ rd.sites[d]? = some s ∧
      s.definition = D := by
  simp only [exit, exitSites, Vector.getElem?_eq_getElem hv, List.mem_map, mem_sitesIn]
  constructor
  · rintro ⟨s, ⟨d, hd, hs⟩, rfl⟩
    exact ⟨d, s, hd, hs, rfl⟩
  · rintro ⟨d, s, hd, hs, rfl⟩
    exact ⟨s, ⟨d, hd, hs⟩, rfl⟩

/-- A node out of range, or one whose states are empty, has no reaching definitions. -/
theorem get_exit_eq_nil {v : Nat}
    (h : ∀ hv : v < rd.nodeCount, rd.solution.entry[v] = .empty ∧ rd.solution.exit[v] = .empty) :
    rd.get v = [] ∧ rd.exit v = [] := by
  have hnil : rd.sitesIn .empty = [] := by simp [sitesIn, IndexSet.toList_eq_filter]
  by_cases hv : v < rd.nodeCount
  · simp [get, exit, entrySites, exitSites, Vector.getElem?_eq_getElem hv, (h hv).1, (h hv).2,
      hnil]
  · have hnone : ∀ x : Vector (IndexSet rd.sites.size) rd.nodeCount, x[v]? = none := fun x =>
      Vector.getElem?_eq_none (Nat.le_of_not_lt hv)
    simp [get, exit, entrySites, exitSites, hnone]

end ReachingDefinitions

namespace ControlFlowGraph

variable {cfg : ControlFlowGraph}

/-- The reaching definitions of a graph are its meet-over-paths solution. A node writes exactly
when it is an assignment or an initialized declaration. A node the start does not reach has
no reaching definitions. At a reached node, a parameter reaches along a path from the start
that passes no node writing its kill key, and a node's definition along a path from the start
through the node and then through no node writing its key; the exit of a node is its entry
less the definitions its write kills, with its own added. No worklist order changes any
of it. -/
structure MeetOverPaths (cfg : ControlFlowGraph) (config : AnalysisConfig) : Prop where
  writes_iff : ∀ w, (cfg.writeAt? w).isSome ↔
    ∃ n, cfg.node? w = some n ∧ (n.stmt.bind Stmt.definedName?).isSome
  unreached : ∀ v, ¬cfg.adjacency.Reaches cfg.start v →
    (cfg.reaching config).get v = [] ∧ (cfg.reaching config).exit v = []
  param_iff : ∀ v, cfg.adjacency.Reaches cfg.start v → ∀ name,
    (⟨name, none⟩ : Definition) ∈ (cfg.reaching config).get v ↔
      ∃ key, cfg.keyOf? config.identity ⟨name, none⟩ = some key ∧
        cfg.adjacency.ReachesAvoiding (cfg.WritesKey config.identity key) cfg.start v
  node_iff : ∀ v, cfg.adjacency.Reaches cfg.start v → ∀ name g,
    (⟨name, some g⟩ : Definition) ∈ (cfg.reaching config).get v ↔
      ∃ key, cfg.keyOf? config.identity ⟨name, some g⟩ = some key ∧
        cfg.adjacency.Reaches cfg.start g ∧ ∃ w, cfg.adjacency.Step g w ∧
          cfg.adjacency.ReachesAvoiding (cfg.WritesKey config.identity key) w v
  exit_iff : ∀ v, cfg.adjacency.Reaches cfg.start v → ∀ D,
    D ∈ (cfg.reaching config).exit v ↔
      match cfg.writeAt? v with
      | none => D ∈ (cfg.reaching config).get v
      | some (x, var) => D = ⟨x, some v⟩ ∨
          (D ∈ (cfg.reaching config).get v ∧
            cfg.keyOf? config.identity D ≠ some (config.identity.killKey x var))
  order_free : ∀ order, (cfg.reaching { config with order }).get = (cfg.reaching config).get ∧
    (cfg.reaching { config with order }).exit = (cfg.reaching config).exit

section Reading

variable (config : AnalysisConfig) (hstart : cfg.start < cfg.adjacency.count)
include hstart

/-- At a reached node, a definition reaches the entry exactly when it is a definition of the
procedure reaching with its kill key. -/
theorem mem_reaching_get_iff (hnd : cfg.params.Nodup) {v : Nat}
    (hv : cfg.adjacency.Reaches cfg.start v) (D : Definition) :
    D ∈ (cfg.reaching config).get v ↔
      ∃ key, cfg.keyOf? config.identity D = some key ∧ cfg.ReachesWith config.identity key v D := by
  have hvlt : v < cfg.adjacency.count := hv.lt_count hstart
  rw [ReachingDefinitions.mem_get_iff _ hvlt]
  constructor
  · rintro ⟨d, s, hd, hs, rfl⟩
    have hpath := (DefTable.solve_entry_mem_iff config.order hstart ⟨v, hvlt⟩ hv d).mp hd
    exact ⟨_, keyOf?_of_site hnd hs, (reachesAlongPath_iff hs v).mp hpath.2⟩
  · rintro ⟨key, hkey, hreach⟩
    obtain ⟨d, s, hs, rfl, rfl⟩ := site_of_keyOf? hkey
    refine ⟨d, s, ?_, hs, rfl⟩
    exact (DefTable.solve_entry_mem_iff config.order hstart ⟨v, hvlt⟩ hv d).mpr
      ⟨(Array.getElem?_eq_some_iff.mp hs).1, (reachesAlongPath_iff hs v).mpr hreach⟩

/-- At a reached node, the exit is the entry with the node's write applied. -/
theorem mem_reaching_exit_iff (hnd : cfg.params.Nodup) {v : Nat}
    (hv : cfg.adjacency.Reaches cfg.start v) (D : Definition) :
    D ∈ (cfg.reaching config).exit v ↔
      match cfg.writeAt? v with
      | none => D ∈ (cfg.reaching config).get v
      | some (x, var) => D = ⟨x, some v⟩ ∨
          (D ∈ (cfg.reaching config).get v ∧
            cfg.keyOf? config.identity D ≠ some (config.identity.killKey x var)) := by
  have hvlt : v < cfg.adjacency.count := hv.lt_count hstart
  obtain ⟨-, hsol, -⟩ := FlowProblem.solve_isLeastSolution (cfg.defTable.problem config.identity)
    IndexSet.join_eq_sup IndexSet.empty_le (DefTable.transfer_monotone _ _) config.order
    cfg.adjacency hstart
  -- the exit of a reached node is the transfer of its entry
  have hexit := hsol.exit_eq ⟨v, hvlt⟩ hv
  simp only [Fin.getElem_fin] at hexit
  rw [ReachingDefinitions.mem_exit_iff _ hvlt, ReachingDefinitions.mem_get_iff _ hvlt]
  simp only [reaching]
  rw [hexit]
  split
  · -- a node that writes nothing passes its entry through
    rename_i hw
    have hgen := gen_ne_of_writeAt?_eq_none hw
    have hpass : ∀ d, ((cfg.defTable.problem config.identity).transfer v
        ((cfg.defTable.problem config.identity).solve config.order cfg.adjacency
          cfg.start).entry[v]).mem d = true ↔
        ((cfg.defTable.problem config.identity).solve config.order cfg.adjacency
          cfg.start).entry[v].mem d = true := by
      intro d
      rw [DefTable.mem_transfer]
      constructor
      · rintro (⟨-, he⟩ | ⟨hin, -⟩)
        · exact absurd he (hgen d)
        · exact hin
      · intro hin
        exact Or.inr ⟨hin, fun ⟨e, he, _⟩ => hgen e he⟩
    simp only [hpass]
  · -- a writing node kills the definitions of its key and adds its own
    rename_i x var hw
    obtain ⟨e, he, hse⟩ := writeAt?_eq_some_iff.mp hw
    constructor
    · rintro ⟨d, s, hd, hs, rfl⟩
      rcases (DefTable.mem_transfer _ _ _ _ d).mp hd with ⟨-, hgen⟩ | ⟨hin, hk⟩
      · rw [he] at hgen
        cases hgen
        rw [hse] at hs
        cases hs
        exact Or.inl rfl
      · refine Or.inr ⟨⟨d, s, hin, hs, rfl⟩, ?_⟩
        rw [keyOf?_of_site hnd hs]
        intro hkey
        exact hk ((kills_iff_of_writeAt? hw hs).mpr (Option.some.inj hkey))
    · rintro (rfl | ⟨⟨d, s, hin, hs, rfl⟩, hkey⟩)
      · refine ⟨e, _, ?_, hse, rfl⟩
        exact (DefTable.mem_transfer _ _ _ _ e).mpr
          (Or.inl ⟨(Array.getElem?_eq_some_iff.mp hse).1, he⟩)
      · refine ⟨d, s, ?_, hs, rfl⟩
        refine (DefTable.mem_transfer _ _ _ _ d).mpr (Or.inr ⟨hin, fun hk => hkey ?_⟩)
        rw [keyOf?_of_site hnd hs, (kills_iff_of_writeAt? hw hs).mp hk]

/-- A node the start does not reach has no reaching definitions. -/
theorem reaching_unreached {v : Nat} (hv : ¬cfg.adjacency.Reaches cfg.start v) :
    (cfg.reaching config).get v = [] ∧ (cfg.reaching config).exit v = [] := by
  apply ReachingDefinitions.get_exit_eq_nil
  intro hvlt
  obtain ⟨off, -⟩ := FlowProblem.solve_isLeastSolution (cfg.defTable.problem config.identity)
    IndexSet.join_eq_sup IndexSet.empty_le (DefTable.transfer_monotone _ _) config.order
    cfg.adjacency hstart
  exact off ⟨v, hvlt⟩ hv

end Reading

/-- No worklist order changes the reaching definitions. -/
theorem reaching_order_free (config : AnalysisConfig) (order : WorklistOrder) :
    (cfg.reaching { config with order }).get = (cfg.reaching config).get ∧
      (cfg.reaching { config with order }).exit = (cfg.reaching config).exit := by
  obtain ⟨hentry, hexit⟩ := FlowProblem.solve_order_eq (cfg.defTable.problem config.identity)
    IndexSet.join_eq_sup IndexSet.empty_le (DefTable.transfer_monotone _ _) config.order order
    cfg.adjacency cfg.start
  -- both readings depend on the states alone, which every order ends with
  constructor
  · funext v
    rw [ReachingDefinitions.get_eq, ReachingDefinitions.get_eq]
    simp only [reaching, hentry]
    rfl
  · funext v
    rw [ReachingDefinitions.exit_eq, ReachingDefinitions.exit_eq]
    simp only [reaching, hexit]
    rfl

/-- **Reaching definitions are the meet-over-paths solution.** For every procedure that builds
and every setting, the reaching definitions of its graph are the definitions that reach each
node along some path, as `MeetOverPaths` states. -/
theorem build_reaching_meetOverPaths {p : Procedure} {cfg : ControlFlowGraph}
    (hbuild : p.build = .ok cfg) (config : AnalysisConfig) : cfg.MeetOverPaths config := by
  have hnd : cfg.params.Nodup := Procedure.params_nodup_of_build hbuild
  obtain ⟨-, rfl⟩ := Procedure.build_eq_ok.mp hbuild
  -- the start is node zero, and the exit node is always there
  have hstart : p.lower.start < p.lower.adjacency.count := by
    have hcount := Procedure.lower_nodeCount p
    rw [Procedure.lower_start]
    simp only [ControlFlowGraph.nodeCount] at hcount
    simp only [ControlFlowGraph.adjacency, Digraph.adjacency, hcount]
    omega
  exact {
    writes_iff := writeAt?_isSome_iff (Procedure.lower_nodesBound p)
    unreached := fun v hv => reaching_unreached config hstart hv
    param_iff := fun v hv name => mem_reaching_get_iff config hstart hnd hv ⟨name, none⟩
    node_iff := fun v hv name g => mem_reaching_get_iff config hstart hnd hv ⟨name, some g⟩
    exit_iff := fun v hv D => mem_reaching_exit_iff config hstart hnd hv D
    order_free := reaching_order_free config }

/-- A procedure of one parameter that writes it, loops over a write of it, and returns. -/
theorem build_reaching_meetOverPaths_loop :
    let p : Procedure := ⟨"f", ["x"], .block [.assign "x" (.literal "1"),
      .loop (.name "x") (.block [.assign "x" (.name "x")]), .ret (some (.name "x"))]⟩
    p.build = .ok p.lower ∧ p.lower.MeetOverPaths .standard := by
  intro p
  have hbuild : p.build = .ok p.lower := Procedure.build_eq_ok.mpr ⟨rfl, rfl⟩
  exact ⟨hbuild, build_reaching_meetOverPaths hbuild .standard⟩

end ControlFlowGraph

end ReachingDefs
