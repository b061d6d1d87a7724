import ReachingDefs.Proofs.Cfg.Variables
import ReachingDefs.Proofs.Reaching.MeetOverPaths

/-!
# Variables by name and by scope

Under `Identity.scoped` a write kills the definitions of the variable it writes; under
`Identity.byName`, those of every variable of its name. Every variable of a built graph is named
as it is written (`ControlFlowGraph.NamedVars`), so a node that writes a variable writes that
variable's name, and a write kills by name whatever it kills by scope. Fewer definitions
survive by name: every definition that reaches the entry or the exit of a node by name reaches
it by scope too. The two identities number the same definitions, and when no two definitions
of one name write different variables they kill alike and give the same results.

## Main results

* `ControlFlowGraph.keyOf?_byName`: a definition's kill key by name is its name
* `ControlFlowGraph.WritesKey.byName_of_scoped`: a write of a variable is a write of its name
* `ControlFlowGraph.reaching_byName_subset_scoped`: by-name results lie inside scoped ones, and
  equal them when every name has one variable
-/

namespace ReachingDefs

namespace ControlFlowGraph

variable {cfg : ControlFlowGraph}

/-! ## Keys by name and by scope -/

/-- Every numbered definition is named as its variable. -/
theorem NamedVars.site (h : cfg.NamedVars) {s : DefSite} (hs : s ∈ cfg.defTable.sites) :
    VarNamed cfg.vars s.owner s.definition.name := by
  obtain ⟨d, hd⟩ := Array.mem_iff_getElem?.mp hs
  rcases cfg.defTable_numbers.site_cases hd with ⟨hp, rfl⟩ | ⟨w, n, -, hn, hsite⟩
  · exact h.params d hp
  · obtain ⟨x, hx, hb, hdef⟩ := siteOf_eq_some hsite
    rw [hdef]
    exact h.writes n (Array.mem_def.mpr (List.mem_of_getElem? hn)) x s.owner hx hb

/-- A node that writes `x` to a variable writes a variable named `x`. -/
theorem NamedVars.write (h : cfg.NamedVars) {w : Nat} {x : String} {var : Nat}
    (hw : cfg.writeAt? w = some (x, var)) : VarNamed cfg.vars var x := by
  obtain ⟨n, hn, hx, hb⟩ := writeAt?_eq_some.mp hw
  exact h.writes n (Array.mem_of_getElem? hn) x var hx hb

/-- A definition has a kill key by name exactly when it has one by scope, and its key by name
is its name. -/
theorem keyOf?_byName (D : Definition) :
    cfg.keyOf? .byName D = (cfg.keyOf? .scoped D).map fun _ => .name D.name := by
  obtain ⟨name, origin⟩ := D
  cases origin with
  | none =>
    by_cases hp : name ∈ cfg.params <;> simp [keyOf?, hp, Identity.killKey]
  | some w =>
    simp only [keyOf?]
    cases cfg.writeAt? w with
    | none => rfl
    | some write =>
      by_cases hx : write.1 = name <;> simp [hx, Identity.killKey]

/-- The kill key of a definition by scope is its variable, which has the definition's name. -/
theorem NamedVars.keyOf?_scoped (h : cfg.NamedVars) {D : Definition} {key : KillKey}
    (hk : cfg.keyOf? .scoped D = some key) :
    ∃ var, key = .var var ∧ VarNamed cfg.vars var D.name := by
  obtain ⟨d, s, hs, rfl, hkey⟩ := site_of_keyOf? hk
  exact ⟨s.owner, hkey.symm, h.site (Array.mem_of_getElem? hs)⟩

/-- A node that writes a variable named `x` writes the name `x`. -/
theorem WritesKey.byName_of_scoped (h : cfg.NamedVars) {var : Nat} {x : String}
    (hvar : VarNamed cfg.vars var x) {w : Nat} (hw : cfg.WritesKey .scoped (.var var) w) :
    cfg.WritesKey .byName (.name x) w := by
  obtain ⟨y, var', hwrite, hkey⟩ := hw
  have hvar' : var' = var := KillKey.var.inj hkey
  subst hvar'
  exact ⟨y, var', hwrite, congrArg KillKey.name ((h.write hwrite).unique hvar)⟩

/-- Reaching a node past no write of a name reaches it past no write of a variable of that
name. -/
theorem NamedVars.reachesWith_scoped (h : cfg.NamedVars) {D : Definition} {var : Nat}
    (hvar : VarNamed cfg.vars var D.name) {v : Nat}
    (hr : cfg.ReachesWith .byName (.name D.name) v D) : cfg.ReachesWith .scoped (.var var) v D := by
  have hmono : ∀ w, cfg.WritesKey .scoped (.var var) w → cfg.WritesKey .byName (.name D.name) w :=
    fun w hw => WritesKey.byName_of_scoped h hvar hw
  obtain ⟨name, origin⟩ := D
  cases origin with
  | none => exact Adjacency.ReachesAvoiding.mono hmono hr
  | some g =>
    obtain ⟨hg, w, hstep, hav⟩ := hr
    exact ⟨hg, w, hstep, Adjacency.ReachesAvoiding.mono hmono hav⟩

/-! ## Reaching definitions under both identities -/

section Compare

variable (config : AnalysisConfig) (hnamed : cfg.NamedVars) (hnd : cfg.params.Nodup)
  (hstart : cfg.start < cfg.adjacency.count)
include hnamed hnd hstart

/-- What reaches a node's entry by name reaches it by scope. -/
theorem mem_get_scoped_of_byName {v : Nat} {D : Definition}
    (hD : D ∈ (cfg.reaching { config with identity := .byName }).get v) :
    D ∈ (cfg.reaching { config with identity := .scoped }).get v := by
  by_cases hv : cfg.adjacency.Reaches cfg.start v
  · obtain ⟨key, hkey, hr⟩ := (mem_reaching_get_iff _ hstart hnd hv D).mp hD
    -- the definition has a variable, named as it is, and its key by name is its name
    rw [keyOf?_byName] at hkey
    obtain ⟨keyS, hkeyS, rfl⟩ := Option.map_eq_some_iff.mp hkey
    obtain ⟨var, rfl, hvar⟩ := hnamed.keyOf?_scoped hkeyS
    exact (mem_reaching_get_iff _ hstart hnd hv D).mpr
      ⟨.var var, hkeyS, hnamed.reachesWith_scoped hvar hr⟩
  · rw [(reaching_unreached _ hstart hv).1] at hD
    cases hD

/-- What reaches a node's exit by name reaches it by scope: a write that spares a definition by
name spares it by scope. -/
theorem mem_exit_scoped_of_byName {v : Nat} {D : Definition}
    (hD : D ∈ (cfg.reaching { config with identity := .byName }).exit v) :
    D ∈ (cfg.reaching { config with identity := .scoped }).exit v := by
  by_cases hv : cfg.adjacency.Reaches cfg.start v
  · rw [mem_reaching_exit_iff _ hstart hnd hv] at hD ⊢
    cases hw : cfg.writeAt? v with
    | none =>
      rw [hw] at hD
      exact mem_get_scoped_of_byName config hnamed hnd hstart hD
    | some write =>
      obtain ⟨x, var⟩ := write
      rw [hw] at hD
      rcases hD with rfl | ⟨hget, hkill⟩
      · exact Or.inl rfl
      refine Or.inr ⟨mem_get_scoped_of_byName config hnamed hnd hstart hget, fun hkey => ?_⟩
      -- killed by scope: its variable is the written one, so its name is the written name
      obtain ⟨var', hvar', hnamedD⟩ := hnamed.keyOf?_scoped hkey
      cases KillKey.var.inj hvar'
      have hx : D.name = x := hnamedD.unique (hnamed.write hw)
      apply hkill
      simp only [keyOf?_byName, hkey, Option.map_some, hx]
      rfl
  · rw [(reaching_unreached _ hstart hv).2] at hD
    cases hD

end Compare

/-- When no two definitions of one name write different variables, a kill by name is a kill by
scope, so both identities pose the same problem. -/
theorem problem_byName_eq_scoped (hnamed : cfg.NamedVars)
    (hsame : ∀ a ∈ cfg.defTable.sites, ∀ b ∈ cfg.defTable.sites,
      a.definition.name = b.definition.name → a.owner = b.owner) :
    cfg.defTable.problem .byName = cfg.defTable.problem .scoped := by
  have hkill : cfg.defTable.killMask .byName = cfg.defTable.killMask .scoped := by
    funext e
    by_cases he : e < cfg.defTable.sites.size
    · apply IndexSet.ext
      intro i
      rw [Bool.eq_iff_iff, DefTable.mem_killMask _ _ he, DefTable.mem_killMask _ _ he]
      refine exists_congr fun s => and_congr_right fun hs => ?_
      have hs' := Array.mem_of_getElem? hs
      have hd := Array.getElem_mem he
      -- one name is one variable, and one variable has one name
      simp only [Identity.sameVariable, beq_iff_eq]
      exact ⟨hsame s hs' _ hd, fun hown => (hnamed.site hs').unique (hown ▸ hnamed.site hd)⟩
    · rw [DefTable.killMask_of_size_le _ _ (Nat.le_of_not_lt he),
        DefTable.killMask_of_size_le _ _ (Nat.le_of_not_lt he)]
  unfold DefTable.problem
  rw [hkill]

/-- **Variables by name kill at least as much as variables by scope.** For every procedure that
builds and every setting, a definition that reaches the entry or the exit of a node when
variables are told apart by name reaches it when they are told apart by scope, and both number
the same definitions. When no two definitions of one name write different variables, the two
give the same reaching definitions at every node. -/
theorem reaching_byName_subset_scoped {p : Procedure} {cfg : ControlFlowGraph}
    (hbuild : p.build = .ok cfg) (config : AnalysisConfig) :
    let byName := cfg.reaching { config with identity := .byName }
    let byScope := cfg.reaching { config with identity := .scoped }
    (∀ v, ∀ D ∈ byName.get v, D ∈ byScope.get v) ∧ (∀ v, ∀ D ∈ byName.exit v, D ∈ byScope.exit v) ∧
      byName.definitions = byScope.definitions ∧
      ((∀ a ∈ byScope.sites, ∀ b ∈ byScope.sites,
          a.definition.name = b.definition.name → a.owner = b.owner) →
        byName.get = byScope.get ∧ byName.exit = byScope.exit) := by
  have hnd : cfg.params.Nodup := Procedure.params_nodup_of_build hbuild
  obtain ⟨-, rfl⟩ := Procedure.build_eq_ok.mp hbuild
  have hnamed := Procedure.lower_namedVars p
  have hstart := Procedure.lower_start_lt_count p
  refine ⟨fun v D hD => mem_get_scoped_of_byName config hnamed hnd hstart hD,
    fun v D hD => mem_exit_scoped_of_byName config hnamed hnd hstart hD, rfl, fun hsame => ?_⟩
  -- with one problem, the solver ends in the same states, which both read the same way
  have hproblem := problem_byName_eq_scoped hnamed hsame
  constructor
  · funext v
    rw [ReachingDefinitions.get_eq, ReachingDefinitions.get_eq]
    simp only [reaching, hproblem]
    rfl
  · funext v
    rw [ReachingDefinitions.exit_eq, ReachingDefinitions.exit_eq]
    simp only [reaching, hproblem]
    rfl

/-- An inner declaration of `x` shadows an outer one: by name it kills the outer definition, by
scope it does not. -/
theorem reaching_byName_subset_scoped_shadowing :
    let p : Procedure := ⟨"f", [], .block [.declare "x" (some (.literal "1")),
      .ifThen (.other "c") (.block [.declare "x" (some (.literal "2")), .expr (.other "g(x)")]),
      .ret (some (.name "x"))]⟩
    p.build = .ok p.lower ∧
      let byName := p.lower.reaching { AnalysisConfig.sequential with identity := .byName }
      let byScope := p.lower.reaching { AnalysisConfig.sequential with identity := .scoped }
      (∀ v, ∀ D ∈ byName.get v, D ∈ byScope.get v) ∧
        (∀ v, ∀ D ∈ byName.exit v, D ∈ byScope.exit v) ∧ byName.definitions = byScope.definitions ∧
        ((∀ a ∈ byScope.sites, ∀ b ∈ byScope.sites,
            a.definition.name = b.definition.name → a.owner = b.owner) →
          byName.get = byScope.get ∧ byName.exit = byScope.exit) := by
  intro p
  have hbuild : p.build = .ok p.lower := Procedure.build_eq_ok.mpr ⟨rfl, rfl⟩
  exact ⟨hbuild, reaching_byName_subset_scoped hbuild .sequential⟩

end ControlFlowGraph

end ReachingDefs
