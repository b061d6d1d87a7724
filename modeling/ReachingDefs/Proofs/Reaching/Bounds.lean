import ReachingDefs.Proofs.Flow.Refinement
import ReachingDefs.Proofs.Reaching.Numbering
import ReachingDefs.Proofs.Cfg.Refusal
import ReachingDefs.Log

/-!
# The analysis over bit sets never panics

Reaching definitions run on bit sets: building the problem fills one mask per key number and
the bit set of the parameters, the transfer of a writing node reads the key number of its
definition and then the mask of that number, and the solver keeps its states and marks in bit
sets and rows. Every one of these reads and bit set operations checks its arguments and panics
on an index outside its row or domain, or on two sets over different domains.

None of them ever panics. The numbering gives every definition a key number below the number of
keys (`DefTable.lt_keyCount_of_keys`), so both reads of a transfer are in range; every mask and
state has the definitions as its domain; and the problem over bit sets refines the problem over
sets of definition numbers (`ReachingAnalysis.refines_problem`). So the solver's simulation
applies (`CheckedProblem.Refines.solve`): the solve ends without a panic, in the solution of the
analysis over sets, and analysing a procedure that builds gives its graph and that solution.

## Main results

* `ReachingAnalysis.new_eq`: building the problem over bit sets never panics
* `ReachingAnalysis.refines_problem`: it refines the problem over sets of definition numbers
* `ControlFlowGraph.reachingChecked_eq`: the analysis over bit sets is the analysis over sets
* `analyze_never_panics`: all of this together, with the solver on every problem that keeps to
  one domain
-/

namespace ReachingDefs

open BitSet

/-! ## Building the problem -/

section Build

variable (cfg : ControlFlowGraph) (identity : Identity)

/-- Each key number and each definition of the key vector is in range. -/
theorem DefTable.keyPairs_lt (t : DefTable) (identity : Identity) {e : Nat × Nat}
    (he : e ∈ (t.keys identity).toList.zipIdx) :
    e.1 < t.keyCount identity ∧ e.2 < t.sites.size := by
  have hget : (t.keys identity)[e.2]? = some e.1 := by
    simpa using List.mem_zipIdx_iff_getElem?.mp he
  exact ⟨t.lt_keyCount_of_keys identity hget,
    by simpa using (Array.getElem?_eq_some_iff.mp hget).1⟩

/-- **Building the problem over bit sets never panics.** Each definition goes into the mask of
its key number, which is in range, and every parameter number is a definition; the masks stand
for the masks of the key numbers, and the parameters for the first `params` numbers. -/
theorem ReachingAnalysis.new_eq :
    ∃ masks parameters, ReachingAnalysis.new cfg identity =
        .ok ⟨cfg.defTable.sites, cfg.defTable.gen, cfg.defTable.keys identity, masks, parameters⟩ ∧
      RowRepresents masks (cfg.defTable.masks identity) ∧
      parameters.Represents (IndexSet.below cfg.defTable.params : IndexSet cfg.defTable.sites.size) := by
  have hnum := cfg.defTable_numbers
  have hblank := rowRepresents_replicate (cfg.defTable.keyCount identity)
    (represents_new cfg.defTable.sites.size)
  obtain ⟨masks, hfold, hmasks⟩ := hblank.foldlM_insert (cfg.defTable.keys identity).toList.zipIdx
    fun e he => by simpa using cfg.defTable.keyPairs_lt identity he
  -- the parameters are the first definitions
  have hparams : ∀ i ∈ List.range cfg.defTable.params, i < cfg.defTable.sites.size := by
    intro i hi
    have := hnum.params_eq ▸ hnum.params_le
    exact Nat.lt_of_lt_of_le (List.mem_range.mp hi) this
  obtain ⟨parameters, hfrom, hrep⟩ := represents_fromIndices hparams
  refine ⟨masks, parameters, ?_, hmasks, hrep⟩
  dsimp only [ReachingAnalysis.new]
  rw [hfold]
  simp only [Panic.check, hfrom, Except.mapError, bind, Except.bind]
  rfl

/-- **The transfer over bit sets refines the transfer over sets.** A writing node reads the key
number of its definition and the mask of that number, both in range, and takes out of the entry
what the transfer over sets takes out; every other node passes its entry through. -/
theorem ReachingAnalysis.refines_problem {masks : Array BitSet} {parameters : BitSet}
    (hmasks : RowRepresents masks (cfg.defTable.masks identity))
    (hparams : parameters.Represents
      (IndexSet.below cfg.defTable.params : IndexSet cfg.defTable.sites.size)) :
    (ReachingAnalysis.mk cfg.defTable.sites cfg.defTable.gen (cfg.defTable.keys identity) masks
      parameters).toProblem.Refines (cfg.defTable.problem identity) := by
  refine ⟨hparams, represents_new _, fun v b s hb => ?_⟩
  simp only [ReachingAnalysis.toProblem, ReachingAnalysis.transfer, DefTable.problem]
  rcases hg : cfg.defTable.gen[v]? with _ | _ | d
  · exact ⟨b, rfl, hb⟩
  · exact ⟨b, rfl, hb⟩
  · -- the definition's key number, and that number's mask, are in range
    have hd : d < cfg.defTable.sites.size := cfg.defTable_numbers.lt_of_gen hg
    have hdk : d < (cfg.defTable.keys identity).size := by simpa using hd
    have hk := cfg.defTable.lt_keyCount_of_keys identity (Array.getElem?_eq_getElem hdk)
    have hkm : (cfg.defTable.keys identity)[d] < (cfg.defTable.masks identity).size := by
      simpa using hk
    obtain ⟨mask, hmask, hrmask⟩ := hmasks.readAt hkm
    obtain ⟨diff, _, hdiff, hrdiff⟩ := hb.differenceWith hrmask
    obtain ⟨out, _, hins, hrout⟩ := hrdiff.insert hd
    have hkill : cfg.defTable.killMask identity d =
        (cfg.defTable.masks identity)[(cfg.defTable.keys identity)[d]] := by
      simp [DefTable.killMask, Array.getElem?_eq_getElem hdk, Array.getElem?_eq_getElem hkm]
    refine ⟨out, ?_, ?_⟩
    · simp only [readAt_of_lt hdk, hmask, Panic.check, hdiff, hins, Except.mapError, bind,
        Except.bind]
      rfl
    · dsimp only
      rw [hkill]
      exact hrout

end Build

/-! ## The analysis -/

/-- **The analysis over bit sets is the analysis over sets.** On every graph, under every
setting, building and solving reaching definitions over bit sets ends without a panic, in the
reaching definitions over sets of definition numbers. -/
theorem ControlFlowGraph.reachingChecked_eq (cfg : ControlFlowGraph) (config : AnalysisConfig) :
    cfg.reachingChecked config = .ok (cfg.reaching config) := by
  obtain ⟨masks, parameters, hnew, hmasks, hparams⟩ := ReachingAnalysis.new_eq cfg config.identity
  obtain ⟨r, hsolve, hr⟩ := (ReachingAnalysis.refines_problem cfg config.identity hmasks hparams).solve
    config.order cfg.adjacency cfg.start
  simp only [ControlFlowGraph.reachingChecked, hnew, hsolve, bind, Except.bind, hr.toSolution]
  rfl

/-- Analysing a procedure that builds gives its graph and its reaching definitions. -/
theorem Procedure.analyze_eq {p : Procedure} {cfg : ControlFlowGraph} (hbuild : p.build = .ok cfg)
    (config : AnalysisConfig) : p.analyze config = .ok ⟨cfg, cfg.reaching config⟩ := by
  simp only [Procedure.analyze, hbuild, Except.mapError, ControlFlowGraph.reachingChecked_eq, bind,
    Except.bind]
  rfl

/-- **The analysis never panics.** For every procedure that builds and every setting, every
identity and order included, analysing it ends without a panic, with its graph and its reaching
definitions. For every graph and identity, building the problem over bit sets never panics:
the masks and the parameters are bit sets over the definitions, the key number of every
definition and the mask of that number are read in range, and that mask holds exactly the
definitions of the definition's variable; and under every order the solve ends without a
panic, in entries and exits over the definitions. For every problem over bit sets whose
boundary, initial state and transfer keep to one domain, on every graph, from every root and
under every order, the root and successors out of range included, the solve ends without a
panic. -/
theorem analyze_never_panics :
    (∀ {p : Procedure} {cfg : ControlFlowGraph}, p.build = .ok cfg → ∀ config : AnalysisConfig,
      p.analyze config = .ok ⟨cfg, cfg.reaching config⟩) ∧
    (∀ (cfg : ControlFlowGraph) (identity : Identity), ∃ a, ReachingAnalysis.new cfg identity = .ok a ∧
      a.definitions = cfg.defTable.sites ∧
      (∀ b ∈ a.masks.toList, b.WF ∧ b.len = a.definitions.size) ∧
      a.parameters.WF ∧ a.parameters.len = a.definitions.size ∧
      (∀ d (hd : d < a.definitions.size), ∃ k mask, a.keys[d]? = some k ∧ a.masks[k]? = some mask ∧
        ∀ i, mask.contains i = true ↔
          ∃ s, a.definitions[i]? = some s ∧ identity.sameVariable s a.definitions[d] = true) ∧
      ∀ order : WorklistOrder, ∃ r, a.toProblem.solve order cfg.adjacency cfg.start = .ok r ∧
        ∀ b ∈ r.entry.toList ++ r.exit.toList, b.WF ∧ b.len = a.definitions.size) ∧
    (∀ (p : CheckedProblem) {L : Nat}, p.boundary.WF ∧ p.boundary.len = L →
      p.initial.WF ∧ p.initial.len = L →
      (∀ v b, b.WF → b.len = L → ∃ b', p.transfer v b = .ok b' ∧ b'.WF ∧ b'.len = L) →
      ∀ (order : WorklistOrder) (g : Adjacency) (root : Nat),
        ∃ r, p.solve order g root = .ok r ∧ r.entry.size = g.count ∧
          r.exit.size = g.count ∧ ∀ b ∈ r.entry.toList ++ r.exit.toList, b.WF ∧ b.len = L) := by
  refine ⟨fun hbuild config => Procedure.analyze_eq hbuild config, fun cfg identity => ?_,
    fun p _ hb hi ht order g root => p.solve_ok_of_domain hb hi ht order g root⟩
  obtain ⟨masks, parameters, hnew, hmasks, hparams⟩ := ReachingAnalysis.new_eq cfg identity
  have hrefines := ReachingAnalysis.refines_problem cfg identity hmasks hparams
  refine ⟨_, hnew, rfl, fun b hb => ?_, hparams.wf, hparams.len_eq, fun d hd => ?_,
    fun order => ?_⟩
  · -- every mask stands for a set of definition numbers
    exact hmasks.wf_of_mem hb
  · -- the key number of the definition, and its mask, are read in range
    have hdk : d < (cfg.defTable.keys identity).size := by simpa using hd
    have hk := cfg.defTable.lt_keyCount_of_keys identity (Array.getElem?_eq_getElem hdk)
    have hkm : (cfg.defTable.keys identity)[d] < masks.size := by
      simpa [hmasks.size_eq] using hk
    have hrep := hmasks.get _ hkm (by simpa using hk)
    refine ⟨_, _, Array.getElem?_eq_getElem hdk, Array.getElem?_eq_getElem hkm, fun i => ?_⟩
    rw [hrep.contains, ← DefTable.mem_killMask cfg.defTable identity hd i]
    simp [DefTable.killMask, Array.getElem?_eq_getElem hdk,
      Array.getElem?_eq_getElem (show _ < (cfg.defTable.masks identity).size by simpa using hk)]
  · obtain ⟨r, hsolve, hr⟩ := hrefines.solve order cfg.adjacency cfg.start
    refine ⟨r, hsolve, fun b hb => ?_⟩
    -- every entry and exit stands for a set of definition numbers
    rcases List.mem_append.mp hb with hb | hb
    · exact hr.entry.wf_of_mem hb
    · exact hr.exit.wf_of_mem hb

/-- A loop that writes its variable: analysing it never panics, and a solve over bit sets that
keeps to one domain, from a root out of range, never panics either. -/
theorem analyze_never_panics_loop :
    let p : Procedure := ⟨"f", ["x"], .block [.assign "x" (.literal "1"),
      .loop (.name "x") (.block [.assign "x" (.name "x")]), .ret (some (.name "x"))]⟩
    let q : CheckedProblem := ⟨BitSet.new 3, BitSet.new 3, fun _ b => .ok b⟩
    p.build = .ok p.lower ∧ p.analyze .standard = .ok ⟨p.lower, p.lower.reaching .standard⟩ ∧
      ∃ r, q.solve .reversePostorder p.lower.adjacency 7 = .ok r := by
  intro p q
  have hbuild : p.build = .ok p.lower := Procedure.build_eq_ok.mpr ⟨rfl, rfl⟩
  obtain ⟨r, hr, -⟩ := analyze_never_panics.2.2 q ⟨new_wf 3, rfl⟩ ⟨new_wf 3, rfl⟩
    (fun _ b hw hl => ⟨b, rfl, hw, hl⟩) .reversePostorder p.lower.adjacency 7
  exact ⟨hbuild, analyze_never_panics.1 hbuild .standard, r, hr⟩

end ReachingDefs
