import Mathlib.Data.List.Induction
import ReachingDefs.Proofs.Reaching.Keys
import ReachingDefs.Proofs.Flow.LeastSolution

/-!
# How the definitions of a graph are numbered

The numbering of a graph's definitions lists the parameters first, in order, each as the
definition of its own variable, and then the definition of each writing node, in node order.
`gen` gives every node the number of its definition, or none. `DefTable.Numbers` says this of
a table, and `ControlFlowGraph.defTable_numbers` proves it of the table a graph builds, by
following the fold that builds it one node at a time.

The transfer of a node keeps every definition its node does not kill and adds the node's own:
`DefTable.mem_transfer` says which numbers come out of it.

## Main definitions

* `DefTable.Numbers`: a table numbers the parameters and then the writing nodes
* `DefTable.Kills`: a node writes the variable of a definition

## Main results

* `ControlFlowGraph.defTable_numbers`: the table of a graph numbers its definitions
* `DefTable.Numbers.site_cases`: every number is a parameter's or a writing node's
* `DefTable.mem_transfer`: what the transfer of a node lets through
-/

namespace ReachingDefs

namespace ControlFlowGraph

/-- A node's definition names the node, and its variable is the one the node is bound to. -/
theorem siteOf_eq_some {v : Nat} {n : CfgNode} {s : DefSite} (h : siteOf v n = some s) :
    ∃ x, n.stmt.bind Stmt.definedName? = some x ∧ n.boundVar = some s.owner ∧
      s.definition = ⟨x, some v⟩ := by
  unfold siteOf at h
  split at h
  · split at h
    · rename_i var name hb hn
      cases h
      exact ⟨name, hn, hb, rfl⟩
    · cases h
  · cases h

/-- A node that writes `x` and is bound to `var` defines `x` at itself, owned by `var`. -/
theorem siteOf_of_bound {v : Nat} {n : CfgNode} {x : String} {var : Nat}
    (hx : n.stmt.bind Stmt.definedName? = some x) (hb : n.boundVar = some var) :
    siteOf v n = some ⟨⟨x, some v⟩, var⟩ := by
  have hdef : n.isDefinition = true := by simp [CfgNode.isDefinition, hx, hb]
  simp [siteOf, hdef, hx, hb]

end ControlFlowGraph

namespace DefTable

/-- `t` numbers the definitions of the parameters `params` and of the nodes `nodes`: the
parameters first and in order, then one number for each writing node, which `gen` records. -/
structure Numbers (t : DefTable) (params : List String) (nodes : List CfgNode) : Prop where
  params_eq : t.params = params.length
  params_le : params.length ≤ t.sites.size
  param_site : ∀ i (h : i < params.length), t.sites[i]? = some ⟨⟨params[i], none⟩, i⟩
  gen_size : t.gen.size = nodes.length
  gen_some : ∀ {w d : Nat}, t.gen[w]? = some (some d) → params.length ≤ d ∧
    ∃ n s, nodes[w]? = some n ∧ ControlFlowGraph.siteOf w n = some s ∧ t.sites[d]? = some s
  gen_none : ∀ {w : Nat}, t.gen[w]? = some none →
    ∃ n, nodes[w]? = some n ∧ ControlFlowGraph.siteOf w n = none
  site_gen : ∀ {d : Nat}, params.length ≤ d → d < t.sites.size →
    ∃ w : Nat, t.gen[w]? = some (some d)

/-- One step of the numbering: a writing node gets the next number. -/
def numberStep (acc : Array DefSite × Array (Option Nat)) (entry : CfgNode × Nat) :
    Array DefSite × Array (Option Nat) :=
  match ControlFlowGraph.siteOf entry.2 entry.1 with
  | some site => (acc.1.push site, acc.2.push (some acc.1.size))
  | none => (acc.1, acc.2.push none)

/-- The parameters' definitions, each owning the variable of its position. -/
def paramSites (params : List String) : Array DefSite :=
  (params.zipIdx.map fun (p, i) => (⟨⟨p, none⟩, i⟩ : DefSite)).toArray

/-- The numbering of the parameters alone. -/
theorem numbers_nil (params : List String) :
    Numbers ⟨paramSites params, #[], params.length⟩ params [] where
  params_eq := rfl
  params_le := by simp [paramSites]
  param_site i h := by simp [paramSites, List.getElem?_zipIdx, List.getElem?_eq_getElem h]
  gen_size := rfl
  gen_some h := by simp at h
  gen_none h := by simp at h
  site_gen {d} hle hd := by simp [paramSites] at hd; omega

/-- Numbering one more node keeps the table a numbering. -/
theorem Numbers.snoc {sites : Array DefSite} {gen : Array (Option Nat)} {params : List String}
    {nodes : List CfgNode} (h : Numbers ⟨sites, gen, params.length⟩ params nodes) (x : CfgNode) :
    Numbers ⟨(numberStep (sites, gen) (x, nodes.length)).1,
      (numberStep (sites, gen) (x, nodes.length)).2, params.length⟩ params (nodes ++ [x]) := by
  have hgen : gen.size = nodes.length := h.gen_size
  have hle : params.length ≤ sites.size := h.params_le
  -- a number given before belongs to an earlier node and an earlier definition
  have old_some : ∀ {w d}, gen[w]? = some (some d) → w < nodes.length ∧ d < sites.size := by
    intro w d hwd
    obtain ⟨-, n, s, hn, -, hd⟩ := h.gen_some hwd
    exact ⟨(List.getElem?_eq_some_iff.mp hn).1, (Array.getElem?_eq_some_iff.mp hd).1⟩
  unfold numberStep
  dsimp only
  split
  · rename_i s hs
    refine ⟨rfl, ?_, ?_, ?_, ?_, ?_, ?_⟩
    · simp only [Array.size_push]
      omega
    · intro i hi
      rw [Array.getElem?_push, if_neg (by omega)]
      exact h.param_site i hi
    · simp [hgen]
    · intro w d hwd
      rw [Array.getElem?_push] at hwd
      split at hwd
      · rename_i hw
        cases hwd
        refine ⟨hle, x, s, ?_, by rw [hw, hgen]; exact hs, by simp⟩
        simp [hw, hgen]
      · obtain ⟨hpd, n, s', hn, hs', hd⟩ := h.gen_some hwd
        obtain ⟨hw, hd'⟩ := old_some hwd
        refine ⟨hpd, n, s', by rw [List.getElem?_append_left hw]; exact hn, hs', ?_⟩
        rw [Array.getElem?_push, if_neg (by omega)]
        exact hd
    · intro w hw
      rw [Array.getElem?_push] at hw
      split at hw
      · cases hw
      · obtain ⟨n, hn, hs'⟩ := h.gen_none hw
        have hlt := (List.getElem?_eq_some_iff.mp hn).1
        exact ⟨n, by rw [List.getElem?_append_left hlt]; exact hn, hs'⟩
    · intro d hpd hd
      simp only [Array.size_push] at hd
      by_cases hds : d = sites.size
      · exact ⟨gen.size, by simp [hds]⟩
      · obtain ⟨w, hw⟩ := h.site_gen hpd (by dsimp only; omega)
        have hlt := (old_some hw).1
        exact ⟨w, by rw [Array.getElem?_push, if_neg (by omega)]; exact hw⟩
  · rename_i hs
    refine ⟨rfl, hle, h.param_site, by simp [hgen], ?_, ?_, ?_⟩
    · intro w d hwd
      rw [Array.getElem?_push] at hwd
      split at hwd
      · cases hwd
      · obtain ⟨hpd, n, s', hn, hs', hd⟩ := h.gen_some hwd
        have hw := (old_some hwd).1
        exact ⟨hpd, n, s', by rw [List.getElem?_append_left hw]; exact hn, hs', hd⟩
    · intro w hw
      rw [Array.getElem?_push] at hw
      split at hw
      · rename_i hwn
        exact ⟨x, by simp [hwn, hgen], by rw [hwn, hgen]; exact hs⟩
      · obtain ⟨n, hn, hs'⟩ := h.gen_none hw
        have hlt := (List.getElem?_eq_some_iff.mp hn).1
        exact ⟨n, by rw [List.getElem?_append_left hlt]; exact hn, hs'⟩
    · intro d hpd hd
      obtain ⟨w, hw⟩ := h.site_gen hpd hd
      have hlt := (old_some hw).1
      exact ⟨w, by rw [Array.getElem?_push, if_neg (by omega)]; exact hw⟩

end DefTable

open DefTable in
/-- The table of a graph numbers its parameters and then its writing nodes. -/
theorem ControlFlowGraph.defTable_numbers (cfg : ControlFlowGraph) :
    cfg.defTable.Numbers cfg.params cfg.graph.nodes.toList := by
  have hfold : ∀ l : List CfgNode,
      Numbers ⟨(l.zipIdx.foldl numberStep (paramSites cfg.params, #[])).1,
        (l.zipIdx.foldl numberStep (paramSites cfg.params, #[])).2, cfg.params.length⟩
        cfg.params l := by
    intro l
    induction l using List.reverseRecOn with
    | nil => exact numbers_nil cfg.params
    | append_singleton l x ih =>
      rw [List.zipIdx_append, List.zipIdx_singleton, List.foldl_append, List.foldl_cons,
        List.foldl_nil, Nat.zero_add]
      exact ih.snoc x
  exact hfold cfg.graph.nodes.toList

namespace DefTable

section Numbers

variable {t : DefTable} {params : List String} {nodes : List CfgNode}

theorem Numbers.lt_of_gen (h : t.Numbers params nodes) {w d : Nat}
    (hwd : t.gen[w]? = some (some d)) : d < t.sites.size := by
  obtain ⟨_, _, _, _, _, hd⟩ := h.gen_some hwd
  exact (Array.getElem?_eq_some_iff.mp hd).1

/-- A writing node has a number, and the number's definition is the node's. -/
theorem Numbers.gen_of_siteOf (h : t.Numbers params nodes) {w : Nat} {n : CfgNode} {s : DefSite}
    (hn : nodes[w]? = some n) (hs : ControlFlowGraph.siteOf w n = some s) :
    ∃ d, t.gen[w]? = some (some d) ∧ t.sites[d]? = some s := by
  have hw : w < t.gen.size := by
    rw [h.gen_size]
    exact (List.getElem?_eq_some_iff.mp hn).1
  cases hgw : t.gen[w] with
  | some d =>
    have hwd : t.gen[w]? = some (some d) := by rw [Array.getElem?_eq_getElem hw, hgw]
    obtain ⟨-, n', s', hn', hs', hd⟩ := h.gen_some hwd
    rw [hn] at hn'
    cases hn'
    rw [hs] at hs'
    cases hs'
    exact ⟨d, hwd, hd⟩
  | none =>
    have hwn : t.gen[w]? = some none := by rw [Array.getElem?_eq_getElem hw, hgw]
    obtain ⟨n', hn', hs'⟩ := h.gen_none hwn
    rw [hn] at hn'
    cases hn'
    rw [hs] at hs'
    cases hs'

/-- Every number is a parameter's, owning its position, or a writing node's. -/
theorem Numbers.site_cases (h : t.Numbers params nodes) {d : Nat} {s : DefSite}
    (hd : t.sites[d]? = some s) :
    (∃ hp : d < params.length, s = ⟨⟨params[d], none⟩, d⟩) ∨
      ∃ w n, t.gen[w]? = some (some d) ∧ nodes[w]? = some n ∧
        ControlFlowGraph.siteOf w n = some s := by
  by_cases hp : d < params.length
  · rw [h.param_site d hp] at hd
    cases hd
    exact Or.inl ⟨hp, rfl⟩
  · obtain ⟨w, hw⟩ := h.site_gen (Nat.le_of_not_lt hp) (Array.getElem?_eq_some_iff.mp hd).1
    obtain ⟨-, n, s', hn, hs', hd'⟩ := h.gen_some hw
    rw [hd] at hd'
    cases hd'
    exact Or.inr ⟨w, n, hw, hn, hs'⟩

end Numbers

/-! ## What a transfer lets through -/

/-- Node `v` kills definition `d`: it writes a definition of the same variable. -/
def Kills (t : DefTable) (identity : Identity) (v d : Nat) : Prop :=
  ∃ e, t.gen[v]? = some (some e) ∧ (t.killMask identity e).mem d = true

/-- A node's transfer lets through what the node does not kill, and adds the node's own
definition. -/
theorem mem_transfer (t : DefTable) (identity : Identity) (v : Nat) (S : IndexSet t.sites.size)
    (d : Nat) :
    ((t.problem identity).transfer v S).mem d = true ↔
      (d < t.sites.size ∧ t.gen[v]? = some (some d)) ∨ (S.mem d = true ∧ ¬t.Kills identity v d) := by
  simp only [problem, Kills]
  split
  · rename_i e he
    simp only [IndexSet.mem_insert, IndexSet.mem_diff, Bool.or_eq_true, Bool.and_eq_true,
      Bool.not_eq_true', decide_eq_true_eq, he, Option.some.injEq, exists_eq_left']
    constructor
    · rintro (⟨hS, hk⟩ | ⟨hd, rfl⟩)
      · exact Or.inr ⟨hS, by simp [hk]⟩
      · exact Or.inl ⟨hd, rfl⟩
    · rintro (⟨hd, rfl⟩ | ⟨hS, hk⟩)
      · exact Or.inr ⟨hd, rfl⟩
      · exact Or.inl ⟨hS, by simpa using hk⟩
  · rename_i hnone
    constructor
    · intro hS
      refine Or.inr ⟨hS, ?_⟩
      rintro ⟨e, he, -⟩
      exact hnone e he
    · rintro (⟨-, hd⟩ | ⟨hS, -⟩)
      · exact absurd hd (hnone d)
      · exact hS

/-- Every transfer is monotone: it only removes and adds fixed definitions. -/
theorem transfer_monotone (t : DefTable) (identity : Identity) (v : Nat) :
    Monotone ((t.problem identity).transfer v) := by
  intro S S' hle d hd
  rcases (mem_transfer t identity v S d).mp hd with hgen | ⟨hS, hk⟩
  · exact (mem_transfer t identity v S' d).mpr (Or.inl hgen)
  · exact (mem_transfer t identity v S' d).mpr (Or.inr ⟨hle d hS, hk⟩)

end DefTable

end ReachingDefs
