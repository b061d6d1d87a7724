import ReachingDefs.Proofs.Data.BitSetLaws
import ReachingDefs.Flow.Checked

/-!
# Bit sets that stand for sets of indices

The solver's states are sets of indices below a length that their type fixes, `IndexSet n`. The
crate keeps them as bit sets, whose length is data and whose operations check it. A bit set
stands for a set of indices below `n` (`BitSet.Represents`) when it keeps its representation
invariant, its domain has length `n`, and its bits are the set's members. On such sets no
operation is refused, and each acts as its counterpart on `IndexSet n`; union also reports,
as the solver needs, whether the union differs from its left side. Two bit sets that stand for
one set are one bit set, and a bit set reads back (`BitSet.toIndexSet`) as the set it stands
for.

A row of bit sets stands for a row of sets when it stands for it position by position
(`BitSet.RowRepresents`): such a row is read and written at every position without a panic.

## Main definitions

* `BitSet.Represents`: a bit set stands for a set of indices
* `BitSet.RowRepresents`: a row of bit sets stands for a row of sets

## Main results

* `BitSet.Represents.insert`, `.remove`, `.unionWith`, `.differenceWith`: the operations on
  sets that stand for sets are not refused, and act as the operations on the sets
* `BitSet.represents_fromIndices`: a set of given indices of the domain is built
* `BitSet.Represents.toIndexSet`: a bit set reads back as the set it stands for
-/

namespace ReachingDefs

namespace BitSet

variable {n : Nat}

/-- A bit set stands for a set of indices below `n`: it keeps its invariant, its domain has
length `n`, and its bits are the members of the set. -/
structure Represents (b : BitSet) (s : IndexSet n) : Prop where
  wf : b.WF
  len_eq : b.len = n
  bit_eq : ∀ i, b.bit i = s.mem i

variable {b c : BitSet} {s t : IndexSet n}

theorem represents_new (n : Nat) : (new n).Represents (IndexSet.empty : IndexSet n) :=
  ⟨new_wf n, rfl, fun i => by simp [bit, rowBit, new]⟩

theorem Represents.contains (h : b.Represents s) (i : Nat) : b.contains i = s.mem i := by
  rw [contains_eq_bit h.wf, h.bit_eq]

theorem Represents.view_eq_iff (h : b.Represents s) (h' : c.Represents t) :
    b.view = c.view ↔ s = t := by
  rw [view_ext, IndexSet.ext_iff]
  simp only [h.bit_eq, h'.bit_eq]

/-- Two bit sets that stand for one set are one bit set. -/
theorem Represents.unique (h : b.Represents s) (h' : c.Represents s) : b = c :=
  (eq_iff_view h.wf h'.wf).mpr ⟨h.len_eq.trans h'.len_eq.symm, (h.view_eq_iff h').mpr rfl⟩

/-- A well-formed bit set stands for the set of its members below its length. -/
theorem represents_toIndexSet (hb : b.WF) : b.Represents (b.toIndexSet b.len) := by
  refine ⟨hb, rfl, fun i => ?_⟩
  rw [toIndexSet, IndexSet.mem_ofList, Bool.eq_iff_iff, Bool.and_eq_true, decide_eq_true_iff,
    decide_eq_true_iff, mem_members, mem_view]
  exact ⟨fun hi => ⟨hb.lt_len i hi, hi⟩, And.right⟩

/-- A bit set stands for one set. -/
theorem Represents.set_eq (h : b.Represents s) (h' : b.Represents t) : s = t :=
  IndexSet.ext fun i => (h.bit_eq i).symm.trans (h'.bit_eq i)

/-- A bit set reads back as the set it stands for. -/
theorem Represents.toIndexSet (h : b.Represents s) : b.toIndexSet n = s := by
  have hb := represents_toIndexSet h.wf
  rw [h.len_eq] at hb
  exact hb.set_eq h

/-! ## The operations -/

/-- Inserting an index of the domain is not refused, and inserts it into the set. -/
theorem Represents.insert (h : b.Represents s) {i : Nat} (hi : i < n) :
    ∃ b' f, b.insert i = .ok (b', f) ∧ b'.Represents (s.insert i) := by
  obtain ⟨b', hok, hlen, hview⟩ := insert_spec h.wf (h.len_eq ▸ hi)
  refine ⟨b', _, hok, insert_wf h.wf hok, hlen.trans h.len_eq, fun j => ?_⟩
  rw [Bool.eq_iff_iff, ← mem_view, hview, Finset.mem_union, Finset.mem_singleton, mem_view,
    h.bit_eq, IndexSet.mem_insert]
  simp only [hi, decide_true, Bool.true_and, Bool.or_eq_true, decide_eq_true_eq]
  exact or_congr_right eq_comm

/-- Removing an index of the domain is not refused, and erases it from the set. -/
theorem Represents.remove (h : b.Represents s) {i : Nat} (hi : i < n) :
    ∃ b' f, b.remove i = .ok (b', f) ∧ b'.Represents (s.erase i) := by
  obtain ⟨b', hok, hlen, hview⟩ := remove_spec h.wf (h.len_eq ▸ hi)
  refine ⟨b', _, hok, remove_wf h.wf hok, hlen.trans h.len_eq, fun j => ?_⟩
  rw [Bool.eq_iff_iff, ← mem_view, hview, Finset.mem_sdiff, Finset.mem_singleton, mem_view,
    h.bit_eq, IndexSet.mem_erase]
  simp only [Bool.and_eq_true, Bool.not_eq_true', decide_eq_false_iff_not]
  exact and_congr_right fun _ => not_congr eq_comm

/-- **A union of two sets over one domain is not refused.** It gives the union, and its flag
says whether the union differs from the left side. -/
theorem Represents.unionWith (h : b.Represents s) (h' : c.Represents t) :
    ∃ b', b.unionWith c = .ok (b', decide (s.union t ≠ s)) ∧ b'.Represents (s.union t) := by
  obtain ⟨b', hok, hlen, hview⟩ := unionWith_spec h.wf h'.wf (h.len_eq.trans h'.len_eq.symm)
  have hrep : b'.Represents (s.union t) := by
    refine ⟨combine_wf bitwise_or h.wf h'.wf hok, hlen.trans h.len_eq, fun j => ?_⟩
    rw [Bool.eq_iff_iff, ← mem_view, hview, Finset.mem_union, mem_view, mem_view, h.bit_eq,
      h'.bit_eq, IndexSet.mem_union, Bool.or_eq_true]
  refine ⟨b', ?_, hrep⟩
  -- the view of the union moved exactly when the union differs from the left side
  rw [hok]
  simp only [ne_eq, hrep.view_eq_iff h]

/-- A difference of two sets over one domain is not refused, and gives the difference. -/
theorem Represents.differenceWith (h : b.Represents s) (h' : c.Represents t) :
    ∃ b' f, b.differenceWith c = .ok (b', f) ∧ b'.Represents (s.diff t) := by
  obtain ⟨b', hok, hlen, hview⟩ :=
    differenceWith_spec h.wf h'.wf (h.len_eq.trans h'.len_eq.symm)
  refine ⟨b', _, hok, combine_wf bitwise_andNot h.wf h'.wf hok, hlen.trans h.len_eq, fun j => ?_⟩
  rw [Bool.eq_iff_iff, ← mem_view, hview, Finset.mem_sdiff, mem_view, mem_view, h.bit_eq,
    h'.bit_eq, IndexSet.mem_diff]
  simp

/-- Inserting indices of the domain one after another is not refused. -/
theorem Represents.foldlM_insert : ∀ (l : List Nat), (∀ i ∈ l, i < n) → ∀ {b : BitSet}
    {s : IndexSet n}, b.Represents s →
      ∃ b', l.foldlM (fun s i => (s.insert i).map Prod.fst) b = .ok b' ∧
        b'.Represents (l.foldl IndexSet.insert s)
  | [], _, b, _, h => ⟨b, rfl, h⟩
  | i :: rest, hl, _, _, h => by
    obtain ⟨b₁, _, hins, h₁⟩ := h.insert (hl i List.mem_cons_self)
    obtain ⟨b', hfold, h'⟩ :=
      Represents.foldlM_insert rest (fun j hj => hl j (List.mem_cons_of_mem _ hj)) h₁
    refine ⟨b', ?_, h'⟩
    rw [List.foldlM_cons, hins]
    exact hfold

/-- The set of indices of the domain is built without a refusal. -/
theorem represents_fromIndices {l : List Nat} (hl : ∀ i ∈ l, i < n) :
    ∃ b, fromIndices n l = .ok b ∧ b.Represents (IndexSet.ofList l : IndexSet n) :=
  (represents_new n).foldlM_insert l hl

/-! ## Rows of sets -/

/-- A row of bit sets stands for a row of sets: it is as long, and stands for it position by
position. -/
structure RowRepresents (xs : Array BitSet) (ys : Array (IndexSet n)) : Prop where
  size_eq : xs.size = ys.size
  get : ∀ (i : Nat) (hx : i < xs.size) (hy : i < ys.size), xs[i].Represents ys[i]

theorem rowRepresents_replicate (count : Nat) (h : b.Represents s) :
    RowRepresents (Array.replicate count b) (Array.replicate count s) :=
  ⟨by simp, fun i hx _ => by simpa using h⟩

/-- Every bit set of a row that stands for sets below `n` is well-formed, over `n`. -/
theorem RowRepresents.wf_of_mem {xs : Array BitSet} {ys : Array (IndexSet n)}
    (h : RowRepresents xs ys) {b : BitSet} (hb : b ∈ xs.toList) : b.WF ∧ b.len = n := by
  obtain ⟨i, hi, rfl⟩ := List.getElem_of_mem hb
  have hrep := h.get i (by simpa using hi) (by simpa [← h.size_eq] using hi)
  exact ⟨hrep.wf, hrep.len_eq⟩

/-- A row is read without a panic at every position below its length. -/
theorem RowRepresents.readAt {xs : Array BitSet} {ys : Array (IndexSet n)}
    (h : RowRepresents xs ys) {i : Nat} (hi : i < ys.size) :
    ∃ b, ReachingDefs.readAt xs i = .ok b ∧ b.Represents ys[i] := by
  have hx : i < xs.size := h.size_eq ▸ hi
  exact ⟨xs[i], dif_pos hx, h.get i hx hi⟩

/-- A row is written without a panic at every position below its length. -/
theorem RowRepresents.writeAt {xs : Array BitSet} {ys : Array (IndexSet n)}
    (h : RowRepresents xs ys) {i : Nat} (hi : i < ys.size) (hb : b.Represents s) :
    ∃ xs', ReachingDefs.writeAt xs i b = .ok xs' ∧ RowRepresents xs' (ys.set i s hi) := by
  have hx : i < xs.size := h.size_eq ▸ hi
  refine ⟨xs.set i b hx, dif_pos hx, ⟨by simp [h.size_eq], fun j hx' hy' => ?_⟩⟩
  rw [Array.getElem_set, Array.getElem_set]
  split
  · exact hb
  · exact h.get j (by simpa using hx') (by simpa using hy')

/-- Inserting each listed index into the set at its listed position is never refused. -/
theorem RowRepresents.foldlM_insert : ∀ (P : List (Nat × Nat)) {xs : Array BitSet}
    {ys : Array (IndexSet n)}, RowRepresents xs ys → (∀ e ∈ P, e.1 < ys.size ∧ e.2 < n) →
      ∃ xs', P.foldlM (fun masks e => do
          let mask ← ReachingDefs.readAt masks e.1
          let (mask, _) ← Panic.check (mask.insert e.2)
          ReachingDefs.writeAt masks e.1 mask) xs = .ok xs' ∧
        RowRepresents xs' (P.foldl (fun masks e => masks.modify e.1 (·.insert e.2)) ys)
  | [], xs, _, h, _ => ⟨xs, rfl, h⟩
  | e :: rest, _, ys, h, hP => by
    obtain ⟨he₁, he₂⟩ := hP e List.mem_cons_self
    obtain ⟨b, hread, hb⟩ := h.readAt he₁
    obtain ⟨b', _, hins, hb'⟩ := hb.insert he₂
    obtain ⟨xs₁, hwrite, h₁⟩ := h.writeAt he₁ hb'
    -- inserting at a position of the row is writing the position back with the insert
    have hmod : ys.modify e.1 (·.insert e.2) = ys.set e.1 (ys[e.1].insert e.2) he₁ :=
      Array.ext (by simp) fun j _ _ => by
        simp only [Array.getElem_modify, Array.getElem_set]
        split
        · rename_i hj
          subst hj
          rfl
        · rfl
    obtain ⟨xs', hfold, h'⟩ := RowRepresents.foldlM_insert rest h₁ fun e' he' => by
      simpa using hP e' (List.mem_cons_of_mem _ he')
    refine ⟨xs', ?_, by rw [List.foldl_cons, hmod]; exact h'⟩
    rw [List.foldlM_cons, hread]
    simp only [bind, Except.bind, Panic.check, hins, Except.mapError, hwrite]
    exact hfold

end BitSet

end ReachingDefs
