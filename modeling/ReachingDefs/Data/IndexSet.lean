import ReachingDefs.Data.Count

/-!
# Sets of indices below a bound

`IndexSet n` is a set of natural numbers below `n`, one bit per candidate. The bound is part
of the type, so every set of one type has the same domain, and the number of members is at
most `n`: a chain of strictly growing sets of one type has at most `n + 1` links. That is
what makes the dataflow solver stop.

The view is `mem`; each operation comes with the lemma that says what it does to it, and
`ext` says that a set is determined by its members.

## Main results

* `mem_insert`, `mem_erase`, `mem_union`, `mem_diff`, `mem_ofList`, `mem_toList`: the
  operations through `mem`
* `card_le`: no set has more than `n` members
* `card_lt_card_union`, `card_lt_card_insert`: a change that adds a member raises `card`
-/

namespace ReachingDefs

/-- The positions below `w` of the set bits of `x`, each raised by `base`, in increasing
order. The width is halved until it fits a machine word, and a zero part is dropped at once,
so the work grows with the size of `x` times the depth of the halving, not with `w` times
the size of `x`. -/
def setBitPositions (x base w : Nat) : List Nat :=
  if x = 0 then []
  else if w ≤ 64 then ((List.range w).filter x.testBit).map (base + ·)
  else
    setBitPositions (x % (1 <<< (w / 2))) base (w / 2) ++
      setBitPositions (x >>> (w / 2)) (base + w / 2) (w - w / 2)
termination_by w
decreasing_by all_goals omega

/-- The halving keeps exactly the set bits below the width, in order. -/
theorem setBitPositions_eq (x base w : Nat) :
    setBitPositions x base w = ((List.range w).filter x.testBit).map (base + ·) := by
  induction w using Nat.strongRecOn generalizing x base with
  | ind w ih =>
    rw [setBitPositions]
    by_cases hx : x = 0
    · subst hx
      simp
    by_cases hw : w ≤ 64
    · simp [hx, hw]
    have hlo := ih (w / 2) (by omega) (x % (1 <<< (w / 2))) base
    have hhi := ih (w - w / 2) (by omega) (x >>> (w / 2)) (base + w / 2)
    simp only [hx, hw, if_false, hlo, hhi]
    have hsplit : w = w / 2 + (w - w / 2) := by omega
    conv => rhs; rw [hsplit, List.range_add]
    rw [List.filter_append, List.map_append, List.filter_map, List.map_map]
    congr 1
    · congr 1
      apply List.filter_congr
      intro i hi
      simp [Nat.one_shiftLeft, Nat.testBit_mod_two_pow, List.mem_range.mp hi]
    · congr 1
      · funext i
        simp only [Function.comp]
        omega
      · apply List.filter_congr
        intro i _
        simp [Nat.testBit_shiftRight]

/-- A set of indices below `n`, stored as a bit vector of width `n`. -/
structure IndexSet (n : Nat) where
  /-- Bit `i` is set exactly when `i` is a member. -/
  bits : BitVec n
deriving DecidableEq, Repr

namespace IndexSet

variable {n : Nat}

/-- The empty set. -/
def empty : IndexSet n := ⟨0#n⟩

instance : Inhabited (IndexSet n) := ⟨empty⟩

/-- Whether `i` is a member; false for every index outside the domain. -/
def mem (s : IndexSet n) (i : Nat) : Bool := s.bits.getLsbD i

/-- Adds `i`; an index outside the domain adds nothing. -/
def insert (s : IndexSet n) (i : Nat) : IndexSet n := ⟨s.bits ||| BitVec.twoPow n i⟩

/-- Removes `i`. -/
def erase (s : IndexSet n) (i : Nat) : IndexSet n := ⟨s.bits &&& ~~~(BitVec.twoPow n i)⟩

/-- The members of either set. -/
def union (s t : IndexSet n) : IndexSet n := ⟨s.bits ||| t.bits⟩

/-- The members of `s` that are not in `t`. -/
def diff (s t : IndexSet n) : IndexSet n := ⟨s.bits &&& ~~~t.bits⟩

/-- The set of the listed indices that lie in the domain. -/
def ofList (l : List Nat) : IndexSet n := l.foldl insert empty

/-- The set of the indices below `k`. -/
def below (k : Nat) : IndexSet n := ofList (List.range k)

/-- The members in increasing order. -/
def toList (s : IndexSet n) : List Nat := setBitPositions s.bits.toNat 0 n

/-- The number of members. -/
def card (s : IndexSet n) : Nat := s.toList.length

/-- Whether the set has no members. -/
def isEmpty (s : IndexSet n) : Bool := s.toList.isEmpty

/-- Whether every member of `s` is a member of `t`. -/
def subset (s t : IndexSet n) : Bool := s.toList.all t.mem

@[simp] theorem mem_empty (i : Nat) : (empty : IndexSet n).mem i = false := by
  simp [empty, mem]

@[simp] theorem mem_insert (s : IndexSet n) (i j : Nat) :
    (s.insert i).mem j = (s.mem j || (decide (i < n) && decide (i = j))) := by
  simp [insert, mem, BitVec.getLsbD_twoPow]

@[simp] theorem mem_erase (s : IndexSet n) (i j : Nat) :
    (s.erase i).mem j = (s.mem j && !decide (i = j)) := by
  simp only [erase, mem, BitVec.getLsbD_and, BitVec.getLsbD_not, BitVec.getLsbD_twoPow]
  by_cases hj : j < n
  · by_cases hij : i = j
    · subst hij; simp [hj]
    · simp [hj, hij]
  · have : s.bits.getLsbD j = false := by
      cases h : s.bits.getLsbD j
      · rfl
      · exact absurd (BitVec.lt_of_getLsbD h) hj
    simp [this]

@[simp] theorem mem_union (s t : IndexSet n) (i : Nat) :
    (s.union t).mem i = (s.mem i || t.mem i) := by
  simp [union, mem]

@[simp] theorem mem_diff (s t : IndexSet n) (i : Nat) :
    (s.diff t).mem i = (s.mem i && !t.mem i) := by
  simp only [diff, mem, BitVec.getLsbD_and, BitVec.getLsbD_not]
  by_cases hi : i < n
  · simp [hi]
  · have : s.bits.getLsbD i = false := by
      cases h : s.bits.getLsbD i
      · rfl
      · exact absurd (BitVec.lt_of_getLsbD h) hi
    simp [this]

/-- Every member lies in the domain. -/
theorem lt_of_mem {s : IndexSet n} {i : Nat} (h : s.mem i = true) : i < n :=
  BitVec.lt_of_getLsbD h

/-- A set is determined by its members. -/
theorem ext {s t : IndexSet n} (h : ∀ i, s.mem i = t.mem i) : s = t := by
  cases s; cases t
  congr
  exact BitVec.eq_of_getLsbD_eq fun i _ => h i

theorem ext_iff {s t : IndexSet n} : s = t ↔ ∀ i, s.mem i = t.mem i :=
  ⟨fun h _ => h ▸ rfl, ext⟩

theorem mem_ofList_foldl (l : List Nat) (s : IndexSet n) (j : Nat) :
    (l.foldl insert s).mem j = (s.mem j || (decide (j < n) && decide (j ∈ l))) := by
  induction l generalizing s with
  | nil => simp
  | cons a rest ih =>
    simp only [List.foldl_cons, ih, mem_insert, List.mem_cons]
    by_cases h : j = a
    · subst h
      by_cases hj : j < n <;> cases s.mem j <;> simp [hj]
    · have h' : ¬a = j := fun e => h e.symm
      simp [h, h']

@[simp] theorem mem_ofList (l : List Nat) (j : Nat) :
    (ofList l : IndexSet n).mem j = (decide (j < n) && decide (j ∈ l)) := by
  simp [ofList, mem_ofList_foldl]

/-- The members are the indices of the domain that pass `mem`, in increasing order. -/
theorem toList_eq_filter (s : IndexSet n) : s.toList = (List.range n).filter s.mem := by
  rw [toList, setBitPositions_eq]
  simp only [Nat.zero_add, List.map_id_fun', id]
  rfl

@[simp] theorem mem_toList (s : IndexSet n) (i : Nat) : i ∈ s.toList ↔ s.mem i = true := by
  simp only [toList_eq_filter, List.mem_filter, List.mem_range, and_iff_right_iff_imp]
  exact lt_of_mem

theorem card_eq_length_toList (s : IndexSet n) : s.card = s.toList.length := rfl

/-- The count of members is the count of the domain's indices that pass `mem`. -/
theorem card_eq_countP (s : IndexSet n) : s.card = (List.range n).countP s.mem := by
  rw [card, toList_eq_filter, List.countP_eq_length_filter]

theorem card_le (s : IndexSet n) : s.card ≤ n := by
  have := List.countP_le_length (p := s.mem) (l := List.range n)
  simpa [card_eq_countP] using this

/-- A union is at least as large as its left side. -/
theorem card_le_card_union (s t : IndexSet n) : s.card ≤ (s.union t).card := by
  rw [card_eq_countP, card_eq_countP]
  exact List.countP_mono_left fun i _ h => by simp [h]

/-- A union that differs from its left side is strictly larger. -/
theorem card_lt_card_union {s t : IndexSet n} (h : s.union t ≠ s) :
    s.card < (s.union t).card := by
  have : ∃ i, (s.union t).mem i ≠ s.mem i := by
    apply Classical.byContradiction
    intro hall
    exact h (ext fun i => Classical.byContradiction fun hi => hall ⟨i, hi⟩)
  obtain ⟨i, hi⟩ := this
  have hsi : s.mem i = false := by
    cases hs : s.mem i
    · rfl
    · simp [hs] at hi
  have hui : (s.union t).mem i = true := by
    cases hu : (s.union t).mem i
    · simp [hu, hsi] at hi
    · rfl
  rw [card_eq_countP, card_eq_countP]
  refine countP_lt_countP (fun j _ hj => by simp [hj]) ⟨i, ?_, hui, hsi⟩
  exact List.mem_range.mpr (lt_of_mem hui)

/-- Adding an index of the domain that is not yet a member adds one to the count. -/
theorem card_lt_card_insert {s : IndexSet n} {i : Nat} (hi : i < n) (hs : s.mem i = false) :
    s.card < (s.insert i).card := by
  rw [card_eq_countP, card_eq_countP]
  refine countP_lt_countP (fun j _ hj => by simp [hj]) ⟨i, List.mem_range.mpr hi, ?_, hs⟩
  simp [hi]

/-- Adding an index never lowers the count. -/
theorem card_le_card_insert (s : IndexSet n) (i : Nat) : s.card ≤ (s.insert i).card := by
  rw [card_eq_countP, card_eq_countP]
  exact List.countP_mono_left fun j _ hj => by simp [hj]

end IndexSet

end ReachingDefs
