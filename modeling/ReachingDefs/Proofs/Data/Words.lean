import Mathlib
import ReachingDefs.Data.BitSet

/-!
# Words of bits

The facts about rows of 64-bit words that the bit set operations rest on, said through the bits
of a word's value (whose own lemmas, the mask that `locate` makes and the word-wise operations,
stand beside the bit sets): the walk over the set bits of a word that the iterator makes (count
the trailing zeros, then clear the lowest set bit), and the word-by-word combination of two rows
of words.

## Main results

* `testBit_and_sub_one`: clearing the lowest set bit keeps every other bit
* `wordMembers_eq`: the walk finds the set bits of a word, in increasing order
* `mem_membersFrom`, `membersFrom_sorted`, `length_membersFrom`: the members of a row of words
* `zipCombine_fst`, `zipCombine_snd`: combining rows word by word, and the change it reports
-/

namespace ReachingDefs

namespace BitSet

/-! ## The walk over the set bits of a word -/

/-- Clearing the lowest set bit `t` of `n`, as `n &&& (n - 1)` does, keeps every other bit. -/
theorem testBit_and_sub_one {n t : Nat} (ht : n.testBit t = true)
    (hlow : ∀ j < t, n.testBit j = false) (j : Nat) :
    (n &&& (n - 1)).testBit j = (n.testBit j && decide (j ≠ t)) := by
  induction t generalizing n j with
  | zero =>
    -- `n` is odd, so `n - 1` is `n` with bit zero cleared
    have hodd : n % 2 = 1 := by simpa using ht
    cases j with
    | zero => simp [Nat.testBit_zero]; omega
    | succ j =>
      have hdiv : (n - 1) / 2 = n / 2 := by omega
      rw [Nat.testBit_and, Nat.testBit_add_one n, Nat.testBit_add_one (n - 1), hdiv]
      simp
  | succ t ih =>
    -- `n` is even: above bit zero, `n` and `n - 1` are `n / 2` and `n / 2 - 1`
    have heven : n % 2 = 0 := by simpa using hlow 0 (Nat.succ_pos t)
    have hhalf : (n / 2).testBit t = true := by rwa [Nat.testBit_div_two]
    have hlow' : ∀ j < t, (n / 2).testBit j = false := by
      intro j hj
      rw [Nat.testBit_div_two]
      exact hlow (j + 1) (by omega)
    have hpos : n / 2 ≠ 0 := by
      rintro h0
      rw [h0, Nat.zero_testBit] at hhalf
      exact Bool.false_ne_true hhalf
    cases j with
    | zero => simp [Nat.testBit_zero, heven]
    | succ j =>
      have hdiv : (n - 1) / 2 = n / 2 - 1 := by omega
      rw [Nat.testBit_and, Nat.testBit_add_one, Nat.testBit_add_one (n - 1), hdiv,
        ← Nat.testBit_and, ih hhalf hlow' j]
      simp

/-- A word that is not zero has its lowest set bit at `trailingZeros`. -/
theorem trailingZeros_spec {w : UInt64} (h : w ≠ 0) :
    trailingZeros w < wordBits ∧ w.toNat.testBit (trailingZeros w) = true ∧
      ∀ j < trailingZeros w, w.toNat.testBit j = false := by
  obtain ⟨j, hj, hbit⟩ : ∃ j < wordBits, w.toNat.testBit j = true := by
    by_contra hnone
    exact h ((word_eq_zero_iff w).mpr fun j hj => by
      cases hb : w.toNat.testBit j
      · rfl
      · exact absurd ⟨j, hj, hb⟩ hnone)
  obtain ⟨t, ht⟩ : ∃ t, (List.range wordBits).find? (fun j => w.toNat.testBit j) = some t :=
    Option.isSome_iff_exists.mp (List.find?_isSome.mpr ⟨j, List.mem_range.mpr hj, hbit⟩)
  obtain ⟨hpt, hmem, hbelow⟩ := List.find?_range_eq_some.mp ht
  have hval : trailingZeros w = t := by rw [trailingZeros, ht]; rfl
  refine ⟨hval ▸ List.mem_range.mp hmem, hval ▸ hpt, ?_⟩
  intro i hi
  simpa using hbelow i (hval ▸ hi)

/-- Filtering `0, …, n - 1` by `p` starts at the least `t` that passes, and goes on as the
filter that leaves `t` out. -/
theorem filter_range_eq_cons {n t : Nat} {p q : Nat → Bool} (htn : t < n) (ht : p t = true)
    (hlow : ∀ j < t, p j = false) (hq : ∀ j, q j = (p j && decide (j ≠ t))) :
    (List.range n).filter p = t :: (List.range n).filter q := by
  -- split the range at `t`: the indices below, `t` itself, and the indices above
  have hsplit : List.range n = List.range t ++ t :: (List.range (n - t - 1)).map (t + 1 + ·) := by
    have hn : n = t + 1 + (n - t - 1) := by omega
    conv => lhs; rw [hn, List.range_add, List.range_succ]
    simp
  have hbelow : ∀ r : Nat → Bool, (∀ j < t, r j = false) → (List.range t).filter r = [] := by
    intro r hr
    exact List.filter_eq_nil_iff.mpr fun j hj => by simpa using hr j (List.mem_range.mp hj)
  have hqlow : ∀ j < t, q j = false := fun j hj => by simp [hq, hlow j hj]
  have habove : ((List.range (n - t - 1)).map (t + 1 + ·)).filter p =
      ((List.range (n - t - 1)).map (t + 1 + ·)).filter q := by
    apply List.filter_congr
    intro j hj
    obtain ⟨k, -, rfl⟩ := List.mem_map.mp hj
    simp [hq, show t + 1 + k ≠ t by omega]
  rw [hsplit, List.filter_append, List.filter_append, hbelow p hlow, hbelow q hqlow,
    List.filter_cons_of_pos ht, List.filter_cons_of_neg (by simp [hq]), habove]
  rfl

/-- **The walk finds the set bits of a word**, lowest first. -/
theorem wordMembers_eq (base : Nat) (w : UInt64) :
    wordMembers base w = ((List.range wordBits).filter fun j => w.toNat.testBit j).map (base + ·) := by
  induction w using wordMembers.induct with
  | case1 => simp [wordMembers]
  | case2 w h ih =>
    obtain ⟨htn, ht, hlow⟩ := trailingZeros_spec h
    -- the word with its lowest bit cleared has every other bit of the word
    have hrest : ∀ j, (w &&& (w - 1)).toNat.testBit j =
        (w.toNat.testBit j && decide (j ≠ trailingZeros w)) := by
      intro j
      rw [UInt64.toNat_and, toNat_sub_one h]
      exact testBit_and_sub_one ht hlow j
    rw [wordMembers, dif_neg h, ih, filter_range_eq_cons htn ht hlow hrest]
    rfl

theorem mem_wordMembers {base : Nat} {w : UInt64} {i : Nat} :
    i ∈ wordMembers base w ↔ base ≤ i ∧ i < base + wordBits ∧ w.toNat.testBit (i - base) := by
  rw [wordMembers_eq]
  constructor
  · intro h
    obtain ⟨j, hj, rfl⟩ := List.mem_map.mp h
    obtain ⟨hlt, hbit⟩ := List.mem_filter.mp hj
    refine ⟨Nat.le_add_right _ _, by simpa using List.mem_range.mp hlt, by simpa using hbit⟩
  · rintro ⟨hle, hlt, hbit⟩
    refine List.mem_map.mpr ⟨i - base, List.mem_filter.mpr ⟨?_, hbit⟩, by omega⟩
    exact List.mem_range.mpr (by omega)

theorem wordMembers_sorted (base : Nat) (w : UInt64) : (wordMembers base w).Pairwise (· < ·) := by
  rw [wordMembers_eq, List.pairwise_map]
  exact (List.pairwise_lt_range.filter _).imp fun h => by omega

/-- The walk finds as many members as the word has set bits. -/
theorem length_wordMembers (base : Nat) (w : UInt64) :
    (wordMembers base w).length = countOnes w := by
  rw [wordMembers_eq, List.length_map, countOnes, List.countP_eq_length_filter]

/-! ## Rows of words -/

/-- Index `m` of a row of words: bit `m % wordBits` of word `m / wordBits`, clear past the row. -/
def rowBit (ws : List UInt64) (m : Nat) : Bool :=
  (ws.getD (m / wordBits) 0).toNat.testBit (m % wordBits)

theorem rowBit_cons (w : UInt64) (ws : List UInt64) (m : Nat) :
    rowBit (w :: ws) m =
      if m < wordBits then w.toNat.testBit m else rowBit ws (m - wordBits) := by
  unfold rowBit
  split
  · rename_i hm
    rw [Nat.div_eq_of_lt hm, Nat.mod_eq_of_lt hm]
    rfl
  · rename_i hm
    -- past the first word, the word index drops by one and the bit stays
    have hdiv : m / wordBits = (m - wordBits) / wordBits + 1 := by
      simp only [wordBits] at hm ⊢
      omega
    have hmod : m % wordBits = (m - wordBits) % wordBits := by
      simp only [wordBits] at hm ⊢
      omega
    rw [hdiv, hmod]
    rfl

theorem mem_membersFrom {base : Nat} {ws : List UInt64} {i : Nat} :
    i ∈ membersFrom base ws ↔ base ≤ i ∧ rowBit ws (i - base) = true := by
  induction ws generalizing base with
  | nil => simp [membersFrom, rowBit]
  | cons w ws ih =>
    have hw := wordBits_eq
    rw [membersFrom, List.mem_append, mem_wordMembers, ih, rowBit_cons]
    -- the first word holds the indices below `base + wordBits`
    by_cases hi : i < base + wordBits
    · have hlt : i - base < wordBits := by omega
      rw [if_pos hlt]
      constructor
      · rintro (⟨hle, -, hbit⟩ | ⟨hle, -⟩)
        · exact ⟨hle, hbit⟩
        · omega
      · rintro ⟨hle, hbit⟩
        exact Or.inl ⟨hle, hi, hbit⟩
    · have hge : ¬i - base < wordBits := by omega
      have hsub : i - base - wordBits = i - (base + wordBits) := by omega
      rw [if_neg hge, hsub]
      constructor
      · rintro (⟨-, hlt, -⟩ | ⟨-, hbit⟩)
        · exact absurd hlt hi
        · exact ⟨by omega, hbit⟩
      · rintro ⟨-, hbit⟩
        exact Or.inr ⟨by omega, hbit⟩

theorem membersFrom_ge {base : Nat} {ws : List UInt64} {i : Nat} (h : i ∈ membersFrom base ws) :
    base ≤ i :=
  (mem_membersFrom.mp h).1

theorem membersFrom_sorted (base : Nat) (ws : List UInt64) :
    (membersFrom base ws).Pairwise (· < ·) := by
  induction ws generalizing base with
  | nil => exact List.Pairwise.nil
  | cons w ws ih =>
    rw [membersFrom]
    refine List.pairwise_append.mpr ⟨wordMembers_sorted base w, ih _, ?_⟩
    -- the first word's members lie below every later word's
    intro i hi j hj
    have hi' := (mem_wordMembers.mp hi).2.1
    have hj' := membersFrom_ge hj
    omega

theorem length_membersFrom (base : Nat) (ws : List UInt64) :
    (membersFrom base ws).length = (ws.map countOnes).sum := by
  induction ws generalizing base with
  | nil => rfl
  | cons w ws ih => simp [membersFrom, length_wordMembers, ih]

/-! ## Combining rows word by word -/

variable (op : UInt64 → UInt64 → UInt64)

/-- Combining a row with another combines the words at the same places and keeps the rest. -/
theorem zipCombine_fst (as bs : List UInt64) :
    (zipCombine op as bs).1 = List.zipWith op as bs ++ as.drop bs.length := by
  induction as generalizing bs with
  | nil => cases bs <;> rfl
  | cons a as ih =>
    cases bs with
    | nil => rfl
    | cons b bs => simp [zipCombine, ih]

/-- Combining reports a change exactly when some word changed. -/
theorem zipCombine_snd (as bs : List UInt64) :
    (zipCombine op as bs).2 = true ↔ (zipCombine op as bs).1 ≠ as := by
  induction as generalizing bs with
  | nil => cases bs <;> simp [zipCombine]
  | cons a as ih =>
    cases bs with
    | nil => simp [zipCombine]
    | cons b bs =>
      simp only [zipCombine, Bool.or_eq_true, bne_iff_ne, ne_eq, List.cons.injEq, not_and_or]
      rw [ih bs]

end BitSet

end ReachingDefs
