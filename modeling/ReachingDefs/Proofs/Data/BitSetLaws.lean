import ReachingDefs.Proofs.Data.Words

/-!
# The laws of bit sets

A bit set stands for the set of indices whose bit is set, `BitSet.view`. Its representation
invariant `BitSet.WF` asks for a word for every `wordBits` indices of the domain, rounded up,
and no bit set at or past the end of the domain. Every set that the calls build keeps the
invariant (`Built.wf`), and on such sets each operation does to the view what its name says
and reports whether the view changed.

## Main definitions

* `BitSet.view`: the indices whose bit is set
* `BitSet.WF`: the representation invariant
* `BitSet.Built`: the sets a sequence of calls builds

## Main results

* `Built.wf`: every built set keeps the representation invariant
* `eq_iff_view`: two well-formed sets are equal exactly when their domains and views are
* `Built.laws`: what every operation does on built sets
-/

namespace ReachingDefs

namespace BitSet

/-! ## The view of a set -/

/-- Whether index `i` has its bit set: bit `i % wordBits` of word `i / wordBits`. -/
def bit (s : BitSet) (i : Nat) : Bool := rowBit s.words.toList i

/-- The members of a set: the indices whose bit is set. -/
def view (s : BitSet) : Finset Nat :=
  (Finset.range (wordBits * s.words.size)).filter fun i => s.bit i

/-- The representation invariant: a word for every `wordBits` indices of the domain, rounded
up, and no bit set at or past the end of the domain. -/
structure WF (s : BitSet) : Prop where
  size_words : s.words.size = (s.len + wordBits - 1) / wordBits
  lt_len : ∀ i, s.bit i = true → i < s.len

theorem getD_toList (ws : Array UInt64) (k : Nat) : ws.getD k 0 = ws.toList.getD k 0 := by
  simp [List.getD_eq_getElem?_getD]

theorem rowBit_lt {ws : List UInt64} {m : Nat} (h : rowBit ws m = true) :
    m < wordBits * ws.length := by
  -- past the last word the row reads the zero word
  by_contra hge
  have hk : ws.length ≤ m / wordBits := by
    rw [wordBits_eq] at hge ⊢
    omega
  rw [rowBit, List.getD_eq_getElem?_getD, List.getElem?_eq_none hk] at h
  simp at h

@[simp] theorem mem_view {s : BitSet} {i : Nat} : i ∈ s.view ↔ s.bit i = true := by
  constructor
  · intro h
    exact (Finset.mem_filter.mp h).2
  · intro h
    refine Finset.mem_filter.mpr ⟨Finset.mem_range.mpr ?_, h⟩
    simpa using rowBit_lt h

theorem view_ext {s t : BitSet} : s.view = t.view ↔ ∀ i, s.bit i = t.bit i := by
  constructor
  · intro h i
    have hi := congrArg (i ∈ ·) h
    simp only [mem_view, eq_iff_iff] at hi
    exact Bool.eq_iff_iff.mpr hi
  · intro h
    ext i
    simp [h i]

/-- Word `k` of a row holds the indices `wordBits * k` to `wordBits * k + wordBits - 1`. -/
theorem rowBit_mul_add (ws : List UInt64) (k : Nat) {j : Nat} (hj : j < wordBits) :
    rowBit ws (wordBits * k + j) = (ws.getD k 0).toNat.testBit j := by
  have hdiv : (wordBits * k + j) / wordBits = k := by
    rw [wordBits_eq] at hj ⊢
    omega
  have hmod : (wordBits * k + j) % wordBits = j := by
    rw [wordBits_eq] at hj ⊢
    omega
  rw [rowBit, hdiv, hmod]

/-- **Two well-formed sets are equal exactly when their domains and views are.** The words are
determined by their bits, and the domain by how many words there are. -/
theorem eq_iff_view {s t : BitSet} (hs : s.WF) (ht : t.WF) :
    s = t ↔ s.len = t.len ∧ s.view = t.view := by
  constructor
  · rintro rfl
    exact ⟨rfl, rfl⟩
  · rintro ⟨hlen, hview⟩
    have hbits := view_ext.mp hview
    have hsize : s.words.size = t.words.size := by rw [hs.size_words, ht.size_words, hlen]
    -- each word has the bits of the indices it holds
    have hwords : s.words = t.words := by
      apply Array.ext hsize
      intro k hk hk'
      apply word_ext
      intro j hj
      have hsk := rowBit_mul_add s.words.toList k hj
      have htk := rowBit_mul_add t.words.toList k hj
      rw [← getD_toList] at hsk htk
      simp only [Array.getD_eq_getD_getElem?, Array.getElem?_eq_getElem hk,
        Array.getElem?_eq_getElem hk', Option.getD_some] at hsk htk
      rw [← hsk, ← htk]
      exact hbits _
    cases s
    cases t
    simp_all

/-! ## Inspecting a set -/

/-- A set contains exactly the indices of its view. -/
theorem contains_eq_bit {s : BitSet} (hs : s.WF) (i : Nat) : s.contains i = s.bit i := by
  unfold contains
  split
  · -- past the domain no bit is set
    rename_i hle
    cases hb : s.bit i
    · rfl
    · exact absurd (hs.lt_len i hb) (Nat.not_lt.mpr hle)
  · show (s.words.getD (i / wordBits) 0 &&& (locate i).2 != 0) = s.bit i
    rw [and_mask_ne_zero, getD_toList]
    rfl

theorem mem_members {s : BitSet} {i : Nat} : i ∈ s.members ↔ i ∈ s.view := by
  rw [members, mem_membersFrom, mem_view, Nat.sub_zero]
  exact ⟨fun h => h.2, fun h => ⟨Nat.zero_le i, h⟩⟩

/-- The iterator yields the members in strictly increasing order. -/
theorem members_sorted (s : BitSet) : s.members.Pairwise (· < ·) :=
  membersFrom_sorted 0 s.words.toList

/-- `count` counts the view. -/
theorem count_eq_card (s : BitSet) : s.count = s.view.card := by
  -- the iterator lists each member once, as many as the words have set bits
  have hnodup : s.members.Nodup := (members_sorted s).imp Nat.ne_of_lt
  have hview : s.view = s.members.toFinset := by
    ext i
    rw [List.mem_toFinset, mem_members]
  rw [hview, List.toFinset_card_of_nodup hnodup, count, members, length_membersFrom]
  exact List.sum_eq_foldr.symm

theorem rowBit_eq_false_iff (ws : List UInt64) : (∀ m, rowBit ws m = false) ↔ ∀ w ∈ ws, w = 0 := by
  induction ws with
  | nil => simp [rowBit]
  | cons w ws ih =>
    have hw := wordBits_eq
    -- the first word holds the first `wordBits` indices, the rest of the row the others
    have hsplit : (∀ m, rowBit (w :: ws) m = false) ↔
        (∀ j < wordBits, w.toNat.testBit j = false) ∧ ∀ m, rowBit ws m = false := by
      constructor
      · intro h
        refine ⟨fun j hj => ?_, fun m => ?_⟩
        · simpa [rowBit_cons, hj] using h j
        · have hm := h (m + wordBits)
          rwa [rowBit_cons, if_neg (by omega), Nat.add_sub_cancel] at hm
      · rintro ⟨hw0, hrest⟩ m
        rw [rowBit_cons]
        split
        · exact hw0 m ‹_›
        · exact hrest _
    rw [hsplit, ih, ← word_eq_zero_iff, List.forall_mem_cons]

/-- A set is empty exactly when its view is. -/
theorem isEmpty_iff (s : BitSet) : s.isEmpty = true ↔ s.view = ∅ := by
  have hempty : s.view = ∅ ↔ ∀ m, rowBit s.words.toList m = false := by
    rw [Finset.eq_empty_iff_forall_notMem]
    simp [bit]
  rw [hempty, rowBit_eq_false_iff, isEmpty, ← Array.all_toList, List.all_eq_true]
  simp only [beq_iff_eq]

/-! ## Changing a set -/

theorem getD_modify (ws : List UInt64) (k : Nat) (f : UInt64 → UInt64) (m : Nat) :
    (ws.modify k f).getD m 0 = if m = k ∧ m < ws.length then f (ws.getD m 0) else ws.getD m 0 := by
  simp only [List.getD_eq_getElem?_getD, List.getElem?_modify]
  by_cases hm : m < ws.length
  · by_cases hk : k = m
    · subst hk
      simp [hm]
    · simp [hk, Ne.symm hk, hm]
  · simp [hm]

/-- Changing the word of index `i` changes the bits of the indices in that word only. -/
theorem rowBit_modify (ws : List UInt64) {i : Nat} (hi : i / wordBits < ws.length)
    (f : UInt64 → UInt64) (m : Nat) :
    rowBit (ws.modify (i / wordBits) f) m =
      if m / wordBits = i / wordBits then (f (ws.getD (i / wordBits) 0)).toNat.testBit (m % wordBits)
      else rowBit ws m := by
  rw [rowBit, getD_modify]
  by_cases hm : m / wordBits = i / wordBits
  · rw [if_pos ⟨hm, hm ▸ hi⟩, if_pos hm, hm]
  · rw [if_neg (fun h => hm h.1), if_neg hm]
    rfl

/-- The same index: the same word and the same place in it. -/
theorem eq_iff_div_mod (m i : Nat) :
    m = i ↔ m / wordBits = i / wordBits ∧ m % wordBits = i % wordBits := by
  rw [wordBits_eq]
  omega

/-- Within the word of `i`, the place of `i` is `i` itself. -/
theorem decide_mod_eq {m i : Nat} (hm : m / wordBits = i / wordBits) :
    decide (m % wordBits = i % wordBits) = decide (m = i) :=
  decide_eq_decide.mpr
    ⟨fun h => (eq_iff_div_mod m i).mpr ⟨hm, h⟩, fun h => ((eq_iff_div_mod m i).mp h).2⟩

theorem bit_insertWords (s : BitSet) {i : Nat} (hi : i / wordBits < s.words.size) (m : Nat) :
    rowBit (s.words.modify (i / wordBits) (· ||| (locate i).2)).toList m =
      (s.bit m || decide (m = i)) := by
  rw [Array.toList_modify, rowBit_modify _ (by simpa using hi)]
  split
  · rename_i hm
    -- in the word of `i`, exactly the place of `i` is set
    rw [testBit_or, testBit_mask, decide_mod_eq hm, bit, rowBit, hm]
  · rename_i hm
    have hne : m ≠ i := fun h => hm (by rw [h])
    simp [bit, hne]

theorem bit_removeWords (s : BitSet) {i : Nat} (hi : i / wordBits < s.words.size) (m : Nat) :
    rowBit (s.words.modify (i / wordBits) (· &&& ~~~(locate i).2)).toList m =
      (s.bit m && !decide (m = i)) := by
  rw [Array.toList_modify, rowBit_modify _ (by simpa using hi)]
  split
  · rename_i hm
    -- in the word of `i`, exactly the place of `i` is cleared
    rw [testBit_and, testBit_not, testBit_mask, decide_mod_eq hm, bit, rowBit, hm]
    simp only [mod_wordBits_lt, decide_true, Bool.true_and]
  · rename_i hm
    have hne : m ≠ i := fun h => hm (by rw [h])
    simp [bit, hne]

/-- An index of the domain lies in a word of a well-formed set. -/
theorem div_lt_size {s : BitSet} (hs : s.WF) {i : Nat} (hi : i < s.len) :
    i / wordBits < s.words.size := by
  rw [hs.size_words, wordBits_eq]
  omega

/-- The result of inserting an index of the domain. -/
theorem insert_of_lt {s : BitSet} (hs : s.WF) {i : Nat} (hi : i < s.len) :
    s.insert i = .ok (⟨s.words.modify (i / wordBits) (· ||| (locate i).2), s.len⟩, !s.bit i) := by
  rw [insert, if_pos hi, ← contains_eq_bit hs, contains, if_neg (Nat.not_le.mpr hi)]
  rfl

/-- The result of removing an index of the domain. -/
theorem remove_of_lt {s : BitSet} (hs : s.WF) {i : Nat} (hi : i < s.len) :
    s.remove i = .ok (⟨s.words.modify (i / wordBits) (· &&& ~~~(locate i).2), s.len⟩, s.bit i) := by
  rw [remove, if_pos hi, ← contains_eq_bit hs, contains, if_neg (Nat.not_le.mpr hi)]
  rfl

theorem insert_of_le {s : BitSet} {i : Nat} (h : s.len ≤ i) :
    s.insert i = .error (.outside i s.len) := by
  rw [insert, if_neg (Nat.not_lt.mpr h)]

theorem remove_of_le {s : BitSet} {i : Nat} (h : s.len ≤ i) :
    s.remove i = .error (.outside i s.len) := by
  rw [remove, if_neg (Nat.not_lt.mpr h)]

/-- A word-wise operation that acts on each place by `f`, and keeps a place clear in both
words clear. -/
structure Bitwise (op : UInt64 → UInt64 → UInt64) (f : Bool → Bool → Bool) : Prop where
  testBit_op : ∀ a b j, (op a b).toNat.testBit j = f (a.toNat.testBit j) (b.toNat.testBit j)
  clear : f false false = false

theorem bitwise_or : Bitwise (· ||| ·) (· || ·) := ⟨testBit_or, rfl⟩

theorem bitwise_andNot : Bitwise (fun a b => a &&& ~~~b) (fun x y => x && !y) := by
  refine ⟨fun a b j => ?_, rfl⟩
  rw [testBit_and, testBit_not]
  by_cases hj : j < wordBits
  · simp [hj]
  · simp [testBit_toNat_of_le (Nat.le_of_not_lt hj)]

theorem rowBit_zipWith {op : UInt64 → UInt64 → UInt64} {f : Bool → Bool → Bool}
    (hop : Bitwise op f) : ∀ {as bs : List UInt64}, as.length = bs.length → ∀ m,
      rowBit (List.zipWith op as bs) m = f (rowBit as m) (rowBit bs m)
  | [], [], _, m => by simp [rowBit, hop.clear]
  | a :: as, b :: bs, hlen, m => by
    rw [List.zipWith_cons_cons, rowBit_cons, rowBit_cons, rowBit_cons]
    split
    · exact hop.testBit_op a b m
    · exact rowBit_zipWith hop (Nat.succ.inj hlen) _

theorem combine_of_eq {op : UInt64 → UInt64 → UInt64} {s t : BitSet} (h : s.len = t.len) :
    s.combine op t = .ok (⟨(zipCombine op s.words.toList t.words.toList).1.toArray, s.len⟩,
      (zipCombine op s.words.toList t.words.toList).2) := by
  rw [combine, if_pos h]

theorem combine_of_ne {op : UInt64 → UInt64 → UInt64} {s t : BitSet} (h : s.len ≠ t.len) :
    s.combine op t = .error (.domainsDiffer s.len t.len) := by
  rw [combine, if_neg h]

/-- Two well-formed sets over one domain have as many words. -/
theorem length_words_eq {s t : BitSet} (hs : s.WF) (ht : t.WF) (h : s.len = t.len) :
    s.words.toList.length = t.words.toList.length := by
  rw [Array.length_toList, Array.length_toList, hs.size_words, ht.size_words, h]

/-- The words of two well-formed sets over one domain, combined by a bitwise operation. -/
theorem bit_combineWords {op : UInt64 → UInt64 → UInt64} {f : Bool → Bool → Bool}
    (hop : Bitwise op f) {s t : BitSet} (hs : s.WF) (ht : t.WF) (h : s.len = t.len) (m : Nat) :
    rowBit (zipCombine op s.words.toList t.words.toList).1.toArray.toList m =
      f (s.bit m) (t.bit m) := by
  -- over one domain both rows are equally long, so nothing is left past the zip
  have hlen := length_words_eq hs ht h
  rw [List.toList_toArray, zipCombine_fst, ← hlen, List.drop_length, List.append_nil]
  exact rowBit_zipWith hop hlen m

/-! ## The invariant -/

theorem new_wf (len : Nat) : (new len).WF := by
  refine ⟨Array.size_replicate, fun i hi => ?_⟩
  -- every word of a new set is zero
  simp [bit, rowBit, new] at hi

theorem insert_wf {s s' : BitSet} {i : Nat} {b : Bool} (hs : s.WF) (h : s.insert i = .ok (s', b)) :
    s'.WF := by
  by_cases hi : i < s.len
  · rw [insert_of_lt hs hi] at h
    obtain ⟨rfl, -⟩ := Prod.mk.inj (Except.ok.inj h)
    refine ⟨by simpa using hs.size_words, fun m hm => ?_⟩
    -- the new bit is `i`, inside the domain
    change rowBit _ m = true at hm
    rw [bit_insertWords s (div_lt_size hs hi), Bool.or_eq_true, decide_eq_true_iff] at hm
    rcases hm with hm | rfl
    · exact hs.lt_len m hm
    · exact hi
  · rw [insert_of_le (Nat.le_of_not_lt hi)] at h
    cases h

theorem remove_wf {s s' : BitSet} {i : Nat} {b : Bool} (hs : s.WF) (h : s.remove i = .ok (s', b)) :
    s'.WF := by
  by_cases hi : i < s.len
  · rw [remove_of_lt hs hi] at h
    obtain ⟨rfl, -⟩ := Prod.mk.inj (Except.ok.inj h)
    refine ⟨by simpa using hs.size_words, fun m hm => ?_⟩
    -- clearing a bit leaves only bits that were set
    change rowBit _ m = true at hm
    rw [bit_removeWords s (div_lt_size hs hi), Bool.and_eq_true] at hm
    exact hs.lt_len m hm.1
  · rw [remove_of_le (Nat.le_of_not_lt hi)] at h
    cases h

theorem combine_wf {op : UInt64 → UInt64 → UInt64} {f : Bool → Bool → Bool} (hop : Bitwise op f)
    {s t s' : BitSet} {b : Bool} (hs : s.WF) (ht : t.WF) (h : s.combine op t = .ok (s', b)) :
    s'.WF := by
  by_cases hlen : s.len = t.len
  · rw [combine_of_eq hlen] at h
    obtain ⟨rfl, -⟩ := Prod.mk.inj (Except.ok.inj h)
    have hsize : (zipCombine op s.words.toList t.words.toList).1.length = s.words.size := by
      have hl := length_words_eq hs ht hlen
      rw [zipCombine_fst, ← hl, List.drop_length, List.append_nil, List.length_zipWith, ← hl,
        Nat.min_self, Array.length_toList]
    refine ⟨by simpa [hsize] using hs.size_words, fun m hm => ?_⟩
    change rowBit _ m = true at hm
    rw [bit_combineWords hop hs ht hlen] at hm
    -- a place clear in both sets stays clear, so a set place is set in one of them
    cases hsm : s.bit m
    · cases htm : t.bit m
      · rw [hsm, htm, hop.clear] at hm
        exact absurd hm Bool.false_ne_true
      · exact hlen ▸ ht.lt_len m htm
    · exact hs.lt_len m hsm
  · rw [combine_of_ne hlen] at h
    cases h

theorem foldlM_insert_wf : ∀ (indices : List Nat) {start s : BitSet}, start.WF →
    indices.foldlM (fun s i => (s.insert i).map Prod.fst) start = .ok s → s.WF
  | [], start, s, hstart, hfold => by
    simp only [List.foldlM_nil] at hfold
    cases hfold
    exact hstart
  | i :: rest, start, s, hstart, hfold => by
    rw [List.foldlM_cons] at hfold
    -- the first insertion succeeds, and the rest of the fold goes on from its set
    cases hins : start.insert i with
    | error e =>
      simp [hins] at hfold
      cases hfold
    | ok r =>
      simp only [hins] at hfold
      exact foldlM_insert_wf rest (insert_wf hstart hins) hfold

theorem fromIndices_wf {len : Nat} {indices : List Nat} {s : BitSet}
    (h : fromIndices len indices = .ok s) : s.WF :=
  foldlM_insert_wf indices (new_wf len) h

/-- The sets that a sequence of calls builds: new sets, sets of given indices, and what
inserting, removing, and combining with another built set make of a built set. -/
inductive Built : BitSet → Prop
  | new (len : Nat) : Built (new len)
  | fromIndices {len : Nat} {indices : List Nat} {s : BitSet} :
      fromIndices len indices = .ok s → Built s
  | insert {s s' : BitSet} {i : Nat} {b : Bool} : Built s → s.insert i = .ok (s', b) → Built s'
  | remove {s s' : BitSet} {i : Nat} {b : Bool} : Built s → s.remove i = .ok (s', b) → Built s'
  | unionWith {s t s' : BitSet} {b : Bool} :
      Built s → Built t → s.unionWith t = .ok (s', b) → Built s'
  | differenceWith {s t s' : BitSet} {b : Bool} :
      Built s → Built t → s.differenceWith t = .ok (s', b) → Built s'

/-- **Every built set keeps the representation invariant.** -/
theorem Built.wf {s : BitSet} (h : s.Built) : s.WF := by
  induction h with
  | new len => exact new_wf len
  | fromIndices h => exact fromIndices_wf h
  | insert _ h ih => exact insert_wf ih h
  | remove _ h ih => exact remove_wf ih h
  | unionWith _ _ h ihs iht => exact combine_wf bitwise_or ihs iht h
  | differenceWith _ _ h ihs iht => exact combine_wf bitwise_andNot ihs iht h

/-! ## The operations on the view -/

/-- A flag that says whether a well-formed set moved says whether its view moved. -/
theorem changed_iff {s s' : BitSet} (hs : s.WF) (hs' : s'.WF) (hlen : s'.len = s.len) {b : Bool}
    (h : b = true ↔ s' ≠ s) : b = decide (s'.view ≠ s.view) := by
  have heq : s' = s ↔ s'.view = s.view := by
    rw [eq_iff_view hs' hs]
    exact ⟨fun h => h.2, fun h => ⟨hlen, h⟩⟩
  have hiff : b = true ↔ ¬s'.view = s.view := h.trans (not_congr heq)
  exact Bool.eq_iff_iff.mpr (hiff.trans decide_eq_true_iff.symm)

theorem view_insertWords {s : BitSet} (hs : s.WF) {i : Nat} (hi : i < s.len) :
    (⟨s.words.modify (i / wordBits) (· ||| (locate i).2), s.len⟩ : BitSet).view =
      s.view ∪ {i} := by
  ext m
  rw [Finset.mem_union, Finset.mem_singleton, mem_view, mem_view]
  show rowBit _ m = true ↔ _
  rw [bit_insertWords s (div_lt_size hs hi), Bool.or_eq_true, decide_eq_true_iff]

theorem view_removeWords {s : BitSet} (hs : s.WF) {i : Nat} (hi : i < s.len) :
    (⟨s.words.modify (i / wordBits) (· &&& ~~~(locate i).2), s.len⟩ : BitSet).view =
      s.view \ {i} := by
  ext m
  rw [Finset.mem_sdiff, Finset.mem_singleton, mem_view, mem_view]
  show rowBit _ m = true ↔ _
  rw [bit_removeWords s (div_lt_size hs hi)]
  simp

/-- Inserting an index of the domain adds it to the view, and says whether it was new. -/
theorem insert_spec {s : BitSet} (hs : s.WF) {i : Nat} (hi : i < s.len) :
    ∃ s', s.insert i = .ok (s', decide (s'.view ≠ s.view)) ∧ s'.len = s.len ∧
      s'.view = s.view ∪ {i} := by
  refine ⟨⟨s.words.modify (i / wordBits) (· ||| (locate i).2), s.len⟩, ?_, rfl,
    view_insertWords hs hi⟩
  rw [insert_of_lt hs hi, view_insertWords hs hi]
  -- the view grows exactly when `i` was not in it
  have hgrow : decide (s.view ∪ {i} ≠ s.view) = !s.bit i := by
    cases hb : s.bit i <;> simp [hb]
  rw [hgrow]

/-- Removing an index of the domain takes it from the view, and says whether it was there. -/
theorem remove_spec {s : BitSet} (hs : s.WF) {i : Nat} (hi : i < s.len) :
    ∃ s', s.remove i = .ok (s', decide (s'.view ≠ s.view)) ∧ s'.len = s.len ∧
      s'.view = s.view \ {i} := by
  refine ⟨⟨s.words.modify (i / wordBits) (· &&& ~~~(locate i).2), s.len⟩, ?_, rfl,
    view_removeWords hs hi⟩
  rw [remove_of_lt hs hi, view_removeWords hs hi]
  -- the view shrinks exactly when `i` was in it
  have hshrink : decide (s.view \ {i} ≠ s.view) = s.bit i := by
    cases hb : s.bit i <;> simp [hb]
  rw [hshrink]

/-- Combining two well-formed sets over one domain by a bitwise operation acts on each index,
and says whether the view changed. -/
theorem combine_spec {op : UInt64 → UInt64 → UInt64} {f : Bool → Bool → Bool}
    (hop : Bitwise op f) {s t : BitSet} (hs : s.WF) (ht : t.WF) (hlen : s.len = t.len) :
    ∃ s', s.combine op t = .ok (s', decide (s'.view ≠ s.view)) ∧ s'.len = s.len ∧
      ∀ m, s'.bit m = f (s.bit m) (t.bit m) := by
  have hok : s.combine op t = _ := combine_of_eq hlen
  have hs' := combine_wf hop hs ht hok
  refine ⟨⟨(zipCombine op s.words.toList t.words.toList).1.toArray, s.len⟩, ?_, rfl,
    bit_combineWords hop hs ht hlen⟩
  rw [hok]
  congr 2
  apply changed_iff hs hs' rfl
  -- the words changed exactly when the set did
  rw [zipCombine_snd, Ne, Ne, not_iff_not]
  constructor
  · intro h
    cases s
    simp only at h ⊢
    rw [h, Array.toArray_toList]
  · intro h
    have hw : (zipCombine op s.words.toList t.words.toList).1.toArray = s.words :=
      congrArg BitSet.words h
    calc (zipCombine op s.words.toList t.words.toList).1
        = (zipCombine op s.words.toList t.words.toList).1.toArray.toList :=
          List.toList_toArray.symm
      _ = s.words.toList := congrArg Array.toList hw

theorem unionWith_spec {s t : BitSet} (hs : s.WF) (ht : t.WF) (hlen : s.len = t.len) :
    ∃ s', s.unionWith t = .ok (s', decide (s'.view ≠ s.view)) ∧ s'.len = s.len ∧
      s'.view = s.view ∪ t.view := by
  obtain ⟨s', hok, hlen', hbit⟩ := combine_spec bitwise_or hs ht hlen
  refine ⟨s', hok, hlen', ?_⟩
  ext m
  simp [hbit]

theorem differenceWith_spec {s t : BitSet} (hs : s.WF) (ht : t.WF) (hlen : s.len = t.len) :
    ∃ s', s.differenceWith t = .ok (s', decide (s'.view ≠ s.view)) ∧ s'.len = s.len ∧
      s'.view = s.view \ t.view := by
  obtain ⟨s', hok, hlen', hbit⟩ := combine_spec bitwise_andNot hs ht hlen
  refine ⟨s', hok, hlen', ?_⟩
  ext m
  simp [hbit]

/-! ## The laws -/

/-- What the operations do on two built sets `s` and `t`: `s` keeps the invariant, the queries
read its view, the changes act on the view and say whether it moved, equality compares the
domains and the views, and an index outside the domain or a set over another domain is
refused. -/
structure Laws (s t : BitSet) : Prop where
  wf : s.WF
  contains_iff : ∀ i, s.contains i = true ↔ i ∈ s.view
  lt_len : ∀ i ∈ s.view, i < s.len
  count_eq : s.count = s.view.card
  isEmpty_iff : s.isEmpty = true ↔ s.view = ∅
  members_sorted : s.members.Pairwise (· < ·)
  mem_members : ∀ i, i ∈ s.members ↔ i ∈ s.view
  insert_ok : ∀ i < s.len, ∃ s', s.insert i = .ok (s', decide (s'.view ≠ s.view)) ∧
    s'.len = s.len ∧ s'.view = s.view ∪ {i}
  remove_ok : ∀ i < s.len, ∃ s', s.remove i = .ok (s', decide (s'.view ≠ s.view)) ∧
    s'.len = s.len ∧ s'.view = s.view \ {i}
  unionWith_ok : s.len = t.len → ∃ s', s.unionWith t = .ok (s', decide (s'.view ≠ s.view)) ∧
    s'.len = s.len ∧ s'.view = s.view ∪ t.view
  differenceWith_ok : s.len = t.len →
    ∃ s', s.differenceWith t = .ok (s', decide (s'.view ≠ s.view)) ∧
      s'.len = s.len ∧ s'.view = s.view \ t.view
  eq_iff : s = t ↔ s.len = t.len ∧ s.view = t.view
  insert_error : ∀ i, s.len ≤ i → s.insert i = .error (.outside i s.len)
  remove_error : ∀ i, s.len ≤ i → s.remove i = .error (.outside i s.len)
  unionWith_error : s.len ≠ t.len → s.unionWith t = .error (.domainsDiffer s.len t.len)
  differenceWith_error : s.len ≠ t.len →
    s.differenceWith t = .error (.domainsDiffer s.len t.len)

/-- **The laws of bit sets.** On sets that a sequence of calls builds, every operation does
to the view what its name says. -/
theorem Built.laws {s t : BitSet} (hs : s.Built) (ht : t.Built) : Laws s t := by
  have hws := hs.wf
  have hwt := ht.wf
  exact {
    wf := hws
    contains_iff := fun i => by rw [contains_eq_bit hws, mem_view]
    lt_len := fun i hi => hws.lt_len i (mem_view.mp hi)
    count_eq := count_eq_card s
    isEmpty_iff := isEmpty_iff s
    members_sorted := members_sorted s
    mem_members := fun _ => mem_members
    insert_ok := fun _ hi => insert_spec hws hi
    remove_ok := fun _ hi => remove_spec hws hi
    unionWith_ok := unionWith_spec hws hwt
    differenceWith_ok := differenceWith_spec hws hwt
    eq_iff := eq_iff_view hws hwt
    insert_error := fun _ hi => insert_of_le hi
    remove_error := fun _ hi => remove_of_le hi
    unionWith_error := combine_of_ne
    differenceWith_error := combine_of_ne }

theorem Built.laws_seventy :
    let s : BitSet := ⟨#[8, 0], 70⟩
    let t : BitSet := ⟨#[8, 16], 70⟩
    s.Built ∧ t.Built ∧ Laws s t := by
  intro s t
  have hs : s.Built := Built.fromIndices (show BitSet.fromIndices 70 [3] = .ok s by rfl)
  have ht : t.Built := Built.fromIndices (show BitSet.fromIndices 70 [3, 68] = .ok t by rfl)
  exact ⟨hs, ht, Built.laws hs ht⟩

end BitSet

end ReachingDefs
