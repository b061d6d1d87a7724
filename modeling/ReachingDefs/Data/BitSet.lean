import ReachingDefs.Data.Count

/-!
# Bit sets with a domain chosen at run time

A `BitSet` holds a set of indices below its domain length `len`, packed `wordBits` indices to a
64-bit word: index `i` is bit `i % 64` of word `i / 64`. The operations are word-wise loops.
They check their arguments: an index outside the domain, or two sets of different domains, is
a `BitSetFault`, and a faulting operation changes nothing. An operation that succeeds also
says whether it changed the set.

The lemmas at the end hold of every bit set, whatever its words: membership is read off the
bit of the index in its word, inserting keeps every member and, where the domain has all its
words (`Spans`), makes the index one; removing keeps every other member; and a union never
raises, and when it reports a change lowers, how far the words are below full (`room`). The
solver over bit sets ends because of them.
-/

namespace ReachingDefs

/-- Why a bit set operation was refused. -/
inductive BitSetFault where
  /-- An index at or beyond the domain length. -/
  | outside (index len : Nat)
  /-- Two sets over different domains were combined. -/
  | domainsDiffer (left right : Nat)
deriving DecidableEq, Repr

/-- The report of a refused operation. -/
def BitSetFault.message : BitSetFault → String
  | .outside index len => "bit " ++ toString index ++ " outside domain of " ++ toString len
  | .domainsDiffer left right =>
    "assertion `left == right` failed: bit set domains differ\n  left: " ++ toString left ++
      "\n right: " ++ toString right

/-- The number of indices one word holds. -/
def wordBits : Nat := 64

/-- A set of indices below `len`, one bit per index in a row of words. -/
structure BitSet where
  words : Array UInt64
  len : Nat
deriving DecidableEq

namespace BitSet

/-- The word that holds index `i`, and the mask of its bit in that word. -/
def locate (i : Nat) : Nat × UInt64 := (i / wordBits, 1 <<< (i % wordBits).toUInt64)

/-- The empty set over a domain of the given length: a zero word for every `wordBits`
indices, rounded up. -/
def new (len : Nat) : BitSet := ⟨Array.replicate ((len + wordBits - 1) / wordBits) 0, len⟩

/-- Whether `i` is a member; false outside the domain. -/
def contains (s : BitSet) (i : Nat) : Bool :=
  if s.len ≤ i then false
  else
    let (w, mask) := locate i
    s.words.getD w 0 &&& mask != 0

/-- Adds `i`, saying whether it was new. -/
def insert (s : BitSet) (i : Nat) : Except BitSetFault (BitSet × Bool) :=
  if i < s.len then
    let (w, mask) := locate i
    let wasSet := s.words.getD w 0 &&& mask != 0
    .ok (⟨s.words.modify w (· ||| mask), s.len⟩, !wasSet)
  else .error (.outside i s.len)

/-- Removes `i`, saying whether it was there. -/
def remove (s : BitSet) (i : Nat) : Except BitSetFault (BitSet × Bool) :=
  if i < s.len then
    let (w, mask) := locate i
    let wasSet := s.words.getD w 0 &&& mask != 0
    .ok (⟨s.words.modify w (· &&& ~~~mask), s.len⟩, wasSet)
  else .error (.outside i s.len)

/-- Each word of `a` combined with the word of `b` at its place, and whether any word
changed; the words of `a` past the end of `b` stay as they are. -/
def zipCombine (op : UInt64 → UInt64 → UInt64) : List UInt64 → List UInt64 → List UInt64 × Bool
  | a :: as, b :: bs =>
    let (rest, changed) := zipCombine op as bs
    (op a b :: rest, op a b != a || changed)
  | as, _ => (as, false)

/-- Combines `t` into `s` word by word with `op`, saying whether `s` changed. -/
def combine (op : UInt64 → UInt64 → UInt64) (s t : BitSet) :
    Except BitSetFault (BitSet × Bool) :=
  if s.len = t.len then
    let (words, changed) := zipCombine op s.words.toList t.words.toList
    .ok (⟨words.toArray, s.len⟩, changed)
  else .error (.domainsDiffer s.len t.len)

/-- Adds the members of `t`, saying whether any was new. -/
def unionWith (s t : BitSet) : Except BitSetFault (BitSet × Bool) :=
  s.combine (· ||| ·) t

/-- Removes the members of `t`, saying whether any was there. -/
def differenceWith (s t : BitSet) : Except BitSetFault (BitSet × Bool) :=
  s.combine (fun a b => a &&& ~~~b) t

/-- The set of the given indices, refused at the first one outside the domain. -/
def fromIndices (len : Nat) (indices : List Nat) : Except BitSetFault BitSet :=
  indices.foldlM (fun s i => (s.insert i).map Prod.fst) (new len)

/-- The number of set bits of a word. -/
def countOnes (w : UInt64) : Nat := (List.range wordBits).countP fun j => w.toNat.testBit j

/-- The position of the lowest set bit of a word, or `wordBits` for the zero word. -/
def trailingZeros (w : UInt64) : Nat :=
  ((List.range wordBits).find? fun j => w.toNat.testBit j).getD wordBits

theorem toNat_pos {w : UInt64} (h : w ≠ 0) : 0 < w.toNat := by
  rcases Nat.eq_zero_or_pos w.toNat with h0 | h0
  · exact absurd (UInt64.toNat_inj.mp (h0.trans UInt64.toNat_zero.symm)) h
  · exact h0

theorem toNat_sub_one {w : UInt64} (h : w ≠ 0) : (w - 1).toNat = w.toNat - 1 := by
  have hpos := toNat_pos h
  exact UInt64.toNat_sub_of_le _ _ (UInt64.le_iff_toNat_le.mpr (by simp; omega))

/-- Clearing the lowest set bit of a word that has one makes it smaller. -/
theorem toNat_and_sub_one_lt {w : UInt64} (h : w ≠ 0) : (w &&& (w - 1)).toNat < w.toNat := by
  have hpos := toNat_pos h
  rw [UInt64.toNat_and, toNat_sub_one h]
  exact Nat.lt_of_le_of_lt Nat.and_le_right (by omega)

/-- The set bits of a word, lowest first, each raised by `base`: the lowest is found by
counting trailing zeros and then cleared. -/
def wordMembers (base : Nat) (w : UInt64) : List Nat :=
  if h : w = 0 then []
  else (base + trailingZeros w) :: wordMembers base (w &&& (w - 1))
termination_by w.toNat
decreasing_by exact toNat_and_sub_one_lt h

/-- The members of a row of words whose first word starts at index `base`. -/
def membersFrom : Nat → List UInt64 → List Nat
  | _, [] => []
  | base, w :: ws => wordMembers base w ++ membersFrom (base + wordBits) ws

/-- The members in increasing order, word after word. -/
def members (s : BitSet) : List Nat := membersFrom 0 s.words.toList

/-- The number of members: the set bits of all words. -/
def count (s : BitSet) : Nat := (s.words.toList.map countOnes).foldr (· + ·) 0

/-- Whether the set has no members: every word is zero. -/
def isEmpty (s : BitSet) : Bool := s.words.all (· == 0)

/-- The members written between braces, separated by a comma and a space. -/
def debugText (s : BitSet) : String :=
  "\x7b" ++ ", ".intercalate (s.members.map toString) ++ "\x7d"

/-- The first index of a list that lies outside a domain of length `len`. -/
def firstOutside? (len : Nat) (indices : List Nat) : Option Nat :=
  indices.find? (len ≤ ·)

/-! ## The bits of a word -/

theorem wordBits_eq : wordBits = 64 := rfl

theorem mod_wordBits_lt (i : Nat) : i % wordBits < wordBits := Nat.mod_lt _ (by decide)

/-- A word's bits at or past its width are clear. -/
theorem testBit_toNat_of_le {w : UInt64} {j : Nat} (h : wordBits ≤ j) :
    w.toNat.testBit j = false :=
  Nat.testBit_lt_two_pow
    (Nat.lt_of_lt_of_le w.toNat_lt_size (Nat.pow_le_pow_right Nat.two_pos h))

/-- Two words with the same bits are equal. -/
theorem word_ext {v w : UInt64} (h : ∀ j < wordBits, v.toNat.testBit j = w.toNat.testBit j) :
    v = w := by
  apply UInt64.toNat_inj.mp
  apply Nat.eq_of_testBit_eq
  intro j
  by_cases hj : j < wordBits
  · exact h j hj
  · rw [testBit_toNat_of_le (Nat.le_of_not_lt hj), testBit_toNat_of_le (Nat.le_of_not_lt hj)]

theorem word_eq_zero_iff (w : UInt64) : w = 0 ↔ ∀ j < wordBits, w.toNat.testBit j = false := by
  constructor
  · rintro rfl j _
    simp
  · intro h
    exact word_ext fun j hj => by simpa using h j hj

@[simp] theorem testBit_or (v w : UInt64) (j : Nat) :
    (v ||| w).toNat.testBit j = (v.toNat.testBit j || w.toNat.testBit j) := by
  rw [UInt64.toNat_or, Nat.testBit_or]

@[simp] theorem testBit_and (v w : UInt64) (j : Nat) :
    (v &&& w).toNat.testBit j = (v.toNat.testBit j && w.toNat.testBit j) := by
  rw [UInt64.toNat_and, Nat.testBit_and]

@[simp] theorem testBit_not (w : UInt64) (j : Nat) :
    (~~~w).toNat.testBit j = (decide (j < wordBits) && !w.toNat.testBit j) := by
  -- the complement is a fact of the 64-bit vector, not of the number
  rw [← UInt64.toNat_toBitVec, BitVec.testBit_toNat, UInt64.toBitVec_not, BitVec.getLsbD_not,
    ← BitVec.testBit_toNat, UInt64.toNat_toBitVec]
  rfl

/-- The mask of index `i` has exactly the bit `i % wordBits`. -/
@[simp] theorem testBit_mask (i j : Nat) :
    (locate i).2.toNat.testBit j = decide (j = i % wordBits) := by
  have hval : (locate i).2.toNat = 2 ^ (i % wordBits) := by
    have hshift : ((i % wordBits).toUInt64.toNat % 64) = i % wordBits := by
      have hk := mod_wordBits_lt i
      rw [Nat.toUInt64_eq, UInt64.toNat_ofNat']
      rw [wordBits_eq] at hk ⊢
      omega
    rw [locate, UInt64.toNat_shiftLeft, hshift, UInt64.toNat_one, Nat.one_shiftLeft]
    exact Nat.mod_eq_of_lt (Nat.pow_lt_pow_right Nat.one_lt_two (mod_wordBits_lt i))
  rw [hval, Nat.testBit_two_pow]
  exact decide_eq_decide.mpr eq_comm

/-- A word meets the mask of `i` exactly when it has the bit of `i`. -/
theorem and_mask_ne_zero (w : UInt64) (i : Nat) :
    (w &&& (locate i).2 != 0) = w.toNat.testBit (i % wordBits) := by
  -- the meet is zero exactly when it has no bit, and its one possible bit is `i % wordBits`
  have hzero : (w &&& (locate i).2 = 0) ↔ w.toNat.testBit (i % wordBits) = false := by
    rw [word_eq_zero_iff]
    constructor
    · intro h
      simpa using h _ (mod_wordBits_lt i)
    · intro h j _
      by_cases hj : j = i % wordBits
      · simp [hj, h]
      · simp [hj]
  cases hbit : w.toNat.testBit (i % wordBits)
  · simpa using hzero.mpr hbit
  · simpa [hbit] using hzero

/-! ## Membership under the in-place operations -/

/-- Membership is the bit of the index in its word, inside the domain. -/
theorem contains_eq (s : BitSet) (i : Nat) :
    s.contains i =
      (decide (i < s.len) && (s.words.getD (i / wordBits) 0).toNat.testBit (i % wordBits)) := by
  unfold contains
  by_cases h : s.len ≤ i
  · simp [h, Nat.not_lt.mpr h]
  · simp [h, Nat.lt_of_not_le h, locate, ← and_mask_ne_zero]

/-- Changing the word at `k` changes the read at `k` only, and only when there is such a word. -/
theorem getD_modify_words (ws : Array UInt64) (k j : Nat) (f : UInt64 → UInt64) :
    (ws.modify k f).getD j 0 = if j = k ∧ k < ws.size then f (ws.getD j 0) else ws.getD j 0 := by
  simp only [Array.getD_eq_getD_getElem?, Array.getElem?_modify]
  by_cases hjk : j = k
  · subst hjk
    by_cases hk : j < ws.size <;> simp [hk]
  · simp [Ne.symm hjk, hjk]

/-- An insertion that succeeds sets the bit of the index in its word. -/
theorem insert_ok {s s' : BitSet} {i : Nat} {b : Bool} (h : s.insert i = .ok (s', b)) :
    i < s.len ∧ s' = ⟨s.words.modify (i / wordBits) (· ||| (locate i).2), s.len⟩ := by
  unfold insert at h
  split at h
  · rename_i hi
    simp only [locate, Except.ok.injEq, Prod.mk.injEq] at h
    exact ⟨hi, by rw [← h.1]; rfl⟩
  · cases h

/-- A removal that succeeds clears the bit of the index in its word. -/
theorem remove_ok {s s' : BitSet} {i : Nat} {b : Bool} (h : s.remove i = .ok (s', b)) :
    i < s.len ∧ s' = ⟨s.words.modify (i / wordBits) (· &&& ~~~(locate i).2), s.len⟩ := by
  unfold remove at h
  split at h
  · rename_i hi
    simp only [locate, Except.ok.injEq, Prod.mk.injEq] at h
    exact ⟨hi, by rw [← h.1]; rfl⟩
  · cases h

/-- Every index of the domain has its word, as in every set that `new` makes. -/
def Spans (s : BitSet) : Prop := s.len ≤ wordBits * s.words.size

theorem spans_new (len : Nat) : (new len).Spans := by
  simp only [Spans, new, Array.size_replicate, wordBits_eq]
  omega

theorem spans_insert {s s' : BitSet} {i : Nat} {b : Bool} (h : s.insert i = .ok (s', b))
    (hs : s.Spans) : s'.Spans := by
  obtain ⟨-, rfl⟩ := insert_ok h
  simpa [Spans] using hs

theorem spans_remove {s s' : BitSet} {i : Nat} {b : Bool} (h : s.remove i = .ok (s', b))
    (hs : s.Spans) : s'.Spans := by
  obtain ⟨-, rfl⟩ := remove_ok h
  simpa [Spans] using hs

/-- Inserting keeps every member. -/
theorem contains_insert_of_contains {s s' : BitSet} {i j : Nat} {b : Bool}
    (h : s.insert i = .ok (s', b)) (hj : s.contains j = true) : s'.contains j = true := by
  obtain ⟨-, rfl⟩ := insert_ok h
  simp only [contains_eq, Bool.and_eq_true, decide_eq_true_eq] at hj ⊢
  refine ⟨hj.1, ?_⟩
  rw [getD_modify_words]
  split
  · rw [testBit_or, hj.2, Bool.true_or]
  · exact hj.2

/-- Inserting into a set whose domain has all its words makes the index a member; without its
word the insertion would change nothing. -/
theorem contains_of_insert {s s' : BitSet} {i : Nat} {b : Bool} (hs : s.Spans)
    (h : s.insert i = .ok (s', b)) : s'.contains i = true := by
  obtain ⟨hi, rfl⟩ := insert_ok h
  have hword : i / wordBits < s.words.size := by
    unfold Spans at hs
    rw [wordBits_eq] at hs ⊢
    omega
  rw [contains_eq, getD_modify_words, if_pos ⟨rfl, hword⟩, testBit_or, testBit_mask]
  simp [hi]

/-- Removing an index keeps every other member. -/
theorem contains_remove_of_ne {s s' : BitSet} {i j : Nat} {b : Bool}
    (h : s.remove i = .ok (s', b)) (hne : j ≠ i) (hj : s.contains j = true) :
    s'.contains j = true := by
  obtain ⟨-, rfl⟩ := remove_ok h
  simp only [contains_eq, Bool.and_eq_true, decide_eq_true_eq] at hj ⊢
  refine ⟨hj.1, ?_⟩
  rw [getD_modify_words]
  split
  · rename_i hk
    -- two indices in one word are told apart by their bits
    have hmod : j % wordBits ≠ i % wordBits := by
      intro hm
      apply hne
      rw [wordBits_eq] at hm hk
      omega
    rw [testBit_and, hj.2, testBit_not, testBit_mask]
    simp [mod_wordBits_lt, hmod]
  · exact hj.2

/-! ## Room -/

/-- How far a word is below the full word. -/
def wordRoom (w : UInt64) : Nat := UInt64.size - 1 - w.toNat

/-- How far the words of a set are below full, summed: a union can only lower it. -/
def room (s : BitSet) : Nat := sumBy wordRoom s.words.toList

theorem wordRoom_or_le (a b : UInt64) : wordRoom (a ||| b) ≤ wordRoom a := by
  have hle : a.toNat ≤ (a ||| b).toNat := by
    rw [UInt64.toNat_or]
    exact Nat.left_le_or
  unfold wordRoom
  omega

theorem wordRoom_or_lt {a b : UInt64} (h : a ||| b ≠ a) : wordRoom (a ||| b) < wordRoom a := by
  have hle : a.toNat ≤ (a ||| b).toNat := by
    rw [UInt64.toNat_or]
    exact Nat.left_le_or
  have hne : (a ||| b).toNat ≠ a.toNat := fun e => h (UInt64.toNat_inj.mp e)
  have hlt := (a ||| b).toNat_lt_size
  unfold wordRoom
  omega

/-- Joining a row of words into another never raises its room, and lowers it when a word
changed. -/
theorem room_zipCombine_or : ∀ (as bs : List UInt64),
    sumBy wordRoom (zipCombine (· ||| ·) as bs).1 ≤ sumBy wordRoom as ∧
      ((zipCombine (· ||| ·) as bs).2 = true →
        sumBy wordRoom (zipCombine (· ||| ·) as bs).1 < sumBy wordRoom as)
  | a :: as, b :: bs => by
    obtain ⟨hle, hlt⟩ := room_zipCombine_or as bs
    have hword := wordRoom_or_le a b
    simp only [zipCombine, sumBy, Bool.or_eq_true, bne_iff_ne]
    refine ⟨by omega, ?_⟩
    rintro (hchanged | hrest)
    · have := wordRoom_or_lt hchanged
      omega
    · have := hlt hrest
      omega
  | [], _ => ⟨Nat.le_refl _, fun h => absurd h (by simp [zipCombine])⟩
  | _ :: _, [] => ⟨Nat.le_refl _, fun h => absurd h (by simp [zipCombine])⟩

/-- A union never raises the room of the set it joins into, and lowers it when it reports a
change. -/
theorem room_unionWith {s t s' : BitSet} {grew : Bool} (h : s.unionWith t = .ok (s', grew)) :
    s'.room ≤ s.room ∧ (grew = true → s'.room < s.room) := by
  unfold unionWith combine at h
  split at h
  · simp only [Except.ok.injEq, Prod.mk.injEq] at h
    obtain ⟨rfl, rfl⟩ := h
    simpa [room] using room_zipCombine_or s.words.toList t.words.toList
  · cases h

end BitSet

end ReachingDefs
