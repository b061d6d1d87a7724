import Mathlib.Data.List.Basic
import ReachingDefs.Reaching.Analysis

/-!
# Kill keys and their masks

A table numbers the kill keys of its definitions in the order they first appear, and gives each
key number the set of the definitions with that key. The numbering is a numbering: every
definition gets a key number below the number of keys, and two definitions get one key number
exactly when they have one key. So both reads the transfer of a write makes, `keys[d]` and then
`masks[keys[d]]`, are in range, and together they find the definitions of the variable of `d`.

## Main definitions

* `DefTable.KeyTable`: what the key numbering keeps after each definition

## Main results

* `DefTable.keyTable_keyNumbers`: the numbering of a table keeps it to the end
* `DefTable.keys_eq_iff`: two definitions share a key number exactly when they share a key
* `DefTable.mem_masks`: the mask of a key number holds the definitions with that number
* `DefTable.mem_killMask`: the mask a write reads holds the definitions of its variable
-/

namespace ReachingDefs

/-- Two definitions are of one variable exactly when they have one kill key. -/
theorem Identity.sameVariable_iff (identity : Identity) (a b : DefSite) :
    identity.sameVariable a b = true ↔
      identity.killKey a.definition.name a.owner = identity.killKey b.definition.name b.owner := by
  cases identity <;> simp [Identity.sameVariable, Identity.killKey]

namespace DefTable

variable (identity : Identity)

/-- What the key numbering keeps after reading the definitions `L`: a key number for each of
them, a table whose numbers are distinct and below its length, and for each definition the
number the table gives its key. -/
structure KeyTable (L : List DefSite) (keys : Array Nat) (seen : List (KillKey × Nat)) :
    Prop where
  size_keys : keys.size = L.length
  lt_length : ∀ p ∈ seen, p.2 < seen.length
  numbers_unique : ∀ p ∈ seen, ∀ q ∈ seen, p.2 = q.2 → p.1 = q.1
  lookup_key : ∀ (i : Nat) (d : DefSite), L[i]? = some d → seen.lookup (d.key identity) = keys[i]?

variable {identity}

theorem keyTable_nil : KeyTable identity [] #[] [] :=
  ⟨rfl, by simp, by simp, by simp⟩

/-- The number a table gives a key is one of its entries. -/
theorem mem_of_lookup {seen : List (KillKey × Nat)} {key : KillKey} {k : Nat}
    (h : seen.lookup key = some k) : (key, k) ∈ seen := by
  obtain ⟨l₁, l₂, rfl, -⟩ := List.lookup_eq_some_iff.mp h
  simp

/-- A position of `L ++ [d]` is a position of `L` or the position of `d`. -/
private theorem getElem?_append_singleton_cases {L : List DefSite} {d e : DefSite} {i : Nat}
    (he : (L ++ [d])[i]? = some e) : (i < L.length ∧ L[i]? = some e) ∨ (i = L.length ∧ e = d) := by
  rcases Nat.lt_or_ge i L.length with hi | hi
  · exact .inl ⟨hi, by rwa [List.getElem?_append_left hi] at he⟩
  · right
    rw [List.getElem?_append_right hi, List.getElem?_singleton] at he
    split at he
    · exact ⟨by omega, (Option.some.inj he).symm⟩
    · cases he

/-- **One step of the numbering keeps the table.** A key seen before keeps its number; a new
key takes the length of the table, which no entry has. -/
theorem KeyTable.step {L : List DefSite} {keys : Array Nat} {seen : List (KillKey × Nat)}
    (h : KeyTable identity L keys seen) (d : DefSite) :
    KeyTable identity (L ++ [d]) (keyStep identity (keys, seen) d).1
      (keyStep identity (keys, seen) d).2 := by
  have hsize := h.size_keys
  unfold keyStep
  dsimp only
  split
  · rename_i k hk
    refine ⟨by simp [hsize], h.lt_length, h.numbers_unique, fun i e he => ?_⟩
    rcases getElem?_append_singleton_cases he with ⟨hi, he⟩ | ⟨rfl, rfl⟩
    · rw [h.lookup_key i e he, Array.getElem?_push, if_neg (by omega)]
    · rw [hk, ← hsize, Array.getElem?_push_size]
  · rename_i hnone
    refine ⟨by simp [hsize], fun p hp => ?_, fun p hp q hq hpq => ?_, fun i e he => ?_⟩
    · rcases List.mem_cons.mp hp with rfl | hp
      · simp
      · simpa using Nat.lt_succ_of_lt (h.lt_length p hp)
    · -- the new number is above every old one
      rcases List.mem_cons.mp hp with rfl | hp <;> rcases List.mem_cons.mp hq with rfl | hq
      · rfl
      · exact absurd hpq (Nat.ne_of_gt (h.lt_length q hq))
      · exact absurd hpq (Nat.ne_of_lt (h.lt_length p hp))
      · exact h.numbers_unique p hp q hq hpq
    · rcases getElem?_append_singleton_cases he with ⟨hi, he⟩ | ⟨rfl, rfl⟩
      · have hold := h.lookup_key i e he
        -- an old key has a number, so it is not the new key, which has none
        have hne : (e.key identity == d.key identity) = false := by
          rw [beq_eq_false_iff_ne]
          rintro heq
          rw [heq, hnone, Array.getElem?_eq_getElem (by omega)] at hold
          cases hold
        simp only [List.lookup_cons, hne, hold]
        rw [Array.getElem?_push, if_neg (by omega)]
      · rw [List.lookup_cons_self, ← hsize, Array.getElem?_push_size]

/-- The numbering of a table keeps the key table to the end, definition after definition. -/
theorem keyTable_keyNumbers (t : DefTable) (identity : Identity) :
    KeyTable identity t.sites.toList (t.keys identity) (t.keyNumbers identity).2 := by
  suffices ∀ (rest L : List DefSite) (acc : Array Nat × List (KillKey × Nat)),
      KeyTable identity L acc.1 acc.2 →
        KeyTable identity (L ++ rest) (rest.foldl (keyStep identity) acc).1
          (rest.foldl (keyStep identity) acc).2 by
    simpa [keys, keyNumbers, ← Array.foldl_toList] using this t.sites.toList [] (#[], []) keyTable_nil
  intro rest
  induction rest with
  | nil => simp
  | cons d rest ih =>
    intro L acc h
    simpa using ih (L ++ [d]) _ (h.step d)

variable (t : DefTable) (identity : Identity)

@[simp] theorem size_keys : (t.keys identity).size = t.sites.size := by
  simpa using (keyTable_keyNumbers t identity).size_keys

/-- Every key number is below the number of keys. -/
theorem lt_keyCount_of_keys {d k : Nat} (h : (t.keys identity)[d]? = some k) :
    k < t.keyCount identity := by
  have hd : d < t.sites.size := by simpa using (Array.getElem?_eq_some_iff.mp h).1
  have hkt := keyTable_keyNumbers t identity
  have hlook := hkt.lookup_key d t.sites[d] (by simp [hd])
  rw [h] at hlook
  exact hkt.lt_length _ (mem_of_lookup hlook)

/-- The key number of a definition is the number the table gives its key. -/
theorem lookup_key_keys {d : Nat} {s : DefSite} (hs : t.sites[d]? = some s) :
    (t.keyNumbers identity).2.lookup (s.key identity) = (t.keys identity)[d]? :=
  (keyTable_keyNumbers t identity).lookup_key d s (by simpa using hs)

/-- **Two definitions share a key number exactly when they share a key.** -/
theorem keys_eq_iff {i j : Nat} {a b : DefSite} (ha : t.sites[i]? = some a)
    (hb : t.sites[j]? = some b) :
    (t.keys identity)[i]? = (t.keys identity)[j]? ↔ a.key identity = b.key identity := by
  have hkt := keyTable_keyNumbers t identity
  rw [← lookup_key_keys t identity ha, ← lookup_key_keys t identity hb]
  constructor
  · intro heq
    -- every definition's key has a number, and a number belongs to one key
    have hi : i < (t.keys identity).size := by simpa using (Array.getElem?_eq_some_iff.mp ha).1
    obtain ⟨k, hk⟩ : ∃ k, (t.keyNumbers identity).2.lookup (a.key identity) = some k := by
      rw [lookup_key_keys t identity ha]
      exact ⟨_, Array.getElem?_eq_getElem hi⟩
    rw [hk] at heq
    exact hkt.numbers_unique _ (mem_of_lookup hk) _ (mem_of_lookup heq.symm) rfl
  · intro heq
    rw [heq]

/-! ## The masks -/

/-- Inserting each listed index into the mask of its listed key number. -/
theorem getElem?_foldl_modify_insert {n : Nat} (P : List (Nat × Nat)) (A : Array (IndexSet n))
    (k : Nat) :
    (P.foldl (fun masks e => masks.modify e.1 (·.insert e.2)) A)[k]? =
      A[k]?.map fun s => P.foldl (fun s e => if e.1 = k then s.insert e.2 else s) s := by
  induction P generalizing A with
  | nil => simp
  | cons e rest ih =>
    rw [List.foldl_cons, ih, Array.getElem?_modify]
    by_cases hk : e.1 = k <;> cases A[k]? <;> simp [hk]

theorem mem_foldl_insert_of_key {n : Nat} (P : List (Nat × Nat)) (k : Nat) (s : IndexSet n)
    (i : Nat) :
    (P.foldl (fun s e => if e.1 = k then s.insert e.2 else s) s).mem i =
      (s.mem i || (decide (i < n) && decide ((k, i) ∈ P))) := by
  induction P generalizing s with
  | nil => simp
  | cons e rest ih =>
    rw [List.foldl_cons, ih]
    obtain ⟨k', i'⟩ := e
    by_cases hk : k' = k
    · subst hk
      by_cases hi : i' = i
      · subst hi
        by_cases hn : i' < n <;> simp [hn]
      · simp [hi, Ne.symm hi]
    · simp [hk, Ne.symm hk]

@[simp] theorem size_masks : (t.masks identity).size = t.keyCount identity := by
  suffices ∀ (P : List (Nat × Nat)) (A : Array (IndexSet t.sites.size)),
      (P.foldl (fun masks e => masks.modify e.1 (·.insert e.2)) A).size = A.size by
    simp [masks, this]
  intro P
  induction P with
  | nil => simp
  | cons e rest ih => simp [ih]

/-- The mask of a key number holds exactly the definitions with that key number. -/
theorem mem_masks {k : Nat} (hk : k < t.keyCount identity) (i : Nat) :
    ((t.masks identity)[k]?.getD .empty).mem i = true ↔
      i < t.sites.size ∧ (t.keys identity)[i]? = some k := by
  have hA : (Array.replicate (t.keyCount identity) (IndexSet.empty : IndexSet t.sites.size))[k]? =
      some .empty := by simp [hk]
  simp only [masks, getElem?_foldl_modify_insert, hA, Option.map_some, Option.getD_some,
    mem_foldl_insert_of_key, IndexSet.mem_empty, Bool.false_or, Bool.and_eq_true,
    decide_eq_true_eq, List.mem_zipIdx_iff_getElem?, Array.getElem?_toList]

/-- A number past the definitions has no key number, so it reads the empty mask. -/
theorem killMask_of_size_le {e : Nat} (he : t.sites.size ≤ e) : t.killMask identity e = .empty := by
  simp [killMask, Array.getElem?_eq_none (by simpa using he : (t.keys identity).size ≤ e)]

/-- **The mask a write reads holds the definitions of its variable.** The key number of a
definition is in range of the masks, and its mask holds exactly the definitions that write the
same variable. -/
theorem mem_killMask {e : Nat} (he : e < t.sites.size) (i : Nat) :
    (t.killMask identity e).mem i = true ↔
      ∃ s, t.sites[i]? = some s ∧ identity.sameVariable s t.sites[e] = true := by
  have hke : e < (t.keys identity).size := by simpa using he
  have hlt := lt_keyCount_of_keys t identity (Array.getElem?_eq_getElem hke)
  have hmask : t.killMask identity e = (t.masks identity)[(t.keys identity)[e]]?.getD .empty := by
    simp [killMask, Array.getElem?_eq_getElem hke]
  rw [hmask, mem_masks t identity hlt]
  constructor
  · rintro ⟨hi, hkey⟩
    refine ⟨t.sites[i], Array.getElem?_eq_getElem hi, ?_⟩
    rw [Identity.sameVariable_iff]
    exact (keys_eq_iff t identity (Array.getElem?_eq_getElem hi)
      (Array.getElem?_eq_getElem he)).mp (hkey.trans (Array.getElem?_eq_getElem hke).symm)
  · rintro ⟨s, hs, hsame⟩
    have hi := (Array.getElem?_eq_some_iff.mp hs).1
    refine ⟨hi, ?_⟩
    rw [← Array.getElem?_eq_getElem hke]
    exact (keys_eq_iff t identity hs (Array.getElem?_eq_getElem he)).mpr
      ((Identity.sameVariable_iff identity s t.sites[e]).mp hsame)

end DefTable

end ReachingDefs
