/-!
# Tables of code point ranges

A character property is stored as a sorted array of disjoint, inclusive ranges of code
points, and looked up by halving the part of the array that can still hold the code point.
-/

namespace ReachingDefs

namespace Unicode

/-- Sorted, disjoint, inclusive ranges of code points. -/
structure RangeTable where
  ranges : Array (Nat × Nat)

namespace RangeTable

/-- Whether `x` lies in one of the ranges at positions from `lo` up to, not including, `hi`.
A range that starts after `x` leaves only the ranges before it, and one that ends before `x`
only the ranges after it. -/
def containsIn (t : RangeTable) (x lo hi : Nat) : Bool :=
  if lo < hi then
    if x < (t.ranges.getD ((lo + hi) / 2) (0, 0)).1 then t.containsIn x lo ((lo + hi) / 2)
    else if (t.ranges.getD ((lo + hi) / 2) (0, 0)).2 < x then
      t.containsIn x ((lo + hi) / 2 + 1) hi
    else true
  else false
termination_by hi - lo

/-- Whether a code point lies in one of the table's ranges. -/
def contains (t : RangeTable) (x : Nat) : Bool := t.containsIn x 0 t.ranges.size

/-- What the search finds lies in a range of the table. -/
theorem exists_of_containsIn {t : RangeTable} {x lo hi : Nat} (hhi : hi ≤ t.ranges.size)
    (h : t.containsIn x lo hi = true) : ∃ r ∈ t.ranges, r.1 ≤ x ∧ x ≤ r.2 := by
  induction lo, hi using containsIn.induct t x with
  | case1 lo hi hlt hx ih =>
    rw [containsIn, if_pos hlt, if_pos hx] at h
    exact ih (by omega) h
  | case2 lo hi hlt hx hy ih =>
    rw [containsIn, if_pos hlt, if_neg hx, if_pos hy] at h
    exact ih hhi h
  | case3 lo hi hlt hx hy =>
    have hmid : (lo + hi) / 2 < t.ranges.size := by omega
    refine ⟨t.ranges[(lo + hi) / 2], Array.getElem_mem hmid, ?_, ?_⟩
    · have := Nat.not_lt.mp hx
      simpa [Array.getD_eq_getD_getElem?, hmid] using this
    · have := Nat.not_lt.mp hy
      simpa [Array.getD_eq_getD_getElem?, hmid] using this
  | case4 lo hi hlt =>
    rw [containsIn, if_neg hlt] at h
    exact absurd h Bool.false_ne_true

/-- A code point that the table contains lies in one of its ranges. -/
theorem exists_of_contains {t : RangeTable} {x : Nat} (h : t.contains x = true) :
    ∃ r ∈ t.ranges, r.1 ≤ x ∧ x ≤ r.2 :=
  exists_of_containsIn (Nat.le_refl _) h

end RangeTable

end Unicode

end ReachingDefs
