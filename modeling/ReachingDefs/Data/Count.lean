/-!
# Counting along a list

The facts about lists of naturals that the termination measures of this library rest on:
a count that can only gain members, and gains one, grows strictly; a sum whose terms can only
shrink, and one of which shrinks, falls strictly; and replacing one term of a sum moves the
sum by the difference.
-/

namespace ReachingDefs

/-- Weakening a predicate along a list, strictly at one member, raises its count. -/
theorem countP_lt_countP {α : Type} {l : List α} {p q : α → Bool}
    (mono : ∀ x ∈ l, p x = true → q x = true) (strict : ∃ x ∈ l, q x = true ∧ p x = false) :
    l.countP p < l.countP q := by
  induction l with
  | nil => simp at strict
  | cons a rest ih =>
    have restMono : ∀ x ∈ rest, p x = true → q x = true :=
      fun x hx => mono x (List.mem_cons_of_mem a hx)
    have restLe : rest.countP p ≤ rest.countP q := List.countP_mono_left restMono
    obtain ⟨x, hx, hq, hp⟩ := strict
    simp only [List.countP_cons]
    rcases List.mem_cons.mp hx with rfl | hrest
    · simp [hq, hp]
      omega
    · have := ih restMono ⟨x, hrest, hq, hp⟩
      cases hpa : p a
      · cases q a <;> simp <;> omega
      · simp [mono a List.mem_cons_self hpa]
        omega

/-- The sum of `f` over a list. -/
def sumBy {α : Type} (f : α → Nat) : List α → Nat
  | [] => 0
  | x :: rest => f x + sumBy f rest

/-- Lowering terms of a sum never raises it. -/
theorem sumBy_le_sumBy {α : Type} {l : List α} {f g : α → Nat}
    (le : ∀ x ∈ l, g x ≤ f x) : sumBy g l ≤ sumBy f l := by
  induction l with
  | nil => exact Nat.le_refl 0
  | cons a rest ih =>
    simp only [sumBy]
    have := le a List.mem_cons_self
    have := ih (fun x hx => le x (List.mem_cons_of_mem a hx))
    omega

/-- Lowering terms of a sum, strictly at one of them, lowers the sum. -/
theorem sumBy_lt_sumBy {α : Type} {l : List α} {f g : α → Nat}
    (le : ∀ x ∈ l, g x ≤ f x) (strict : ∃ x ∈ l, g x < f x) :
    sumBy g l < sumBy f l := by
  induction l with
  | nil => simp at strict
  | cons a rest ih =>
    simp only [sumBy]
    have restLe : ∀ x ∈ rest, g x ≤ f x := fun x hx => le x (List.mem_cons_of_mem a hx)
    have := sumBy_le_sumBy restLe
    have := le a List.mem_cons_self
    obtain ⟨x, hx, hlt⟩ := strict
    rcases List.mem_cons.mp hx with rfl | hrest
    · omega
    · have := ih restLe ⟨x, hrest, hlt⟩
      omega

/-- Replacing one term of a sum moves the sum by the difference of the two terms. -/
theorem sumBy_set {α : Type} (f : α → Nat) :
    ∀ (l : List α) (i : Nat) (x : α) (h : i < l.length), sumBy f (l.set i x) + f l[i] = sumBy f l + f x
  | [], _, _, h => absurd h (Nat.not_lt_zero _)
  | a :: rest, 0, x, _ => by
    simp only [List.set_cons_zero, sumBy, List.getElem_cons_zero]
    omega
  | a :: rest, i + 1, x, h => by
    have := sumBy_set f rest i x (by simpa using h)
    simp only [List.set_cons_succ, sumBy, List.getElem_cons_succ]
    omega

end ReachingDefs
