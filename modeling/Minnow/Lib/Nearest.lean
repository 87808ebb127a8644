import Mathlib

/-!
# The nearest member of a set

`IsNearest cost S u`: no member of `S` costs less than `u`, and of those that cost the same `u` is
the least. A search that visits the members in ascending order and moves only to what is strictly
cheaper ends there (`insert_above`), and members that cost more do not change it (`of_subset`).
-/

namespace Minnow

variable {α β : Type} [LinearOrder α] [LinearOrder β] {cost : α → β} {S T : Set α} {u n : α}

structure IsNearest (cost : α → β) (S : Set α) (u : α) : Prop where
  mem : u ∈ S
  le : ∀ v ∈ S, cost u ≤ cost v
  tie : ∀ v ∈ S, cost u = cost v → u ≤ v

namespace IsNearest

/-- One round of the search: a new member above the others, or one that was visited before. -/
theorem insert_above (h : IsNearest cost S u) (hn : n ∈ S ∨ ∀ v ∈ S, v ≤ n) :
    IsNearest cost (insert n S) (if cost n < cost u then n else u) := by
  split
  · rename_i hlt
    -- the new member is cheaper than all the old ones, so there is no tie to break
    have hall : ∀ v ∈ S, cost n < cost v := fun v hv => lt_of_lt_of_le hlt (h.le v hv)
    refine ⟨.inl rfl, ?_, ?_⟩
    · rintro v (rfl | hv)
      · exact le_refl _
      · exact (hall v hv).le
    · rintro v (rfl | hv) heq
      · exact le_refl _
      · exact absurd heq (hall v hv).ne
  · rename_i hge
    refine ⟨.inr h.mem, ?_, ?_⟩
    · rintro v (rfl | hv)
      · exact not_lt.mp hge
      · exact h.le v hv
    · rintro v (rfl | hv) heq
      · rcases hn with hmem | habove
        · exact h.tie v hmem heq
        · exact habove u h.mem
      · exact h.tie v hv heq

/-- The members that are left out cost more than one that is not. -/
theorem of_subset (h : IsNearest cost S u) (hsub : S ⊆ T)
    (hfar : ∀ v ∈ T, v ∉ S → cost u < cost v) : IsNearest cost T u where
  mem := hsub h.mem
  le v hv := by
    by_cases hS : v ∈ S
    · exact h.le v hS
    · exact (hfar v hv hS).le
  tie v hv heq := by
    by_cases hS : v ∈ S
    · exact h.tie v hS heq
    · exact absurd heq (hfar v hv hS).ne

end IsNearest

end Minnow
