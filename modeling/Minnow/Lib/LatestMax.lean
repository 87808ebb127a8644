import Mathlib

/-!
# The latest of the greatest elements

Among the elements of a list that `p` picks, `LatestMax` is the last one whose key is the greatest.
A store in which a new element replaces an old one with the same key finds it when it is asked for
that key: `LatestMax.find?_reverse`.
-/

namespace Minnow

variable {α κ : Type} [LinearOrder κ] {p : α → Prop} {key : α → κ} {l : List α} {x : α}

/-- `p` picks `x`, no element in front of it that has a greater key, and none behind it with a key
as great. -/
def LatestMax (p : α → Prop) (key : α → κ) (l : List α) (x : α) : Prop :=
  ∃ pre post, l = pre ++ x :: post ∧ p x ∧ (∀ y ∈ pre, p y → key y ≤ key x) ∧
    ∀ y ∈ post, p y → key y < key x

namespace LatestMax

theorem mem (h : LatestMax p key l x) : x ∈ l := by
  obtain ⟨pre, post, rfl, -⟩ := h
  exact List.mem_append_right _ List.mem_cons_self

theorem picked (h : LatestMax p key l x) : p x := by
  obtain ⟨pre, post, -, hp, -⟩ := h
  exact hp

theorem le (h : LatestMax p key l x) {y : α} (hy : y ∈ l) (hp : p y) : key y ≤ key x := by
  obtain ⟨pre, post, rfl, -, hpre, hpost⟩ := h
  rcases List.mem_append.mp hy with hy | hy
  · exact hpre y hy hp
  · rcases List.mem_cons.mp hy with rfl | hy
    · exact le_refl _
    · exact le_of_lt (hpost y hy hp)

/-- Only what is picked of the list matters. -/
theorem congr {q : α → Prop} (h : LatestMax p key l x) (hpq : ∀ y ∈ l, p y ↔ q y) :
    LatestMax q key l x := by
  obtain ⟨pre, post, rfl, hp, hpre, hpost⟩ := h
  simp only [List.forall_mem_append, List.forall_mem_cons] at hpq
  obtain ⟨hqpre, hqx, hqpost⟩ := hpq
  exact ⟨pre, post, rfl, hqx.mp hp, fun y hy hqy => hpre y hy ((hqpre y hy).mpr hqy),
    fun y hy hqy => hpost y hy ((hqpost y hy).mpr hqy)⟩

theorem map {β : Type} {p : β → Prop} {key : β → κ} {f : α → β}
    (h : LatestMax (fun y => p (f y)) (fun y => key (f y)) l x) :
    LatestMax p key (l.map f) (f x) := by
  obtain ⟨pre, post, rfl, hp, hpre, hpost⟩ := h
  refine ⟨pre.map f, post.map f, by simp, hp, ?_, ?_⟩
  · rwa [List.forall_mem_map]
  · rwa [List.forall_mem_map]

/-- It is the last of all the elements with its key. -/
theorem find?_reverse (h : LatestMax p key l x) {q : α → Bool} (hx : q x = true)
    (hq : ∀ y, q y = true → p y ∧ key y = key x) : l.reverse.find? q = some x := by
  obtain ⟨pre, post, rfl, -, -, hpost⟩ := h
  have hnone : post.reverse.find? q = none := by
    refine List.find?_eq_none.mpr fun y hy hqy => ?_
    obtain ⟨hp, hkey⟩ := hq y hqy
    exact absurd hkey (ne_of_lt (hpost y (List.mem_reverse.mp hy) hp))
  rw [List.reverse_append, List.reverse_cons, List.find?_append, List.find?_append, hnone]
  simp [hx]

/-- A new element takes over, unless its key is smaller. -/
theorem concat (h : LatestMax p key l x) (z : α) :
    LatestMax p key (l ++ [z]) x ∨ LatestMax p key (l ++ [z]) z := by
  by_cases hz : p z ∧ key x ≤ key z
  · exact .inr ⟨l, [], rfl, hz.1, fun y hy hp => (h.le hy hp).trans hz.2, nofun⟩
  · obtain ⟨pre, post, rfl, hp, hpre, hpost⟩ := h
    refine .inl ⟨pre, post ++ [z], by simp, hp, hpre, fun y hy hpy => ?_⟩
    rcases List.mem_append.mp hy with hy | hy
    · exact hpost y hy hpy
    · obtain rfl := List.mem_singleton.mp hy
      exact not_le.mp fun hle => hz ⟨hpy, hle⟩

end LatestMax

theorem exists_latestMax (h : ∃ x ∈ l, p x) : ∃ x, LatestMax p key l x := by
  induction l using List.reverseRecOn with
  | nil =>
    obtain ⟨x, hx, -⟩ := h
    cases hx
  | append_singleton l z ih =>
    by_cases hl : ∃ x ∈ l, p x
    · obtain ⟨x, hx⟩ := ih hl
      rcases hx.concat z with hx | hz
      · exact ⟨x, hx⟩
      · exact ⟨z, hz⟩
    · obtain ⟨x, hx, hp⟩ := h
      rcases List.mem_append.mp hx with hx | hx
      · exact absurd ⟨x, hx, hp⟩ hl
      · obtain rfl := List.mem_singleton.mp hx
        exact ⟨x, l, [], rfl, hp, fun y hy hpy => absurd ⟨y, hy, hpy⟩ hl, nofun⟩

end Minnow
