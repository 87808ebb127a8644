import Mathlib

/-!
# Ordered maps

`OrdMap κ β` is a finite map kept as the list of its entries in increasing key order, the way
an iterator of `std::map` visits them. The order of the keys is a field, so a map with a repeated
or a misplaced key cannot be built.

* `set k v` is `m[k] = v`: it inserts the key or replaces its value (`mem_set`), and of two values
  of a key the later one stays (`set_set`).
* `find?_set` says what is found under a key after that.
* `last?` is the entry at the greatest key (`key_lt_last`).
* `drop n` erases the `n` entries at the smallest keys.
-/

namespace Minnow

/-- A map with its entries in increasing key order. -/
structure OrdMap (κ β : Type) [LinearOrder κ] where
  entries : List (κ × β)
  sorted : entries.Pairwise (fun x y => x.1 < y.1)

namespace OrdMap

variable {κ β : Type} [LinearOrder κ]

theorem ext_entries {m n : OrdMap κ β} (h : m.entries = n.entries) : m = n := by
  cases m; cases n; cases h; rfl

instance [DecidableEq β] : DecidableEq (OrdMap κ β) := fun m n =>
  decidable_of_iff (m.entries = n.entries) ⟨ext_entries, fun h => h ▸ rfl⟩

/-- The map without entries. -/
def empty : OrdMap κ β := ⟨[], List.Pairwise.nil⟩

/-- The list with the entry of `k` inserted at its place, or replaced. -/
def insertEntry (k : κ) (v : β) : List (κ × β) → List (κ × β)
  | [] => [(k, v)]
  | x :: xs =>
    if k < x.1 then (k, v) :: x :: xs
    else if k = x.1 then (k, v) :: xs
    else x :: insertEntry k v xs

/-- Whatever order the list has: an entry of the result is the new one or an old one. -/
theorem mem_of_mem_insertEntry {k : κ} {v : β} {l : List (κ × β)} {x : κ × β}
    (h : x ∈ insertEntry k v l) : x = (k, v) ∨ x ∈ l := by
  induction l with
  | nil => simpa [insertEntry] using h
  | cons y ys ih =>
    unfold insertEntry at h
    split at h
    · simpa using h
    · split at h
      · rcases List.mem_cons.mp h with h | h
        · exact .inl h
        · exact .inr (List.mem_cons_of_mem _ h)
      · rcases List.mem_cons.mp h with h | h
        · exact .inr (h ▸ List.mem_cons_self)
        · exact (ih h).imp id (List.mem_cons_of_mem _)

theorem insertEntry_sorted {k : κ} {v : β} {l : List (κ × β)}
    (h : l.Pairwise (fun x y => x.1 < y.1)) :
    (insertEntry k v l).Pairwise (fun x y => x.1 < y.1) := by
  induction l with
  | nil => simp [insertEntry]
  | cons y ys ih =>
    obtain ⟨hy, hys⟩ := List.pairwise_cons.mp h
    unfold insertEntry
    split
    · rename_i hlt
      refine List.pairwise_cons.mpr ⟨fun z hz => ?_, h⟩
      rcases List.mem_cons.mp hz with rfl | hz
      · exact hlt
      · exact lt_trans hlt (hy z hz)
    · split
      · rename_i heq
        exact List.pairwise_cons.mpr ⟨fun z hz => heq ▸ hy z hz, hys⟩
      · rename_i hnlt hne
        refine List.pairwise_cons.mpr ⟨fun z hz => ?_, ih hys⟩
        rcases mem_of_mem_insertEntry hz with rfl | hz
        · exact lt_of_le_of_ne (not_lt.mp hnlt) (Ne.symm hne)
        · exact hy z hz

theorem mem_insertEntry {k : κ} {v : β} {l : List (κ × β)}
    (h : l.Pairwise (fun x y => x.1 < y.1)) (x : κ × β) :
    x ∈ insertEntry k v l ↔ x = (k, v) ∨ x ∈ l ∧ x.1 ≠ k := by
  induction l with
  | nil => simp [insertEntry]
  | cons y ys ih =>
    obtain ⟨hy, hys⟩ := List.pairwise_cons.mp h
    unfold insertEntry
    split
    · rename_i hlt
      -- every old key is greater than `k`
      have hne : ∀ z ∈ y :: ys, z.1 ≠ k := by
        intro z hz
        rcases List.mem_cons.mp hz with rfl | hz
        · exact ne_of_gt hlt
        · exact ne_of_gt (lt_trans hlt (hy z hz))
      rw [List.mem_cons]
      exact or_congr_right ⟨fun hx => ⟨hx, hne x hx⟩, And.left⟩
    · split
      · rename_i heq
        have hne : ∀ z ∈ ys, z.1 ≠ k := fun z hz => heq ▸ ne_of_gt (hy z hz)
        rw [List.mem_cons]
        refine or_congr_right ⟨fun hx => ⟨List.mem_cons_of_mem _ hx, hne x hx⟩, ?_⟩
        rintro ⟨hx, hxk⟩
        rcases List.mem_cons.mp hx with rfl | hx
        · exact absurd heq.symm hxk
        · exact hx
      · rename_i hnlt hne
        rw [List.mem_cons, ih hys, List.mem_cons]
        constructor
        · rintro (rfl | rfl | ⟨hx, hxk⟩)
          · exact .inr ⟨.inl rfl, Ne.symm hne⟩
          · exact .inl rfl
          · exact .inr ⟨.inr hx, hxk⟩
        · rintro (rfl | ⟨rfl | hx, hxk⟩)
          · exact .inr (.inl rfl)
          · exact .inl rfl
          · exact .inr (.inr ⟨hx, hxk⟩)

/-- `m[k] = v`. -/
def set (m : OrdMap κ β) (k : κ) (v : β) : OrdMap κ β :=
  ⟨insertEntry k v m.entries, insertEntry_sorted m.sorted⟩

theorem mem_set (m : OrdMap κ β) (k : κ) (v : β) (x : κ × β) :
    x ∈ (m.set k v).entries ↔ x = (k, v) ∨ x ∈ m.entries ∧ x.1 ≠ k :=
  mem_insertEntry m.sorted x

theorem insertEntry_insertEntry (k : κ) (v v' : β) (l : List (κ × β)) :
    insertEntry k v' (insertEntry k v l) = insertEntry k v' l := by
  induction l with
  | nil => simp [insertEntry]
  | cons x xs ih =>
    by_cases hlt : k < x.1
    · simp [insertEntry, hlt]
    · by_cases heq : k = x.1
      · simp [insertEntry, heq]
      · simp [insertEntry, hlt, heq, ih]

/-- The later of two values of a key stays. -/
theorem set_set (m : OrdMap κ β) (k : κ) (v v' : β) : (m.set k v).set k v' = m.set k v' :=
  ext_entries (insertEntry_insertEntry k v v' m.entries)

/-- The first entry is the one at the smallest key. -/
theorem first_le {m : OrdMap κ β} {x y : κ × β} {xs : List (κ × β)} (hm : m.entries = x :: xs)
    (hy : y ∈ m.entries) : x.1 ≤ y.1 := by
  have hs := m.sorted
  rw [hm] at hs hy
  rcases List.mem_cons.mp hy with rfl | hy
  · exact le_refl _
  · exact le_of_lt ((List.pairwise_cons.mp hs).1 y hy)

/-- A new smallest key goes in front. -/
theorem set_entries_of_lt {m : OrdMap κ β} {k : κ} {v : β} (h : ∀ x ∈ m.entries, k < x.1) :
    (m.set k v).entries = (k, v) :: m.entries := by
  show insertEntry k v m.entries = _
  cases hm : m.entries with
  | nil => rfl
  | cons x xs => exact if_pos (h x (hm ▸ List.mem_cons_self))

/-- The entry at the greatest key. -/
def last? (m : OrdMap κ β) : Option (κ × β) := m.entries.getLast?

theorem last?_mem {m : OrdMap κ β} {y : κ × β} (h : m.last? = some y) : y ∈ m.entries :=
  List.mem_of_getLast? h

theorem last?_isSome {m : OrdMap κ β} (h : m.entries ≠ []) : ∃ y, m.last? = some y :=
  ⟨_, List.getLast?_eq_some_getLast h⟩

/-- A new smallest key is not the greatest, if there was one. -/
theorem last?_set_of_lt {m : OrdMap κ β} {k : κ} {v : β} {y : κ × β} (hy : m.last? = some y)
    (h : ∀ x ∈ m.entries, k < x.1) : (m.set k v).last? = some y := by
  unfold last? at hy ⊢
  rw [set_entries_of_lt h]
  cases hm : m.entries with
  | nil =>
    rw [hm] at hy
    cases hy
  | cons x xs => rw [List.getLast?_cons_cons, ← hm, hy]

/-- Every other entry is before the last one. -/
theorem key_lt_last {m : OrdMap κ β} {x y : κ × β} (h : m.last? = some y) (hx : x ∈ m.entries) :
    x = y ∨ x.1 < y.1 := by
  obtain ⟨pre, hpre⟩ := List.getLast?_eq_some_iff.mp h
  rw [hpre] at hx
  rcases List.mem_append.mp hx with hx | hx
  · have hs := m.sorted
    rw [hpre] at hs
    exact .inr ((List.pairwise_append.mp hs).2.2 x hx y List.mem_cons_self)
  · exact .inl (List.mem_singleton.mp hx)

/-- In a list with increasing keys, a key determines its entry. -/
theorem eq_of_key_eq {l : List (κ × β)} (h : l.Pairwise (fun x y => x.1 < y.1)) {x y : κ × β}
    (hx : x ∈ l) (hy : y ∈ l) (he : x.1 = y.1) : x = y := by
  induction l with
  | nil => cases hx
  | cons z zs ih =>
    obtain ⟨hz, hzs⟩ := List.pairwise_cons.mp h
    rcases List.mem_cons.mp hx with rfl | hx'
    · rcases List.mem_cons.mp hy with rfl | hy'
      · rfl
      · exact absurd he (ne_of_lt (hz y hy'))
    · rcases List.mem_cons.mp hy with rfl | hy'
      · exact absurd he (ne_of_gt (hz x hx'))
      · exact ih hzs hx' hy'

/-- `m.find( k )`. -/
theorem find?_eq_some {m : OrdMap κ β} {k : κ} {x : κ × β} :
    m.entries.find? (·.1 == k) = some x ↔ x ∈ m.entries ∧ x.1 = k := by
  constructor
  · intro h
    have hkey : (x.1 == k) = true := List.find?_some (p := fun y : κ × β => y.1 == k) h
    exact ⟨List.mem_of_find?_eq_some h, beq_iff_eq.mp hkey⟩
  · rintro ⟨hx, rfl⟩
    obtain ⟨y, hy⟩ := Option.isSome_iff_exists.mp
      (List.find?_isSome (p := (·.1 == x.1)).mpr ⟨x, hx, beq_self_eq_true x.1⟩)
    have hkey : (y.1 == x.1) = true := List.find?_some (p := fun y : κ × β => y.1 == x.1) hy
    rw [hy, eq_of_key_eq m.sorted (List.mem_of_find?_eq_some hy) hx (beq_iff_eq.mp hkey)]

theorem find?_set (m : OrdMap κ β) (k k' : κ) (v : β) :
    (m.set k v).entries.find? (·.1 == k') =
      if k' = k then some (k, v) else m.entries.find? (·.1 == k') := by
  refine Option.ext fun x => ?_
  rw [find?_eq_some, mem_set]
  by_cases hk : k' = k
  · subst hk
    rw [if_pos rfl, Option.some_inj]
    constructor
    · rintro ⟨rfl | ⟨-, hne⟩, hkey⟩
      · rfl
      · exact absurd hkey hne
    · rintro rfl
      exact ⟨.inl rfl, rfl⟩
  · rw [if_neg hk, find?_eq_some]
    constructor
    · rintro ⟨rfl | ⟨hx, -⟩, hkey⟩
      · exact absurd hkey.symm hk
      · exact ⟨hx, hkey⟩
    · rintro ⟨hx, rfl⟩
      exact ⟨.inr ⟨hx, hk⟩, rfl⟩

/-- The map without its first `n` entries. -/
def drop (m : OrdMap κ β) (n : Nat) : OrdMap κ β :=
  ⟨m.entries.drop n, m.sorted.sublist (List.drop_sublist n _)⟩

end OrdMap

end Minnow
