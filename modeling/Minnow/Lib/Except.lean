/-!
# Computations that may fail

What a computation that returns has done: `bind_ok` takes a bind apart, `map_ok` a map, `pair_ok` a
result that is a pair, `triple_ok` one that is a triple, and `map_eq_of_mapM` a loop over a list.
`ok_bind` goes on with a part that has returned, and `exists_mapM` runs a loop to its end.
-/

namespace Minnow

variable {ε α β : Type}

@[simp] theorem ok_bind (a : α) (f : α → Except ε β) : (Except.ok a >>= f) = f a := rfl

/-- A computation that returns has run its first part and then the rest. -/
theorem bind_ok {x : Except ε α} {f : α → Except ε β} {b : β} (h : x >>= f = .ok b) :
    ∃ a, x = .ok a ∧ f a = .ok b := by
  cases x with
  | error e => cases h
  | ok a => exact ⟨a, rfl, h⟩

theorem map_ok {x : Except ε α} {f : α → β} {b : β} (h : x.map f = .ok b) :
    ∃ a, x = .ok a ∧ f a = b := by
  cases x with
  | error e => cases h
  | ok a => exact ⟨a, rfl, Except.ok.inj h⟩

theorem pair_ok {a a' : α} {b b' : β} (h : (.ok (a, b) : Except ε (α × β)) = .ok (a', b')) :
    a = a' ∧ b = b' :=
  Prod.mk.inj (Except.ok.inj h)

theorem triple_ok {γ : Type} {a a' : α} {b b' : β} {c c' : γ}
    (h : (.ok (a, b, c) : Except ε (α × β × γ)) = .ok (a', b', c')) : a = a' ∧ b = b' ∧ c = c' := by
  cases h
  exact ⟨rfl, rfl, rfl⟩

/-- A loop that returns has run its body for every element. -/
theorem map_eq_of_mapM {f : α → Except ε β} {l : List α} {bs : List β} (h : l.mapM f = .ok bs) :
    l.map f = bs.map .ok := by
  induction l generalizing bs with
  | nil =>
    obtain rfl := Except.ok.inj h
    rfl
  | cons a l ih =>
    rw [List.mapM_cons] at h
    obtain ⟨b, hb, h⟩ := bind_ok h
    obtain ⟨bs', hbs, h⟩ := bind_ok h
    obtain rfl := Except.ok.inj h
    rw [List.map_cons, hb, ih hbs, List.map_cons]

/-- A loop runs to its end if its body does, for every element. -/
theorem exists_mapM {f : α → Except ε β} {l : List α}
    (h : ∀ a ∈ l, ∃ b, f a = .ok b) : ∃ bs, l.mapM f = .ok bs := by
  induction l with
  | nil => exact ⟨[], rfl⟩
  | cons a l ih =>
    obtain ⟨⟨b, hb⟩, hl⟩ := List.forall_mem_cons.mp h
    obtain ⟨bs, hbs⟩ := ih hl
    refine ⟨b :: bs, ?_⟩
    rw [List.mapM_cons, hb, ok_bind, hbs]
    rfl

end Minnow
