/-!
# String views

`std::basic_string_view` as a pointer and a length. Nothing keeps the length within the memory that
the pointer points into (`Inside`), and neither does `substr`, which looks at the length only. A
view that is too long does no harm before it is read (`string`).

`substr_eq` is a `substr` that returns, as a `drop` and a `take`, and these keep a view inside its
memory. There, `string` gives its `toList`, for which `drop` and `take` are those of lists.
-/

namespace Minnow

/-- What can go wrong with a view. -/
inductive Fault where
  /-- Something outside the memory that the view points into is read. -/
  | outOfBounds
  /-- `std::out_of_range`, thrown by `substr`. -/
  | outOfRange
  deriving DecidableEq

/-- The memory from the first element of the view on, up to the end of what it points into, and the
length that it was given. -/
structure StringView (α : Type) where
  memory : List α
  length : Nat
  deriving DecidableEq

namespace StringView

variable {α : Type}

/-- The view without its first `n` elements. -/
def drop (v : StringView α) (n : Nat) : StringView α := ⟨v.memory.drop n, v.length - n⟩

/-- The first `n` elements of the view. -/
def take (v : StringView α) (n : Nat) : StringView α := ⟨v.memory, min n v.length⟩

/-- `view.substr( pos, count )`. -/
def substr (v : StringView α) (pos count : Nat) : Except Fault (StringView α) :=
  if pos ≤ v.length then .ok ((v.drop pos).take count) else .error .outOfRange

/-- `string( view )`, where the elements of the view are read. -/
def string (v : StringView α) : Except Fault (List α) :=
  if v.length ≤ v.memory.length then .ok (v.memory.take v.length) else .error .outOfBounds

/-- `view.empty()`. -/
def isEmpty (v : StringView α) : Bool := v.length == 0

/-- The view does not reach beyond the memory that it points into. -/
def Inside (v : StringView α) : Prop := v.length ≤ v.memory.length

/-- The elements of a view inside its memory. -/
def toList (v : StringView α) : List α := v.memory.take v.length

variable {v : StringView α}

@[simp] theorem length_drop (v : StringView α) (n : Nat) : (v.drop n).length = v.length - n := rfl

@[simp] theorem length_take (v : StringView α) (n : Nat) : (v.take n).length = min n v.length := rfl

theorem toList_drop (v : StringView α) (n : Nat) : (v.drop n).toList = v.toList.drop n :=
  List.drop_take.symm

theorem toList_take (v : StringView α) (n : Nat) : (v.take n).toList = v.toList.take n :=
  List.take_take.symm

theorem Inside.drop (h : v.Inside) (n : Nat) : (v.drop n).Inside := by
  unfold Inside at *
  rw [length_drop, show (v.drop n).memory = v.memory.drop n from rfl, List.length_drop]
  omega

theorem Inside.take (h : v.Inside) (n : Nat) : (v.take n).Inside :=
  Nat.le_trans (Nat.min_le_right _ _) h

theorem Inside.length_toList (h : v.Inside) : v.toList.length = v.length := by
  unfold toList
  rw [List.length_take]
  exact Nat.min_eq_left h

theorem Inside.string (h : v.Inside) : v.string = .ok v.toList := if_pos h

theorem string_take_zero (v : StringView α) : (v.take 0).string = .ok [] := by
  unfold take StringView.string
  simp

/-- A view can be read if it does not reach beyond its memory. -/
theorem string_returns : (∃ t, v.string = .ok t) ↔ v.Inside := by
  refine ⟨fun ⟨t, h⟩ => ?_, fun h => ⟨_, h.string⟩⟩
  unfold StringView.string at h
  split at h
  · assumption
  · cases h

theorem substr_eq {pos count : Nat} (h : pos ≤ v.length) :
    v.substr pos count = .ok ((v.drop pos).take count) := if_pos h

theorem substr_ok {pos count : Nat} {v' : StringView α} (h : v.substr pos count = .ok v') :
    pos ≤ v.length ∧ v' = (v.drop pos).take count := by
  unfold substr at h
  split at h
  · rename_i hpos
    exact ⟨hpos, (Except.ok.inj h).symm⟩
  · cases h

@[simp] theorem drop_zero (v : StringView α) : v.drop 0 = v := rfl

theorem take_of_length_le {n : Nat} (h : v.length ≤ n) : v.take n = v := by
  unfold take
  rw [Nat.min_eq_right h]

theorem take_length_take (v : StringView α) (n : Nat) : v.take (v.take n).length = v.take n := by
  unfold take
  simp only [Nat.min_assoc, Nat.min_self]

/-- A `substr` up to the end of its view. -/
theorem substr_drop {pos count : Nat} (h : pos ≤ v.length) (hc : v.length ≤ pos + count) :
    v.substr pos count = .ok (v.drop pos) := by
  rw [substr_eq h, take_of_length_le]
  rw [length_drop]
  omega

end StringView

end Minnow
