import Mathlib

/-!
# One's complement sums of 16-bit words

`carry` adds what is above 16 bits to what is below. Carrying until nothing is above keeps the
remainder modulo `2 ^ 16 - 1` and keeps a positive number positive (`Folded`), so the result is
known: it is the remainder, with `2 ^ 16 - 1` for a positive multiple. `Folded.of_complement` is the
fact behind every checksum: a sum and the complement of its fold fold to `2 ^ 16 - 1`.

`sum` is the one's complement sum itself, word by word with the carry added at once. Adding the
words up first and carrying at the end gives the same (`sum_folded`, `Folded.unique`).
-/

namespace Minnow

namespace OnesComplement

def carry (n : Nat) : Nat := n / 2 ^ 16 + n % 2 ^ 16

/-- `r` is `n` with all its carries added. -/
structure Folded (n r : Nat) : Prop where
  lt : r < 2 ^ 16
  mod : r % (2 ^ 16 - 1) = n % (2 ^ 16 - 1)
  pos : 0 < r ↔ 0 < n

theorem carry_mod (n : Nat) : carry n % (2 ^ 16 - 1) = n % (2 ^ 16 - 1) := by
  unfold carry
  omega

theorem carry_pos (n : Nat) : 0 < carry n ↔ 0 < n := by
  unfold carry
  omega

/-- The sum of two words is below `2 ^ 17 - 1`, so it carries at most one. -/
theorem carry_lt_of_double {n : Nat} (h : n < 2 ^ 32) : carry n < 2 ^ 17 - 1 := by
  unfold carry
  omega

theorem carry_lt_of_sum {n : Nat} (h : n < 2 ^ 17 - 1) : carry n < 2 ^ 16 := by
  unfold carry
  omega

theorem Folded.of_lt {n : Nat} (h : n < 2 ^ 16) : Folded n n := ⟨h, rfl, Iff.rfl⟩

theorem Folded.of_carry {n r : Nat} (h : Folded (carry n) r) : Folded n r :=
  ⟨h.lt, h.mod.trans (carry_mod n), h.pos.trans (carry_pos n)⟩

/-- A number counts as the two words that it is made of. -/
theorem Folded.of_words {a n r : Nat} (h : Folded (a / 2 ^ 16 + (a % 2 ^ 16 + n)) r) :
    Folded (a + n) r := by
  have hmod := h.mod
  have hpos := h.pos
  exact ⟨h.lt, by omega, by omega⟩

/-- A sum and the complement of its fold. -/
theorem Folded.of_complement {n r r' : Nat} (h : Folded n r)
    (h' : Folded (n + (2 ^ 16 - 1 - r)) r') : r' = 2 ^ 16 - 1 := by
  have hlt := h.lt
  have hlt' := h'.lt
  have hmod := h.mod
  have hmod' := h'.mod
  have hzero := h.pos
  have hpos : 0 < r' := h'.pos.mpr (by omega)
  omega

theorem Folded.unique {n r r' : Nat} (h : Folded n r) (h' : Folded n r') : r = r' := by
  have hlt := h.lt
  have hlt' := h'.lt
  have hmod := h.mod.trans h'.mod.symm
  have hpos := h.pos.trans h'.pos.symm
  omega

/-! ## The sum of words -/

/-- The end-around carry. -/
def add (a b : Nat) : Nat := if a + b < 2 ^ 16 then a + b else a + b - (2 ^ 16 - 1)

def sum (words : List Nat) : Nat := words.foldl add 0

/-- The big-endian words of some bytes, a last odd byte with a zero after it. -/
def words : List UInt8 → List Nat
  | [] => []
  | [a] => [a.toNat * 2 ^ 8]
  | a :: b :: data => (a.toNat * 2 ^ 8 + b.toNat) :: words data

theorem words_lt (data : List UInt8) : ∀ w ∈ words data, w < 2 ^ 16 := by
  induction data using words.induct with
  | case1 => simp [words]
  | case2 a =>
    have := a.toNat_lt
    simp only [words, List.mem_singleton, forall_eq]
    omega
  | case3 a b data ih =>
    have := a.toNat_lt
    have := b.toNat_lt
    rw [words, List.forall_mem_cons]
    exact ⟨by omega, ih⟩

theorem words_length (data : List UInt8) : (words data).length = (data.length + 1) / 2 := by
  induction data using words.induct with
  | case1 => rfl
  | case2 a => simp [words]
  | case3 a b data ih =>
    simp only [words, List.length_cons, ih]
    omega

theorem words_sum_le (data : List UInt8) :
    (words data).sum ≤ (data.length + 1) / 2 * (2 ^ 16 - 1) := by
  have h := List.sum_le_card_nsmul (words data) (2 ^ 16 - 1) fun w hw => by
    have := words_lt data w hw
    omega
  rwa [words_length, smul_eq_mul] at h

theorem Folded.add {n r w : Nat} (h : Folded n r) (hw : w < 2 ^ 16) :
    Folded (n + w) (OnesComplement.add r w) := by
  have hlt := h.lt
  have hmod := h.mod
  have hpos := h.pos
  unfold OnesComplement.add
  constructor <;> split <;> omega

theorem sum_folded {ws : List Nat} (h : ∀ w ∈ ws, w < 2 ^ 16) : Folded ws.sum (sum ws) := by
  induction ws using List.reverseRecOn with
  | nil => exact .of_lt (by decide)
  | append_singleton ws w ih =>
    rw [sum, List.foldl_append, List.sum_append, List.sum_singleton]
    exact (ih fun v hv => h v (List.mem_append_left _ hv)).add (h w (by simp))

end OnesComplement

end Minnow
