import Mathlib

/-!
# Machine words

64-bit unsigned values are natural numbers. Arithmetic of the source that can leave the 64-bit
range (an index the network chose, a subtraction) is written `add64` or `sub64` and wraps; a
counter of bytes that were really moved is a plain sum, since it would take `2 ^ 64` bytes to
wrap it.

`clampInt n` is `uint64_t( max( int( n ), 0 ) )`: the value is cut to 32 bits, read as a signed
number, and a negative one becomes `0`. It is the identity below `2 ^ 31` and nowhere else.
-/

namespace Minnow

/-- `a + b` on `uint64_t`. -/
def add64 (a b : Nat) : Nat := (a + b) % 2 ^ 64

/-- `a - b` on `uint64_t`. -/
def sub64 (a b : Nat) : Nat := (a + (2 ^ 64 - b % 2 ^ 64)) % 2 ^ 64

/-- `int( n )` of a `uint64_t`. -/
def toInt32 (n : Nat) : Int :=
  if n % 2 ^ 32 < 2 ^ 31 then (n % 2 ^ 32 : Nat) else ((n % 2 ^ 32 : Nat) : Int) - 2 ^ 32

/-- `uint64_t( max( int( n ), 0 ) )`. -/
def clampInt (n : Nat) : Nat := (max (toInt32 n) 0).toNat

theorem add64_of_lt {a b : Nat} (h : a + b < 2 ^ 64) : add64 a b = a + b :=
  Nat.mod_eq_of_lt h

theorem sub64_of_le {a b : Nat} (h : b ≤ a) (ha : a < 2 ^ 64) : sub64 a b = a - b := by
  unfold sub64
  rw [Nat.mod_eq_of_lt (a := b) (by omega)]
  omega

/-- The length of a range from its first and its last index. It is right for an empty range too,
whose last index is one below its first. -/
theorem add64_sub64_one {last first : Nat} (h : first ≤ last + 1) (hl : last + 1 < 2 ^ 64) :
    add64 (sub64 last first) 1 = last + 1 - first := by
  unfold add64 sub64
  omega

theorem clampInt_eq (n : Nat) :
    clampInt n = if n % 2 ^ 32 < 2 ^ 31 then n % 2 ^ 32 else 0 := by
  unfold clampInt toInt32
  split <;> omega

theorem clampInt_of_lt {n : Nat} (h : n < 2 ^ 31) : clampInt n = n := by
  rw [clampInt_eq, Nat.mod_eq_of_lt (by omega)]
  exact if_pos h

theorem clampInt_lt (n : Nat) : clampInt n < 2 ^ 31 := by
  rw [clampInt_eq]
  split <;> omega

theorem clampInt_le (n : Nat) : clampInt n ≤ n := by
  rw [clampInt_eq]
  split
  · exact Nat.mod_le _ _
  · exact Nat.zero_le _

/-! ## 16-bit words -/

theorem toNat_ofNat16 {n : Nat} (h : n < 2 ^ 16) : (UInt16.ofNat n).toNat = n := by
  rw [UInt16.toNat_ofNat']
  exact Nat.mod_eq_of_lt h

theorem or_and16 (a b c : UInt16) : (a ||| b) &&& c = a &&& c ||| b &&& c := by
  rw [← UInt16.toBitVec_inj]
  simp [BitVec.and_or_distrib_right]

theorem toNat_max16 (a b : UInt16) : (max a b).toNat = max a.toNat b.toNat := by
  show (if a ≤ b then b else a).toNat = _
  split
  · rename_i h
    rw [Nat.max_eq_right (UInt16.le_iff_toNat_le.mp h)]
  · rename_i h
    have := mt UInt16.le_iff_toNat_le.mpr h
    rw [Nat.max_eq_left (by omega)]

theorem toNat_sub_ofNat {w : UInt16} {n : Nat} (h : n ≤ w.toNat) :
    (w - UInt16.ofNat n).toNat = w.toNat - n := by
  have hw := w.toNat_lt
  have hn : (UInt16.ofNat n).toNat = n := toNat_ofNat16 (by omega)
  rw [UInt16.toNat_sub_of_le, hn]
  rw [UInt16.le_iff_toNat_le, hn]
  exact h

theorem toNat_add_ofNat (w : UInt16) (n : Nat) :
    (w + UInt16.ofNat n).toNat = (w.toNat + n) % 2 ^ 16 := by
  rw [UInt16.toNat_add, UInt16.toNat_ofNat']
  omega

/-- Two numbers taken from a word are their sum taken from it. -/
theorem sub_ofNat_add (w : UInt16) (m n : Nat) :
    w - UInt16.ofNat (m + n) = w - UInt16.ofNat m - UInt16.ofNat n := by
  rw [UInt16.ofNat_add, UInt16.sub_eq_add_neg, UInt16.neg_add, UInt16.sub_eq_add_neg (-_),
    ← UInt16.add_assoc, ← UInt16.sub_eq_add_neg, ← UInt16.sub_eq_add_neg]

theorem add_ofNat_add (w : UInt16) (m n : Nat) :
    w + UInt16.ofNat (m + n) = w + UInt16.ofNat m + UInt16.ofNat n := by
  rw [UInt16.ofNat_add, UInt16.add_assoc]

end Minnow
