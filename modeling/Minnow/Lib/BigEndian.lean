import Mathlib

/-!
# Big-endian numbers

`encode n v` are the last `n` bytes of `v`, the highest one first; `decodeFrom out` shifts bytes
into a number one by one. `decodeFrom_encode` is the round trip: the number that was there, moved
up, and the last `n` bytes of `v`.
-/

namespace Minnow

namespace BigEndian

def encode : Nat → Nat → List UInt8
  | 0, _ => []
  | n + 1, v => UInt8.ofNat (v >>> (8 * n)) :: encode n v

def decodeFrom (out : Nat) (bytes : List UInt8) : Nat :=
  bytes.foldl (fun out b => out <<< 8 ||| b.toNat) out

@[simp] theorem encode_length (n v : Nat) : (encode n v).length = n := by
  induction n with
  | zero => rfl
  | succ n ih => simp [encode, ih]

theorem shift_or (out : Nat) (b : UInt8) : out <<< 8 ||| b.toNat = out * 2 ^ 8 + b.toNat := by
  rw [← Nat.shiftLeft_add_eq_or_of_lt (by simpa using b.toNat_lt), Nat.shiftLeft_eq]

theorem decodeFrom_encode (out n v : Nat) :
    decodeFrom out (encode n v) = out * 2 ^ (8 * n) + v % 2 ^ (8 * n) := by
  induction n generalizing out with
  | zero => simp [encode, decodeFrom, Nat.mod_one]
  | succ n ih =>
    have hmod : v % 2 ^ (8 * (n + 1)) =
        v >>> (8 * n) % 2 ^ 8 * 2 ^ (8 * n) + v % 2 ^ (8 * n) := by
      rw [Nat.shiftRight_eq_div_pow, Nat.mul_succ, Nat.pow_add, Nat.mod_mul, Nat.add_comm,
        Nat.mul_comm]
    calc decodeFrom out (encode (n + 1) v)
        = decodeFrom (out * 2 ^ 8 + v >>> (8 * n) % 2 ^ 8) (encode n v) := by
          rw [encode, decodeFrom, List.foldl_cons, shift_or, UInt8.toNat_ofNat']
          rfl
      _ = (out * 2 ^ 8 + v >>> (8 * n) % 2 ^ 8) * 2 ^ (8 * n) + v % 2 ^ (8 * n) := ih _
      _ = out * 2 ^ (8 * (n + 1)) + v % 2 ^ (8 * (n + 1)) := by
          rw [hmod, Nat.add_mul, Nat.mul_assoc, ← Nat.pow_add, Nat.mul_succ, Nat.add_comm 8,
            Nat.add_assoc]

theorem decode_encode {n v : Nat} (h : v < 2 ^ (8 * n)) : decodeFrom 0 (encode n v) = v := by
  rw [decodeFrom_encode, Nat.zero_mul, Nat.zero_add, Nat.mod_eq_of_lt h]

end BigEndian

end Minnow
