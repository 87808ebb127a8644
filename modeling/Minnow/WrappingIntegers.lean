import Minnow.Word
import Minnow.Lib.Nearest

/-!
# Wrapping integers (`src/wrapping_integers.cc`)

A `Wrap32` stands for the absolute sequence numbers that are equal to it modulo `2 ^ 32`, counted
from a zero point. `wrap` cuts an absolute number to 32 bits; `unwrap` picks the representative
nearest to a checkpoint by trying the three candidates around it.

`unwrap_nearest` says that no 64-bit representative is nearer than the one that is picked. What the
connection needs of it is the round trip `unwrap_wrap`: a number less than `2 ^ 31` away from the
checkpoint comes back as itself.
-/

namespace Minnow

structure Wrap32 where
  rawValue : UInt32
  deriving DecidableEq

namespace Wrap32

/-- `operator+( uint32_t n )`; the argument of the source is converted to `uint32_t` first. -/
def add (w : Wrap32) (n : Nat) : Wrap32 := ⟨w.rawValue + UInt32.ofNat n⟩

def wrap (n : Nat) (zeroPoint : Wrap32) : Wrap32 := ⟨zeroPoint.rawValue + UInt32.ofNat n⟩

/-- `( a >= b ) ? a - b : b - a`. -/
def distance (a b : Nat) : Nat := if a ≥ b then a - b else b - a

/-- The loop over the candidate blocks `xs`: keep the nearer of `closest` and the representative
in block `x`. -/
def unwrapLoop (checkpoint diff : Nat) : List Nat → Nat → Nat → Nat
  | [], closest, _ => closest
  | x :: xs, closest, currentDiff =>
    let newClosest := (x * 2 ^ 32 + diff) % 2 ^ 64
    let newDiff := distance checkpoint newClosest
    if newDiff < currentDiff then unwrapLoop checkpoint diff xs newClosest newDiff
    else unwrapLoop checkpoint diff xs closest currentDiff

def unwrap (w : Wrap32) (zeroPoint : Wrap32) (checkpoint : Nat) : Nat :=
  let diff := (w.rawValue - zeroPoint.rawValue).toNat
  let mult := checkpoint / 2 ^ 32
  let closest := if mult = 0 then diff else (mult - 1) * 2 ^ 32 + diff
  unwrapLoop checkpoint diff [mult, mult + 1] closest (distance checkpoint closest)

theorem wrap_diff (n : Nat) (z : Wrap32) :
    ((wrap n z).rawValue - z.rawValue).toNat = n % 2 ^ 32 := by
  have hz := z.rawValue.toNat_lt
  simp only [wrap, UInt32.toNat_sub, UInt32.toNat_add, UInt32.toNat_ofNat']
  omega

/-- Two absolute numbers wrap to the same value iff they agree modulo `2 ^ 32`. -/
theorem wrap_inj {m n : Nat} {z : Wrap32} : wrap m z = wrap n z ↔ m % 2 ^ 32 = n % 2 ^ 32 := by
  constructor
  · intro h
    rw [← wrap_diff m z, ← wrap_diff n z, h]
  · intro h
    have he : UInt32.ofNat m = UInt32.ofNat n := by
      apply UInt32.toNat_inj.mp
      simpa [UInt32.toNat_ofNat'] using h
    rw [wrap, wrap, he]

theorem wrap_zero (z : Wrap32) : wrap 0 z = z := by
  cases z
  simp [wrap]

theorem wrap_add (m n : Nat) (z : Wrap32) : (wrap m z).add n = wrap (m + n) z := by
  simp only [wrap, add, UInt32.ofNat_add, UInt32.add_assoc]

theorem add_zero (w : Wrap32) : w.add 0 = w := by
  cases w
  simp [add]

/-- At checkpoint `0` the smallest representative is the nearest. -/
theorem unwrap_checkpoint_zero (w z : Wrap32) :
    w.unwrap z 0 = (w.rawValue - z.rawValue).toNat := by
  have hlt := (w.rawValue - z.rawValue).toNat_lt
  unfold unwrap
  generalize (w.rawValue - z.rawValue).toNat = n at *
  have h₁ : (0 * 2 ^ 32 + n) % 2 ^ 64 = n := by omega
  have h₂ : ((0 + 1) * 2 ^ 32 + n) % 2 ^ 64 = 2 ^ 32 + n := by omega
  simp only [Nat.zero_div, if_true, unwrapLoop, h₁, h₂, distance]
  repeat' split
  all_goals omega

/-! ## The nearest representative -/

/-- One round of the loop, started with the distance of `closest`. -/
theorem unwrapLoop_cons (checkpoint diff x : Nat) (xs : List Nat) (closest : Nat) :
    unwrapLoop checkpoint diff (x :: xs) closest (distance checkpoint closest) =
      let n := (x * 2 ^ 32 + diff) % 2 ^ 64
      let u := if distance checkpoint n < distance checkpoint closest then n else closest
      unwrapLoop checkpoint diff xs u (distance checkpoint u) := by
  rw [unwrapLoop]
  split
  · rename_i h
    simp only [if_pos h]
  · rename_i h
    simp only [if_neg h]

/-- The numbers of the first `blocks` blocks of `2 ^ 32` that are `diff` modulo `2 ^ 32`. -/
def representatives (diff blocks : Nat) : Set Nat :=
  {v | v % 2 ^ 32 = diff ∧ v < 2 ^ 32 * blocks}

variable {diff c x : Nat} {w z : Wrap32}

theorem wrap_eq_iff {v : Nat} :
    wrap v z = w ↔ v % 2 ^ 32 = (w.rawValue - z.rawValue).toNat := by
  rw [← wrap_diff v z, UInt32.toNat_inj, UInt32.sub_left_inj]
  exact ⟨congrArg rawValue, fun h => by cases w; exact congrArg mk h⟩

theorem mem_representatives {v blocks : Nat} :
    v ∈ representatives diff blocks ↔ v % 2 ^ 32 = diff ∧ v < 2 ^ 32 * blocks := Iff.rfl

theorem block_mem_representatives {blocks : Nat} (hd : diff < 2 ^ 32) :
    x * 2 ^ 32 + diff ∈ representatives diff blocks ↔ x < blocks := by
  rw [mem_representatives]
  omega

theorem representatives_mono {a b : Nat} (h : a ≤ b) :
    representatives diff a ⊆ representatives diff b := fun v hv => by
  rw [mem_representatives] at hv ⊢
  omega

theorem insert_representatives {blocks : Nat} (hd : diff < 2 ^ 32) (hx : x ≤ blocks) :
    insert (x * 2 ^ 32 + diff) (representatives diff blocks) =
      representatives diff (max blocks (x + 1)) := by
  ext v
  rw [Set.mem_insert_iff, mem_representatives, mem_representatives]
  omega

/-- Cut to 64 bits, a number past the last block is one of the first blocks again. -/
theorem block_mod (hd : diff < 2 ^ 32) :
    (x * 2 ^ 32 + diff) % 2 ^ 64 = x % 2 ^ 32 * 2 ^ 32 + diff := by
  omega

/-- Of the numbers up to a block below the checkpoint, the last is the nearest. -/
theorem nearest_first (hd : diff < 2 ^ 32) (hx : x = 0 ∨ (x + 1) * 2 ^ 32 ≤ c) :
    IsNearest (distance c) (representatives diff (x + 1)) (x * 2 ^ 32 + diff) where
  mem := (block_mem_representatives hd).mpr (by omega)
  le v hv := by
    obtain ⟨hmod, hlt⟩ := hv
    unfold distance
    split_ifs <;> omega
  tie v hv heq := by
    obtain ⟨hmod, hlt⟩ := hv
    unfold distance at heq
    split_ifs at heq <;> omega

/-- A round that tries the number of block `x`. -/
theorem nearest_round {blocks closest : Nat} (hd : diff < 2 ^ 32) (hx : x ≤ blocks)
    (h : IsNearest (distance c) (representatives diff blocks) closest) :
    IsNearest (distance c) (representatives diff (max blocks (x + 1)))
      (if distance c (x * 2 ^ 32 + diff) < distance c closest then x * 2 ^ 32 + diff
        else closest) := by
  rw [← insert_representatives hd hx]
  refine h.insert_above ?_
  rw [block_mem_representatives hd, or_iff_not_imp_left]
  rintro hnot v ⟨hmod, hlt⟩
  omega

/-- `unwrap` ends with the nearest of all the 64-bit representatives. -/
theorem unwrap_nearest (w z : Wrap32) (hc : c < 2 ^ 64) :
    IsNearest (distance c) (representatives (w.rawValue - z.rawValue).toNat (2 ^ 32))
      (w.unwrap z c) := by
  have hd := (w.rawValue - z.rawValue).toNat_lt
  unfold unwrap
  dsimp only
  generalize (w.rawValue - z.rawValue).toNat = diff at *
  have hblock := Nat.div_add_mod c (2 ^ 32)
  have hlow := Nat.mod_lt c (show 0 < 2 ^ 32 by decide)
  generalize c % 2 ^ 32 = s at *
  generalize c / 2 ^ 32 = m at *
  have hfirst : IsNearest (distance c) (representatives diff (m - 1 + 1))
      (if m = 0 then diff else (m - 1) * 2 ^ 32 + diff) := by
    split
    · rename_i hzero
      subst hzero
      simpa using nearest_first (c := c) (x := 0) hd (.inl rfl)
    · exact nearest_first hd (.inr (by omega))
  generalize (if m = 0 then diff else (m - 1) * 2 ^ 32 + diff) = first at *
  have hm : m % 2 ^ 32 = m := Nat.mod_eq_of_lt (by omega)
  have hsecond := nearest_round (x := m) hd (by omega) hfirst
  rw [unwrapLoop_cons, unwrapLoop_cons, block_mod hd, block_mod hd, hm]
  simp only [unwrapLoop]
  -- in the last block the third number is cut to 64 bits and is the one of block `0` again
  have hthird := nearest_round (x := (m + 1) % 2 ^ 32) hd (by omega) hsecond
  refine hthird.of_subset (representatives_mono (by omega)) fun v hv hnot => ?_
  · have hle := hthird.le _ ((block_mem_representatives (x := m) hd).mpr (by omega))
    refine lt_of_le_of_lt hle ?_
    rw [mem_representatives] at hv hnot
    unfold distance
    split_ifs <;> omega

/-- The round trip: a number less than `2 ^ 31` away from the checkpoint is recovered. -/
theorem unwrap_wrap {n : Nat} (z : Wrap32) (hn : n < 2 ^ 64) (hc : c < 2 ^ 64)
    (h₁ : n < c + 2 ^ 31) (h₂ : c < n + 2 ^ 31) : (wrap n z).unwrap z c = n := by
  have hnear := unwrap_nearest (wrap n z) z hc
  rw [wrap_diff] at hnear
  have hle := hnear.le n (mem_representatives.mpr ⟨rfl, hn⟩)
  have hmod := (mem_representatives.mp hnear.mem).1
  generalize (wrap n z).unwrap z c = u at *
  unfold distance at hle
  split_ifs at hle <;> omega

theorem distance_eq (a b : Nat) : (distance a b : Int) = |(b : Int) - a| := by
  unfold distance
  split
  · rw [abs_of_nonpos (by omega)]
    omega
  · rw [abs_of_nonneg (by omega)]
    omega

/-- `unwrap` returns the nearest of the 64-bit numbers that wrap to the value, and the smaller one
of two at the same distance. What it returns is the number of a block next to the checkpoint's, so
none that was cut to 64 bits; and a number less than `2 ^ 31` away comes back. -/
theorem unwrap_returns_nearest (w z : Wrap32) (c : UInt64) :
    (w.unwrap z c.toNat < 2 ^ 64 ∧ wrap (w.unwrap z c.toNat) z = w) ∧
    (∀ v : UInt64, wrap v.toNat z = w →
      |(w.unwrap z c.toNat : Int) - c.toNat| ≤ |(v.toNat : Int) - c.toNat| ∧
      (|(w.unwrap z c.toNat : Int) - c.toNat| = |(v.toNat : Int) - c.toNat| →
        w.unwrap z c.toNat ≤ v.toNat)) ∧
    (∃ x, c.toNat / 2 ^ 32 ≤ x + 1 ∧ x ≤ c.toNat / 2 ^ 32 + 1 ∧
      w.unwrap z c.toNat = x * 2 ^ 32 + (w.rawValue - z.rawValue).toNat) ∧
    ∀ n : UInt64, |(n.toNat : Int) - c.toNat| < 2 ^ 31 →
      (wrap n.toNat z).unwrap z c.toNat = n.toNat := by
  have hc := c.toNat_lt
  have hd := (w.rawValue - z.rawValue).toNat_lt
  have hnear := unwrap_nearest w z hc
  obtain ⟨hmod, hlt⟩ := mem_representatives.mp hnear.mem
  refine ⟨⟨hlt, wrap_eq_iff.mpr hmod⟩, fun v hv => ?_, ?_, fun n hn => ?_⟩
  · have hmem : v.toNat ∈ representatives (w.rawValue - z.rawValue).toNat (2 ^ 32) :=
      mem_representatives.mpr ⟨wrap_eq_iff.mp hv, v.toNat_lt⟩
    simp only [← distance_eq, Int.ofNat_le, Int.ofNat_inj]
    exact ⟨hnear.le _ hmem, hnear.tie _ hmem⟩
  · -- the number of the checkpoint's block is less than a block away, so the nearest one is
    have hle := hnear.le _ ((block_mem_representatives (x := c.toNat / 2 ^ 32) hd).mpr (by omega))
    generalize w.unwrap z c.toNat = u at *
    refine ⟨u / 2 ^ 32, ?_, ?_, by omega⟩ <;>
    · unfold distance at hle
      split_ifs at hle <;> omega
  · rw [abs_lt] at hn
    exact unwrap_wrap z n.toNat_lt hc (by omega) (by omega)

end Wrap32

end Minnow
