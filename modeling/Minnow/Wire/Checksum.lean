import Minnow.ByteStream
import Minnow.Lib.Loop
import Minnow.Lib.OnesComplement

/-!
# The Internet checksum (`util/checksum.hh`)

`add` sums the bytes as 16-bit words, the first byte of a word in its upper half; the parity says
whether the next byte is the second of its word, so a string may end inside a word. As long as the
sum keeps below `2 ^ 32` it is the initial sum and `weight` of the bytes, wherever they are cut.

`value` adds the carries up and takes the complement. `value_add_complement` is what a receiver
relies on: a sum that has the checksum in it has the value zero.
-/

namespace Minnow

structure InternetChecksum where
  sum : UInt32 := 0
  parity : Bool := false
  deriving DecidableEq

namespace InternetChecksum

def addByte (c : InternetChecksum) (i : UInt8) : InternetChecksum where
  sum := c.sum + (if c.parity then i.toUInt16 else i.toUInt16 <<< 8).toUInt32
  parity := !c.parity

def add (c : InternetChecksum) (data : Bytes) : InternetChecksum := data.foldl addByte c

/-- `add` of a range of strings. -/
def addAll (c : InternetChecksum) (data : List Bytes) : InternetChecksum := data.foldl add c

/-- `ret > 0xffff`. -/
def carries (ret : UInt32) : Bool := ret > 0xffff

def carry (ret : UInt32) : UInt32 := (ret >>> 16) + ret.toUInt16.toUInt32

/-- The loop of `value`. Two rounds are enough for any sum. -/
def carried (c : InternetChecksum) : UInt32 := loop carries carry 2 c.sum

def value (c : InternetChecksum) : UInt16 := ~~~c.carried.toUInt16

/-! ## The sum -/

/-- What the bytes add to a sum. -/
def weight : Bool → Bytes → Nat
  | _, [] => 0
  | parity, b :: data => (if parity then b.toNat else b.toNat * 2 ^ 8) + weight (!parity) data

variable {c : InternetChecksum} {data : Bytes} {n : Nat}

theorem weight_append (parity : Bool) (a b : Bytes) :
    weight parity (a ++ b) = weight parity a + weight (parity ^^ a.length.bodd) b := by
  induction a generalizing parity with
  | nil => simp [weight]
  | cons x a ih =>
    rw [List.cons_append, weight, ih, weight, Nat.add_assoc, List.length_cons, Nat.bodd_succ]
    cases parity <;> cases a.length.bodd <;> rfl

theorem weight_le (parity : Bool) (data : Bytes) : weight parity data ≤ 2 ^ 16 * data.length := by
  induction data generalizing parity with
  | nil => simp [weight]
  | cons b data ih =>
    have hb := b.toNat_lt
    have := ih (!parity)
    rw [weight, List.length_cons]
    split <;> omega

theorem addByte_sum {i : UInt8} (h : c.sum.toNat + weight c.parity [i] < 2 ^ 32) :
    (c.addByte i).sum.toNat = c.sum.toNat + weight c.parity [i] := by
  have hi := i.toNat_lt
  have hval : (if c.parity then i.toUInt16 else i.toUInt16 <<< 8).toUInt32.toNat =
      weight c.parity [i] := by
    cases c.parity with
    | true => simp [weight]
    | false =>
      simp [weight, Nat.shiftLeft_eq]
      omega
  unfold addByte
  rw [UInt32.toNat_add, hval]
  exact Nat.mod_eq_of_lt h

theorem add_sum (h : c.sum.toNat + weight c.parity data < 2 ^ 32) :
    (c.add data).sum.toNat = c.sum.toNat + weight c.parity data := by
  induction data generalizing c with
  | nil => rfl
  | cons i data ih =>
    have hcons : weight c.parity (i :: data) = weight c.parity [i] + weight (!c.parity) data :=
      weight_append c.parity [i] data |>.trans (by simp)
    rw [hcons] at h ⊢
    have hi : (c.addByte i).sum.toNat = c.sum.toNat + weight c.parity [i] :=
      addByte_sum (by omega)
    have hp : (c.addByte i).parity = !c.parity := rfl
    rw [show c.add (i :: data) = (c.addByte i).add data from rfl, ih (by rw [hi, hp]; omega),
      hi, hp, Nat.add_assoc]

theorem addAll_eq (c : InternetChecksum) (l : List Bytes) : c.addAll l = c.add l.flatten := by
  unfold addAll add
  rw [List.foldl_flatten]

/-! ## The value -/

theorem carries_iff (ret : UInt32) : carries ret = true ↔ 2 ^ 16 ≤ ret.toNat := by
  unfold carries
  rw [decide_eq_true_iff, gt_iff_lt, UInt32.lt_iff_toNat_lt]
  exact Nat.succ_le_iff.symm

theorem carry_toNat (ret : UInt32) : (carry ret).toNat = OnesComplement.carry ret.toNat := by
  have := ret.toNat_lt
  unfold carry OnesComplement.carry
  simp [Nat.shiftRight_eq_div_pow]
  omega

theorem carried_folded (c : InternetChecksum) :
    OnesComplement.Folded c.sum.toNat c.carried.toNat := by
  -- a sum below `2 ^ 32` is below `2 ^ 17 - 1` after one round and below `2 ^ 16` after two
  have hspec : (∀ r, OnesComplement.Folded c.carried.toNat r →
      OnesComplement.Folded c.sum.toNat r) ∧ carries c.carried = false := by
    refine loop_spec
      (fun ret : UInt32 =>
        ∀ r, OnesComplement.Folded ret.toNat r → OnesComplement.Folded c.sum.toNat r)
      (fun ret : UInt32 =>
        if ret.toNat < 2 ^ 16 then 0 else if ret.toNat < 2 ^ 17 - 1 then 1 else 2)
      (fun ret hret hg => ⟨fun r hr => hret r (.of_carry (carry_toNat ret ▸ hr)), ?_⟩)
      (fun r hr => hr) ?_
    · have hge := (carries_iff ret).mp hg
      have hfirst := OnesComplement.carry_lt_of_double ret.toNat_lt
      have hsecond : ret.toNat < 2 ^ 17 - 1 → OnesComplement.carry ret.toNat < 2 ^ 16 :=
        OnesComplement.carry_lt_of_sum
      rw [carry_toNat]
      split_ifs <;> omega
    · split_ifs <;> omega
  refine hspec.1 _ (.of_lt ?_)
  by_contra hge
  rw [(carries_iff _).mpr (Nat.le_of_not_lt hge)] at hspec
  simp at hspec

theorem value_eq (c : InternetChecksum) : c.value.toNat = 2 ^ 16 - 1 - c.carried.toNat := by
  have hlt := (carried_folded c).lt
  unfold value
  rw [UInt16.toNat_not, UInt32.toNat_toUInt16, Nat.mod_eq_of_lt hlt]
  rfl

/-- The value of a sum to which the value was added. -/
theorem value_add_complement {c' : InternetChecksum}
    (h : c'.sum.toNat = c.sum.toNat + c.value.toNat) : c'.value = 0 := by
  have hfold := carried_folded c'
  rw [h, value_eq c] at hfold
  have hfull := (carried_folded c).of_complement hfold
  refine UInt16.toNat_inj.mp ?_
  rw [value_eq c', hfull]
  rfl

/-! ## The sum of the words -/

theorem weight_words (data : Bytes) : weight false data = (OnesComplement.words data).sum := by
  induction data using OnesComplement.words.induct with
  | case1 => rfl
  | case2 a => simp [weight, OnesComplement.words]
  | case3 a b data ih =>
    rw [OnesComplement.words, List.sum_cons, ← ih, Nat.add_assoc]
    rfl

/-- From an initial sum, the running sum is the sum of the words read so far. -/
theorem add_words {sum : UInt32} (h : sum.toNat + (OnesComplement.words data).sum < 2 ^ 32) :
    (add { sum } data).sum.toNat = sum.toNat + (OnesComplement.words data).sum := by
  rw [← weight_words] at h ⊢
  exact add_sum h

/-- No datagram makes the sum overflow. -/
theorem words_fit {sum : UInt32} (hsum : sum.toNat < 2 ^ 20) (hlen : data.length ≤ 65535) :
    sum.toNat + (OnesComplement.words data).sum < 2 ^ 32 := by
  have h := OnesComplement.words_sum_le data
  have hwords : (data.length + 1) / 2 ≤ 2 ^ 15 := by omega
  have := Nat.mul_le_mul_right (2 ^ 16 - 1) hwords
  omega

/-- The checksum of strings of at most 65535 bytes in all is the complement of the one's complement
sum of the words of the initial sum and of the bytes one after another; no byte makes the running
sum overflow, and the cuts between the strings do not matter. -/
theorem value_is_complement (sum : UInt32) (data : List Bytes) (hsum : sum.toNat < 2 ^ 20)
    (hlen : (data.map List.length).sum ≤ 65535) :
    (addAll { sum } data).value = ~~~ UInt16.ofNat (OnesComplement.sum
      (sum.toNat / 2 ^ 16 :: sum.toNat % 2 ^ 16 :: OnesComplement.words data.flatten)) ∧
    (∀ read, read <+: data.flatten →
      sum.toNat + (OnesComplement.words read).sum < 2 ^ 32 ∧
      (add { sum } read).sum.toNat = sum.toNat + (OnesComplement.words read).sum) ∧
    ∀ split : List Bytes, split.flatten = data.flatten →
      (addAll { sum } split).value = (addAll { sum } data).value := by
  rw [← List.length_flatten] at hlen
  refine ⟨?_, fun read hread => ?_, fun split hsplit => ?_⟩
  · have hwords : ∀ w ∈ sum.toNat / 2 ^ 16 :: sum.toNat % 2 ^ 16 ::
        OnesComplement.words data.flatten, w < 2 ^ 16 := by
      rw [List.forall_mem_cons, List.forall_mem_cons]
      exact ⟨by omega, by omega, OnesComplement.words_lt _⟩
    have hspec := OnesComplement.sum_folded hwords
    have hcarried := carried_folded (addAll { sum } data)
    rw [addAll_eq, add_words (words_fit hsum hlen), ← addAll_eq] at hcarried
    rw [List.sum_cons, List.sum_cons] at hspec
    rw [← hcarried.unique hspec.of_words, UInt16.ofNat_uInt32ToNat]
    rfl
  · have hread' := words_fit hsum (hread.length_le.trans hlen)
    exact ⟨hread', add_words hread'⟩
  · rw [addAll_eq, addAll_eq, hsplit]

theorem value_is_complement_of_split :
    (addAll { sum := 0x1ffff } [[0x12], [], [0x34, 0x56]]).value =
      ~~~ UInt16.ofNat (OnesComplement.sum [0x1, 0xffff, 0x1234, 0x5600]) :=
  (value_is_complement 0x1ffff [[0x12], [], [0x34, 0x56]] (by decide) (by decide)).1

end InternetChecksum

end Minnow
