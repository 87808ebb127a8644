import Minnow.Tcp.Receiver

/-!
# Segments before the SYN

A receiver that has seen no SYN should ignore what it gets. It inserts the payload all the same,
at the raw sequence number as stream index. That is harmless only if the reassembler finds nothing
to keep there: `Ignorable`, which asks that the bytes lie beyond the window, and so does the end
if the segment has a FIN.

`insert_fresh` is the fact about the reassembler. `before_syn_ignored` is the statement about two
runs: the receiver after such segments and a fresh one cannot be told apart by any sequence of
segments and reads, since they differ in the stored ackno only and `send` does not report it.
-/

namespace Minnow

namespace TCPReceiver

open Reassembler

/-- Without a SYN, the segment brings neither a byte nor the end of the stream into the window of a
fresh reassembler, which takes the raw sequence number for a stream index. -/
def Ignorable (capacity : Nat) (message : TCPSenderMessage) : Prop :=
  let index := message.seqno.rawValue.toNat
  let lastAvailable := clampInt (sub64 capacity 1)
  let last := lastDataIndex index message.payload.length
  (message.payload = [] ∨ capacity ≤ index ∨ min lastAvailable last < index) ∧
    (message.fin = true → lastAvailable < last)

instance (capacity : Nat) (message : TCPSenderMessage) :
    Decidable (Ignorable capacity message) := by
  unfold Ignorable
  infer_instance

section

variable {capacity : Nat} {message : TCPSenderMessage} {m : Cache}

/-! ## The fresh reassembler -/

theorem lastAvailableIndex_new (h : capacity < 2 ^ 64) :
    (new capacity).reassembler.lastAvailableIndex = clampInt (sub64 capacity 1) := by
  unfold lastAvailableIndex
  have ha : (new capacity).reassembler.output.availableCapacity = capacity :=
    (ByteStream.WF.new h).availableCapacity_eq
  have hp : (new capacity).reassembler.bytesPushed = 0 := rfl
  rw [ha, hp, add64_of_lt (by omega), Nat.zero_add]

/-- A stream without room takes nothing. -/
theorem push_zero (d : Bytes) : ({ capacity := 0 } : ByteStream).push d = { capacity := 0 } := by
  have ha : ({ capacity := 0 } : ByteStream).availableCapacity = 0 :=
    (ByteStream.WF.new (by decide)).availableCapacity_eq
  unfold ByteStream.push ByteStream.compact
  simp [ha]

/-- Flushing a fresh reassembler is without effect if no segment is left and no byte gets into the
output. -/
theorem flush_new {n next : Nat} {d : Bytes} (hq : popReady m.entries 0 = (n, next, d))
    (hm : m.entries.drop n = []) (hd : d = [] ∨ capacity = 0) :
    flush { output := { capacity }, cache := m } = (new capacity).reassembler := by
  have hc : m.drop n = OrdMap.empty := OrdMap.ext_entries hm
  have hfresh : (Reassembler.mk { capacity } OrdMap.empty false (2 ^ 64 - 1)).pushReady d =
      (new capacity).reassembler := by
    unfold pushReady
    split
    · rfl
    · rename_i hne
      rcases hd with rfl | rfl
      · exact absurd rfl hne
      · rw [push_zero]
        rfl
  have hq' : popReady (Reassembler.mk { capacity } m false (2 ^ 64 - 1)).cache.entries
      (Reassembler.mk { capacity } m false (2 ^ 64 - 1)).bytesPushed = (n, next, d) := hq
  unfold flush
  rw [hq']
  dsimp only
  rw [hc, hfresh]
  rfl

/-- The bytes start behind the last index that is kept, so nothing is stored. -/
theorem store_new_behind {index : Nat} {data : Bytes}
    (h : (new capacity).reassembler.lastIndex index data.length < index) :
    (new capacity).reassembler.store index data = .ok OrdMap.empty := by
  have hp : (new capacity).reassembler.bytesPushed = 0 := rfl
  unfold store
  rw [hp, Nat.zero_max]
  dsimp only
  rw [if_neg (by simp; omega)]
  rfl

/-- At index `0`, with one last index kept: an entry of one byte or of none. -/
theorem store_new_zero {data : Bytes}
    (h : (new capacity).reassembler.lastIndex 0 data.length = 0) :
    (new capacity).reassembler.store 0 data = .ok (OrdMap.empty.set 0 (0, data.take 1)) := by
  have hp : (new capacity).reassembler.bytesPushed = 0 := rfl
  have hone : add64 (sub64 0 0) 1 = 1 := by decide
  unfold store
  rw [hp, Nat.max_self, h]
  dsimp only
  have hin : (view data 0 (min 1 data.length)).Inside := view_inside.mpr (by omega)
  rw [hone, show sub64 0 0 = 0 by decide, hin.string, toList_view (by omega), List.drop_zero,
    ← List.take_eq_take_min]
  rfl

theorem insert_fresh (hcap : capacity < 2 ^ 64) (h : Ignorable capacity message) :
    (new capacity).reassembler.insert message.seqno.rawValue.toNat message.payload message.fin =
      .ok (new capacity).reassembler := by
  have hlt : message.seqno.rawValue.toNat < 2 ^ 64 := by
    have := message.seqno.rawValue.toNat_lt
    omega
  obtain ⟨hdata, hfin⟩ := h
  generalize message.seqno.rawValue.toNat = index at *
  have hmark : (new capacity).reassembler.markEnd index message.payload.length message.fin =
      (new capacity).reassembler := by
    unfold markEnd
    refine if_neg fun hc => ?_
    rw [Bool.and_eq_true] at hc
    have hle := of_decide_eq_true hc.2
    rw [lastAvailableIndex_new hcap] at hle
    exact absurd (hfin hc.1) (by omega)
  rw [insert_eq, hmark]
  split
  · rfl
  · rename_i ho
    by_cases hL : (new capacity).reassembler.lastIndex index message.payload.length < index
    · rw [store_new_behind hL]
      exact congrArg Except.ok (flush_new (n := 0) rfl rfl (.inl rfl))
    · -- only index `0` is left: the phantom of an empty payload, or a window without room
      have hle : (new capacity).reassembler.lastIndex index message.payload.length =
          min (clampInt (sub64 capacity 1)) (lastDataIndex index message.payload.length) := by
        unfold lastIndex
        rw [lastAvailableIndex_new hcap]
      have hzero : index = 0 ∧ (message.payload = [] ∨ capacity = 0) ∧
          (new capacity).reassembler.lastIndex index message.payload.length = 0 := by
        rcases hdata with hd | hd | hd
        · have h0 : index = 0 := by
            by_contra hpos
            have hlast : lastDataIndex index message.payload.length ≤ index - 1 := by
              unfold lastDataIndex
              rw [hd, List.length_nil, add64_of_lt (by omega), sub64_of_le (by omega) (by omega)]
              exact clampInt_le _
            omega
          rw [hle, h0, hd, List.length_nil, lastDataIndex_zero, Nat.min_zero]
          exact ⟨rfl, .inl rfl, rfl⟩
        · have hin : index ≤ sub64 capacity 1 := by
            have ha : (new capacity).reassembler.output.availableCapacity = capacity :=
              (ByteStream.WF.new hcap).availableCapacity_eq
            have hp : (new capacity).reassembler.bytesPushed = 0 := rfl
            unfold outsideWindow at ho
            rw [ha, hp, add64_of_lt (by omega), Nat.zero_add] at ho
            simp only [Bool.or_eq_true, decide_eq_true_eq, not_or] at ho
            omega
          have hc : capacity = 0 := by
            by_contra hpos
            rw [sub64_of_le (by omega) hcap] at hin
            omega
          have hclamp : clampInt (sub64 0 1) = 0 := by decide
          rw [hle, hc, hclamp, Nat.zero_min] at hL ⊢
          exact ⟨by omega, .inr rfl, rfl⟩
        · omega
      obtain ⟨rfl, hd, h0⟩ := hzero
      rw [store_new_zero h0]
      refine congrArg Except.ok (flush_new (n := 1) (d := message.payload.take 1 ++ []) rfl rfl ?_)
      rcases hd with hd | hd
      · rw [hd]
        exact .inl rfl
      · exact .inr hd

/-! ## The two runs -/

/-- Before the SYN, a stream index is a raw sequence number. -/
theorem unwrap_raw (w : Wrap32) : (w.add 0).unwrap ⟨0⟩ 0 = w.rawValue.toNat := by
  rw [Wrap32.add_zero, Wrap32.unwrap_checkpoint_zero, UInt32.sub_zero]

/-- An ignorable segment changes nothing but the stored ackno. -/
theorem receive_ignorable (hcap : capacity < 2 ^ 64) (hs : message.syn = false)
    (hr : message.rst = false) (h : Ignorable capacity message) (a : Option Wrap32) :
    ∃ a', ({ new capacity with ackno := a }).receive message =
      .ok { new capacity with ackno := a' } := by
  have hflags : ({ new capacity with ackno := a }).takeFlags message =
      { new capacity with ackno := a } := by
    unfold takeFlags
    simp [hs, new]
  have hindex : ({ new capacity with ackno := a }).streamFirstSeqno message =
      message.seqno.rawValue.toNat := by
    unfold streamFirstSeqno
    rw [hs]
    exact unwrap_raw message.seqno
  have herr : ({ new capacity with ackno := a }).output.hasError = false := rfl
  unfold receive
  rw [hr, herr, Bool.or_self, if_neg Bool.false_ne_true, hflags]
  dsimp only
  rw [hindex, insert_fresh hcap h]
  exact ⟨_, rfl⟩

/-- What a run of a receiver shows after each operation. -/
structure Observation where
  output : Bytes
  bytesPushed : Nat
  isClosed : Bool
  message : TCPReceiverMessage
  deriving DecidableEq

def observe (t : TCPReceiver) : Observation where
  output := t.output.peek
  bytesPushed := t.bytesPushed
  isClosed := t.isClosed
  message := t.send

/-- The observations of a run, up to the first failure. -/
def observations : TCPReceiver → List Op → List (Except Fault Observation)
  | _, [] => []
  | t, op :: ops =>
    match t.step op with
    | .ok t' => .ok t'.observe :: observations t' ops
    | .error f => [.error f]

/-- The receivers differ at most in an ackno that is not reported. -/
def SameUpToAckno (t u : TCPReceiver) : Prop :=
  t = u ∨ u.synSet = false ∧ ∃ a, t = { u with ackno := a }

theorem SameUpToAckno.observe {t u : TCPReceiver} (h : SameUpToAckno t u) :
    t.observe = u.observe := by
  rcases h with rfl | ⟨hs, a, rfl⟩
  · rfl
  · unfold TCPReceiver.observe TCPReceiver.send
    simp only [hs]
    rfl

/-- One operation on the two receivers: both fail alike, or they stay alike. -/
theorem SameUpToAckno.step {t u : TCPReceiver} (h : SameUpToAckno t u) (op : Op) :
    (∃ f, t.step op = .error f ∧ u.step op = .error f) ∨
      ∃ t' u', t.step op = .ok t' ∧ u.step op = .ok u' ∧ SameUpToAckno t' u' := by
  rcases h with rfl | ⟨hs, a, rfl⟩
  · cases ht : t.step op with
    | error f => exact .inl ⟨f, rfl, rfl⟩
    | ok t' => exact .inr ⟨t', t', rfl, rfl, .inl rfl⟩
  · cases op with
    | read len => exact .inr ⟨_, _, rfl, rfl, .inr ⟨hs, a, rfl⟩⟩
    | receive message =>
      show (∃ f, receive _ message = _ ∧ receive _ message = _) ∨
        ∃ t' u', receive _ message = _ ∧ receive _ message = _ ∧ _
      unfold receive
      rw [show output { u with ackno := a } = u.output from rfl]
      split
      · exact .inr ⟨_, _, rfl, rfl, .inr ⟨hs, a, rfl⟩⟩
      · dsimp only
        -- the segment is inserted alike, and the ackno that is stored then is the same
        rw [show takeFlags { u with ackno := a } message =
          { u.takeFlags message with ackno := a } from rfl]
        cases hins : u.reassembler.insert ((u.takeFlags message).streamFirstSeqno message)
            message.payload message.fin with
        | error f =>
          refine .inl ⟨f, ?_, ?_⟩ <;> exact congrArg (· >>= _) hins
        | ok r' =>
          refine .inr ⟨_, _, congrArg (· >>= _) hins, congrArg (· >>= _) hins, .inl rfl⟩

theorem SameUpToAckno.observations {t u : TCPReceiver} (h : SameUpToAckno t u) (ops : List Op) :
    t.observations ops = u.observations ops := by
  induction ops generalizing t u with
  | nil => rfl
  | cons op ops ih =>
    unfold TCPReceiver.observations
    rcases h.step op with ⟨f, ht, hu⟩ | ⟨t', u', ht, hu, h'⟩
    · rw [ht, hu]
    · rw [ht, hu]
      simp only [h'.observe, ih h']

/-- A segment that may come before the SYN. -/
def BeforeSyn (message : TCPSenderMessage) : Prop := message.syn = false ∧ message.rst = false

instance (message : TCPSenderMessage) : Decidable (BeforeSyn message) :=
  inferInstanceAs (Decidable (_ ∧ _))

/-- Segments without SYN and RST that a fresh reassembler has no use for: they are all taken,
nothing is pushed, stored or closed, and nothing that comes later tells the receiver from a fresh
one. -/
theorem before_syn_ignored (capacity : Nat) (hcap : capacity < 2 ^ 64)
    (segments : List TCPSenderMessage)
    (h : ∀ m ∈ segments, BeforeSyn m ∧ Ignorable capacity m) :
    ∃ t, Machine.exec step (new capacity) (segments.map .receive) = .ok t ∧
      t.reassembler = (new capacity).reassembler ∧
      ∀ ops, t.observations ops = (new capacity).observations ops := by
  have hrun : ∀ a, ∃ a', Machine.exec step { new capacity with ackno := a }
      (segments.map .receive) = .ok { new capacity with ackno := a' } := by
    induction segments with
    | nil => exact fun a => ⟨a, rfl⟩
    | cons m segments ih =>
      intro a
      obtain ⟨⟨hs, hr⟩, hi⟩ := h m List.mem_cons_self
      obtain ⟨a₁, ha₁⟩ := receive_ignorable hcap hs hr hi a
      obtain ⟨a', ha'⟩ := ih (fun m hm => h m (List.mem_cons_of_mem _ hm)) a₁
      refine ⟨a', ?_⟩
      rw [List.map_cons, Machine.exec, List.foldlM_cons]
      show (receive _ m >>= _) = _
      rw [ha₁]
      exact ha'
  obtain ⟨a, ha⟩ := hrun none
  exact ⟨_, ha, rfl, fun ops => SameUpToAckno.observations (.inr ⟨rfl, a, rfl⟩) ops⟩

/-- A byte and a FIN beyond the window of four bytes. -/
theorem before_syn_ignored_beyond :
    ∃ t, Machine.exec step (new 4) ([{ seqno := ⟨4⟩, payload := [97], fin := true }].map .receive) =
        .ok t ∧
      t.reassembler = (new 4).reassembler ∧
      ∀ ops, t.observations ops = (new 4).observations ops :=
  before_syn_ignored 4 (by decide) _ (by decide)

/-- A byte at raw sequence number `0`, before the SYN, is pushed. -/
theorem pushed_before_syn : BeforeSyn { payload := [97] } ∧
    ∃ t, Machine.exec step (new 4) [.receive { payload := [97] }] = .ok t ∧ t.bytesPushed = 1 := by
  refine ⟨by decide, Machine.Ends.exec_eq ?_⟩
  decide +kernel

end

end TCPReceiver

end Minnow
