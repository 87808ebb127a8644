import Minnow.ByteStream
import Minnow.Lib.Machine

/-!
# The byte stream as a queue

`read` is the helper of `src/byte_stream_helpers.cc`: it peeks and pops until it has `maxLen` bytes
or the stream has no more. In a well formed stream one round is enough, since `peek` shows all that
is buffered (`WF.read`).

A `History` is a stream with a record of its run: the bytes that were accepted and the bytes that
were popped. `stream_is_fifo` is about every state that pushes, closes, pops and reads can reach,
and so is `storage_is_bounded`, about the vector that holds the bytes.
The counters are natural numbers, which a `uint64_t` holds for the first `2 ^ 64` bytes of a stream.
-/

namespace Minnow

namespace ByteStream

/-! ## The helper `read` -/

/-- `runtime_error` thrown by `read`, or a loop that does not end. -/
inductive ReadFault where
  | emptyView
  | endless
  deriving DecidableEq

/-- The loop of `read`. Each round pops a byte at least, so the bytes that are buffered bound the
rounds. -/
def readLoop (maxLen : Nat) : Nat → Bytes → ByteStream → Except ReadFault (Bytes × ByteStream)
  | 0, _, _ => .error .endless
  | rounds + 1, out, s =>
    if s.bytesBuffered ≠ 0 ∧ out.length < maxLen then
      if s.peek.isEmpty then .error .emptyView
      else
        let view := s.peek.take (maxLen - out.length)
        readLoop maxLen rounds (out ++ view) (s.pop view.length)
    else .ok (out, s)

def read (s : ByteStream) (maxLen : Nat) : Except ReadFault (Bytes × ByteStream) :=
  readLoop maxLen (s.bytesBuffered + 1) [] s

variable {s : ByteStream}

theorem readLoop_done {maxLen rounds : Nat} {out : Bytes}
    (h : s.bytesBuffered = 0 ∨ maxLen ≤ out.length) :
    readLoop maxLen (rounds + 1) out s = .ok (out, s) := by
  unfold readLoop
  rw [if_neg]
  omega

theorem WF.bytesBuffered_eq (h : s.WF) : s.bytesBuffered = s.peek.length := h.peek_length.symm

/-- A pop takes no more than there is. -/
theorem pop_take_length (h : s.WF) (len : Nat) : s.pop (s.peek.take len).length = s.pop len := by
  have hlen : min (s.peek.take len).length s.bytesBuffered = min len s.bytesBuffered := by
    rw [List.length_take, ← h.bytesBuffered_eq]
    omega
  unfold pop
  rw [hlen]

/-- `read` returns the first bytes of the queue and pops just those. -/
theorem WF.read (h : s.WF) (maxLen : Nat) :
    s.read maxLen = .ok (s.peek.take maxLen, s.pop maxLen) := by
  unfold ByteStream.read
  by_cases hnone : s.bytesBuffered = 0 ∨ maxLen = 0
  · have hout : s.peek.take maxLen = [] := by
      rw [List.take_eq_nil_iff, ← List.length_eq_zero_iff, ← h.bytesBuffered_eq]
      tauto
    have hpop : s.pop maxLen = s := by
      rw [← pop_take_length h, hout]
      exact pop_zero h
    rw [readLoop_done (by simp; omega), hout, hpop]
  · have hpos : s.bytesBuffered ≠ 0 := fun h0 => hnone (.inl h0)
    have hmax : maxLen ≠ 0 := fun h0 => hnone (.inr h0)
    obtain ⟨rounds, hrounds⟩ := Nat.exists_eq_succ_of_ne_zero hpos
    have hpeek : s.peek.isEmpty = false := by
      rw [List.isEmpty_eq_false_iff, ← List.length_pos_iff, ← h.bytesBuffered_eq]
      omega
    -- after one round the queue is empty, or `maxLen` bytes are read
    have hdone : (s.pop maxLen).bytesBuffered = 0 ∨ maxLen ≤ (s.peek.take maxLen).length := by
      rw [(h.pop maxLen).bytesBuffered_eq, pop_peek h, List.length_drop, List.length_take]
      omega
    unfold readLoop
    rw [if_pos ⟨hpos, by simpa using Nat.pos_of_ne_zero hmax⟩, hpeek]
    simp only [Bool.false_eq_true, if_false, List.length_nil, Nat.sub_zero, List.nil_append]
    rw [pop_take_length h, hrounds]
    exact readLoop_done hdone

/-! ## Runs -/

inductive Op where
  | push (data : Bytes)
  | close
  | pop (len : Nat)
  | read (maxLen : Nat)

structure History where
  stream : ByteStream
  accepted : Bytes := []
  popped : Bytes := []

namespace History

def new (capacity : Nat) : History where
  stream := { capacity }

/-- A push accepts what fits; a pop takes the first bytes that `peek` shows. -/
def step (h : History) : Op → Except ReadFault History
  | .push data => return { h with
      stream := h.stream.push data
      accepted := h.accepted ++ data.take (min data.length h.stream.availableCapacity) }
  | .close => return { h with stream := h.stream.close }
  | .pop len => return { h with
      stream := h.stream.pop len
      popped := h.popped ++ h.stream.peek.take (min len h.stream.bytesBuffered) }
  | .read maxLen => do
    let (out, stream) ← h.stream.read maxLen
    return { h with stream, popped := h.popped ++ out }

end History

/-- The stream of the given capacity under any pushes, closes, pops and reads. -/
def fifo (capacity : Nat) : Machine History Op := .det (.new capacity) History.step

/-- What holds of a stream and its record at every moment. -/
structure History.Inv (capacity : Nat) (h : History) : Prop where
  stream : h.stream.WF
  cap : h.stream.capacity = capacity
  queue : h.popped ++ h.stream.peek = h.accepted
  bytesPopped : h.stream.bytesPopped = h.popped.length

variable {capacity : Nat} {h h' : History}

theorem History.Inv.new (hc : capacity < 2 ^ 64) : (History.new capacity).Inv capacity :=
  ⟨.new hc, rfl, rfl, rfl⟩

theorem History.Inv.push (hi : h.Inv capacity) (data : Bytes) :
    Inv capacity { h with
      stream := h.stream.push data
      accepted := h.accepted ++ data.take (min data.length h.stream.availableCapacity) } where
  stream := hi.stream.push data
  cap := (push_capacity ..).trans hi.cap
  queue := by
    rw [push_peek hi.stream, ← List.append_assoc, hi.queue, Nat.min_comm, ← List.take_eq_take_min]
  bytesPopped := (push_bytesPopped ..).trans hi.bytesPopped

theorem History.Inv.close (hi : h.Inv capacity) :
    Inv capacity { h with stream := h.stream.close } :=
  ⟨hi.stream.close, hi.cap, hi.queue, hi.bytesPopped⟩

/-- Both `pop` and `read` take the first bytes of the queue. -/
theorem History.Inv.pop (hi : h.Inv capacity) (len : Nat) :
    Inv capacity { h with
      stream := h.stream.pop len, popped := h.popped ++ h.stream.peek.take len } where
  stream := hi.stream.pop len
  cap := hi.cap
  queue := by rw [pop_peek hi.stream, List.append_assoc, List.take_append_drop, hi.queue]
  bytesPopped := by
    rw [pop_bytesPopped, hi.bytesPopped, List.length_append, List.length_take,
      hi.stream.bytesBuffered_eq]

theorem History.Inv.step {op : Op} (hi : h.Inv capacity) (hs : h.step op = .ok h') :
    h'.Inv capacity := by
  cases op with
  | push data =>
    obtain rfl := Except.ok.inj hs
    exact hi.push data
  | close =>
    obtain rfl := Except.ok.inj hs
    exact hi.close
  | pop len =>
    obtain rfl := Except.ok.inj hs
    rw [hi.stream.bytesBuffered_eq, ← List.take_eq_take_min]
    exact hi.pop len
  | read maxLen =>
    simp only [History.step, hi.stream.read, ok_bind] at hs
    obtain rfl := Except.ok.inj hs
    exact hi.pop maxLen

theorem History.Inv.of_reaches (hc : capacity < 2 ^ 64)
    (hr : (fifo capacity).Reaches (fun _ _ => True) h) : h.Inv capacity :=
  hr.invariant_det (.new hc) fun _ _ _ hi _ hs => hi.step hs

/-- A byte stream is a bounded queue: the bytes popped and then those that `peek` shows are the
bytes accepted, in their order; `peek` shows all that is buffered, `read` takes what it is asked for
and does not throw, and the counters agree without an underflow. -/
theorem stream_is_fifo (hc : capacity < 2 ^ 64)
    (hr : (fifo capacity).Reaches (fun _ _ => True) h) :
    h.popped ++ h.stream.peek = h.accepted ∧
    h.stream.peek.length = h.stream.bytesBuffered ∧
    (∀ maxLen, h.stream.read maxLen = .ok (h.stream.peek.take (min maxLen h.stream.bytesBuffered),
      h.stream.pop (min maxLen h.stream.bytesBuffered))) ∧
    h.stream.bytesPushed = h.accepted.length ∧ h.stream.bytesPopped = h.popped.length ∧
    h.stream.bytesPushed = h.stream.bytesPopped + h.stream.bytesBuffered ∧
    h.stream.bytesBuffered + h.stream.availableCapacity = capacity ∧
    h.stream.bytesBuffered ≤ capacity ∧
    h.stream.startIndex + h.stream.bytesBuffered = h.stream.endIndex ∧
    h.stream.endIndex = h.stream.buffer.length := by
  have hi : h.Inv capacity := .of_reaches hc hr
  have hw := hi.stream
  have hfits := hw.fits
  rw [hi.cap] at hfits
  have hpushed : h.stream.bytesPushed = h.accepted.length := by
    rw [hw.bytesPushed_eq, hi.bytesPopped, ← List.length_append, hi.queue]
  refine ⟨hi.queue, hw.peek_length, fun maxLen => ?_, hpushed, hi.bytesPopped, hw.pushed, ?_,
    hfits, hw.stop.symm, hw.stop.trans hw.length.symm⟩
  · have hlen : (h.stream.peek.take maxLen).length = min maxLen h.stream.bytesBuffered := by
      rw [List.length_take, hw.bytesBuffered_eq]
    rw [hw.read, ← hlen, pop_take_length hw, hlen, hw.bytesBuffered_eq, ← List.take_eq_take_min]
  · rw [hw.availableCapacity_eq, hi.cap]
    show h.stream.bufferSize + (capacity - h.stream.bufferSize) = capacity
    have : h.stream.bufferSize ≤ capacity := hfits
    omega

/-- Capacity 3: the fourth byte is refused, and a read crosses two pushes. -/
theorem stream_is_fifo_of_run : ∃ h : History, (fifo 3).Reaches (fun _ _ => True) h ∧
    h.accepted = [1, 2, 3, 5, 6] ∧ h.popped ++ h.stream.peek = h.accepted := by
  obtain ⟨h, hr, haccepted⟩ := Machine.exists_reaches History.step (.new 3) (fun _ _ => True)
    (fun h => h.accepted = [1, 2, 3, 5, 6])
    [.push [1, 2, 3, 4], .pop 2, .push [5, 6], .read 2, .close] (by decide +kernel)
    (by decide +kernel)
  exact ⟨h, hr, haccepted, (stream_is_fifo (by decide) hr).1⟩

/-! ## The vector -/

/-- Only a push makes the vector longer, so its bound holds all the time. -/
theorem buffer_length_le (hc : capacity < 2 ^ 64)
    (hr : (fifo capacity).Reaches (fun _ _ => True) h) :
    h.stream.buffer.length ≤ 2 * capacity := by
  refine hr.invariant_of (P := fun h => h.stream.buffer.length ≤ 2 * capacity) ?_ ?_
  · rintro h rfl
    exact Nat.zero_le _
  · intro h op h' hr hle _ hs
    have hi : h.Inv capacity := .of_reaches hc hr
    cases op with
    | push data =>
      obtain rfl := Except.ok.inj hs
      exact (hi.stream.push_length_le data).trans_eq (congrArg (2 * ·) hi.cap)
    | close | pop len =>
      obtain rfl := Except.ok.inj hs
      exact hle
    | read maxLen =>
      simp only [fifo, Machine.det, History.step, hi.stream.read, ok_bind] at hs
      obtain rfl := Except.ok.inj hs
      exact hle

/-- The vector is the dead bytes and the live ones, at most two capacities of them; so it stays
within the eight that the constructor reserves. -/
theorem storage_is_bounded (hc : capacity < 2 ^ 64)
    (hr : (fifo capacity).Reaches (fun _ _ => True) h) :
    h.stream.buffer.length = h.stream.startIndex + h.stream.bufferSize ∧
    h.stream.buffer.length = h.stream.endIndex ∧
    h.stream.buffer.length ≤ 2 * capacity ∧
    h.stream.buffer.length ≤ 8 * capacity ∧
    (8 * capacity < 2 ^ 64 → h.stream.buffer.length ≤ reserved capacity) := by
  have hi : h.Inv capacity := .of_reaches hc hr
  have hle := buffer_length_le hc hr
  refine ⟨hi.stream.length, hi.stream.length.trans hi.stream.stop.symm, hle, by omega,
    fun hfits => ?_⟩
  rw [reserved, Nat.mod_eq_of_lt (by omega)]
  omega

/-- Capacity 2: a byte is popped and one pushed in turn, and the vector grows to three bytes. -/
theorem storage_is_bounded_of_run : ∃ h : History, (fifo 2).Reaches (fun _ _ => True) h ∧
    h.stream.startIndex = 1 ∧ h.stream.buffer.length = 3 ∧ h.stream.buffer.length ≤ 2 * 2 := by
  obtain ⟨h, hr, hstart, hlength⟩ := Machine.exists_reaches History.step (.new 2) (fun _ _ => True)
    (fun h => h.stream.startIndex = 1 ∧ h.stream.buffer.length = 3)
    [.push [1, 2], .pop 1, .push [3]] (by decide +kernel) (by decide +kernel)
  exact ⟨h, hr, hstart, hlength, (storage_is_bounded (by decide) hr).2.2.1⟩

/-- With a capacity of `2 ^ 61` the product wraps and nothing is reserved, so one byte is beyond
it. -/
theorem reservation_wraps : ∃ h : History, (fifo (2 ^ 61)).Reaches (fun _ _ => True) h ∧
    reserved (2 ^ 61) < h.stream.buffer.length := by
  exact Machine.exists_reaches History.step (.new (2 ^ 61)) (fun _ _ => True)
    (fun h => reserved (2 ^ 61) < h.stream.buffer.length) [.push [1]]
    (by decide +kernel) (by decide +kernel)

end ByteStream

end Minnow
