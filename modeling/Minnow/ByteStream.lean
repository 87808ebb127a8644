import Minnow.Word

/-!
# The byte stream (`src/byte_stream.cc`)

A bounded queue of bytes between a `Writer` and a `Reader`. The bytes live in a vector that is
consumed from `startIndex` on and compacted by a push once more than half of it is dead;
`bufferSize` counts the live bytes.

`WF` is the invariant of every stream that the operations build. With it, `peek` is the queue's
whole content: a push appends what fits to it (`push_peek`) and a pop drops a prefix of it
(`pop_peek`). The rest of the development uses a stream through these lemmas only.
-/

namespace Minnow

/-- A `std::string` or `std::vector<char>` of the source. -/
abbrev Bytes := List UInt8

structure ByteStream where
  capacity : Nat
  error : Bool := false
  buffer : Bytes := []
  numBytesPushed : Nat := 0
  numBytesPoped : Nat := 0
  closed : Bool := false
  startIndex : Nat := 0
  endIndex : Nat := 0
  bufferSize : Nat := 0
  deriving DecidableEq

namespace ByteStream

/-- The argument of `reserve` in the constructor. -/
def reserved (capacity : Nat) : Nat := capacity * 8 % 2 ^ 64

def setError (s : ByteStream) : ByteStream := { s with error := true }

def hasError (s : ByteStream) : Bool := s.error

/-! ## Writer -/

def isClosed (s : ByteStream) : Bool := s.closed

def availableCapacity (s : ByteStream) : Nat := sub64 s.capacity s.bufferSize

def bytesPushed (s : ByteStream) : Nat := s.numBytesPushed

/-- The first statement of `Writer::push`: drop the dead bytes once they are more than half. -/
def compact (s : ByteStream) : ByteStream :=
  if s.startIndex > s.buffer.length / 2 then
    { s with
      buffer := s.buffer.drop s.startIndex
      endIndex := sub64 s.endIndex s.startIndex
      startIndex := 0 }
  else s

def push (s : ByteStream) (data : Bytes) : ByteStream :=
  let s := s.compact
  let numBytesToPush := min s.availableCapacity data.length
  { s with
    buffer := s.buffer ++ data.take numBytesToPush
    numBytesPushed := s.numBytesPushed + numBytesToPush
    endIndex := s.endIndex + numBytesToPush
    bufferSize := s.bufferSize + numBytesToPush }

def close (s : ByteStream) : ByteStream := { s with closed := true }

/-! ## Reader -/

def bytesBuffered (s : ByteStream) : Nat := s.bufferSize

def bytesPopped (s : ByteStream) : Nat := s.numBytesPoped

def peek (s : ByteStream) : Bytes :=
  if s.buffer.isEmpty then [] else (s.buffer.drop s.startIndex).take s.bufferSize

def pop (s : ByteStream) (len : Nat) : ByteStream :=
  let numBytesToPop := min len s.bytesBuffered
  { s with
    startIndex := s.startIndex + numBytesToPop
    bufferSize := sub64 s.bufferSize numBytesToPop
    numBytesPoped := s.numBytesPoped + numBytesToPop }

def isFinished (s : ByteStream) : Bool := s.closed && s.bytesBuffered == 0

/-! ## The invariant -/

/-- The vector is the dead bytes and the live ones, the live ones fit the capacity, and the byte
counters differ by what is buffered. -/
structure WF (s : ByteStream) : Prop where
  cap : s.capacity < 2 ^ 64
  length : s.buffer.length = s.startIndex + s.bufferSize
  stop : s.endIndex = s.startIndex + s.bufferSize
  fits : s.bufferSize ≤ s.capacity
  pushed : s.numBytesPushed = s.numBytesPoped + s.bufferSize

variable {s : ByteStream}

theorem WF.new {capacity : Nat} (h : capacity < 2 ^ 64) : WF { capacity } :=
  ⟨h, rfl, rfl, Nat.zero_le _, rfl⟩

theorem WF.availableCapacity_eq (h : s.WF) : s.availableCapacity = s.capacity - s.bufferSize :=
  sub64_of_le h.fits h.cap

theorem WF.peek_eq (h : s.WF) : s.peek = s.buffer.drop s.startIndex := by
  unfold peek
  split
  · rename_i he
    rw [List.isEmpty_iff.mp he, List.drop_nil]
  · rw [List.take_of_length_le]
    rw [List.length_drop, h.length]
    omega

theorem WF.peek_length (h : s.WF) : s.peek.length = s.bufferSize := by
  rw [h.peek_eq, List.length_drop, h.length]
  omega

theorem WF.bytesPushed_eq (h : s.WF) : s.bytesPushed = s.bytesPopped + s.peek.length := by
  rw [h.peek_length]; exact h.pushed

/-- The end of the window, counted from the reader and from the writer. -/
theorem WF.window_end (h : s.WF) :
    s.bytesPushed + s.availableCapacity = s.bytesPopped + s.capacity := by
  have := h.fits
  rw [h.availableCapacity_eq]
  simp only [bytesPushed, bytesPopped, h.pushed]
  omega

theorem WF.isFinished_iff (h : s.WF) :
    s.isFinished = true ↔ s.isClosed = true ∧ s.peek = [] := by
  unfold isFinished isClosed bytesBuffered
  rw [Bool.and_eq_true, beq_iff_eq, ← h.peek_length, List.length_eq_zero_iff]

/-! ## Push -/

theorem compact_peek (h : s.WF) : s.compact.peek = s.peek := by
  unfold compact
  split
  · simp only [peek, List.drop_zero, List.isEmpty_iff, List.drop_eq_nil_iff]
    have hl := h.length
    by_cases hb : s.buffer = []
    · simp [hb]
    · rw [if_neg hb]
      split
      · rw [List.drop_eq_nil_of_le (by omega), List.take_nil]
      · rfl
  · rfl

theorem WF.compact (h : s.WF) : s.compact.WF := by
  unfold ByteStream.compact
  split
  · have hl := h.length
    have hs := h.stop
    have he : sub64 s.endIndex s.startIndex = s.bufferSize := by
      unfold sub64
      have := h.fits; have := h.cap
      omega
    exact ⟨h.cap, by simp only [List.length_drop]; omega, by simp only [he]; omega, h.fits,
      h.pushed⟩
  · exact h

theorem compact_fields (s : ByteStream) :
    s.compact.capacity = s.capacity ∧ s.compact.error = s.error ∧
      s.compact.closed = s.closed ∧ s.compact.bufferSize = s.bufferSize ∧
      s.compact.numBytesPushed = s.numBytesPushed ∧
      s.compact.numBytesPoped = s.numBytesPoped := by
  unfold compact
  split <;> exact ⟨rfl, rfl, rfl, rfl, rfl, rfl⟩

theorem compact_availableCapacity (s : ByteStream) :
    s.compact.availableCapacity = s.availableCapacity := by
  obtain ⟨hc, -, -, hb, -⟩ := s.compact_fields
  unfold availableCapacity
  rw [hc, hb]

/-- After the first statement of a push, no more bytes are dead than live. -/
theorem WF.compact_startIndex_le (h : s.WF) : s.compact.startIndex ≤ s.bufferSize := by
  have hl := h.length
  unfold ByteStream.compact
  split
  · exact Nat.zero_le _
  · rename_i hfew
    omega

theorem WF.push (h : s.WF) (data : Bytes) : (s.push data).WF := by
  have hw := h.compact
  have ha := hw.availableCapacity_eq
  refine ⟨hw.cap, ?_, ?_, ?_, ?_⟩
  · simp only [ByteStream.push, List.length_append, List.length_take, hw.length]
    omega
  · simp only [ByteStream.push, hw.stop]
    omega
  · have := hw.fits
    simp only [ByteStream.push]
    omega
  · simp only [ByteStream.push, hw.pushed]
    omega

/-- Whatever was in the vector before it, a push leaves at most two capacities in it: the dead bytes
are no more than were live, and the live ones fit. -/
theorem WF.push_length_le (h : s.WF) (data : Bytes) :
    (s.push data).buffer.length ≤ 2 * s.capacity := by
  have hdead : (s.push data).startIndex ≤ s.bufferSize := h.compact_startIndex_le
  have hlive : (s.push data).bufferSize ≤ s.capacity :=
    (h.push data).fits.trans_eq s.compact_fields.1
  have hfits := h.fits
  rw [(h.push data).length]
  omega

/-- A push appends the prefix of its data that fits. -/
theorem push_peek (h : s.WF) (data : Bytes) :
    (s.push data).peek = s.peek ++ data.take s.availableCapacity := by
  have hw := h.compact
  have hl := hw.length
  rw [(h.push data).peek_eq, ← compact_peek h, hw.peek_eq]
  simp only [push]
  rw [List.drop_append_of_le_length (by omega), compact_availableCapacity,
    ← List.take_eq_take_min]

@[simp] theorem push_capacity (s : ByteStream) (data : Bytes) :
    (s.push data).capacity = s.capacity := s.compact_fields.1

@[simp] theorem push_error (s : ByteStream) (data : Bytes) :
    (s.push data).error = s.error := s.compact_fields.2.1

@[simp] theorem push_closed (s : ByteStream) (data : Bytes) :
    (s.push data).closed = s.closed := s.compact_fields.2.2.1

@[simp] theorem push_bytesPopped (s : ByteStream) (data : Bytes) :
    (s.push data).bytesPopped = s.bytesPopped := s.compact_fields.2.2.2.2.2

theorem push_bytesPushed (s : ByteStream) (data : Bytes) :
    (s.push data).bytesPushed = s.bytesPushed + min s.availableCapacity data.length := by
  show s.compact.numBytesPushed + min s.compact.availableCapacity data.length = _
  rw [compact_availableCapacity, s.compact_fields.2.2.2.2.1]
  rfl

/-! ## Close -/

theorem WF.close (h : s.WF) : s.close.WF := ⟨h.cap, h.length, h.stop, h.fits, h.pushed⟩

/-! ## Pop -/

theorem WF.pop (h : s.WF) (len : Nat) : (s.pop len).WF := by
  have hf := h.fits
  have hc := h.cap
  have hs : sub64 s.bufferSize (min len s.bufferSize) = s.bufferSize - min len s.bufferSize :=
    sub64_of_le (Nat.min_le_right _ _) (by omega)
  refine ⟨h.cap, ?_, ?_, ?_, ?_⟩
  · simp only [ByteStream.pop, bytesBuffered, hs, h.length]
    omega
  · simp only [ByteStream.pop, bytesBuffered, hs, h.stop]
    omega
  · simp only [ByteStream.pop, bytesBuffered, hs]
    omega
  · simp only [ByteStream.pop, bytesBuffered, hs, h.pushed]
    omega

/-- A pop drops a prefix of the queue. -/
theorem pop_peek (h : s.WF) (len : Nat) : (s.pop len).peek = s.peek.drop len := by
  have hl := h.length
  rw [(h.pop len).peek_eq, h.peek_eq]
  simp only [pop, bytesBuffered, List.drop_drop]
  by_cases hlen : len ≤ s.bufferSize
  · rw [Nat.min_eq_left hlen]
  · rw [List.drop_eq_nil_of_le (by omega), List.drop_eq_nil_of_le (by omega)]

theorem pop_zero (h : s.WF) : s.pop 0 = s := by
  have hs : sub64 s.bufferSize 0 = s.bufferSize := by
    have := h.fits
    have := h.cap
    exact sub64_of_le (Nat.zero_le _) (by omega)
  unfold pop
  simp only [bytesBuffered, Nat.zero_min, Nat.add_zero, hs]

@[simp] theorem pop_capacity (s : ByteStream) (len : Nat) : (s.pop len).capacity = s.capacity := rfl
@[simp] theorem pop_closed (s : ByteStream) (len : Nat) : (s.pop len).closed = s.closed := rfl

theorem pop_bytesPopped (s : ByteStream) (len : Nat) :
    (s.pop len).bytesPopped = s.bytesPopped + min len s.bytesBuffered := rfl

end ByteStream

end Minnow
