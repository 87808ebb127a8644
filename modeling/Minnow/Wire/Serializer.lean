import Minnow.ByteStream
import Minnow.Lib.BigEndian

/-!
# The serializer (`util/parser.hh`, `util/parser.cc`)

Integers are collected in `buffer`; a string ends the collected bytes and goes behind them as a
string of its own, if it is not empty. `bytes` is what has been written, however it is cut.
-/

namespace Minnow

structure Serializer where
  output : List Bytes := []
  buffer : Bytes := []
  deriving DecidableEq

namespace Serializer

def flush (s : Serializer) : Serializer :=
  if s.buffer.isEmpty then s else { output := s.output ++ [s.buffer] }

/-- `integer` for a type of `size` bytes. -/
def integer (s : Serializer) (size val : Nat) : Serializer :=
  { s with buffer := s.buffer ++ BigEndian.encode size val }

def integer8 (s : Serializer) (val : UInt8) : Serializer := s.integer 1 val.toNat

def integer16 (s : Serializer) (val : UInt16) : Serializer := s.integer 2 val.toNat

def integer32 (s : Serializer) (val : UInt32) : Serializer := s.integer 4 val.toNat

/-- `buffer( string )`. -/
def string (s : Serializer) (buf : Bytes) : Serializer :=
  if buf.isEmpty then s else { s.flush with output := s.flush.output ++ [buf] }

/-- `buffer( vector )`. -/
def strings (s : Serializer) (bufs : List Bytes) : Serializer := bufs.foldl string s

def finish (s : Serializer) : List Bytes := s.flush.output

/-! ## What has been written -/

def bytes (s : Serializer) : Bytes := s.output.flatten ++ s.buffer

@[simp] theorem new_bytes : bytes {} = [] := rfl

@[simp] theorem flush_bytes (s : Serializer) : s.flush.bytes = s.bytes := by
  unfold flush bytes
  split
  · rfl
  · simp

theorem flush_buffer (s : Serializer) : s.flush.buffer = [] := by
  unfold flush
  split
  · rename_i h
    exact List.isEmpty_iff.mp h
  · rfl

@[simp] theorem integer_bytes (s : Serializer) (size val : Nat) :
    (s.integer size val).bytes = s.bytes ++ BigEndian.encode size val := by
  unfold integer bytes
  simp

@[simp] theorem integer8_bytes (s : Serializer) (val : UInt8) :
    (s.integer8 val).bytes = s.bytes ++ BigEndian.encode 1 val.toNat := integer_bytes ..

@[simp] theorem integer16_bytes (s : Serializer) (val : UInt16) :
    (s.integer16 val).bytes = s.bytes ++ BigEndian.encode 2 val.toNat := integer_bytes ..

@[simp] theorem integer32_bytes (s : Serializer) (val : UInt32) :
    (s.integer32 val).bytes = s.bytes ++ BigEndian.encode 4 val.toNat := integer_bytes ..

@[simp] theorem string_bytes (s : Serializer) (buf : Bytes) :
    (s.string buf).bytes = s.bytes ++ buf := by
  unfold string
  split
  · rename_i h
    rw [List.isEmpty_iff.mp h, List.append_nil]
  · rw [← flush_bytes s]
    unfold bytes
    simp [flush_buffer]

@[simp] theorem strings_bytes (s : Serializer) (bufs : List Bytes) :
    (s.strings bufs).bytes = s.bytes ++ bufs.flatten := by
  induction bufs generalizing s with
  | nil => simp [strings]
  | cons buf bufs ih =>
    show ((s.string buf).strings bufs).bytes = _
    rw [ih, string_bytes, List.flatten_cons, List.append_assoc]

@[simp] theorem finish_flatten (s : Serializer) : s.finish.flatten = s.bytes := by
  rw [← flush_bytes s]
  unfold finish bytes
  rw [flush_buffer, List.append_nil]

/-- Integers alone are one string. -/
theorem finish_ne_nil {s : Serializer} (h : s.output = []) {x : Bytes} (hx : x ∈ s.finish) :
    x ≠ [] := by
  unfold finish flush at hx
  split at hx
  · rw [h] at hx
    cases hx
  · rename_i hne
    rw [h, List.nil_append, List.mem_singleton] at hx
    rw [hx]
    simpa using hne

end Serializer

end Minnow
