import Minnow.ByteStream
import Minnow.Lib.Except

/-!
# File descriptors (`util/file_descriptor.cc`, `util/socket.cc`)

A descriptor is what the process knows of it (`FDWrapper`): whether it is at its end, whether it is
closed, and how often it was read and written. What a system call returns is an argument
(`Answer`), so a statement for every answer is one for every kernel.

A call that throws has no result; the exceptions carry the texts of the source.
-/

namespace Minnow

/-- The exceptions of the utilities. -/
inductive Exception where
  | runtimeError (what : String)
  | outOfRange (what : String)
  | unixError (attempt : String)
  deriving DecidableEq

/-- What a system call returns, or that it fails. `EINPROGRESS` is treated as `EAGAIN` is. -/
inductive Answer (α : Type) where
  | done (result : α)
  | again
  | failed
  deriving DecidableEq

structure FDWrapper where
  eof : Bool := false
  closed : Bool := false
  nonBlocking : Bool := false
  readCount : UInt32 := 0
  writeCount : UInt32 := 0
  deriving DecidableEq

namespace FDWrapper

/-- `kReadBufferSize`. -/
def readBufferSize : Nat := 16384

def registerRead (f : FDWrapper) : FDWrapper := { f with readCount := f.readCount + 1 }

def registerWrite (f : FDWrapper) : FDWrapper := { f with writeCount := f.writeCount + 1 }

/-- `CheckSystemCall`: a call that would block returns `0` on a descriptor that is not blocking. -/
def checkSystemCall (f : FDWrapper) (attempt : String) : Answer Nat → Except Exception Nat
  | .done n => .ok n
  | .again => if f.nonBlocking then .ok 0 else .error (.unixError attempt)
  | .failed => .error (.unixError attempt)

/-- How much a read of a buffer of `size` bytes asks for. -/
def requested (size : Nat) : Nat := if size = 0 then readBufferSize else size

/-- `read( string& )`: the descriptor and the buffer after it. -/
def read (f : FDWrapper) (size : Nat) : Answer Bytes → Except Exception (FDWrapper × Bytes)
  | .again => if f.nonBlocking then .ok (f, []) else .error (.unixError "read")
  | .failed => .error (.unixError "read")
  | .done bytes =>
    let f := f.registerRead
    let f := if bytes.length = 0 then { f with eof := true } else f
    if bytes.length > requested size then
      .error (.runtimeError "read() read more than requested")
    else .ok (f, bytes)

/-- What the buffers hold after the kernel has filled them one after the other. -/
def scatter : List Nat → Bytes → List Bytes
  | [], _ => []
  | size :: sizes, bytes => bytes.take size :: scatter sizes (bytes.drop size)

/-- `read( vector<string>& )`. The last buffer gets the size of the read buffer. -/
def readBuffers (f : FDWrapper) (sizes : List Nat) :
    Answer Bytes → Except Exception (FDWrapper × List Bytes)
  | answer =>
    if sizes = [] then .ok (f, [])
    else
      let sizes := sizes.dropLast ++ [readBufferSize]
      match answer with
      | .again => if f.nonBlocking then .ok (f, []) else .error (.unixError "read")
      | .failed => .error (.unixError "read")
      | .done bytes =>
        if bytes.length > sizes.sum then
          .error (.runtimeError "read() read more than requested")
        else .ok (f.registerRead, scatter sizes bytes)

/-- `write`: the descriptor and the number of bytes written. -/
def write (f : FDWrapper) (buffer : Bytes) (answer : Answer Nat) :
    Except Exception (FDWrapper × Nat) := do
  let bytesWritten ← f.checkSystemCall "writev" answer
  let f := f.registerWrite
  if bytesWritten = 0 ∧ buffer.length ≠ 0 then
    throw (.runtimeError "write returned 0 given non-empty input buffer")
  else if bytesWritten > buffer.length then
    throw (.runtimeError "write wrote more than length of input buffer")
  else return (f, bytesWritten)

def close (f : FDWrapper) (answer : Answer Nat) : Except Exception FDWrapper := do
  let _ ← f.checkSystemCall "close" answer
  return { f with eof := true, closed := true }

/-- `Socket::shutdown( SHUT_WR )`. -/
def shutdownWrite (f : FDWrapper) (answer : Answer Nat) : Except Exception FDWrapper := do
  let _ ← f.checkSystemCall "shutdown" answer
  return f.registerWrite

variable {f f' : FDWrapper} {size n : Nat} {buffer bytes : Bytes}

/-- A read that returns nothing has met the end, or would have blocked. -/
theorem read_cases {answer : Answer Bytes} (h : f.read size answer = .ok (f', bytes)) :
    (answer = .again ∧ f' = f ∧ bytes = []) ∨
    (answer = .done bytes ∧ bytes.length ≤ requested size ∧ f'.closed = f.closed ∧
      f'.eof = (f.eof || bytes.isEmpty)) := by
  cases answer with
  | failed => cases h
  | again =>
    unfold read at h
    dsimp only at h
    split at h
    · obtain ⟨rfl, rfl⟩ := pair_ok h
      exact .inl ⟨rfl, rfl, rfl⟩
    · cases h
  | done got =>
    unfold read at h
    dsimp only at h
    split at h
    · cases h
    · rename_i hle
      obtain ⟨rfl, rfl⟩ := pair_ok h
      refine .inr ⟨rfl, Nat.le_of_not_lt hle, ?_, ?_⟩
      · split <;> rfl
      · cases got with
        | nil => simp
        | cons b got => simp [registerRead]

/-- A write that returns has written a first part of the buffer, and some of it if there is some. -/
theorem write_cases {answer : Answer Nat} (h : f.write buffer answer = .ok (f', n)) :
    n ≤ buffer.length ∧ (buffer ≠ [] → 0 < n) ∧ f' = f.registerWrite := by
  unfold write at h
  obtain ⟨k, -, h⟩ := bind_ok h
  dsimp only at h
  split at h
  · cases h
  · rename_i hsome
    split at h
    · cases h
    · rename_i hle
      obtain ⟨rfl, rfl⟩ := pair_ok h
      refine ⟨Nat.le_of_not_lt hle, fun hne => ?_, rfl⟩
      have := List.length_pos_iff.mpr hne
      omega

end FDWrapper

end Minnow
