import Minnow.Lib.Machine
import Minnow.Reassembler.Insert
import Minnow.Tcp.Messages

/-!
# The TCP receiver (`src/tcp_receiver.cc`)

`receive` turns the sequence number of a segment into a stream index, inserts the payload there
and works out the next ackno; `send` reports it with the window.

The stream index is the segment's number, less one once a SYN has been seen, unwrapped around the
bytes pushed so far. `receive` fails only where the reassembler does.
-/

namespace Minnow

structure TCPReceiver where
  reassembler : Reassembler
  initialSeqno : Wrap32 := ⟨0⟩
  synSet : Bool := false
  finSet : Bool := false
  ackno : Option Wrap32 := none
  streamSeqno : Nat := 0
  rst : Bool := false
  deriving DecidableEq

namespace TCPReceiver

/-- A receiver around a fresh reassembler. -/
def new (capacity : Nat) : TCPReceiver where
  reassembler := { output := { capacity } }

def output (t : TCPReceiver) : ByteStream := t.reassembler.output

def bytesPushed (t : TCPReceiver) : Nat := t.reassembler.bytesPushed

def isClosed (t : TCPReceiver) : Bool := t.output.isClosed

/-- The flags of a segment: a SYN sets the zero point, a FIN counts once a SYN has been seen. -/
def takeFlags (t : TCPReceiver) (message : TCPSenderMessage) : TCPReceiver :=
  { t with
    initialSeqno := if message.syn then message.seqno else t.initialSeqno
    synSet := t.synSet || message.syn
    finSet := t.finSet || message.fin && (t.synSet || message.syn) }

/-- `stream_first_seqno`, for a receiver that has taken the flags. The source adds `-1` as a
32-bit number. -/
def streamFirstSeqno (t : TCPReceiver) (message : TCPSenderMessage) : Nat :=
  let payloadFirstSeqno := if message.syn then message.seqno.add 1 else message.seqno
  (payloadFirstSeqno.add (if t.synSet then 2 ^ 32 - 1 else 0)).unwrap t.initialSeqno t.streamSeqno

/-- The end of `receive`: the checkpoint for the next segment, and the ackno. -/
def acknowledge (t : TCPReceiver) : TCPReceiver :=
  { t with
    streamSeqno := t.bytesPushed
    ackno := some (Wrap32.wrap
      (if t.isClosed then t.bytesPushed + t.synSet.toNat + t.finSet.toNat
        else t.bytesPushed + t.synSet.toNat) t.initialSeqno) }

/-- A reset, or any segment after an error. -/
def abort (t : TCPReceiver) : TCPReceiver :=
  { t with
    rst := true
    reassembler := { t.reassembler with output := t.output.setError } }

def receive (t : TCPReceiver) (message : TCPSenderMessage) : Except Fault TCPReceiver :=
  if message.rst || t.output.hasError then
    return t.abort
  else do
    let t := t.takeFlags message
    let reassembler ← t.reassembler.insert (t.streamFirstSeqno message) message.payload message.fin
    return { t with reassembler }.acknowledge

def send (t : TCPReceiver) : TCPReceiverMessage where
  windowSize := UInt16.ofNat (min (sub64 65535 t.reassembler.countBytesPending)
    t.output.availableCapacity)
  rst := t.rst || t.output.hasError
  ackno := if t.synSet then t.ackno else none

/-- A pop of the output reader. -/
def read (t : TCPReceiver) (len : Nat) : TCPReceiver :=
  { t with reassembler := t.reassembler.pop len }

/-! ## Runs -/

inductive Op where
  | receive (message : TCPSenderMessage)
  | read (len : Nat)
  deriving DecidableEq

def step (t : TCPReceiver) : Op → Except Fault TCPReceiver
  | .receive message => t.receive message
  | .read len => return t.read len

variable {t t' : TCPReceiver} {message : TCPSenderMessage}

/-- The two things a segment can do. -/
theorem receive_cases (h : t.receive message = .ok t') :
    ((message.rst || t.output.hasError) = true ∧ t' = t.abort) ∨
      (message.rst || t.output.hasError) = false ∧
      ∃ r', t.reassembler.insert ((t.takeFlags message).streamFirstSeqno message) message.payload
          message.fin = .ok r' ∧
        t' = { t.takeFlags message with reassembler := r' }.acknowledge := by
  unfold receive at h
  split at h
  · rename_i hc
    exact .inl ⟨hc, (Except.ok.inj h).symm⟩
  · rename_i hc
    obtain ⟨r', hins, h⟩ := bind_ok h
    exact .inr ⟨Bool.eq_false_iff.mpr hc, r', hins, (Except.ok.inj h).symm⟩

end TCPReceiver

end Minnow
