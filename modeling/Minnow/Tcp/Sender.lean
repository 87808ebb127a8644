import Minnow.Lib.Loop
import Minnow.Tcp.Messages

/-!
# The TCP sender (`src/tcp_sender.cc`)

`push` cuts the outbound stream into segments as long as the window has room, `receive` erases what
is acknowledged and takes the new window, and `tick` retransmits the oldest outstanding segment.

The body of the loop in `push` is written as its four steps: `addSyn`, `addPayload`, `addFin` and
`transmit`. The loop runs on fuel that covers the SYN, each buffered byte and the FIN, one round for
each at most (`push_done`, in the module of the segments it sends).

`receive` dereferences `msg.ackno` before it asks whether there is one. What is read then is not
determined; it is the argument `stale`.
-/

namespace Minnow

/-- `TCPConfig::MAX_PAYLOAD_SIZE`. -/
def maxPayloadSize : Nat := 1000

structure TCPSender where
  input : ByteStream
  isn : Wrap32
  initialRTOMs : Nat
  sendBuffer : List (Nat × TCPSenderMessage) := []
  absSeqno : Nat := 0
  seqno : Wrap32 := ⟨0⟩
  receiveWindow : UInt16 := 1
  maxReceiveWindow : UInt16 := 1
  numConsecutiveRetran : Nat := 0
  currentRTO : Nat := 0
  timer : Nat := 0
  preAbsAckno : Nat := 0
  receiverFull : Bool := true
  synSet : Bool := false
  finSet : Bool := false
  deriving DecidableEq

namespace TCPSender

/-- A sender of an empty stream. -/
def new (capacity : Nat) (isn : Wrap32) (initialRTOMs : Nat) : TCPSender where
  input := { capacity }
  isn
  initialRTOMs

def sequenceNumbersInFlight (s : TCPSender) : Nat :=
  (s.sendBuffer.map fun x => x.2.sequenceLength).sum

def consecutiveRetransmissions (s : TCPSender) : Nat := s.numConsecutiveRetran

def makeEmptyMessage (s : TCPSender) : TCPSenderMessage where
  seqno := if s.synSet then s.seqno else s.isn
  rst := s.input.hasError

/-! ## Push -/

/-- The local variables of `push`, and what it has transmitted. -/
structure Pushing where
  sender : TCPSender
  tempReceiveWindow : UInt16
  streamBytes : Bytes
  message : TCPSenderMessage
  transmitted : List TCPSenderMessage := []
  deriving DecidableEq

namespace Pushing

def guard (p : Pushing) : Bool :=
  (p.tempReceiveWindow > 0 && !p.streamBytes.isEmpty) ||
    (p.tempReceiveWindow > 0 && p.sender.input.isClosed && !p.sender.finSet) || !p.sender.synSet

def addSyn (p : Pushing) : Pushing :=
  if !p.sender.synSet then
    { p with
      sender := { p.sender with
        synSet := true
        currentRTO := p.sender.initialRTOMs
        seqno := p.sender.isn }
      message := { p.message with syn := true } }
  else p

/-- `available_payload_size`. The difference is an `int` that the source casts. -/
def availablePayloadSize (p : Pushing) : Nat :=
  min (min (sub64 p.tempReceiveWindow.toNat p.message.syn.toNat) p.streamBytes.length)
    maxPayloadSize

def addPayload (p : Pushing) : Pushing :=
  if p.availablePayloadSize > 0 then
    { p with
      sender := { p.sender with input := p.sender.input.pop p.availablePayloadSize }
      message := { p.message with payload := p.streamBytes.take p.availablePayloadSize } }
  else p

def addFin (p : Pushing) : Pushing :=
  if p.tempReceiveWindow.toNat > p.message.sequenceLength && p.sender.input.isClosed &&
      !p.sender.finSet && p.sender.input.isFinished then
    { p with
      sender := { p.sender with finSet := true }
      message := { p.message with fin := true } }
  else p

def transmit (p : Pushing) : Pushing :=
  let messageLength := p.message.sequenceLength
  if messageLength > 0 then
    let sender := { p.sender with
      receiveWindow := p.sender.receiveWindow - UInt16.ofNat messageLength
      sendBuffer := p.sender.sendBuffer ++ [(p.sender.absSeqno, p.message)]
      seqno := p.sender.seqno.add messageLength
      absSeqno := p.sender.absSeqno + messageLength }
    { sender
      tempReceiveWindow := p.tempReceiveWindow - UInt16.ofNat messageLength
      streamBytes := sender.input.peek
      message := sender.makeEmptyMessage
      transmitted := p.transmitted ++ [p.message] }
  else p

def body (p : Pushing) : Pushing := p.addSyn.addPayload.addFin.transmit

end Pushing

/-- The window that `push` starts with. -/
def pushWindow (s : TCPSender) : UInt16 :=
  if s.receiverFull && s.receiveWindow > 0 then 1 else s.receiveWindow

/-- The local variables before the loop. -/
def pushing (s : TCPSender) : Pushing where
  sender := s
  tempReceiveWindow := s.pushWindow
  streamBytes := s.input.peek
  message := s.makeEmptyMessage

/-- The local variables after the loop. -/
def pushed (s : TCPSender) : Pushing :=
  loop Pushing.guard Pushing.body (s.input.bytesBuffered + 2) s.pushing

/-- The sender after a push, and the segments it transmits. -/
def push (s : TCPSender) : TCPSender × List TCPSenderMessage :=
  (s.pushed.sender, s.pushed.transmitted)

/-! ## Receive and tick -/

/-- What an acknowledged segment gives back to the window. -/
def creditAcked (s : TCPSender) (windowSize : UInt16) (message : TCPSenderMessage) : TCPSender :=
  if message.syn then
    { s with receiveWindow := max 1 windowSize, maxReceiveWindow := max 1 windowSize }
  else { s with receiveWindow := s.receiveWindow + UInt16.ofNat message.sequenceLength }

/-- The loop over `send_buffer_` and the erasure after it. The list is the buffer from the iterator
on. -/
def eraseAcked (absAckno : Nat) (windowSize : UInt16) :
    List (Nat × TCPSenderMessage) → TCPSender → TCPSender
  | [], s => { s with sendBuffer := [] }
  | x :: rest, s =>
    if x.1 + x.2.sequenceLength ≤ absAckno then
      eraseAcked absAckno windowSize rest (s.creditAcked windowSize x.2)
    else { s with sendBuffer := x :: rest }

/-- The window of a message, after its ackno is processed. -/
def takeWindow (s : TCPSender) (windowSize : UInt16) : TCPSender :=
  if windowSize > s.maxReceiveWindow then
    { s with
      receiverFull := windowSize == 0
      receiveWindow := s.receiveWindow + (windowSize - s.maxReceiveWindow)
      maxReceiveWindow := windowSize }
  else { s with receiverFull := windowSize == 0 }

def restartTimer (s : TCPSender) (absAckno : Nat) : TCPSender :=
  if s.preAbsAckno < absAckno then
    { s with
      timer := 0
      preAbsAckno := absAckno
      numConsecutiveRetran := 0
      currentRTO := s.initialRTOMs }
  else s

/-- The ackno of a message as an absolute number. -/
def absAckno (s : TCPSender) (stale : Wrap32) (msg : TCPReceiverMessage) : Nat :=
  (msg.ackno.getD stale).unwrap s.isn s.absSeqno

/-- The ackno is beyond the end of the last outstanding segment. -/
def beyondLast (s : TCPSender) (absAckno : Nat) : Bool :=
  match s.sendBuffer.getLast? with
  | some last => last.1 + last.2.sequenceLength < absAckno
  | none => false

def receive (s : TCPSender) (stale : Wrap32) (msg : TCPReceiverMessage) : TCPSender :=
  let absAckno := s.absAckno stale msg
  if s.beyondLast absAckno then s
  else if msg.ackno.isNone && msg.windowSize == 0 then { s with input := s.input.setError }
  else
    ((eraseAcked absAckno msg.windowSize s.sendBuffer s).takeWindow msg.windowSize).restartTimer
      absAckno

/-- The sender after a tick, and the segment it retransmits. -/
def tick (s : TCPSender) (msSinceLastTick : Nat) : TCPSender × List TCPSenderMessage :=
  let s := { s with timer := add64 s.timer msSinceLastTick }
  match s.sendBuffer with
  | [] => ({ s with timer := 0 }, [])
  | x :: _ =>
    if s.timer ≥ s.currentRTO then
      ({ s with
          numConsecutiveRetran := s.numConsecutiveRetran + 1
          currentRTO := if !s.receiverFull || x.2.syn then add64 s.currentRTO s.currentRTO
            else s.currentRTO
          timer := 0 }, [x.2])
    else (s, [])

end TCPSender

end Minnow
