import Minnow.ByteStream
import Minnow.WrappingIntegers

/-!
# TCP messages (`util/tcp_sender_message.hh`, `util/tcp_receiver_message.hh`)

What a sender sends to its peer's receiver, and what the receiver sends back. A segment uses one
sequence number for each byte of its payload, one for its SYN and one for its FIN.
-/

namespace Minnow

structure TCPSenderMessage where
  seqno : Wrap32 := ⟨0⟩
  syn : Bool := false
  payload : Bytes := []
  fin : Bool := false
  rst : Bool := false
  deriving DecidableEq

/-- How many sequence numbers the segment uses. -/
def TCPSenderMessage.sequenceLength (m : TCPSenderMessage) : Nat :=
  m.syn.toNat + m.payload.length + m.fin.toNat

structure TCPReceiverMessage where
  ackno : Option Wrap32 := none
  windowSize : UInt16 := 0
  rst : Bool := false
  deriving DecidableEq

end Minnow
