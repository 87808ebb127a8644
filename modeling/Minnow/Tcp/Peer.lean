import Minnow.Tcp.Receiver
import Minnow.Tcp.Session

/-!
# A TCP peer (`util/tcp_peer.hh`)

A sender and a receiver that share their messages: every segment that the sender transmits carries
what the receiver reports at that moment, and every message that arrives is given to the receiver
first and to the sender then.

`transmit` is what `send` hands over, so the operations return the messages they send. `receive`
fails only where the receiver does. `receive_cases` says what it does, once for all invariants.

`Conversation` keeps beside a peer the segments it has transmitted first, the bytes that were
written to it and the acks it has heard, as `TCPSender.Session` does for a sender alone.
-/

namespace Minnow

/-- `TCPConfig`. -/
structure TCPConfig where
  rtTimeout : UInt16 := 1000
  recvCapacity : Nat := 64000
  sendCapacity : Nat := 64000
  isn : Wrap32 := ⟨137⟩
  deriving DecidableEq

/-- `TCPMessage`: what goes from one peer to the other. -/
structure TCPMessage where
  sender : TCPSenderMessage := {}
  receiver : TCPReceiverMessage := {}
  deriving DecidableEq

structure TCPPeer where
  cfg : TCPConfig
  sender : TCPSender
  receiver : TCPReceiver
  needSend : Bool := false
  lingerAfterStreamsFinish : Bool := true
  cumulativeTime : Nat := 0
  timeOfLastReceipt : Nat := 0
  deriving DecidableEq

namespace TCPPeer

def new (cfg : TCPConfig) : TCPPeer where
  cfg
  sender := .new cfg.sendCapacity cfg.isn cfg.rtTimeout.toNat
  receiver := .new cfg.recvCapacity

def hasAckno (p : TCPPeer) : Bool := p.receiver.send.ackno.isSome

def anyErrors (p : TCPPeer) : Bool := p.receiver.output.hasError || p.sender.input.hasError

def active (p : TCPPeer) : Bool :=
  let senderActive := p.sender.sequenceNumbersInFlight != 0 || !p.sender.input.isFinished
  let receiverActive := !p.receiver.isClosed
  let lingering := p.lingerAfterStreamsFinish &&
    p.cumulativeTime < add64 p.timeOfLastReceipt (10 * p.cfg.rtTimeout.toNat)
  !p.anyErrors && (senderActive || receiverActive || lingering)

/-- The message that carries a segment. -/
def message (p : TCPPeer) (segment : TCPSenderMessage) : TCPMessage :=
  ⟨segment, p.receiver.send⟩

/-- The calls of `send` for the segments that the sender transmits. -/
def sends (p : TCPPeer) (segments : List TCPSenderMessage) : TCPPeer × List TCPMessage :=
  ({ p with needSend := p.needSend && segments.isEmpty }, segments.map p.message)

def push (p : TCPPeer) : TCPPeer × List TCPMessage :=
  { p with sender := p.sender.push.1 }.sends p.sender.push.2

def tick (p : TCPPeer) (t : Nat) : TCPPeer × List TCPMessage :=
  { p with
    cumulativeTime := add64 p.cumulativeTime t
    sender := (p.sender.tick t).1 }.sends (p.sender.tick t).2

/-- The segment is a keep-alive: its number is the one before our ackno. -/
def isKeepAlive (p : TCPPeer) (segment : TCPSenderMessage) : Bool :=
  p.receiver.send.ackno.any (segment.seqno.add 1 == ·)

/-- The two statements that set `need_send_`. -/
def wantsReply (p : TCPPeer) (segment : TCPSenderMessage) : Bool :=
  p.needSend || 0 < segment.sequenceLength || p.isKeepAlive segment

/-- The empty message, if a reply is still needed. -/
def reply (p : TCPPeer) : TCPPeer × List TCPMessage :=
  if p.needSend then p.sends [p.sender.makeEmptyMessage] else (p, [])

/-- The end of `receive`: the inbound stream has ended before the outbound one. -/
def settle (p : TCPPeer) : TCPPeer :=
  if p.receiver.isClosed && !p.sender.input.isFinished then
    { p with lingerAfterStreamsFinish := false }
  else p

def receive (p : TCPPeer) (stale : Wrap32) (msg : TCPMessage) :
    Except Fault (TCPPeer × List TCPMessage) :=
  if !p.active then
    return (p, [])
  else do
    let needSend := p.wantsReply msg.sender
    let receiver ← p.receiver.receive msg.sender
    let sender := p.sender.receive stale msg.receiver
    let (p, segments) :=
      { p with timeOfLastReceipt := p.cumulativeTime, needSend, receiver, sender }.push
    let (p, empty) := p.reply
    return (p.settle, segments ++ empty)

/-! ## What a call of `receive` does -/

/-- What the sender transmits when a message arrives. -/
def newSegments (p : TCPPeer) (stale : Wrap32) (msg : TCPMessage) : List TCPSenderMessage :=
  (p.sender.receive stale msg.receiver).push.2

/-- A message is processed, and answered by `out`. -/
structure Answered (p : TCPPeer) (stale : Wrap32) (msg : TCPMessage) (p' : TCPPeer)
    (out : List TCPMessage) : Prop where
  receiver : p.receiver.receive msg.sender = .ok p'.receiver
  sender : p'.sender = (p.sender.receive stale msg.receiver).push.1
  cfg : p'.cfg = p.cfg
  needSend : p'.needSend = false
  linger : p'.lingerAfterStreamsFinish =
    (p.lingerAfterStreamsFinish && !(p'.receiver.isClosed && !p'.sender.input.isFinished))
  out : out = (p.newSegments stale msg ++
    if p.wantsReply msg.sender && (p.newSegments stale msg).isEmpty then
      [p'.sender.makeEmptyMessage]
    else []).map p'.message

variable {p p' : TCPPeer} {stale : Wrap32} {msg : TCPMessage} {out : List TCPMessage}

theorem settle_fields (p : TCPPeer) : p.settle = { p with
    lingerAfterStreamsFinish := p.lingerAfterStreamsFinish &&
      !(p.receiver.isClosed && !p.sender.input.isFinished) } := by
  unfold settle
  split
  · rename_i h
    rw [h, Bool.not_true, Bool.and_false]
  · rename_i h
    rw [Bool.eq_false_of_not_eq_true h, Bool.not_false, Bool.and_true]

theorem reply_fields (p : TCPPeer) : p.reply = ({ p with needSend := false },
    if p.needSend then [p.message p.sender.makeEmptyMessage] else []) := by
  unfold reply sends
  cases hn : p.needSend with
  | true => rfl
  | false =>
    rw [if_neg Bool.false_ne_true, if_neg Bool.false_ne_true]
    cases p
    obtain rfl : _ = false := hn
    rfl

/-- The end of `receive`, for a peer that has taken the message. -/
theorem answered {q : TCPPeer} (hr : p.receiver.receive msg.sender = .ok q.receiver)
    (hs : q.sender = p.sender.receive stale msg.receiver) (hc : q.cfg = p.cfg)
    (hn : q.needSend = p.wantsReply msg.sender)
    (hl : q.lingerAfterStreamsFinish = p.lingerAfterStreamsFinish) :
    Answered p stale msg q.push.1.reply.1.settle (q.push.2 ++ q.push.1.reply.2) := by
  rw [settle_fields, reply_fields]
  have hpush : q.sender.push = (p.sender.receive stale msg.receiver).push := by rw [hs]
  refine ⟨hr, congrArg Prod.fst hpush, hc, rfl, congrArg (· && _) hl, ?_⟩
  unfold newSegments
  rw [List.map_append, ← hpush, ← hn]
  refine congrArg (q.push.2 ++ ·) ?_
  show (if q.needSend && q.sender.push.2.isEmpty then _ else _) = List.map _ (if _ then _ else _)
  cases q.needSend && q.sender.push.2.isEmpty <;> rfl

/-- A message is ignored by a peer that is not active, and processed by one that is. -/
theorem receive_cases (h : p.receive stale msg = .ok (p', out)) :
    (p.active = false ∧ p' = p ∧ out = []) ∨ (p.active = true ∧ Answered p stale msg p' out) := by
  unfold receive at h
  cases ha : p.active with
  | false =>
    rw [ha] at h
    have h := pair_ok h
    exact .inl ⟨rfl, h.1.symm, h.2.symm⟩
  | true =>
    rw [ha, if_neg (by simp)] at h
    obtain ⟨t, ht, h⟩ := bind_ok h
    have h := pair_ok h
    rw [← h.1, ← h.2]
    exact .inr ⟨rfl, answered ht rfl rfl rfl rfl⟩

/-- An active peer processes a message where its receiver does. -/
theorem receive_ok {t : TCPReceiver} (ha : p.active = true)
    (ht : p.receiver.receive msg.sender = .ok t) :
    ∃ p' out, p.receive stale msg = .ok (p', out) := by
  unfold receive
  rw [ha, ht]
  exact ⟨_, _, rfl⟩

end TCPPeer

/-! ## Runs -/

/-- A peer, what it has transmitted first, what was written to it and the acks it has heard. -/
structure Conversation where
  peer : TCPPeer
  sent : List TCPSenderMessage := []
  written : Bytes := []
  acknos : List Nat := []
  deriving DecidableEq

namespace Conversation

/-- What can happen to a peer. A `shutdown` is a close that is followed by a push at once. -/
inductive Op where
  | write (data : Bytes)
  | close
  | shutdown
  | push
  | tick (ms : Nat)
  | receive (stale : Wrap32) (msg : TCPMessage)
  | read (len : Nat)
  deriving DecidableEq

/-- The sender's part. -/
def session (c : Conversation) : TCPSender.Session := ⟨c.peer.sender, c.sent, c.written⟩

def write (c : Conversation) (data : Bytes) : Conversation :=
  { c with
    peer := { c.peer with sender := c.peer.sender.write data }
    written := c.written ++ data.take c.peer.sender.input.availableCapacity }

def close (c : Conversation) : Conversation :=
  { c with peer := { c.peer with sender := c.peer.sender.close } }

def push (c : Conversation) : Conversation × List TCPMessage :=
  ({ c with peer := c.peer.push.1, sent := c.sent ++ c.peer.sender.push.2 }, c.peer.push.2)

def receive (c : Conversation) (stale : Wrap32) (msg : TCPMessage) :
    Except Fault (Conversation × List TCPMessage) := do
  let (peer, out) ← c.peer.receive stale msg
  if c.peer.active then
    return ({ c with
      peer
      sent := c.sent ++ c.peer.newSegments stale msg
      acknos := c.acknos ++ [c.peer.sender.absAckno stale msg.receiver] }, out)
  else
    return ({ c with peer }, out)

/-- A step, and the messages it sends. -/
def step (c : Conversation) : Op → Except Fault (Conversation × List TCPMessage)
  | .write data => return (c.write data, [])
  | .close => return (c.close, [])
  | .shutdown => return c.close.push
  | .push => return c.push
  | .tick ms => return ({ c with peer := (c.peer.tick ms).1 }, (c.peer.tick ms).2)
  | .receive stale msg => c.receive stale msg
  | .read len => return ({ c with
      peer := { c.peer with receiver := c.peer.receiver.read len } }, [])

def new (cfg : TCPConfig) : Conversation where
  peer := .new cfg

/-- A step, without its messages. -/
def next (c : Conversation) (op : Op) : Except Fault Conversation := do
  let (c, _) ← c.step op
  return c

def machine (cfg : TCPConfig) : Machine Conversation Op := .det (.new cfg) next

/-- The application does not write after its close. -/
def Orderly (c : Conversation) : Op → Prop
  | .write _ => c.peer.sender.input.closed = false
  | _ => True

instance (c : Conversation) : ∀ op, Decidable (Orderly c op)
  | .write _ => by
    unfold Orderly
    infer_instance
  | .close | .shutdown | .push | .tick _ | .receive _ _ | .read _ => .isTrue trivial

variable {c c' : Conversation} {stale : Wrap32} {msg : TCPMessage} {out : List TCPMessage}

/-- What `receive` does to the ghosts. -/
theorem receive_cases (h : c.receive stale msg = .ok (c', out)) :
    (c.peer.active = false ∧ c' = c ∧ out = []) ∨
    (c.peer.active = true ∧ ∃ p', c.peer.Answered stale msg p' out ∧ c' = { c with
      peer := p'
      sent := c.sent ++ c.peer.newSegments stale msg
      acknos := c.acknos ++ [c.peer.sender.absAckno stale msg.receiver] }) := by
  unfold receive at h
  obtain ⟨⟨p', out'⟩, hp, h⟩ := bind_ok h
  rcases TCPPeer.receive_cases hp with ⟨ha, rfl, rfl⟩ | ⟨ha, hans⟩
  · rw [ha] at h
    have h := pair_ok h
    exact .inl ⟨ha, h.1.symm, h.2.symm⟩
  · rw [ha] at h
    obtain ⟨rfl, rfl⟩ := pair_ok h
    exact .inr ⟨ha, p', hans, rfl⟩

/-- The steps that a processed message is for the sender. -/
theorem session_receive {p' : TCPPeer} (h : c.peer.Answered stale msg p' out) :
    session { c with
      peer := p'
      sent := c.sent ++ c.peer.newSegments stale msg
      acknos := c.acknos ++ [c.peer.sender.absAckno stale msg.receiver] } =
    (c.session.step (.receive stale msg.receiver)).step .push := by
  unfold session
  rw [h.sender]
  rfl

theorem next_ok {op : Op} (h : c.next op = .ok c') : ∃ out, c.step op = .ok (c', out) := by
  obtain ⟨⟨c₁, out⟩, hs, h⟩ := bind_ok h
  obtain rfl := Except.ok.inj h
  exact ⟨out, hs⟩

end Conversation

end Minnow
