import Minnow.Event.Rules
import Minnow.Tcp.Agreement

/-!
# The TCP socket (`util/tcp_minnow_socket_impl.hh`)

The thread of a socket runs a `TCPPeer` in an event loop. Three rules move the datagrams of the
adapter to the peer, the bytes that the owner writes to the outbound stream, and the bytes of the
inbound stream to the owner. `connect` and `listen_and_accept` run the loop until the handshake is
over; `_tcp_main` runs it to its end.

The adapter is whatever gives and takes messages: `wire` is what was written to it. The state also
records the bytes that were read from the owner (`given`) and written to it (`taken`). An adapter or
a clock that fails is left out, and so are the texts on `cerr`. A socket is used for one connection:
`connect` and `listen_and_accept` do not return behind the end of the thread.
-/

namespace Minnow

/-- What the adapter and the system calls of a callback return. An absent ackno reads as the value
beside the message. -/
structure MinnowSocket.Script where
  incoming : Option (Wrap32 × TCPMessage) := none
  adapterFd : FDWrapper := {}
  read : Answer Bytes := .again
  write : Answer Nat := .again
  shutdown : Answer Nat := .done 0

structure MinnowSocket where
  tcp : Conversation
  inboundShutdown : Bool := false
  outboundShutdown : Bool := false
  fullyAcked : Bool := false
  script : MinnowSocket.Script := {}
  wire : List TCPMessage := []
  given : Bytes := []
  taken : Bytes := []

namespace MinnowSocket

/-- The descriptors: the adapter's, and the thread's end of the pair. -/
def adapter : Nat := 0
def threadData : Nat := 1

abbrev outbound (s : MinnowSocket) : ByteStream := s.tcp.peer.sender.input

abbrev inbound (s : MinnowSocket) : ByteStream := s.tcp.peer.receiver.output

/-- A fault of the receiver ends the thread. -/
def thrown {α : Type} : Except Fault α → Except Exception α
  | .ok a => .ok a
  | .error _ => .error (.outOfRange "basic_string_view::substr")

/-- Messages are written to the adapter. -/
def transmit (s : MinnowSocket) (r : Conversation × List TCPMessage) : MinnowSocket :=
  { s with tcp := r.1, wire := s.wire ++ r.2 }

/-- The flag of the debugging output in the first rule. -/
def noteAcked (eof : Bool) (s : MinnowSocket) : MinnowSocket :=
  if eof && s.tcp.peer.sender.sequenceNumbersInFlight == 0 && !s.fullyAcked then
    { s with fullyAcked := true }
  else s

/-- What the adapter has read goes to the peer. -/
def takeSegment (s : MinnowSocket) : Except Exception MinnowSocket :=
  match s.script.incoming with
  | some (stale, seg) => do
    let r ← thrown (s.tcp.receive stale seg)
    return s.transmit r
  | none => return s

/-- The callback of rule 1. -/
def receiveSegment : Callback MinnowSocket := fun w => do
  let s ← w.state.takeSegment
  return { w with
    fds := Function.update w.fds adapter w.state.script.adapterFd
    state := s.noteAcked (w.fds threadData).eof }

/-- `_tcp->outbound_writer().close(); _outbound_shutdown = true;` -/
def closeOutbound (s : MinnowSocket) : MinnowSocket :=
  { s with tcp := s.tcp.close, outboundShutdown := true }

/-- The callback of rule 2. -/
def pushBytes : Callback MinnowSocket := fun w => do
  let s := w.state
  let (fd, data) ← (w.fds threadData).read s.outbound.availableCapacity s.script.read
  let s := { s with tcp := s.tcp.write data, given := s.given ++ data }
  let s := if fd.eof then s.closeOutbound else s
  return { w with fds := Function.update w.fds threadData fd, state := s.transmit s.tcp.push }

/-- The first half of the callback of rule 3. -/
def deliverBytes : Callback MinnowSocket := fun w => do
  let s := w.state
  if s.inbound.bytesBuffered ≠ 0 then
    let buffer := s.inbound.peek
    let (fd, n) ← (w.fds threadData).write buffer s.script.write
    return { w with
      fds := Function.update w.fds threadData fd
      state := { s with
        tcp := { s.tcp with peer := { s.tcp.peer with receiver := s.tcp.peer.receiver.read n } }
        taken := s.taken ++ buffer.take n } }
  else return w

/-- The second half of the callback of rule 3. -/
def shutInbound : Callback MinnowSocket := fun w => do
  let s := w.state
  if s.inbound.isFinished || s.inbound.hasError then
    let fd ← (w.fds threadData).shutdownWrite s.script.shutdown
    return { w with
      fds := Function.update w.fds threadData fd
      state := { s with inboundShutdown := true } }
  else return w

def readBytes : Callback MinnowSocket := fun w => do
  let w ← deliverBytes w
  shutInbound w

/-- `_tcp->outbound_writer().set_error()`. -/
def failOutbound (s : MinnowSocket) : MinnowSocket :=
  { s with tcp := { s.tcp with peer := { s.tcp.peer with
    sender := { s.tcp.peer.sender with input := s.outbound.setError } } } }

/-- `_tcp->inbound_reader().set_error()`. -/
def failInbound (s : MinnowSocket) : MinnowSocket :=
  { s with tcp := { s.tcp with peer := { s.tcp.peer with
    receiver := { s.tcp.peer.receiver with
      reassembler := { s.tcp.peer.receiver.reassembler with output := s.inbound.setError } } } } }

def receiveRule : FDRule MinnowSocket where
  id := 0
  categoryId := 0
  interest w := w.state.tcp.peer.active
  callback := receiveSegment
  fd := adapter
  direction := .input

def pushRule : FDRule MinnowSocket where
  id := 1
  categoryId := 1
  interest w := w.state.tcp.peer.active && !w.state.outboundShutdown &&
    decide (w.state.outbound.availableCapacity > 0)
  callback := pushBytes
  fd := threadData
  direction := .input
  cancel w := .ok { w with state := w.state.closeOutbound }
  error w := .ok { w with state := w.state.failOutbound }

def readRule : FDRule MinnowSocket where
  id := 2
  categoryId := 2
  interest w := decide (w.state.inbound.bytesBuffered ≠ 0) ||
    ((w.state.inbound.isFinished || w.state.inbound.hasError) && !w.state.inboundShutdown)
  callback := readBytes
  fd := threadData
  direction := .output
  error w := .ok { w with state := w.state.failInbound }

def rules : List (FDRule MinnowSocket) := [receiveRule, pushRule, readRule]

def ruleNames : List String :=
  ["receive TCP segment from the network", "push bytes to TCPPeer",
    "read bytes from inbound stream"]

/-- The event loop that `_initialize_TCP` sets up. -/
def eventLoop : EventLoop MinnowSocket where
  ruleCategories := ruleNames
  fdRules := rules
  nextId := 3

/-- The calls of `add_rule` in `_initialize_TCP`. -/
def addRules : Except Exception (EventLoop MinnowSocket) :=
  (ruleNames.zip rules).foldlM (fun loop r => do
    let (loop, category) ← loop.addCategory r.1
    let (loop, _) ← loop.addRule category r.2.fd r.2.direction r.2.callback r.2.interest r.2.cancel
      r.2.error
    return loop) {}

theorem addRules_eq : addRules = .ok eventLoop := rfl

/-- What `_tcp_loop` is run for. -/
inductive Phase where
  | idle
  | connecting
  | listening
  | running
  | finished
  deriving DecidableEq

/-- `_tcp->tick` in `_tcp_loop`. -/
def tick (ms : Nat) (s : MinnowSocket) : MinnowSocket :=
  if s.tcp.peer.active then
    s.transmit ({ s.tcp with peer := (s.tcp.peer.tick ms).1 }, (s.tcp.peer.tick ms).2)
  else s

end MinnowSocket

open MinnowSocket (Phase)

/-- A socket and the loop of its thread. -/
structure Endpoint where
  loop : EventLoop MinnowSocket := MinnowSocket.eventLoop
  world : World MinnowSocket
  phase : Phase := .idle

namespace Endpoint

/-- The socket once `_initialize_TCP` is done. -/
def new (cfg : TCPConfig) : Endpoint where
  world := {
    fds fd := if fd = MinnowSocket.threadData then { nonBlocking := true } else {}
    state := { tcp := .new cfg } }

abbrev state (p : Endpoint) : MinnowSocket := p.world.state

/-- What the owner and the thread do. A `turn` is an iteration of `_tcp_loop`; `abort` is `_abort`
after the wait, and `ms` the time since the last tick. -/
inductive Op where
  | connect
  | listen
  | turn (kernel : Kernel MinnowSocket) (abort : Bool) (ms : Nat)

/-- The body of `_tcp_loop`; `false` means that the loop is left with a `break`. -/
def iterate (p : Endpoint) (kernel : Kernel MinnowSocket) (abort : Bool) (ms : Nat) :
    Except Exception (Bool × Endpoint) := do
  let (ret, loop, world) ← p.loop.waitNextEvent kernel p.world
  if ret = .exit || abort then return (false, { p with loop, world })
  return (true, { p with loop, world := { world with state := world.state.tick ms } })

/-- The condition that `connect`, `listen_and_accept` and `_tcp_main` give to `_tcp_loop`. -/
def condition (p : Endpoint) : Bool :=
  match p.phase with
  | .connecting => p.state.tcp.peer.sender.sequenceNumbersInFlight == 1
  | .listening =>
    !p.state.tcp.peer.hasAckno || p.state.tcp.peer.sender.sequenceNumbersInFlight != 0
  | .running => true
  | .idle | .finished => false

/-- The phase behind a loop that is left. -/
def leave (p : Endpoint) : Endpoint :=
  match p.phase with
  | .connecting | .listening => { p with phase := .running }
  | .running => { p with phase := .finished }
  | .idle | .finished => p

def step (p : Endpoint) : Op → Except Exception Endpoint
  | .connect => do
    if p.phase ≠ .idle then
      throw (.runtimeError "connect() with TCPConnection already initialized")
    let p := { p with world := { p.world with state := p.state.transmit p.state.tcp.push } }
    if p.state.tcp.peer.sender.sequenceNumbersInFlight ≠ 1 then
      throw (.runtimeError
        "After TCPConnection::connect(), expected sequence_numbers_in_flight() == 1")
    return { p with phase := .connecting }
  | .listen => do
    if p.phase ≠ .idle then
      throw (.runtimeError "listen_and_accept() with TCPConnection already initialized")
    return { p with phase := .listening }
  | .turn kernel abort ms => do
    if p.condition then
      let (again, p) ← p.iterate kernel abort ms
      if again then return p else return p.leave
    else return p.leave

end Endpoint

end Minnow
