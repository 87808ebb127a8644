import Minnow.Event.MinnowSocket

/-!
# Two sockets and their owners

Two endpoints over a network that may lose, delay, duplicate and reorder: each goes through its
phases, one iteration of its loop after the other, and the kernels decide what the loops see.

An iteration of a loop is a sequence of steps of one end of a `Duplex` (`Simulates`), so what holds of
two peers in every run holds of two sockets, and of the bytes that their owners see.
-/

namespace Minnow

open TCPSender (Session Grows)

namespace Conversation

variable {c c' : Conversation} {op : Op} {out : List TCPMessage}

/-- A step takes nothing back that was sent, written, or received. -/
theorem step_grows (hg : c.session.Good) (hok : c.Orderly op) (hst : c.step op = .ok (c', out)) :
    Grows c.session c'.session ∧
      (c.peer.receiver.isClosed = true → c'.peer.receiver.isClosed = true) := by
  cases op with
  | write data =>
    obtain ⟨rfl, rfl⟩ := pair_ok hst
    exact ⟨@Session.grows _ (.write data) hg hok, id⟩
  | close =>
    obtain ⟨rfl, rfl⟩ := pair_ok hst
    exact ⟨@Session.grows _ .close hg trivial, id⟩
  | shutdown =>
    obtain ⟨rfl, rfl⟩ := pair_ok hst
    exact ⟨(@Session.grows _ .close hg trivial).trans
      (@Session.grows _ .push (@Session.Good.step _ .close hg trivial) trivial), id⟩
  | push =>
    obtain ⟨rfl, rfl⟩ := pair_ok hst
    exact ⟨@Session.grows _ .push hg trivial, id⟩
  | tick ms =>
    obtain ⟨rfl, rfl⟩ := pair_ok hst
    exact ⟨@Session.grows _ (.tick ms) hg trivial, id⟩
  | read len =>
    obtain ⟨rfl, rfl⟩ := pair_ok hst
    exact ⟨.refl _, id⟩
  | receive stale msg =>
    rcases receive_cases hst with ⟨-, rfl, rfl⟩ | ⟨-, p', hans, rfl⟩
    · exact ⟨.refl _, id⟩
    · rw [session_receive hans]
      refine ⟨(@Session.grows _ (.receive stale msg.receiver) hg trivial).trans
        (@Session.grows _ .push (@Session.Good.step _ (.receive stale msg.receiver) hg trivial)
          trivial), fun hc => ?_⟩
      rcases TCPReceiver.receive_cases hans.receiver with ⟨-, ht⟩ | ⟨-, r', hins, ht⟩
      · show p'.receiver.isClosed = true
        rw [ht]
        exact hc
      · show p'.receiver.isClosed = true
        rw [ht]
        exact (Reassembler.insert_kept hins).1.closed hc

/-- What arrives does not end the outbound stream. -/
theorem receive_closed {stale : Wrap32} {msg : TCPMessage} (hg : c.session.Good)
    (h : c.receive stale msg = .ok (c', out)) :
    c'.peer.sender.input.closed = c.peer.sender.input.closed ∧ c'.written = c.written := by
  rcases receive_cases h with ⟨-, rfl, rfl⟩ | ⟨-, p', hans, rfl⟩
  · exact ⟨rfl, rfl⟩
  · refine ⟨?_, rfl⟩
    have hg' := @Session.Good.step _ (.receive stale msg.receiver) hg trivial
    show p'.sender.input.closed = _
    rw [hans.sender]
    refine (TCPSender.Segmented.pushed hg').closed.trans ?_
    show (c.peer.sender.receive stale msg.receiver).input.closed = _
    rcases c.peer.sender.receive_cases stale msg.receiver with ⟨-, error, he⟩ | ⟨-, hr⟩
    · rw [he]
    · rw [hr.input]

end Conversation

namespace Duplex

/-- The stream to `x` is over, and its application has all of it. -/
def Settled (d : Duplex) (x : Side) : Prop :=
  (d.peer x).receiver.isClosed = true ∧ d.read x = d.written x.other

variable {cfg : Side → TCPConfig} {d d' : Duplex} {e : Op} {x : Side}

theorem Settled.step (h : Settled d x) (hfits : ∀ x, Fits (cfg x))
    (hr : (machine cfg).Reaches Permitted d) (hok : d.Permitted e) (hst : d.step e = .ok d') :
    Settled d' x := by
  obtain ⟨hclosed, hread⟩ := h
  have hsender := ((received_of_other hfits hr x).2 hclosed).1
  have hr' : (machine cfg).Reaches Permitted d' := hr.step hok hst
  obtain ⟨y, op⟩ := e
  obtain ⟨⟨c, out⟩, hc⟩ : ∃ r, (d.conv y).step op = .ok r := by
    obtain ⟨pair, hpair, -⟩ := bind_ok hst
    obtain ⟨r, hr, -⟩ := bind_ok hpair
    exact ⟨r, hr⟩
  obtain ⟨d'', hd', hm⟩ := step_moves (e := ⟨y, op⟩) hc
  obtain rfl : d' = d'' := Except.ok.inj (hst.symm.trans hd')
  obtain ⟨hgrows, hkeeps⟩ :=
    Conversation.step_grows (linked hfits hr y).carried.good hok.1.1 hc
  obtain ⟨hclosed', hlonger, hwritten⟩ : (d'.peer x).receiver.isClosed = true ∧
      d.read x <+: d'.read x ∧ d'.written x.other = d.written x.other := by
    unfold Duplex.peer Duplex.written
    rcases y.eq_or_other x with rfl | rfl
    · rw [hm.conv, hm.read, hm.other]
      exact ⟨hkeeps hclosed, List.prefix_append _ _, rfl⟩
    · rw [Side.other_other] at hsender ⊢
      rw [hm.other, hm.otherRead, hm.conv]
      exact ⟨hclosed, List.prefix_refl _, (hgrows.closed hsender).2⟩
  refine ⟨hclosed', ?_⟩
  -- the application cannot have more than was written
  have hle : (d'.read x).length ≤ (d'.written x.other).length :=
    (List.prefix_append _ _).length_le.trans (received_of_other hfits hr' x).1.length_le
  have hread' : d'.written x.other <+: d'.read x := hwritten ▸ hread ▸ hlonger
  exact (hread'.eq_of_length_le hle).symm

end Duplex

namespace MinnowSocket

open EventLoop (Outline withRules)

/-- A message that arrives was written at the other end, and it is sound there. -/
def Heard (other s : MinnowSocket) : Option (Wrap32 × TCPMessage) → Prop
  | some (stale, msg) => msg ∈ other.wire ∧
    (s.tcp.peer.active = true → s.tcp.peer.receiver.Benign msg.sender ∧
      (msg.receiver.ackno = none →
        s.tcp.peer.sender.acked (s.tcp.peer.sender.absAckno stale msg.receiver) = []))
  | none => True

/-- What the owner gives stays countable. -/
def Countable (other s : MinnowSocket) : Answer Bytes → Prop
  | .done data => s.given.length + data.length + other.inbound.capacity < 2 ^ 31
  | .again | .failed => True

/-- What the kernel gives to a socket. -/
def Fair (other s : MinnowSocket) (script : Script) : Prop :=
  Heard other s script.incoming ∧ Countable other s script.read

instance (other s : MinnowSocket) : ∀ incoming, Decidable (Heard other s incoming)
  | some _ => by
    unfold Heard
    infer_instance
  | none => .isTrue trivial

instance (other s : MinnowSocket) : ∀ read, Decidable (Countable other s read)
  | .done _ => by
    unfold Countable
    infer_instance
  | .again | .failed => .isTrue trivial

instance (other s : MinnowSocket) (script : Script) : Decidable (Fair other s script) := by
  unfold Fair
  infer_instance

/-- The kernel answers fairly, does nothing else, and no descriptor fails. -/
def Answering (other : MinnowSocket) (kernel : Kernel MinnowSocket) : Prop :=
  (∃ script : World MinnowSocket → Script,
    (kernel.wait = fun w => { w with state := { w.state with script := script w } }) ∧
      ∀ w, Fair other w.state (script w)) ∧
  ∀ idx, kernel.revents idx &&& (pollErr ||| pollNval) = 0

/-- The socket at the end `x` of two peers. What is read from the owner is written, the flag of the
outbound stream is its end, and behind a shutdown the owner has all. -/
structure At (d : Duplex) (x : Side) (s : MinnowSocket) : Prop where
  conv : d.conv x = s.tcp
  network : d.pair.network x = s.wire
  read : d.read x = s.taken
  given : s.given = s.tcp.written
  closed : s.outbound.closed = s.outboundShutdown
  settled : s.inboundShutdown = true → d.Settled x

/-- The two sockets are the two ends of a run of two peers. -/
def Simulates (cfg : Side → TCPConfig) (x : Side) (other s : MinnowSocket) : Prop :=
  ∃ d, (Duplex.machine cfg).Reaches Duplex.Permitted d ∧ At d x s ∧ At d x.other other

variable {cfg : Side → TCPConfig} {x : Side} {other s s' : MinnowSocket} {d : Duplex}
  {w w' : World MinnowSocket} {loop : EventLoop MinnowSocket} {r q : FDRule MinnowSocket}
  {pre post : List (FDRule MinnowSocket)}

/-- A step of the peer. -/
theorem Simulates.step {out : List TCPMessage} (h : Simulates cfg x other s)
    (hfits : ∀ x, Duplex.Fits (cfg x)) (op : Conversation.Op)
    (hok : ∀ d, (Duplex.machine cfg).Reaches Duplex.Permitted d → At d x s → At d x.other other →
      d.Permitted ⟨x, op⟩)
    (hst : s.tcp.step op = .ok (s'.tcp, out)) (hwire : s'.wire = s.wire ++ out)
    (htaken : s'.taken = s.taken ++ Duplex.taken s.tcp op) (hgiven : s'.given = s'.tcp.written)
    (hclosed : s'.outbound.closed = s'.outboundShutdown)
    (hshut : s'.inboundShutdown = s.inboundShutdown) : Simulates cfg x other s' := by
  obtain ⟨d, hr, hx, hother⟩ := h
  have hp := hok d hr hx hother
  rw [← hx.conv] at hst htaken
  obtain ⟨d', hd', hm⟩ := Duplex.step_moves (e := ⟨x, op⟩) hst
  refine ⟨d', hr.step hp hd', ⟨hm.conv, ?_, ?_, hgiven, hclosed, fun hs => ?_⟩,
    ⟨hm.other.trans hother.conv, hm.otherNetwork.trans hother.network,
      hm.otherRead.trans hother.read, hother.given, hother.closed, fun hs => ?_⟩⟩
  · rw [hm.network, hx.network, hwire]
  · rw [hm.read, hx.read, htaken]
  · exact (hx.settled (hshut ▸ hs)).step hfits hr hp hd'
  · exact (hother.settled hs).step hfits hr hp hd'

theorem Simulates.given (h : Simulates cfg x other s) : s.given = s.tcp.written := by
  obtain ⟨d, -, hx, -⟩ := h
  exact hx.given

theorem Simulates.closed (h : Simulates cfg x other s) :
    s.outbound.closed = s.outboundShutdown := by
  obtain ⟨d, -, hx, -⟩ := h
  exact hx.closed

theorem Simulates.good (h : Simulates cfg x other s) (hfits : ∀ x, Duplex.Fits (cfg x)) :
    s.tcp.session.Good := by
  obtain ⟨d, hr, hx, -⟩ := h
  have hgood : (d.conv x).session.Good := (Duplex.linked hfits hr x).carried.good
  rwa [hx.conv] at hgood

theorem Simulates.closeOutbound (h : Simulates cfg x other s)
    (hfits : ∀ x, Duplex.Fits (cfg x)) : Simulates cfg x other s.closeOutbound :=
  h.step hfits .close (fun _ _ _ _ => ⟨⟨trivial, trivial⟩, trivial, trivial⟩) rfl
    (List.append_nil _).symm (List.append_nil _).symm h.given rfl rfl

theorem Simulates.push (h : Simulates cfg x other s) (hfits : ∀ x, Duplex.Fits (cfg x)) :
    Simulates cfg x other (s.transmit s.tcp.push) := by
  refine h.step hfits .push (fun _ _ _ _ => ⟨⟨trivial, trivial⟩, trivial, trivial⟩) rfl rfl
    (List.append_nil _).symm h.given ?_ rfl
  exact (TCPSender.Segmented.pushed (h.good hfits)).closed.trans h.closed

theorem Simulates.tick (h : Simulates cfg x other s) (hfits : ∀ x, Duplex.Fits (cfg x)) (ms : Nat) :
    Simulates cfg x other (s.tick ms) := by
  unfold MinnowSocket.tick
  split
  · refine h.step hfits (.tick ms) (fun _ _ _ _ => ⟨⟨trivial, trivial⟩, trivial, trivial⟩) rfl rfl
      (List.append_nil _).symm h.given ?_ rfl
    show (s.tcp.peer.sender.tick ms).1.input.closed = _
    rw [TCPSender.tick_eq]
    exact h.closed
  · exact h

/-- The owner gets a part of what is buffered for it. -/
theorem Simulates.read (h : Simulates cfg x other s) (hfits : ∀ x, Duplex.Fits (cfg x)) (n : Nat) :
    Simulates cfg x other { s with
      tcp := { s.tcp with peer := { s.tcp.peer with receiver := s.tcp.peer.receiver.read n } }
      taken := s.taken ++ s.inbound.peek.take n } :=
  h.step hfits (.read n) (fun _ _ _ _ => ⟨⟨trivial, trivial⟩, trivial, trivial⟩) rfl
    (List.append_nil _).symm rfl h.given h.closed rfl

/-- All that is read from the owner is written: no more was asked for than fits. -/
theorem Simulates.write {data : Bytes} (h : Simulates cfg x other s)
    (hfits : ∀ x, Duplex.Fits (cfg x)) (hopen : s.outboundShutdown = false)
    (hlen : data.length ≤ s.outbound.availableCapacity)
    (hroom : data ≠ [] → s.given.length + data.length + other.inbound.capacity < 2 ^ 31) :
    Simulates cfg x other { s with tcp := s.tcp.write data, given := s.given ++ data } := by
  have hwritten : (s.tcp.write data).written = s.tcp.written ++ data := by
    show s.tcp.written ++ data.take _ = _
    rw [List.take_of_length_le hlen]
  refine h.step hfits (.write data) (fun d hr hx hother => ?_) rfl (List.append_nil _).symm
    (List.append_nil _).symm ?_ ?_ rfl
  · refine ⟨⟨?_, trivial⟩, ?_, trivial⟩
    · show (d.conv x).peer.sender.input.closed = false
      rw [hx.conv]
      exact h.closed.trans hopen
    · have hcarried := (Duplex.linked hfits hr x).carried
      show ((d.conv x).write data).written.length +
        (d.conv x.other).peer.receiver.output.capacity < 2 ^ 31
      rw [hx.conv, hwritten, hother.conv, List.length_append, ← h.given]
      by_cases hdata : data = []
      · have hroom : (d.conv x).written.length + _ < 2 ^ 31 := hcarried.room
        have hcap : (d.conv x.other).peer.receiver.output.capacity = _ :=
          hcarried.delivered.outputCapacity
        rw [← hcap, hother.conv, hx.conv, ← h.given] at hroom
        simpa [hdata] using hroom
      · exact hroom hdata
  · show s.given ++ data = _
    rw [hwritten, h.given]
  · show (s.outbound.push data).closed = _
    rw [ByteStream.push_closed]
    exact h.closed

/-- A message of the other socket arrives. -/
theorem Simulates.receive {stale : Wrap32} {msg : TCPMessage} {script : Script}
    {r : Conversation × List TCPMessage} (h : Simulates cfg x other s)
    (hfits : ∀ x, Duplex.Fits (cfg x)) (hfair : Fair other s script)
    (hscript : script.incoming = some (stale, msg)) (hst : s.tcp.receive stale msg = .ok r) :
    Simulates cfg x other (s.transmit r) := by
  obtain ⟨hmem, hsound⟩ := (hscript ▸ hfair.1 : Heard other s (some (stale, msg)))
  obtain ⟨hclosed, hwritten⟩ := Conversation.receive_closed (h.good hfits) hst
  refine h.step hfits (.receive stale msg) (fun d hr hx hother => ?_) hst rfl
    (List.append_nil _).symm (h.given.trans hwritten.symm) (hclosed.trans h.closed) rfl
  refine ⟨⟨trivial, ?_⟩, trivial, ?_⟩
  · show msg ∈ d.pair.network x.other
    rw [hother.network]
    exact hmem
  · show (d.conv x).peer.active = true → _ ∧ _
    unfold Duplex.peer
    rw [hx.conv]
    exact hsound

/-- The owner is told that its stream is over: it has all of it. -/
theorem Simulates.shut (h : Simulates cfg x other s) (hfits : ∀ x, Duplex.Fits (cfg x))
    (hfin : (s.inbound.isFinished || s.inbound.hasError) = true) :
    Simulates cfg x other { s with inboundShutdown := true } := by
  obtain ⟨d, hr, hx, hother⟩ := h
  refine ⟨d, hr, ⟨hx.conv, hx.network, hx.read, hx.given, hx.closed, fun _ => ?_⟩, hother⟩
  have hdelivered := ((Duplex.linked hfits hr).back x).carried.delivered
  have herr : s.inbound.hasError = false := by
    rw [inbound, ← hx.conv]
    exact hdelivered.noError
  have hwf : s.inbound.WF := by
    rw [inbound, ← hx.conv]
    exact hdelivered.placed.inv.output
  rw [herr, Bool.or_false, hwf.isFinished_iff] at hfin
  have hclosed : (d.peer x).receiver.isClosed = true := by
    rw [Duplex.peer, hx.conv]
    exact hfin.1
  refine ⟨hclosed, ?_⟩
  have hall := ((Duplex.received_of_other hfits hr x).2 hclosed).2
  have hempty : (d.peer x).receiver.output.peek = [] := by
    rw [Duplex.peer, hx.conv]
    exact hfin.2
  rwa [Duplex.received, hempty, List.append_nil] at hall

/-! ## The callbacks -/

theorem thrown_ok {α : Type} {y : Except Fault α} {a : α} (h : thrown y = .ok a) : y = .ok a := by
  cases y with
  | error e => cases h
  | ok b => exact congrArg _ (Except.ok.inj h)

theorem Simulates.noteAcked (h : Simulates cfg x other s) (eof : Bool) :
    Simulates cfg x other (s.noteAcked eof) := by
  unfold MinnowSocket.noteAcked
  split
  · obtain ⟨d, hr, hx, hother⟩ := h
    exact ⟨d, hr, ⟨hx.conv, hx.network, hx.read, hx.given, hx.closed, hx.settled⟩, hother⟩
  · exact h

/-- What the loop of a socket keeps beside the peer: the rules, and the pair that stays open. -/
structure Local (loop : EventLoop MinnowSocket) (w : World MinnowSocket) : Prop where
  nonFdRules : loop.nonFdRules = []
  fdRules : loop.fdRules.Sublist rules
  requests : ∀ id, w.cancelRequested id = false
  isOpen : (w.fds threadData).closed = false

theorem receiveSegment_keeps (hl : Local loop w) (h : Simulates cfg x other w.state)
    (hfits : ∀ x, Duplex.Fits (cfg x)) (hfair : Fair other w.state w.state.script)
    (hc : receiveSegment w = .ok w') : Local loop w' ∧ Simulates cfg x other w'.state := by
  obtain ⟨s, hs, hc⟩ := bind_ok hc
  obtain rfl := Except.ok.inj hc
  refine ⟨{ hl with isOpen := ?_ }, ?_⟩
  · have hne : threadData ≠ adapter := by decide
    simpa [hne] using hl.isOpen
  unfold takeSegment at hs
  cases hin : w.state.script.incoming with
  | none =>
    rw [hin] at hs
    obtain rfl := Except.ok.inj hs
    exact h.noteAcked _
  | some m =>
    obtain ⟨stale, msg⟩ := m
    rw [hin] at hs
    obtain ⟨r, hr, hs⟩ := bind_ok hs
    obtain rfl := Except.ok.inj hs
    exact (h.receive hfits hfair hin (thrown_ok hr)).noteAcked _

theorem pushBytes_keeps (hl : Local loop w) (h : Simulates cfg x other w.state)
    (hfits : ∀ x, Duplex.Fits (cfg x)) (hfair : Fair other w.state w.state.script)
    (hopen : w.state.outboundShutdown = false) (hroom : 0 < w.state.outbound.availableCapacity)
    (hc : pushBytes w = .ok w') : Local loop w' ∧ Simulates cfg x other w'.state := by
  obtain ⟨⟨fd, data⟩, hread, hc⟩ := bind_ok hc
  obtain rfl := Except.ok.inj hc
  obtain ⟨hlen, hcount, hfd⟩ : data.length ≤ w.state.outbound.availableCapacity ∧
      (data ≠ [] → w.state.given.length + data.length + other.inbound.capacity < 2 ^ 31) ∧
      fd.closed = (w.fds threadData).closed := by
    rcases FDWrapper.read_cases hread with ⟨-, rfl, rfl⟩ | ⟨hanswer, hlen, hclosed, -⟩
    · exact ⟨Nat.zero_le _, fun hne => absurd rfl hne, rfl⟩
    · unfold FDWrapper.requested at hlen
      rw [if_neg (by omega)] at hlen
      exact ⟨hlen, fun _ => (hanswer ▸ hfair.2 : Countable other w.state (.done data)), hclosed⟩
  refine ⟨{ hl with isOpen := ?_ }, ?_⟩
  · simp [hfd, hl.isOpen]
  · have hwrite := h.write hfits hopen hlen hcount
    dsimp only
    split
    · exact (hwrite.closeOutbound hfits).push hfits
    · exact hwrite.push hfits

theorem readBytes_keeps (hl : Local loop w) (h : Simulates cfg x other w.state)
    (hfits : ∀ x, Duplex.Fits (cfg x)) (hc : readBytes w = .ok w') :
    Local loop w' ∧ Simulates cfg x other w'.state := by
  obtain ⟨w₁, hdeliver, hshut⟩ := bind_ok hc
  obtain ⟨hl₁, h₁⟩ : Local loop w₁ ∧ Simulates cfg x other w₁.state := by
    unfold deliverBytes at hdeliver
    dsimp only at hdeliver
    split at hdeliver
    · obtain ⟨⟨fd, n⟩, hwrite, hdeliver⟩ := bind_ok hdeliver
      obtain rfl := Except.ok.inj hdeliver
      obtain ⟨-, -, rfl⟩ := FDWrapper.write_cases hwrite
      refine ⟨{ hl with isOpen := ?_ }, h.read hfits n⟩
      simp [FDWrapper.registerWrite, hl.isOpen]
    · obtain rfl := Except.ok.inj hdeliver
      exact ⟨hl, h⟩
  unfold shutInbound at hshut
  dsimp only at hshut
  split at hshut
  · rename_i hfin
    obtain ⟨fd, hfd, hshut⟩ := bind_ok hshut
    obtain rfl := Except.ok.inj hshut
    refine ⟨{ hl₁ with isOpen := ?_ }, h₁.shut hfits hfin⟩
    obtain ⟨_, -, hfd⟩ := bind_ok hfd
    obtain rfl := Except.ok.inj hfd
    simp [FDWrapper.registerWrite, hl₁.isOpen]
  · obtain rfl := Except.ok.inj hshut
    exact ⟨hl₁, h₁⟩

/-! ## The outline of the thread -/

/-- The rule that reads from the owner finds room in a stream that is not shut down. -/
def Held (r : FDRule MinnowSocket) (b : Bool) (w : World MinnowSocket) : Prop :=
  b = true → r = pushRule →
    w.state.outboundShutdown = false ∧ 0 < w.state.outbound.availableCapacity

/-- And what the kernel gives to the rules is fair. -/
def Armed (other : MinnowSocket) (r : FDRule MinnowSocket) (b : Bool) (w : World MinnowSocket) :
    Prop :=
  Held r b w ∧ (r ≠ readRule → Fair other w.state w.state.script)

def outline (cfg : Side → TCPConfig) (x : Side) (other : MinnowSocket) : Outline MinnowSocket where
  inv loop w := Local loop w ∧ Simulates cfg x other w.state
  held := Held
  armed := Armed other
  mayFail := False
  idle r w := r.interest w = false

theorem mem_rules (h : r ∈ rules) : r = receiveRule ∨ r = pushRule ∨ r = readRule := by
  simpa [rules] using h

theorem Local.mem (h : Local loop w) (hr : r ∈ loop.fdRules) :
    r = receiveRule ∨ r = pushRule ∨ r = readRule :=
  mem_rules (h.fdRules.subset hr)

/-- The rules stand in the order of their numbers. -/
theorem Local.ordered (h : Local (withRules loop (pre ++ r :: post)) w) :
    (∀ q ∈ pre, q.id < r.id) ∧ ∀ q ∈ post, r.id < q.id := by
  have hp : rules.Pairwise (fun a b => a.id < b.id) := by decide
  have hpair := hp.sublist h.fdRules
  rw [List.pairwise_append, List.pairwise_cons] at hpair
  exact ⟨fun q hq => hpair.2.2 q hq r List.mem_cons_self, hpair.2.1.1⟩

theorem Local.mem_of_id (h : Local loop w) (hq : q ∈ rules)
    (hid : q.id ∈ loop.fdRules.map fun r => r.id) : q ∈ loop.fdRules := by
  obtain ⟨r, hr, he⟩ := List.mem_map.mp hid
  have hnodup : (rules.map fun r => r.id).Nodup := by decide
  obtain rfl := List.inj_on_of_nodup_map hnodup (h.fdRules.subset hr) hq he
  exact hr

theorem Local.without (h : Local (withRules loop (pre ++ r :: post)) w) :
    Local (withRules loop (pre ++ post)) w :=
  { h with
    fdRules := (List.Sublist.append_left (List.sublist_cons_self ..) pre).trans h.fdRules }

/-- Only the rule that reads from the owner has a `cancel` that does something. -/
theorem cancel_eq (hr : r = receiveRule ∨ r = pushRule ∨ r = readRule)
    (hc : r.cancel w = .ok w') :
    w' = w ∨ r = pushRule ∧ w' = { w with state := w.state.closeOutbound } := by
  rcases hr with rfl | rfl | rfl
  · exact .inl (Except.ok.inj hc).symm
  · exact .inr ⟨rfl, (Except.ok.inj hc).symm⟩
  · exact .inl (Except.ok.inj hc).symm

/-- A close does not bring a peer back. -/
theorem inactive_close (h : s.tcp.peer.active = false) :
    s.closeOutbound.tcp.peer.active = false := by
  simp only [TCPPeer.active, TCPPeer.anyErrors, closeOutbound, Conversation.close, TCPSender.close,
    TCPSender.sequenceNumbersInFlight, ByteStream.isFinished, ByteStream.close,
    ByteStream.hasError, ByteStream.bytesBuffered] at h ⊢
  grind

theorem rule_ne : receiveRule ≠ readRule ∧ pushRule ≠ readRule ∧ receiveRule ≠ pushRule := by
  refine ⟨fun h => ?_, fun h => ?_, fun h => ?_⟩ <;>
    exact absurd (congrArg (fun r => r.id) h) (by decide)

/-- A rule that is cancelled leaves the invariant. -/
theorem outline_cancel (hfits : ∀ x, Duplex.Fits (cfg x))
    (hinv : (outline cfg x other).inv (withRules loop (pre ++ r :: post)) w)
    (hc : r.cancel w = .ok w') : (outline cfg x other).inv (withRules loop (pre ++ post)) w' := by
  obtain ⟨hl, h⟩ := hinv
  rcases cancel_eq (hl.mem List.mem_append_cons_self) hc with rfl | ⟨-, rfl⟩
  · exact ⟨hl.without, h⟩
  · exact ⟨{ hl.without with }, h.closeOutbound hfits⟩

theorem outline_valid (hfits : ∀ x, Duplex.Fits (cfg x)) : (outline cfg x other).Valid where
  dropFree hinv := by
    have := hinv.1.nonFdRules
    simp at this
  noteFree _ _ _ _ := trivial
  serveFree r hr hinv := by
    rw [hinv.1.nonFdRules] at hr
    exact absurd hr List.not_mem_nil
  drop hinv hreq := Bool.noConfusion ((hinv.1.requests _).symm.trans hreq)
  retire hinv _ _ hc := outline_cancel hfits hinv hc
  heldRetire q hq hinv hheld hover hc hb hpush := by
    have hlt := hinv.1.ordered.1 q hq
    rcases cancel_eq (hinv.1.mem List.mem_append_cons_self) hc with rfl | ⟨rfl, -⟩
    · exact hheld hb hpush
    · exact absurd (hpush ▸ hlt) (Nat.lt_irrefl _)
  idleRetire q hq hinv hidle hover hc := by
    have hlt := hinv.1.ordered.1 q hq
    rcases cancel_eq (hinv.1.mem List.mem_append_cons_self) hc with rfl | ⟨rfl, rfl⟩
    · exact hidle
    · -- only the rule for segments stands before the one that reads from the owner
      rcases hinv.1.mem (List.mem_append_left _ hq) with rfl | rfl | rfl
      · exact inactive_close hidle
      · exact absurd hlt (by decide)
      · exact absurd hlt (by decide)
  note r hr hinv _ _ hb hpush := by
    subst hpush
    have hwants : pushRule.interest _ = true := hb
    simp only [pushRule, Bool.and_eq_true, decide_eq_true_eq, Bool.not_eq_true'] at hwants
    exact ⟨hwants.1.2, hwants.2⟩
  noteIdle _ _ _ := id
  hangUp hinv _ hc := outline_cancel hfits hinv hc
  armedHangUp q hq hinv harmed _ hc := by
    have hlt := hinv.1.ordered.2 q hq
    rcases cancel_eq (hinv.1.mem List.mem_append_cons_self) hc with rfl | ⟨rfl, rfl⟩
    · exact harmed
    · -- only the rule that writes to the owner stands behind it
      rcases hinv.1.mem (List.mem_append_right _ (List.mem_cons_of_mem _ hq)) with rfl | rfl | rfl
      · exact absurd hlt (by decide)
      · exact absurd hlt (by decide)
      · exact ⟨fun _ hpush => absurd hpush.symm rule_ne.2.1, fun hne => absurd rfl hne⟩
  fail hmay := hmay.elim
  armedFail hmay := hmay.elim
  serve r hr hinv harmed hc := by
    obtain ⟨hheld, hfair⟩ := harmed
    rcases hinv.1.mem hr with rfl | rfl | rfl
    · exact receiveSegment_keeps hinv.1 hinv.2 hfits (hfair rule_ne.1) hc
    · obtain ⟨hopen, hroom⟩ := hheld rfl rfl
      exact pushBytes_keeps hinv.1 hinv.2 hfits (hfair rule_ne.2.1) hopen hroom hc
    · exact readBytes_keeps hinv.1 hinv.2 hfits hc

theorem undisturbed {kernel : Kernel MinnowSocket} (h : Answering other kernel) :
    (outline cfg x other).Undisturbed kernel := by
  obtain ⟨⟨script, hwait, hfair⟩, hquiet⟩ := h
  refine ⟨fun hinv => ?_, fun {w} _ _ hheld => ?_, .inr hquiet⟩
  · rw [hwait]
    obtain ⟨hl, d, hr, hx, hother⟩ := hinv
    exact ⟨{ hl with }, d, hr,
      ⟨hx.conv, hx.network, hx.read, hx.given, hx.closed, hx.settled⟩, hother⟩
  · rw [hwait]
    exact ⟨hheld, fun _ => hfair w⟩

/-- A kernel that gives what is fair of a script, and reports these events for the rule at `idx`. -/
def fairly (other : MinnowSocket) (idx : Nat) (events : UInt16) (script : Script) :
    Kernel MinnowSocket where
  wait w := { w with state := { w.state with
    script := if Fair other w.state script then script else {} } }
  revents i := if i = idx then events &&& (pollIn ||| pollOut) else 0

theorem answering_fairly {idx : Nat} {events : UInt16} {script : Script} :
    Answering other (fairly other idx events script) := by
  refine ⟨⟨_, rfl, fun w => ?_⟩, fun i => ?_⟩
  · show Fair other w.state (if Fair other w.state script then script else {})
    split
    · assumption
    · exact ⟨trivial, trivial⟩
  · show (if i = idx then events &&& (pollIn ||| pollOut) else 0) &&& (pollErr ||| pollNval) = 0
    split
    · rw [UInt16.and_assoc]
      exact UInt16.and_zero
    · rfl

end MinnowSocket

/-- Two sockets, each with the loop of its thread. -/
abbrev Endpoints := Side → Endpoint

namespace Endpoints

open MinnowSocket (At Local Simulates Answering outline)

structure Op where
  side : Side
  op : Endpoint.Op

def step (s : Endpoints) (e : Op) : Except Exception Endpoints := do
  let p ← (s e.side).step e.op
  return Function.update s e.side p

def machine (cfg : Side → TCPConfig) : Machine Endpoints Op := .det (fun x => .new (cfg x)) step

/-- The kernels answer fairly: a message that arrives was written at the other end. -/
def Permitted (s : Endpoints) (e : Op) : Prop :=
  match e.op with
  | .connect | .listen => True
  | .turn kernel _ _ => Answering (s e.side.other).state kernel

/-- The two sockets are the ends of a run of two peers. -/
structure Inv (cfg : Side → TCPConfig) (s : Endpoints) : Prop where
  loops : ∀ x, Local (s x).loop (s x).world
  peers : ∃ d, (Duplex.machine cfg).Reaches Duplex.Permitted d ∧ ∀ x, At d x (s x).state

variable {cfg : Side → TCPConfig} {s s' : Endpoints} {e : Op} {x : Side} {p : Endpoint}

theorem Inv.new (cfg : Side → TCPConfig) : Inv cfg fun x => .new (cfg x) where
  loops _ := ⟨rfl, List.Sublist.refl _, fun _ => rfl, rfl⟩
  peers := ⟨.new cfg, .init rfl, fun _ => ⟨rfl, rfl, rfl, rfl, rfl, fun hs => nomatch hs⟩⟩

theorem Inv.simulates (h : Inv cfg s) (x : Side) :
    Simulates cfg x (s x.other).state (s x).state := by
  obtain ⟨d, hr, hat⟩ := h.peers
  exact ⟨d, hr, hat x, hat x.other⟩

/-- One end goes on. -/
theorem Inv.update (h : Inv cfg s) (hl : Local p.loop p.world)
    (hs : Simulates cfg x (s x.other).state p.state) : Inv cfg (Function.update s x p) := by
  obtain ⟨d, hr, hx, hother⟩ := hs
  refine ⟨fun y => ?_, d, hr, fun y => ?_⟩
  · by_cases hy : y = x
    · subst hy
      rwa [Function.update_self]
    · rw [Function.update_of_ne hy]
      exact h.loops y
  · rcases x.eq_or_other y with rfl | rfl
    · rwa [Function.update_self]
    · rwa [Function.update_of_ne x.other_ne]

/-- An iteration of a loop. -/
theorem Inv.iterate {kernel : Kernel MinnowSocket} {abort again : Bool} {ms : Nat}
    (h : Inv cfg s) (hfits : ∀ x, Duplex.Fits (cfg x))
    (hk : Answering (s x.other).state kernel)
    (hst : (s x).iterate kernel abort ms = .ok (again, p)) :
    Local p.loop p.world ∧ Simulates cfg x (s x.other).state p.state ∧ p.phase = (s x).phase := by
  obtain ⟨⟨result, loop, world⟩, hwait, hst⟩ := bind_ok hst
  obtain ⟨⟨hl, hs⟩, -⟩ := (MinnowSocket.outline_valid hfits).waitNextEvent
    (MinnowSocket.undisturbed hk) ⟨h.loops x, h.simulates x⟩ hwait
  dsimp only at hst
  split at hst
  · obtain ⟨-, rfl⟩ := pair_ok hst
    exact ⟨hl, hs, rfl⟩
  · obtain ⟨-, rfl⟩ := pair_ok hst
    exact ⟨{ hl with }, hs.tick hfits ms, rfl⟩

theorem leave_world (p : Endpoint) : p.leave.loop = p.loop ∧ p.leave.world = p.world := by
  unfold Endpoint.leave
  split <;> exact ⟨rfl, rfl⟩

theorem Inv.step (h : Inv cfg s) (hfits : ∀ x, Duplex.Fits (cfg x)) (hok : s.Permitted e)
    (hst : s.step e = .ok s') : Inv cfg s' := by
  obtain ⟨x, op⟩ := e
  obtain ⟨p, hp, hst⟩ := bind_ok hst
  obtain rfl := Except.ok.inj hst
  suffices hkeeps : Local p.loop p.world ∧ Simulates cfg x (s x.other).state p.state from
    h.update hkeeps.1 hkeeps.2
  unfold Endpoint.step at hp
  cases op with
  | connect =>
    dsimp only at hp
    split at hp
    · cases hp
    · split at hp
      · cases hp
      · obtain rfl := Except.ok.inj hp
        exact ⟨{ h.loops x with }, (h.simulates x).push hfits⟩
  | listen =>
    dsimp only at hp
    split at hp
    · cases hp
    · obtain rfl := Except.ok.inj hp
      exact ⟨h.loops x, h.simulates x⟩
  | turn kernel abort ms =>
    have hleave : ∀ q : Endpoint, Local q.loop q.world ∧
        Simulates cfg x (s x.other).state q.state →
        Local q.leave.loop q.leave.world ∧
          Simulates cfg x (s x.other).state q.leave.state := by
      intro q hq
      obtain ⟨hloop, hworld⟩ := leave_world q
      simp only [Endpoint.state, hloop, hworld]
      exact hq
    dsimp only at hp
    split at hp
    · obtain ⟨⟨again, q⟩, hiter, hp⟩ := bind_ok hp
      obtain ⟨hl, hs, -⟩ := h.iterate hfits hok hiter
      dsimp only at hp
      split at hp
      · obtain rfl := Except.ok.inj hp
        exact ⟨hl, hs⟩
      · obtain rfl := Except.ok.inj hp
        exact hleave q ⟨hl, hs⟩
    · obtain rfl := Except.ok.inj hp
      exact hleave (s x) ⟨h.loops x, h.simulates x⟩

theorem inv (hfits : ∀ x, Duplex.Fits (cfg x)) (h : (machine cfg).Reaches Permitted s) :
    Inv cfg s :=
  h.invariant_det (Inv.new cfg) fun _ _ _ hinv hok hst => hinv.step hfits hok hst

/-- In every run of two sockets: what an owner has been given is a prefix of what the other owner's
thread has read from it, and an owner that is told that its stream is over has been given all of it,
by an owner that has closed its stream. -/
theorem owners_integrity (cfg : Side → TCPConfig) (s : Endpoints) (x : Side)
    (hfits : ∀ x, Duplex.Fits (cfg x)) (h : (machine cfg).Reaches Permitted s) :
    (s x).state.taken <+: (s x.other).state.given ∧
      ((s x).state.inboundShutdown = true →
        (s x).state.taken = (s x.other).state.given ∧
          (s x.other).state.outboundShutdown = true) := by
  obtain ⟨d, hr, hat⟩ := (inv hfits h).peers
  obtain ⟨hbegins, hwhole⟩ := Duplex.received_of_other hfits hr x
  have htaken : d.read x = (s x).state.taken := (hat x).read
  have hgiven : d.written x.other = (s x.other).state.given := by
    rw [Duplex.written, (hat x.other).conv, (hat x.other).given]
  refine ⟨?_, fun hs => ?_⟩
  · rw [← htaken, ← hgiven]
    exact (List.prefix_append _ _).trans hbegins
  · obtain ⟨hclosed, hall⟩ := (hat x).settled hs
    refine ⟨by rw [← htaken, ← hgiven, hall], ?_⟩
    rw [← (hat x.other).closed, MinnowSocket.outbound, ← (hat x.other).conv]
    exact (hwhole hclosed).1

section

open MinnowSocket (Script fairly)

/-- An iteration with what is fair of a script. -/
def turns (x : Side) (idx : Nat) (events : UInt16) (script : MinnowSocket → Script)
    (s : Endpoints) : Op :=
  ⟨x, .turn (fairly (s x.other).state idx events (script (s x.other).state)) false 10⟩

/-- The message with the number `n` arrives from the other end. -/
def hears (x : Side) (n : Nat) : Endpoints → Op :=
  turns x 0 pollIn fun other => {
    incoming := other.wire[n]?.map fun msg => (⟨0⟩, msg)
    adapterFd := { readCount := .ofNat (n + 1) } }

/-- The owner writes; nothing is the end of its stream. -/
def gives (x : Side) (data : Bytes) : Endpoints → Op :=
  turns x 1 pollIn fun _ => { read := .done data }

/-- The owner reads. -/
def takes (x : Side) (n : Nat) : Endpoints → Op :=
  turns x 2 pollOut fun _ => { write := .done n }

/-- What is permitted wherever it is done. -/
def Always (f : Endpoints → Op) : Prop := ∀ s : Endpoints, s.Permitted (f s)

theorem always_turns (x : Side) (idx : Nat) (events : UInt16) (script : MinnowSocket → Script) :
    Always (turns x idx events script) := fun _ => MinnowSocket.answering_fairly

theorem run_of_always (cfg : Side → TCPConfig) {P : Endpoints → Prop} (l : List (Endpoints → Op))
    (hl : ∀ f ∈ l, Always f)
    (h : Machine.Ends P (fun s f => step s (f s)) (fun x => .new (cfg x)) l) :
    ∃ s, (machine cfg).Reaches Permitted s ∧ P s :=
  Machine.exists_reaches_choosing step _ Permitted P l h (.of_forall fun f hf s => hl f hf s)

/-- The socket at `a` connects and gives two bytes; the owner at `b` takes them. -/
def greeting : List (Endpoints → Op) :=
  [fun _ => ⟨.a, .connect⟩, fun _ => ⟨.b, .listen⟩, hears .b 0, hears .a 0, gives .a [], hears .b 1,
    gives .b [], gives .a [97, 98], gives .a [], hears .b 2, hears .b 3, takes .b 2]

theorem always_greeting : ∀ f ∈ greeting, Always f := by
  simp only [greeting, hears, gives, takes, List.forall_mem_cons, always_turns, true_and]
  exact ⟨fun _ => trivial, fun _ => trivial, fun _ h => absurd h List.not_mem_nil⟩

theorem owners_integrity_closed : ∃ s : Endpoints, (s .b).state.inboundShutdown = true ∧
    (s .b).state.taken = [97, 98] ∧ (s .a).state.given = [97, 98] := by
  obtain ⟨s, h, hshut, htaken⟩ := run_of_always (fun x => { isn := if x = .a then ⟨7⟩ else ⟨50⟩ })
    (P := fun s => (s .b).state.inboundShutdown = true ∧ (s .b).state.taken = [97, 98])
    greeting always_greeting (by decide +kernel)
  have hall := (owners_integrity (fun x => { isn := if x = .a then ⟨7⟩ else ⟨50⟩ }) s .b
    (fun _ => .default _) h).2 hshut
  exact ⟨s, hshut, htaken, hall.1.symm.trans htaken⟩

end

/-- When the loop of a socket exits with the rule for segments in it, each end has received all that
the other owner has given; with the rule that writes to the owner in it, the owner has all of it and
is told so. -/
theorem exit_delivered (cfg : Side → TCPConfig) (s : Endpoints) (x : Side)
    (kernel : Kernel MinnowSocket) (loop : EventLoop MinnowSocket) (w : World MinnowSocket)
    (hfits : ∀ x, Duplex.Fits (cfg x)) (h : (machine cfg).Reaches Permitted s)
    (hk : Answering (s x.other).state kernel)
    (hexit : (s x).loop.waitNextEvent kernel (s x).world = .ok (.exit, loop, w))
    (hreceive : MinnowSocket.receiveRule ∈ loop.fdRules) :
    w.state.taken ++ w.state.inbound.peek = (s x.other).state.given ∧
      (s x.other).state.taken ++ (s x.other).state.inbound.peek = w.state.given ∧
      w.state.outboundShutdown = true ∧ (s x.other).state.outboundShutdown = true ∧
      (MinnowSocket.readRule ∈ loop.fdRules →
        w.state.taken = (s x.other).state.given ∧ w.state.inboundShutdown = true) := by
  have hinv := inv hfits h
  obtain ⟨⟨-, d, hr, hx, hother⟩, hidle⟩ := (MinnowSocket.outline_valid hfits).waitNextEvent
    (MinnowSocket.undisturbed hk) ⟨hinv.loops x, hinv.simulates x⟩ hexit
  have hact : w.state.tcp.peer.active = false := hidle rfl MinnowSocket.receiveRule hreceive
  rw [← hx.conv] at hact
  obtain ⟨hflight, ⟨hclosed, hempty⟩, hin⟩ := Duplex.over_of_inactive hfits hr hact
  obtain ⟨hotherClosed, hreceived⟩ := (Duplex.received_of_other hfits hr x).2 hin
  have hsent := Duplex.received_of_acked hfits hr hflight hempty
  simp only [Duplex.received, Duplex.written, Duplex.peer, hx.conv, hx.read, hother.conv,
    hother.read, ← hx.given, ← hother.given] at hreceived hsent hclosed hotherClosed
  refine ⟨hreceived, hsent, hx.closed.symm.trans hclosed, hother.closed.symm.trans hotherClosed,
    fun hread => ?_⟩
  have hquiet : MinnowSocket.readRule.interest w = false := hidle rfl MinnowSocket.readRule hread
  simp only [MinnowSocket.readRule, Bool.or_eq_false_iff, decide_eq_false_iff_not,
    not_not] at hquiet
  obtain ⟨hnothing, hshut⟩ := hquiet
  have hwf : w.state.inbound.WF := by
    rw [MinnowSocket.inbound, ← hx.conv]
    exact ((Duplex.linked hfits hr).back x).carried.delivered.placed.inv.output
  have hpeek : w.state.inbound.peek = [] :=
    List.length_eq_zero_iff.mp (hwf.peek_length.trans hnothing)
  have hfin : w.state.inbound.isFinished = true := by
    rw [Duplex.peer, hx.conv] at hin
    exact hwf.isFinished_iff.mpr ⟨hin, hpeek⟩
  rw [hpeek, List.append_nil] at hreceived
  rw [hfin, Bool.true_or, Bool.true_and, Bool.not_eq_false'] at hshut
  exact ⟨hreceived, hshut⟩

section

open MinnowSocket (fairly answering_fairly receiveRule readRule rules)

/-- Then the owner at `b` gives a byte and closes, and the socket there is done. -/
def farewell : List (Endpoints → Op) :=
  greeting ++ [gives .b [99], gives .b [], hears .a 3, hears .a 4, hears .b 5]

theorem always_farewell : ∀ f ∈ farewell, Always f := by
  rw [farewell, List.forall_mem_append]
  refine ⟨always_greeting, ?_⟩
  simp only [hears, gives, List.forall_mem_cons, always_turns, true_and]
  exact fun _ h => absurd h List.not_mem_nil

theorem exit_delivered_closed : ∃ (s : Endpoints) (w : World MinnowSocket),
    w.state.taken = [97, 98] ∧ w.state.taken = (s .a).state.given ∧
    (s .a).state.taken ++ (s .a).state.inbound.peek = w.state.given ∧ w.state.given = [99] := by
  have hfits : ∀ x : Side, Duplex.Fits { isn := if x = .a then ⟨7⟩ else ⟨50⟩ } :=
    fun _ => .default _
  obtain ⟨s, h, hs⟩ := run_of_always (fun x => { isn := if x = .a then ⟨7⟩ else ⟨50⟩ })
    (P := fun s => ((s .b).loop.waitNextEvent (fairly (s .a).state 0 0 {}) (s .b).world).map
      (fun r => (r.1, r.2.1.fdRules.map (fun r => r.id), r.2.2.state.taken, r.2.2.state.given)) =
        .ok (.exit, [0, 2], [97, 98], [99]))
    farewell always_farewell (by decide +kernel)
  obtain ⟨⟨result, loop, w⟩, hexit, hw⟩ := map_ok hs
  obtain ⟨rfl, hids, htaken, hgiven⟩ : result = .exit ∧
      loop.fdRules.map (fun r => r.id) = [0, 2] ∧ w.state.taken = [97, 98] ∧
      w.state.given = [99] := by simpa using hw
  have hinv := inv hfits h
  obtain ⟨⟨hl, -⟩, -⟩ := (MinnowSocket.outline_valid hfits).waitNextEvent
    (MinnowSocket.undisturbed answering_fairly) ⟨hinv.loops .b, hinv.simulates .b⟩ hexit
  have hreceive : receiveRule ∈ loop.fdRules :=
    hl.mem_of_id (by simp [rules]) (hids ▸ List.mem_cons_self)
  have hread : readRule ∈ loop.fdRules :=
    hl.mem_of_id (by simp [rules]) (hids ▸ List.mem_cons_of_mem _ List.mem_cons_self)
  obtain ⟨-, hsent, -, -, hall⟩ := exit_delivered
    (fun x => { isn := if x = .a then ⟨7⟩ else ⟨50⟩ }) s .b (fairly (s .a).state 0 0 {}) loop w
    hfits h answering_fairly hexit hreceive
  exact ⟨s, w, htaken, (hall hread).1, hsent, hgiven⟩

end

end Endpoints

end Minnow
