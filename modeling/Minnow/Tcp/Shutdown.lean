import Minnow.Tcp.Peer
import Minnow.Tcp.Stall

/-!
# Clean shutdown

`active` takes a drained stream with nothing in flight for a finished one. It is, as long as a close
is followed by a push and the window does not wrap to zero (`Steady`, the condition of `no_stall`):
then a closed and drained stream with nothing in flight has sent its FIN (`Ending.done`), and what
left `send_buffer_` was acknowledged by an ack that was heard.

`finished_without_fin` is a run where a message wraps the window to zero: the close that follows
sends nothing, and the peer is not active any more.
-/

namespace Minnow

open TCPSender (Session Segmented positions totalLength totalLength_append
  totalLength_pos)

namespace Conversation

/-- The application does not write after its close and pushes with it, and no message that is
processed leaves a window that is a positive multiple of `2 ^ 16`. -/
def Steady (c : Conversation) : Op → Prop
  | .write _ => c.peer.sender.input.closed = false
  | .close => False
  | .receive stale msg => c.peer.active = true → c.session.Unwrapped (.receive stale msg.receiver)
  | _ => True

/-- The application pushes with its close and does not write after it, and acks do not run
ahead. -/
def Timely (c : Conversation) : Op → Prop
  | .write _ => c.peer.sender.input.closed = false
  | .close => False
  | .receive stale msg => c.session.Timely (.receive stale msg.receiver)
  | _ => True

instance (c : Conversation) : ∀ op, Decidable (Steady c op)
  | .write _ | .close | .receive _ _ => by
    unfold Steady
    infer_instance
  | .shutdown | .push | .tick _ | .read _ => .isTrue trivial

instance (c : Conversation) : ∀ op, Decidable (Timely c op)
  | .write _ | .close | .receive _ _ => by
    unfold Timely
    infer_instance
  | .shutdown | .push | .tick _ | .read _ => .isTrue trivial

/-- What has left the buffer was acknowledged by an ack that was heard. -/
def Heard (c : Conversation) : Prop :=
  ∃ acked out, c.sent = acked ++ out ∧
    c.peer.sender.sendBuffer = positions (totalLength acked) out ∧
    (acked ≠ [] → ∃ a ∈ c.acknos, totalLength acked ≤ a)

structure Ending (c : Conversation) : Prop where
  flowing : c.session.Flowing
  heard : c.Heard
  done : c.peer.sender.input.closed = true → c.peer.sender.sendBuffer = [] →
    c.peer.sender.finSet = true

section

variable {cfg : TCPConfig} {c c' : Conversation} {op : Op} {stale : Wrap32} {msg : TCPMessage}
  {out : List TCPMessage}

theorem Ending.new (hcap : cfg.sendCapacity < 2 ^ 64) : Ending (.new cfg) where
  flowing := .new hcap cfg.isn cfg.rtTimeout.toNat
  heard := ⟨[], [], rfl, rfl, fun h => absurd rfl h⟩
  done h := absurd h Bool.false_ne_true

/-- A push that leaves nothing outstanding leaves no work. -/
theorem push_done {s : Session} (h : s.Flowing) (hbuf : (s.step .push).sender.sendBuffer = []) :
    (s.step .push).sender.hasWork = false := by
  have hseg : Segmented s.sender s.sent s.written := h.good
  rw [show (s.step .push).sender.sendBuffer = _ from hseg.pushed.sendBuffer] at hbuf
  obtain ⟨hold, hnew⟩ := List.append_eq_nil_iff.mp hbuf
  have hwork : s.sender.hasWork = false := by
    by_contra hwork
    refine (h.transmits hold).2 (Bool.eq_true_of_not_eq_false hwork) ?_
    have hlen := congrArg (fun l => l.map Prod.snd) hnew
    rwa [TCPSender.positions_map_snd] at hlen
  show s.sender.push.1.hasWork = false
  rw [TCPSender.push_of_no_work hwork]
  exact hwork

/-- A push adds to what is outstanding. -/
theorem Heard.push (h : c.Heard) (hseg : c.session.Good) : c.push.1.Heard := by
  obtain ⟨acked, out, hsent, hbuf, hack⟩ := h
  have hseg : Segmented c.peer.sender c.sent c.written := hseg
  refine ⟨acked, out ++ c.peer.sender.push.2, ?_, ?_, hack⟩
  · show c.sent ++ c.peer.sender.push.2 = _
    rw [hsent, List.append_assoc]
  · show c.peer.sender.push.1.sendBuffer = _
    rw [hseg.pushed.sendBuffer, hbuf, hseg.absSeqno, hsent, totalLength_append,
      ← TCPSender.positions_append]

/-- What a message takes from the buffer is behind its ack. -/
theorem Heard.receive (h : c.Heard) (stale : Wrap32) (msg : TCPReceiverMessage) :
    Heard { c with
      peer := { c.peer with sender := c.peer.sender.receive stale msg }
      acknos := c.acknos ++ [c.peer.sender.absAckno stale msg] } := by
  obtain ⟨acked, out, hsent, hbuf, hack⟩ := h
  have hmono : acked ≠ [] →
      ∃ a ∈ c.acknos ++ [c.peer.sender.absAckno stale msg], totalLength acked ≤ a := fun hne => by
    obtain ⟨a, ha, hle⟩ := hack hne
    exact ⟨a, List.mem_append_left _ ha, hle⟩
  rcases c.peer.sender.receive_cases stale msg with ⟨-, error, he⟩ | ⟨-, hr⟩
  · refine ⟨acked, out, hsent, ?_, hmono⟩
    rw [he]
    exact hbuf
  · obtain ⟨a, r, rfl, -, hdrop, hle⟩ :=
      TCPSender.dropWhile_positions (c.peer.sender.absAckno stale msg) (totalLength acked) out
    refine ⟨acked ++ a, r, by rw [hsent, List.append_assoc], ?_, fun hne => ?_⟩
    · show (c.peer.sender.receive stale msg).sendBuffer = _
      rw [hr.sendBuffer, TCPSender.unacked, hbuf, hdrop, totalLength_append]
    · rw [totalLength_append]
      by_cases ha : a = []
      · rw [ha, List.append_nil] at hne
        rw [ha]
        exact hmono hne
      · exact ⟨_, List.mem_append_right _ List.mem_cons_self, hle ha⟩

/-- After a push the stream is sent, or something is outstanding. -/
theorem Ending.push (hflow : c.session.Flowing) (h : c.Heard) : c.push.1.Ending := by
  have hstep : (c.session.step .push).Flowing := hflow.push
  refine ⟨hstep, h.push hflow.good, fun hclosed hbuf => ?_⟩
  have hwork := push_done hflow hbuf
  unfold TCPSender.hasWork at hwork
  simp only [Bool.or_eq_false_iff, Bool.and_eq_false_iff, Bool.not_eq_false'] at hwork
  rcases hwork.2 with hopen | hfin
  · exact absurd (hclosed.symm.trans hopen) (by simp)
  · exact hfin

theorem Ending.receive (h : c.Ending) (ha : c.peer.active = true)
    (hok : Steady c (.receive stale msg)) {p' : TCPPeer} (hans : c.peer.Answered stale msg p' out) :
    Ending { c with
      peer := p'
      sent := c.sent ++ c.peer.newSegments stale msg
      acknos := c.acknos ++ [c.peer.sender.absAckno stale msg.receiver] } := by
  have hflow := h.flowing.receive (hok ha)
  have hpush := Ending.push (c := { c with
    peer := { c.peer with sender := c.peer.sender.receive stale msg.receiver }
    acknos := c.acknos ++ [c.peer.sender.absAckno stale msg.receiver] }) hflow
    (h.heard.receive stale msg.receiver)
  obtain ⟨hf, ⟨acked, out', hsent, hbuf, hack⟩, hd⟩ := hpush
  refine ⟨?_, ⟨acked, out', hsent, ?_, hack⟩, ?_⟩
  · rw [session_receive hans]
    exact hf
  · show p'.sender.sendBuffer = _
    rw [hans.sender]
    exact hbuf
  · show p'.sender.input.closed = true → p'.sender.sendBuffer = [] → p'.sender.finSet = true
    rw [hans.sender]
    exact hd

theorem Ending.step (h : c.Ending) (hok : Steady c op) (hst : c.step op = .ok (c', out)) :
    c'.Ending := by
  cases op with
  | write data =>
    obtain ⟨rfl, -⟩ := pair_ok hst
    have hopen : c.peer.sender.input.closed = false := hok
    have hflow : (c.session.step (.write data)).Flowing := h.flowing.step hopen trivial
    refine ⟨hflow, h.heard, fun hclosed => ?_⟩
    have := (ByteStream.push_closed c.peer.sender.input data).symm.trans hclosed
    rw [hopen] at this
    simp at this
  | close => exact hok.elim
  | shutdown =>
    obtain ⟨rfl, -⟩ := pair_ok hst
    have hflow : (c.session.step .close).Flowing := h.flowing.step trivial trivial
    exact .push hflow h.heard
  | push =>
    obtain ⟨rfl, -⟩ := pair_ok hst
    exact .push h.flowing h.heard
  | tick ms =>
    obtain ⟨rfl, -⟩ := pair_ok hst
    obtain ⟨acked, out', hsent, hbuf, hack⟩ := h.heard
    have hflow : (c.session.step (.tick ms)).Flowing := h.flowing.step trivial trivial
    refine ⟨hflow, ⟨acked, out', hsent, ?_, hack⟩, ?_⟩
    · show (c.peer.sender.tick ms).1.sendBuffer = _
      rw [TCPSender.tick_eq]
      exact hbuf
    · show (c.peer.sender.tick ms).1.input.closed = true →
        (c.peer.sender.tick ms).1.sendBuffer = [] → (c.peer.sender.tick ms).1.finSet = true
      rw [TCPSender.tick_eq]
      exact h.done
  | receive stale msg =>
    rcases receive_cases hst with ⟨-, rfl, -⟩ | ⟨ha, p', hans, rfl⟩
    · exact h
    · exact h.receive ha hok hans
  | read len =>
    obtain ⟨rfl, -⟩ := pair_ok hst
    exact ⟨h.flowing, h.heard, h.done⟩

theorem ending (hcap : cfg.sendCapacity < 2 ^ 64) (h : (machine cfg).Reaches Steady c) :
    c.Ending := by
  refine h.invariant_det (.new hcap) fun c op c' hc hok hst => ?_
  obtain ⟨out, hst⟩ := next_ok hst
  exact hc.step hok hst

/-- A peer that is not active, without an error: nothing is in flight and both streams are over. -/
theorem inactive (herr : c.peer.anyErrors = false) (h : c.peer.active = false) :
    c.peer.sender.sequenceNumbersInFlight = 0 ∧ c.peer.sender.input.isFinished = true ∧
      c.peer.receiver.isClosed = true := by
  unfold TCPPeer.active at h
  rw [herr] at h
  simp only [Bool.not_false, Bool.true_and, Bool.or_eq_false_iff, Bool.not_eq_false',
    bne_eq_false_iff_eq]
    at h
  exact ⟨h.1.1.1, h.1.1.2, h.1.2⟩

/-- In every steady run: a peer that is not active and has no error has closed its outbound stream,
transmitted the FIN and heard an ack of all it transmitted, and its inbound stream is closed. -/
theorem clean_shutdown (cfg : TCPConfig) (c : Conversation) (hcap : cfg.sendCapacity < 2 ^ 64)
    (h : (machine cfg).Reaches Steady c) (herr : c.peer.anyErrors = false)
    (hact : c.peer.active = false) :
    c.peer.sender.input.isClosed = true ∧ (∃ m ∈ c.sent, m.fin = true) ∧
      (∃ a ∈ c.acknos, totalLength c.sent ≤ a) ∧ c.peer.receiver.isClosed = true := by
  have he := ending hcap h
  have hseg : Segmented c.peer.sender c.sent c.written := he.flowing.good
  obtain ⟨hflight, hfin, hin⟩ := inactive herr hact
  have hclosed := (hseg.input.isFinished_iff.mp hfin).1
  obtain ⟨acked, out, hsent, hbuf, hack⟩ := he.heard
  have hout : out = [] := by
    by_contra hne
    have hpos := totalLength_pos (fun m hm =>
      hseg.cut.length_pos m (hsent ▸ List.mem_append_right _ hm)) hne
    unfold TCPSender.sequenceNumbersInFlight at hflight
    rw [hbuf, TCPSender.positions_length_sum] at hflight
    omega
  subst hout
  have hfinSet := he.done hclosed hbuf
  have hmem := hseg.finSet.mp hfinSet
  rw [List.append_nil] at hsent
  refine ⟨hclosed, hmem, ?_, hin⟩
  rw [hsent]
  refine hack fun hnil => ?_
  obtain ⟨m, hm, -⟩ := hmem
  rw [hsent, hnil] at hm
  exact List.not_mem_nil hm

/-- Both sides shake hands and close, and every FIN is acknowledged. -/
theorem clean_shutdown_closed : ∃ c : Conversation, c.peer.active = false ∧
    (∃ m ∈ c.sent, m.fin = true) ∧ ∃ a ∈ c.acknos, totalLength c.sent ≤ a := by
  obtain ⟨c, h, herr, hact⟩ := Machine.exists_reaches next (.new { isn := ⟨7⟩ }) Steady
    (fun c => c.peer.anyErrors = false ∧ c.peer.active = false)
    [.push, .receive ⟨0⟩ ⟨{ seqno := ⟨50⟩, syn := true }, { ackno := some ⟨8⟩, windowSize := 9 }⟩,
      .write [97, 98], .shutdown,
      .receive ⟨0⟩ ⟨{ seqno := ⟨51⟩, fin := true }, { ackno := some ⟨11⟩, windowSize := 7 }⟩,
      .tick 10000]
    (by decide +kernel) (by decide +kernel)
  obtain ⟨-, hfin, hack, -⟩ := clean_shutdown { isn := ⟨7⟩ } c (by decide) h herr hact
  exact ⟨c, hact, hfin, hack⟩

/-- Before its SYN the peer hears of a window of 1002, so the SYN carries payload and a second
segment one byte. The FIN of the other side acknowledges both with a window of 65535, which wraps
to zero: the shutdown after it sends nothing, and leaves the peer inactive. -/
theorem finished_without_fin : ∃ c, (machine { isn := ⟨7⟩ }).Reaches Timely c ∧
    c.peer.anyErrors = false ∧ c.peer.active = false ∧ ¬∃ m ∈ c.sent, m.fin = true :=
  Machine.exists_reaches next (.new { isn := ⟨7⟩ }) Timely
    (fun c => c.peer.anyErrors = false ∧ c.peer.active = false ∧ ¬∃ m ∈ c.sent, m.fin = true)
    [.write (List.replicate 1001 97),
      .receive ⟨0⟩ ⟨{ seqno := ⟨50⟩, syn := true }, { ackno := some ⟨7⟩, windowSize := 1002 }⟩,
      .receive ⟨0⟩ ⟨{ seqno := ⟨51⟩, fin := true },
        { ackno := some ⟨1009⟩, windowSize := 65535 }⟩,
      .shutdown]
    (by decide +kernel) (by decide +kernel)

end

end Conversation

end Minnow
