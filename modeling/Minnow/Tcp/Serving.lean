import Minnow.Tcp.Backlog
import Minnow.Tcp.Timer

/-!
# Runs without applications and clocks

In such a run the two peers only push, get messages that were sent, and read (`Serving`). Nothing is
written or closed in it, and what is left to do never grows (`left`): the sequence numbers that are
not sent, the buffers with outstanding segments and the streams that are not over. A step that
leaves as much to do sends nothing new and settles nothing (`Idles`).
-/

namespace Minnow

open TCPSender (Session Segmented payloads positions totalLength)

namespace TCPSender

section

variable {s : TCPSender} {sent : List TCPSenderMessage} {written : Bytes} {stale : Wrap32}
  {msg : TCPReceiverMessage}

/-- The segments end behind the last one at most. -/
theorem end_le_of_mem_positions {n : Nat} {x : Nat × TCPSenderMessage}
    (h : x ∈ positions n sent) : x.1 + x.2.sequenceLength ≤ n + totalLength sent := by
  induction sent generalizing n with
  | nil => exact absurd h List.not_mem_nil
  | cons m sent ih =>
    rw [totalLength_cons]
    rcases List.mem_cons.mp h with rfl | h
    · exact Nat.add_le_add_left (Nat.le_add_right _ _) n
    · have := ih h
      omega

/-- An ack of all that was sent leaves nothing outstanding. -/
theorem Segmented.receive_all (h : Segmented s sent written) (hlt : s.absSeqno < 2 ^ 64)
    (hack : msg.ackno = some (Wrap32.wrap s.absSeqno s.isn)) :
    (s.receive stale msg).sendBuffer = [] := by
  obtain ⟨acked, out, hsent, hbuf⟩ := h.outstanding
  have hend := h.absSeqno
  rw [hsent, totalLength_append] at hend
  have habs : s.absAckno stale msg = s.absSeqno := by
    unfold absAckno
    rw [hack]
    exact Wrap32.unwrap_wrap _ hlt hlt (by omega) (by omega)
  rcases s.receive_cases stale msg with ⟨hno, -⟩ | ⟨-, hr⟩
  · rw [accepts_of_le hbuf hend hack (Nat.le_of_eq habs)] at hno
    cases hno
  · rw [hr.sendBuffer, unacked, habs, hbuf, hend]
    exact List.dropWhile_eq_nil_iff.mpr fun x hx => decide_eq_true (end_le_of_mem_positions hx)

/-- A number that acknowledges nothing. -/
theorem Segmented.exists_stale (h : Segmented s sent written) (hlt : s.absSeqno < 2 ^ 64)
    (hflight : s.sequenceNumbersInFlight < 2 ^ 31) :
    ∃ stale : Wrap32, ∀ msg : TCPReceiverMessage, msg.ackno = none →
      s.acked (s.absAckno stale msg) = [] := by
  obtain ⟨acked, out, hsent, hbuf⟩ := h.outstanding
  have hlen : s.sequenceNumbersInFlight = totalLength out := by
    unfold sequenceNumbersInFlight
    rw [hbuf, positions_length_sum]
  have habs := h.absSeqno
  rw [hsent, totalLength_append] at habs
  refine ⟨Wrap32.wrap (totalLength acked) s.isn, fun msg hnone => ?_⟩
  have hnum : s.absAckno (Wrap32.wrap (totalLength acked) s.isn) msg = totalLength acked := by
    unfold absAckno
    rw [hnone]
    exact Wrap32.unwrap_wrap _ (by omega) hlt (by omega) (by omega)
  unfold TCPSender.acked
  rw [hnum, hbuf]
  cases out with
  | nil => rfl
  | cons m out =>
    have hpos := h.cut.length_pos m (by rw [hsent]; simp)
    refine List.takeWhile_cons_of_neg fun hm => ?_
    have hle := of_decide_eq_true hm
    dsimp only at hle
    omega

/-- The segment with a byte that was sent. -/
theorem exists_segment {sent : List TCPSenderMessage} {p : Nat} (h : p < (payloads sent).length) :
    ∃ pre m post, sent = pre ++ m :: post ∧ (payloads pre).length ≤ p ∧
      p < (payloads pre).length + m.payload.length := by
  induction sent generalizing p with
  | nil => exact absurd h (Nat.not_lt_zero p)
  | cons m sent ih =>
    rw [payloads_cons, List.length_append] at h
    by_cases hp : p < m.payload.length
    · exact ⟨[], m, sent, rfl, Nat.zero_le p, by simpa [payloads] using hp⟩
    · obtain ⟨pre, m', post, rfl, hle, hlt⟩ := ih (p := p - m.payload.length) (by omega)
      refine ⟨m :: pre, m', post, rfl, ?_, ?_⟩ <;>
        rw [payloads_cons, List.length_append] <;> omega

end

end TCPSender

/-! ## What is left to do -/

namespace TCPReceiver

variable {t : TCPReceiver} {m : TCPSenderMessage}

/-- A segment with a payload is not mistaken behind the SYN. -/
theorem benign_of_payload (hset : t.synSet = true) (hne : m.payload ≠ []) : t.Benign m := by
  refine ⟨⟨fun hno => ?_, fun _ hnil => absurd hnil hne⟩, fun hlen => ?_⟩
  · rw [hset] at hno
    cases hno
  · unfold TCPSenderMessage.sequenceLength at hlen
    exact absurd (List.length_eq_zero_iff.mp (by omega)) hne

/-- The SYN is not mistaken before the SYN. -/
theorem Delivered.benign_syn {capacity : Nat} {s : Session} {popped : Bytes}
    (h : Delivered capacity s t popped) (hset : t.synSet = false) (hsyn : m.syn = true) :
    t.Benign m := by
  obtain ⟨a, rfl⟩ := h.before hset
  have hbehind : (TCPReceiver.new capacity).reassembler.Behind :=
    ⟨fun x hx => absurd hx List.not_mem_nil, fun hf => absurd hf.1 Bool.false_ne_true⟩
  refine ⟨⟨fun _ hno => ?_, fun _ _ _ => hbehind⟩, fun _ _ _ => hbehind⟩
  rw [hsyn] at hno
  cases hno

theorem receive_isClosed {t' : TCPReceiver} (h : t.receive m = .ok t') (hc : t.isClosed = true) :
    t'.isClosed = true := by
  rcases receive_cases h with ⟨-, rfl⟩ | ⟨-, r', hins, rfl⟩
  · exact hc
  · exact (Reassembler.insert_kept hins).1.closed hc

end TCPReceiver

/-- A message with sequence numbers is answered with a report. -/
theorem TCPPeer.Answered.replies {p p' : TCPPeer} {stale : Wrap32} {msg : TCPMessage}
    {out : List TCPMessage} (h : p.Answered stale msg p' out)
    (hlen : 0 < msg.sender.sequenceLength) : ∃ reply ∈ out, reply.receiver = p'.receiver.send := by
  have hwants : p.wantsReply msg.sender = true := by
    unfold TCPPeer.wantsReply
    simp [hlen]
  rw [h.out, hwants, Bool.true_and]
  cases p.newSegments stale msg with
  | nil => exact ⟨_, List.mem_cons_self, rfl⟩
  | cons m segments => exact ⟨_, List.mem_cons_self, rfl⟩

namespace Conversation

/-- Neither the application nor the clock takes this step. -/
def Serves : Op → Prop
  | .push | .receive _ _ | .read _ => True
  | .write _ | .close | .shutdown | .tick _ => False

/-- Twice the numbers that are not sent, and what is still to be acknowledged and to be closed. -/
def due (c : Conversation) : Nat :=
  2 * (c.written.length + 2 - c.peer.sender.absSeqno) + (!c.peer.sender.sendBuffer.isEmpty).toNat +
    (!c.peer.receiver.isClosed).toNat

/-- How a peer goes on when its application rests. -/
structure Proceeds (c c' : Conversation) : Prop where
  good : c'.session.Good
  written : c'.written = c.written
  ended : c.peer.sender.input.closed = true → c'.peer.sender.input.closed = true
  isClosed : c.peer.receiver.isClosed = true → c'.peer.receiver.isClosed = true
  sent : c.sent <+: c'.sent
  buffer : c'.sent = c.sent → c.peer.sender.sendBuffer = [] → c'.peer.sender.sendBuffer = []

/-- Nothing new is sent, and nothing is settled. -/
structure Idles (c c' : Conversation) : Prop where
  sent : c'.sent = c.sent
  buffer : c'.peer.sender.sendBuffer = [] → c.peer.sender.sendBuffer = []
  isClosed : c'.peer.receiver.isClosed = true → c.peer.receiver.isClosed = true

section

variable {c c' : Conversation} {op : Op} {out : List TCPMessage}

/-- A message takes nothing into the buffer. -/
theorem receive_buffer_nil {s : TCPSender} (h : s.sendBuffer = []) (stale : Wrap32)
    (msg : TCPReceiverMessage) : (s.receive stale msg).sendBuffer = [] := by
  rcases s.receive_cases stale msg with ⟨-, error, he⟩ | ⟨-, hr⟩
  · rw [he]
    exact h
  · rw [hr.sendBuffer, TCPSender.unacked, h]
    rfl

/-- Nor does a push that transmits nothing. -/
theorem push_buffer {s : TCPSender} {sent : List TCPSenderMessage} {written : Bytes}
    (hseg : Segmented s sent written) (hnone : s.push.2 = []) :
    s.push.1.sendBuffer = s.sendBuffer := by
  rw [hseg.pushed.sendBuffer, hnone]
  exact List.append_nil _

theorem serves_proceeds (hg : c.session.Good) (hs : Serves op)
    (hst : c.step op = .ok (c', out)) : Proceeds c c' := by
  have hseg : Segmented c.peer.sender c.sent c.written := hg
  cases op with
  | write data | close | shutdown | tick ms => exact hs.elim
  | push =>
    obtain ⟨rfl, -⟩ := pair_ok hst
    refine ⟨@Session.Good.step c.session .push hg trivial, rfl, fun hc => ?_, id,
      List.prefix_append _ _, fun hsent hbuf => ?_⟩
    · show c.peer.sender.push.1.input.closed = true
      rw [hseg.pushed.closed]
      exact hc
    · show c.peer.sender.push.1.sendBuffer = []
      rw [push_buffer hseg (List.append_right_eq_self.mp hsent)]
      exact hbuf
  | receive stale msg =>
    rcases receive_cases hst with ⟨-, rfl, -⟩ | ⟨-, p', hans, rfl⟩
    · exact ⟨hg, rfl, id, id, List.prefix_refl _, fun _ => id⟩
    · have htaken := @Session.Good.step _ (.receive stale msg.receiver) hg trivial
      have hgrows := @Session.grows _ (.receive stale msg.receiver) hg trivial
      have hpush : Segmented (c.peer.sender.receive stale msg.receiver) c.sent c.written := htaken
      have hsender : p'.sender = (c.peer.sender.receive stale msg.receiver).push.1 := hans.sender
      refine ⟨?_, rfl, fun hc => ?_, TCPReceiver.receive_isClosed hans.receiver,
        List.prefix_append _ _, fun hsent hbuf => ?_⟩
      · rw [session_receive hans]
        exact @Session.Good.step (c.session.step (.receive stale msg.receiver)) .push htaken trivial
      · show p'.sender.input.closed = true
        rw [hsender, hpush.pushed.closed]
        exact (hgrows.closed hc).1
      · show p'.sender.sendBuffer = []
        rw [hsender, push_buffer hpush (List.append_right_eq_self.mp hsent)]
        exact receive_buffer_nil hbuf stale msg.receiver
  | read len =>
    obtain ⟨rfl, -⟩ := pair_ok hst
    exact ⟨hg, rfl, id, id, List.prefix_refl _, fun _ => id⟩

/-- Such a step leaves no more to do, and if it leaves as much it has settled nothing. -/
theorem Proceeds.due_le (h : Proceeds c c') (hg : c.session.Good) :
    c'.due ≤ c.due ∧ (c'.due = c.due → Idles c c') := by
  have hseg : Segmented c.peer.sender c.sent c.written := hg
  have hseg' : Segmented c'.peer.sender c'.sent c'.written := h.good
  obtain ⟨segments, hsent⟩ := h.sent
  have habs := hseg.absSeqno
  have habs' := hseg'.absSeqno
  have hle := hseg.absSeqno_le
  have hle' := hseg'.absSeqno_le
  rw [h.written] at hle'
  rw [← hsent, TCPSender.totalLength_append, ← habs] at habs'
  have hpos : segments ≠ [] → 0 < totalLength segments := TCPSender.totalLength_pos fun m hm =>
    hseg'.cut.length_pos m (hsent ▸ List.mem_append_right _ hm)
  have hclosed : (!c'.peer.receiver.isClosed).toNat ≤ (!c.peer.receiver.isClosed).toNat ∧
      ((!c'.peer.receiver.isClosed).toNat = (!c.peer.receiver.isClosed).toNat →
        c'.peer.receiver.isClosed = true → c.peer.receiver.isClosed = true) := by
    have := h.isClosed
    cases hc : c.peer.receiver.isClosed <;> cases hc' : c'.peer.receiver.isClosed <;> simp_all
  have hbuffer : segments = [] →
      (!c'.peer.sender.sendBuffer.isEmpty).toNat ≤ (!c.peer.sender.sendBuffer.isEmpty).toNat ∧
      ((!c'.peer.sender.sendBuffer.isEmpty).toNat = (!c.peer.sender.sendBuffer.isEmpty).toNat →
        c'.peer.sender.sendBuffer = [] → c.peer.sender.sendBuffer = []) := by
    rintro rfl
    have hkept := h.buffer (hsent.symm.trans (List.append_nil _))
    cases hb : c.peer.sender.sendBuffer <;> cases hb' : c'.peer.sender.sendBuffer <;> simp_all
  have hone := Bool.toNat_le (!c'.peer.sender.sendBuffer.isEmpty)
  unfold due
  rw [h.written]
  by_cases hnil : segments = []
  · obtain ⟨hb, hbuf⟩ := hbuffer hnil
    rw [hnil, TCPSender.totalLength_nil, Nat.add_zero] at habs'
    rw [habs']
    refine ⟨by omega, fun heq => ⟨?_, hbuf (by omega), hclosed.2 (by omega)⟩⟩
    rw [← hsent, hnil, List.append_nil]
  · have := hpos hnil
    refine ⟨by omega, fun heq => ?_⟩
    omega

end

end Conversation

/-! ## Runs in which nothing new is asked for -/

namespace Duplex

/-- A step of the end `x` that neither its application nor its clock takes. -/
def ServingAt (x : Side) (d : Duplex) (e : Op) : Prop :=
  d.Permitted e ∧ Conversation.Serves e.op ∧ e.side = x

/-- Such a step of one of the ends. -/
def Serving (d : Duplex) (e : Op) : Prop := d.Permitted e ∧ Conversation.Serves e.op

/-- Both streams have arrived, and the closed ones are over. -/
def Complete (d : Duplex) : Prop := ∀ x, d.received x.other = d.written x ∧
  ((d.peer x).sender.input.closed = true → (d.peer x.other).receiver.isClosed = true)

def left (d : Duplex) : Nat := (d.conv .a).due + (d.conv .b).due

theorem left_eq (d : Duplex) (x : Side) : d.left = (d.conv x).due + (d.conv x.other).due := by
  cases x
  · rfl
  · exact Nat.add_comm _ _

section

variable {cfg : Side → TCPConfig} {d d' : Duplex} {x : Side} {op : Conversation.Op} {e : Op}

theorem causal (hfits : ∀ x, Fits (cfg x)) (h : (machine cfg).Reaches Permitted d) :
    d.pair.Causal := by
  refine h.invariant_det (P := fun d => d.pair.Causal) (.new fun x => (hfits x).send) ?_
  intro d e d' hd hok hst
  obtain ⟨pair, hpair, h⟩ := bind_ok hst
  obtain rfl := Except.ok.inj h
  exact hd.step hok.1 hpair

/-- What a run of serving steps keeps. -/
structure Serves (d d' : Duplex) : Prop where
  written : ∀ x, d'.written x = d.written x
  ended : ∀ x, (d.peer x).sender.input.closed = true → (d'.peer x).sender.input.closed = true
  left_le : d'.left ≤ d.left

theorem serves_step (hfits : ∀ x, Fits (cfg x)) (h : (machine cfg).Reaches Permitted d)
    (hok : d.Serving e) (hst : d.step e = .ok d') : Serves d d' ∧
      (d'.left = d.left → Conversation.Idles (d.conv e.side) (d'.conv e.side)) := by
  obtain ⟨x, op⟩ := e
  obtain ⟨c, out, hc, hm⟩ := moves_of_step hst
  have hm : Moves d d' x c _ out := hm
  have hg : (d.conv x).session.Good := (linked hfits h x).carried.good
  have hp := Conversation.serves_proceeds hg hok.2 hc
  obtain ⟨hle, hidle⟩ := hp.due_le hg
  have hleft := d.left_eq x
  have hleft' := d'.left_eq x
  rw [hm.conv, hm.other] at hleft'
  refine ⟨⟨fun y => ?_, fun y => ?_, by omega⟩, fun heq => ?_⟩
  · unfold Duplex.written
    rcases x.eq_or_other y with rfl | rfl
    · rw [hm.conv]
      exact hp.written
    · rw [hm.other]
  · unfold Duplex.peer
    rcases x.eq_or_other y with rfl | rfl
    · rw [hm.conv]
      exact hp.ended
    · rw [hm.other]
      exact id
  · show Conversation.Idles (d.conv x) (d'.conv x)
    rw [hm.conv]
    exact hidle (by omega)

theorem serves_runs (hfits : ∀ x, Fits (cfg x)) (h : (machine cfg).Reaches Permitted d)
    (hr : (machine cfg).Runs Serving d d') : (machine cfg).Reaches Permitted d' ∧ Serves d d' := by
  induction hr with
  | refl => exact ⟨h, fun _ => rfl, fun _ => id, Nat.le_refl _⟩
  | tail _ hok hst ih =>
    obtain ⟨hreach, hkept⟩ := ih
    have hnext := (serves_step hfits hreach hok hst).1
    exact ⟨.step hreach hok.1 hst, fun x => (hnext.written x).trans (hkept.written x),
      fun x => hnext.ended x ∘ hkept.ended x, hnext.left_le.trans hkept.left_le⟩

end

end Duplex

end Minnow
