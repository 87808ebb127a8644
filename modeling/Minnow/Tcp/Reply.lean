import Minnow.Reassembler.Reads
import Minnow.Tcp.Peer

/-!
# What a peer answers

A call of `receive` sends the new segments of the push, and an empty message where a reply is wanted
and no segment was sent. All of them report the receiver as it is after the message: the receiver
goes first, and nothing changes it any more in the call. `Disciplined` puts this together.

`need_send_` is false between the calls (`Between`), so a reply is wanted for this message alone.
`reply_discipline` says that a call is disciplined unless the insert of its payload reads outside
its data, where the source does not say what it does; `duplicate_reads_outside` is such a call.
-/

namespace Minnow

namespace TCPPeer

/-- The message asks for a reply: it uses a sequence number or is a keep-alive. -/
def Asks (p : TCPPeer) (segment : TCPSenderMessage) : Prop :=
  0 < segment.sequenceLength ∨ p.isKeepAlive segment = true

/-- The call returns. It sends a message if it is asked to and otherwise only segments that use
sequence numbers, and each message reports the receiver as the call leaves it. -/
def Disciplined (p : TCPPeer) (stale : Wrap32) (msg : TCPMessage) : Prop :=
  ∃ p' out, p.receive stale msg = .ok (p', out) ∧
    (p.Asks msg.sender → out ≠ []) ∧
    (∀ m ∈ out, m.receiver = p'.receiver.send) ∧
    (¬p.Asks msg.sender → ∀ m ∈ out, 0 < m.sender.sequenceLength)

/-- The insert of the payload reads outside its data. -/
def ReadsOutside (p : TCPPeer) (segment : TCPSenderMessage) : Prop :=
  p.receiver.reassembler.ReadsOutside ((p.receiver.takeFlags segment).streamFirstSeqno segment)
    segment.payload

instance (p : TCPPeer) (segment : TCPSenderMessage) : Decidable (p.ReadsOutside segment) := by
  unfold ReadsOutside
  infer_instance

/-- What holds between the calls. -/
structure Between (p : TCPPeer) : Prop where
  input : p.sender.input.WF
  needSend : p.needSend = false
  ends : Reassembler.IntEnds p.receiver.reassembler.cache.entries

variable {p p' : TCPPeer} {stale : Wrap32} {msg : TCPMessage} {out : List TCPMessage}
  {cfg : TCPConfig}

theorem Between.new (hcap : cfg.sendCapacity < 2 ^ 64) : Between (.new cfg) where
  input := .new hcap
  needSend := rfl
  ends _ hx := absurd hx List.not_mem_nil

theorem Between.push (h : p.Between) : p.push.1.Between where
  input := (TCPSender.push_extended h.input).1.input
  needSend := by
    show (p.needSend && _) = false
    rw [h.needSend, Bool.false_and]
  ends := h.ends

theorem Between.tick (h : p.Between) (t : Nat) : (p.tick t).1.Between where
  input := by
    show (p.sender.tick t).1.input.WF
    rw [TCPSender.tick_eq]
    exact h.input
  needSend := by
    show (p.needSend && _) = false
    rw [h.needSend, Bool.false_and]
  ends := h.ends

theorem receive_wf {s : TCPSender} (h : s.input.WF) (stale : Wrap32) (msg : TCPReceiverMessage) :
    (s.receive stale msg).input.WF := by
  rcases s.receive_cases stale msg with ⟨-, error, he⟩ | ⟨-, hr⟩
  · rw [he]
    exact ⟨h.cap, h.length, h.stop, h.fits, h.pushed⟩
  · rw [hr.input]
    exact h

theorem receive_intEnds {t t' : TCPReceiver} {m : TCPSenderMessage} (h : t.receive m = .ok t')
    (hl : Reassembler.IntEnds t.reassembler.cache.entries) :
    Reassembler.IntEnds t'.reassembler.cache.entries := by
  rcases TCPReceiver.receive_cases h with ⟨-, rfl⟩ | ⟨-, r', hins, rfl⟩
  · exact hl
  · exact hl.insert hins

/-- A peer without errors takes a segment if its insert returns. -/
theorem receiver_returns (h : p.Between) {m : TCPSenderMessage} (herr : p.anyErrors = false)
    (hrst : m.rst = false) : (∃ t, p.receiver.receive m = .ok t) ↔ ¬p.ReadsOutside m := by
  have hgo : (m.rst || p.receiver.output.hasError) = false := by
    unfold anyErrors at herr
    rw [hrst, (Bool.or_eq_false_iff.mp herr).1]
    rfl
  have hins := Reassembler.insert_returns h.ends
    ((p.receiver.takeFlags m).streamFirstSeqno m) m.payload m.fin
  unfold ReadsOutside TCPReceiver.receive
  rw [hgo, if_neg Bool.false_ne_true, ← hins]
  refine ⟨fun ⟨t, ht⟩ => ?_, fun ⟨r', hr⟩ => ?_⟩
  · obtain ⟨r', hr, -⟩ := bind_ok ht
    exact ⟨r', hr⟩
  · dsimp only
    rw [show (p.receiver.takeFlags m).reassembler = p.receiver.reassembler from rfl, hr]
    exact ⟨_, rfl⟩

/-- What is sent in a call. -/
theorem Answered.disciplined (h : p.Between) (hans : Answered p stale msg p' out) :
    (p.Asks msg.sender → out ≠ []) ∧ (∀ m ∈ out, m.receiver = p'.receiver.send) ∧
      (¬p.Asks msg.sender → ∀ m ∈ out, 0 < m.sender.sequenceLength) := by
  have hwants : p.wantsReply msg.sender = true ↔ p.Asks msg.sender := by
    unfold wantsReply Asks
    simp [h.needSend]
  rw [hans.out]
  refine ⟨fun hasks hnil => ?_, fun m hm => ?_, fun hasks m hm => ?_⟩
  · rw [List.map_eq_nil_iff, List.append_eq_nil_iff] at hnil
    rw [hnil.1, hwants.mpr hasks] at hnil
    exact List.cons_ne_nil _ _ hnil.2
  · obtain ⟨segment, -, rfl⟩ := List.mem_map.mp hm
    rfl
  · rw [Bool.eq_false_iff.mpr (mt hwants.mp hasks), Bool.false_and, if_neg Bool.false_ne_true,
      List.append_nil] at hm
    obtain ⟨segment, hseg, rfl⟩ := List.mem_map.mp hm
    have hpushed := (TCPSender.push_extended (receive_wf h.input stale msg.receiver)).1
    exact hpushed.length_pos segment hseg

theorem Between.disciplined_iff (h : p.Between) (ha : p.active = true)
    (hrst : msg.sender.rst = false) :
    p.Disciplined stale msg ↔ ¬p.ReadsOutside msg.sender := by
  have herr : p.anyErrors = false := by
    unfold active at ha
    rw [Bool.and_eq_true, Bool.not_eq_true'] at ha
    exact ha.1
  rw [← receiver_returns h herr hrst]
  refine ⟨fun ⟨p', out, hok, _⟩ => ?_, fun ⟨t, ht⟩ => ?_⟩
  · rcases receive_cases hok with ⟨hna, -⟩ | ⟨-, hans⟩
    · rw [ha] at hna
      simp at hna
    · exact ⟨_, hans.receiver⟩
  · obtain ⟨p', out, hok⟩ : ∃ p' out, p.receive stale msg = .ok (p', out) := receive_ok ha ht
    rcases receive_cases hok with ⟨hna, -⟩ | ⟨-, hans⟩
    · rw [ha] at hna
      simp at hna
    · exact ⟨p', out, hok, hans.disciplined h⟩

end TCPPeer

namespace Conversation

open TCPPeer

variable {cfg : TCPConfig} {c c' : Conversation} {op : Op} {out : List TCPMessage}

theorem between_step (h : c.peer.Between) (hst : c.step op = .ok (c', out)) : c'.peer.Between := by
  cases op with
  | write data =>
    obtain ⟨rfl, -⟩ := pair_ok hst
    exact ⟨h.input.push data, h.needSend, h.ends⟩
  | close =>
    obtain ⟨rfl, -⟩ := pair_ok hst
    exact ⟨h.input.close, h.needSend, h.ends⟩
  | shutdown =>
    obtain ⟨rfl, -⟩ := pair_ok hst
    exact Between.push ⟨h.input.close, h.needSend, h.ends⟩
  | push =>
    obtain ⟨rfl, -⟩ := pair_ok hst
    exact h.push
  | tick ms =>
    obtain ⟨rfl, -⟩ := pair_ok hst
    exact h.tick ms
  | receive stale msg =>
    rcases receive_cases hst with ⟨-, rfl, -⟩ | ⟨-, p', hans, rfl⟩
    · exact h
    · refine ⟨?_, hans.needSend, receive_intEnds hans.receiver h.ends⟩
      rw [hans.sender]
      exact (TCPSender.push_extended (receive_wf h.input stale msg.receiver)).1.input
  | read len =>
    obtain ⟨rfl, -⟩ := pair_ok hst
    exact ⟨h.input, h.needSend, h.ends⟩

/-- In every run: a call of `receive` of an active peer is disciplined exactly if the insert does
not read outside the payload. -/
theorem reply_discipline (cfg : TCPConfig) (c : Conversation) (stale : Wrap32) (msg : TCPMessage)
    (hcap : cfg.sendCapacity < 2 ^ 64) (h : (machine cfg).Reaches (fun _ _ => True) c)
    (ha : c.peer.active = true) (hrst : msg.sender.rst = false) :
    c.peer.Disciplined stale msg ↔ ¬c.peer.ReadsOutside msg.sender := by
  refine TCPPeer.Between.disciplined_iff ?_ ha hrst
  refine h.invariant_det (P := fun c => c.peer.Between) (.new hcap) fun c op c' hc _ hst => ?_
  obtain ⟨out, hst⟩ := next_ok hst
  exact between_step hc hst

/-- A byte of data is answered. -/
theorem reply_discipline_data : ∃ (c : Conversation) (msg : TCPMessage),
    c.peer.Asks msg.sender ∧ c.peer.Disciplined ⟨0⟩ msg := by
  obtain ⟨c, h, ha, hout⟩ := Machine.exists_reaches next (.new { isn := ⟨7⟩ }) (fun _ _ => True)
    (fun c => c.peer.active = true ∧ ¬c.peer.ReadsOutside { seqno := ⟨51⟩, payload := [97] })
    [.push, .receive ⟨0⟩ ⟨{ seqno := ⟨50⟩, syn := true }, { ackno := some ⟨8⟩, windowSize := 9 }⟩]
    (by decide +kernel) (by decide +kernel)
  refine ⟨c, ⟨{ seqno := ⟨51⟩, payload := [97] }, { ackno := some ⟨8⟩, windowSize := 9 }⟩,
    .inl (by decide), ?_⟩
  exact (reply_discipline { isn := ⟨7⟩ } c ⟨0⟩ _ (by decide) h ha rfl).mpr hout

/-- A receiver of `2 ^ 31 - 1` bytes holds a segment behind a gap. What is in front of the gap is
read, and comes once more. -/
theorem duplicate_reads_outside : ∃ (c : Conversation) (msg : TCPMessage),
    (machine { isn := ⟨7⟩, recvCapacity := 2 ^ 31 - 1 }).Reaches (fun _ _ => True) c ∧
    c.peer.active = true ∧ msg.sender.rst = false ∧ msg.receiver.ackno = some ⟨8⟩ ∧
    ¬c.peer.Disciplined ⟨0⟩ msg := by
  obtain ⟨c, h, ha, hout⟩ := Machine.exists_reaches next
    (.new { isn := ⟨7⟩, recvCapacity := 2 ^ 31 - 1 }) (fun _ _ => True)
    (fun c => c.peer.active = true ∧ c.peer.receive ⟨0⟩
      ⟨{ seqno := ⟨51⟩, payload := List.replicate 32 97 },
        { ackno := some ⟨8⟩, windowSize := 9 }⟩ = .error .outOfBounds)
    [.push, .receive ⟨0⟩ ⟨{ seqno := ⟨50⟩, syn := true }, { ackno := some ⟨8⟩, windowSize := 9 }⟩,
      .receive ⟨0⟩ ⟨{ seqno := ⟨51⟩, payload := List.replicate 32 97 },
        { ackno := some ⟨8⟩, windowSize := 9 }⟩,
      .receive ⟨0⟩ ⟨{ seqno := ⟨88⟩, payload := [98] }, { ackno := some ⟨8⟩, windowSize := 9 }⟩,
      .read 32]
    (by decide +kernel) (by decide +kernel)
  refine ⟨c, ⟨{ seqno := ⟨51⟩, payload := List.replicate 32 97 },
    { ackno := some ⟨8⟩, windowSize := 9 }⟩, h, ha, rfl, rfl, ?_⟩
  rintro ⟨p', out, hok, -⟩
  rw [hout] at hok
  cases hok

end Conversation

end Minnow
