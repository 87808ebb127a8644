import Minnow.Tcp.Duplex
import Minnow.Tcp.Shutdown

/-!
# What two peers agree on

The runs of `Duplex`: `Linked` holds in both directions (`linked`), so both streams are delivered
whatever the network does and however the two applications take turns (`streams_integrity`), and a
peer that is not active any more has left nothing behind at either end (`inactive_finished`).

`Greeted` is about the SYN. It leaves `send_buffer_` with an ackno of the other end only, which
reports none before it has the SYN. So the loops in `connect` and `listen_and_accept` end when both
ends know each other's ISN (`handshake_agreement`).
-/

namespace Minnow

open TCPSender (Session Segmented Grows positions totalLength payloads)

namespace Duplex

/-- The capacities of a configuration that the code supports. -/
structure Fits (cfg : TCPConfig) : Prop where
  send : cfg.sendCapacity < 2 ^ 64
  pos : 1 ≤ cfg.recvCapacity
  recv : cfg.recvCapacity < 2 ^ 31

/-- The default capacities. -/
theorem Fits.default (isn : Wrap32) : Fits { isn } :=
  ⟨(by decide : 64000 < 2 ^ 64), (by decide : 1 ≤ 64000), (by decide : 64000 < 2 ^ 31)⟩

/-- Both directions are in order. -/
def Inv (cfg : Side → TCPConfig) (d : Duplex) : Prop :=
  ∀ x, Linked (cfg x.other).recvCapacity d x x.other

section

variable {cfg : Side → TCPConfig} {d d' : Duplex} {e : Op} {x : Side}

theorem Inv.back (h : Inv cfg d) (x : Side) : Linked (cfg x).recvCapacity d x.other x := by
  have := h x.other
  rwa [Side.other_other] at this

theorem Inv.new (hfits : ∀ x, Fits (cfg x)) : Inv cfg (.new cfg) := fun x =>
  ⟨.new (hfits x.other).recv (hfits x).send, fun _ hmsg => absurd hmsg List.not_mem_nil⟩

/-- A permitted step returns. -/
theorem Inv.step (h : Inv cfg d) (hfits : ∀ x, Fits (cfg x)) (hok : d.Permitted e) :
    ∃ d', d.step e = .ok d' ∧ Inv cfg d' := by
  obtain ⟨x, op⟩ := e
  obtain ⟨d', hd', hf, hb⟩ := (h x).step (h.back x) (hfits x.other).pos (hfits x).pos hok
  refine ⟨d', hd', fun y => ?_⟩
  rcases x.eq_or_other y with rfl | rfl
  · exact hf
  · rw [Side.other_other]
    exact hb

theorem linked (hfits : ∀ x, Fits (cfg x)) (h : (machine cfg).Reaches Permitted d) : Inv cfg d := by
  refine h.invariant_det (.new hfits) fun d e d' hd hok hst => ?_
  obtain ⟨d'', hst', hd''⟩ := hd.step hfits hok
  obtain rfl : d' = d'' := Except.ok.inj (hst.symm.trans hst')
  exact hd''

/-! ## The streams -/

/-- What the end `x` has written, as the other end has it. -/
structure Streams (d : Duplex) (x : Side) : Prop where
  isPrefix : d.received x.other <+: d.written x
  whole : (d.peer x.other).receiver.isClosed = true →
    (d.peer x).sender.input.closed = true ∧ d.received x.other = d.written x

theorem Linked.streams {capacity : Nat} (h : Linked capacity d x x.other) : Streams d x := by
  have hreceived : d.received x.other =
      (d.written x).take (d.peer x.other).receiver.bytesPushed := h.carried.received_eq
  refine ⟨?_, fun hclosed => ?_⟩
  · rw [hreceived]
    exact List.take_prefix _ _
  · obtain ⟨hsender, hall⟩ := h.carried.delivered.placed.closed hclosed
    refine ⟨hsender, ?_⟩
    rw [hreceived, show (d.peer x.other).receiver.bytesPushed = _ from hall]
    exact List.take_length

/-- In every run over a network that loses, delays, duplicates and reorders: in both directions,
what one end has received is a prefix of what the other one has written; its stream is closed only
if the other one's is, and then it has all of it. No step fails. -/
theorem streams_integrity (cfg : Side → TCPConfig) (d : Duplex) (hfits : ∀ x, Fits (cfg x))
    (h : (machine cfg).Reaches Permitted d) :
    (∀ x, Streams d x) ∧ ∀ e, d.Permitted e → ∃ d', d.step e = .ok d' := by
  have hinv := linked hfits h
  refine ⟨fun x => (hinv x).streams, fun e hok => ?_⟩
  obtain ⟨d', hd', -⟩ := hinv.step hfits hok
  exact ⟨d', hd'⟩

/-- The FIN arrives before the data that it ends. -/
theorem streams_integrity_reordered : ∃ d : Duplex,
    (d.peer .b).receiver.isClosed = true ∧ d.received .b = d.written .a := by
  obtain ⟨d, h, hclosed⟩ := Machine.exists_reaches step
    (.new fun x => { isn := if x = .a then ⟨7⟩ else ⟨50⟩ }) Permitted
    (fun d => (d.peer .b).receiver.isClosed = true)
    [⟨.a, .push⟩,
      ⟨.b, .receive ⟨0⟩ ⟨{ seqno := ⟨7⟩, syn := true }, { windowSize := 64000 }⟩⟩,
      ⟨.a, .receive ⟨0⟩ ⟨{ seqno := ⟨50⟩, syn := true },
        { ackno := some ⟨8⟩, windowSize := 64000 }⟩⟩,
      ⟨.a, .write [97, 98]⟩, ⟨.a, .push⟩, ⟨.a, .shutdown⟩,
      ⟨.b, .receive ⟨0⟩ ⟨{ seqno := ⟨10⟩, fin := true },
        { ackno := some ⟨51⟩, windowSize := 64000 }⟩⟩,
      ⟨.b, .receive ⟨0⟩ ⟨{ seqno := ⟨8⟩, payload := [97, 98] },
        { ackno := some ⟨51⟩, windowSize := 64000 }⟩⟩,
      ⟨.b, .read 1⟩]
    (by decide +kernel) (by decide +kernel)
  have hint := streams_integrity (fun x => { isn := if x = .a then ⟨7⟩ else ⟨50⟩ }) d
    (fun _ => .default _) h
  exact ⟨d, hclosed, ((hint.1 .a).whole hclosed).2⟩

/-- With nothing in flight, all that was sent is acknowledged. -/
theorem sendBuffer_nil {s : TCPSender} {sent : List TCPSenderMessage} {written : Bytes}
    (h : Segmented s sent written) (hflight : s.sequenceNumbersInFlight = 0) :
    s.sendBuffer = [] := by
  obtain ⟨acked, out, hsent, hbuf⟩ := h.outstanding
  unfold TCPSender.sequenceNumbersInFlight at hflight
  rw [hbuf, TCPSender.positions_length_sum] at hflight
  have hout : out = [] := by
    by_contra hne
    have := TCPSender.totalLength_pos (fun m hm =>
      h.cut.length_pos m (hsent ▸ List.mem_append_right _ hm)) hne
    omega
  rw [hbuf, hout]
  rfl

/-- What `x` has received of the other end. -/
theorem received_of_other (hfits : ∀ x, Fits (cfg x)) (h : (machine cfg).Reaches Permitted d)
    (x : Side) : d.received x <+: d.written x.other ∧
      ((d.peer x).receiver.isClosed = true →
        (d.peer x.other).sender.input.closed = true ∧ d.received x = d.written x.other) := by
  have hback : Linked (cfg x).recvCapacity d x.other x.other.other := by
    rw [Side.other_other]
    exact (linked hfits h).back x
  have hstreams := hback.streams
  have hbegins := hstreams.isPrefix
  have hwhole := hstreams.whole
  rw [Side.other_other] at hbegins hwhole
  exact ⟨hbegins, hwhole⟩

/-- What was written is sent, and what was sent is acknowledged. -/
theorem received_of_acked (hfits : ∀ x, Fits (cfg x)) (h : (machine cfg).Reaches Permitted d)
    (hflight : (d.peer x).sender.sequenceNumbersInFlight = 0)
    (hempty : (d.peer x).sender.input.peek = []) : d.received x.other = d.written x := by
  have hf := linked hfits h x
  have hseg : Segmented (d.peer x).sender (d.conv x).sent (d.written x) := hf.carried.good
  obtain ⟨hsent, hbegins⟩ := hf.carried.removed_eq
  have hbuf : (d.flow x x.other).session.sender.sendBuffer = [] := sendBuffer_nil hseg hflight
  rw [hbuf, List.map_nil, List.append_nil] at hsent
  rw [← hsent] at hbegins
  have hwritten := hseg.bytes
  rw [hempty, List.append_nil] at hwritten
  exact hf.streams.isPrefix.eq_of_length_le (hwritten ▸ hbegins.length_le)

/-- Why a peer is not active: no error is raised in these runs, so both of its streams are over. -/
theorem over_of_inactive (hfits : ∀ x, Fits (cfg x)) (h : (machine cfg).Reaches Permitted d)
    (hact : (d.peer x).active = false) :
    (d.peer x).sender.sequenceNumbersInFlight = 0 ∧
      ((d.peer x).sender.input.closed = true ∧ (d.peer x).sender.input.peek = []) ∧
        (d.peer x).receiver.isClosed = true := by
  have hf := linked hfits h x
  have hb := (linked hfits h).back x
  have hseg : Segmented (d.peer x).sender (d.conv x).sent (d.written x) := hf.carried.good
  have herr : (d.peer x).anyErrors = false :=
    Bool.or_eq_false_iff.mpr ⟨hb.carried.delivered.noError, hf.carried.noError⟩
  obtain ⟨hflight, hfin, hin⟩ := Conversation.inactive herr hact
  exact ⟨hflight, hseg.input.isFinished_iff.mp hfin, hin⟩

/-- In every run: a peer that is not active has received all that the other application has written,
and the other end has received all that this one has. -/
theorem inactive_finished (cfg : Side → TCPConfig) (d : Duplex) (x : Side)
    (hfits : ∀ x, Fits (cfg x)) (h : (machine cfg).Reaches Permitted d)
    (hact : (d.peer x).active = false) :
    d.received x = d.written x.other ∧ d.received x.other = d.written x ∧
      (d.peer x).sender.input.closed = true ∧ (d.peer x.other).sender.input.closed = true := by
  obtain ⟨hflight, ⟨hclosed, hempty⟩, hin⟩ := over_of_inactive hfits h hact
  obtain ⟨hother, hreceived⟩ := (received_of_other hfits h x).2 hin
  exact ⟨hreceived, received_of_acked hfits h hflight hempty, hclosed, hother⟩

/-- The end that is closed first does not linger: it is done with the ack of its FIN. -/
theorem inactive_finished_closed : ∃ d : Duplex, (d.peer .b).active = false ∧
    d.received .b = d.written .a ∧ d.received .a = d.written .b := by
  obtain ⟨d, h, hact⟩ := Machine.exists_reaches step
    (.new fun x => { isn := if x = .a then ⟨7⟩ else ⟨50⟩ }) Permitted
    (fun d => (d.peer .b).active = false)
    [⟨.a, .push⟩,
      ⟨.b, .receive ⟨0⟩ ⟨{ seqno := ⟨7⟩, syn := true }, { windowSize := 64000 }⟩⟩,
      ⟨.a, .receive ⟨0⟩ ⟨{ seqno := ⟨50⟩, syn := true },
        { ackno := some ⟨8⟩, windowSize := 64000 }⟩⟩,
      ⟨.a, .write [97, 98]⟩, ⟨.a, .shutdown⟩,
      ⟨.b, .receive ⟨0⟩ ⟨{ seqno := ⟨8⟩, payload := [97, 98], fin := true },
        { ackno := some ⟨51⟩, windowSize := 64000 }⟩⟩,
      ⟨.b, .write [99]⟩, ⟨.b, .shutdown⟩,
      ⟨.a, .receive ⟨0⟩ ⟨{ seqno := ⟨51⟩, payload := [99], fin := true },
        { ackno := some ⟨11⟩, windowSize := 63998 }⟩⟩,
      ⟨.b, .receive ⟨0⟩ ⟨{ seqno := ⟨11⟩ }, { ackno := some ⟨53⟩, windowSize := 63999 }⟩⟩]
    (by decide +kernel) (by decide +kernel)
  obtain ⟨hb, ha, -⟩ := inactive_finished (fun x => { isn := if x = .a then ⟨7⟩ else ⟨50⟩ }) d .b
    (fun _ => .default _) h hact
  exact ⟨d, hact, hb, ha⟩

end

/-! ## The handshake -/

/-- What a step of a peer does that the handshake is about. -/
structure Greets (c c' : Conversation) (op : Conversation.Op) (out : List TCPMessage) : Prop where
  isn : c'.peer.sender.isn = c.peer.sender.isn
  syn : c.peer.receiver.synSet = true → c'.peer.receiver.synSet = true
  sent : c.sent <+: c'.sent
  reports : ∀ m ∈ out, m.receiver.ackno ≠ none → c'.peer.receiver.synSet = true
  answers : c'.peer.receiver.synSet = true → c.peer.receiver.synSet = true ∨ c'.sent ≠ []
  outstanding : c.sent.length = c.peer.sender.sendBuffer.length →
    c'.sent.length = c'.peer.sender.sendBuffer.length ∨
      ∃ stale msg, op = .receive stale msg ∧ msg.receiver.ackno ≠ none

/-- The SYN of `x` is acknowledged by an end that has it, and an end that has a SYN has sent its
own. -/
structure Greeted (cfg : Side → TCPConfig) (d : Duplex) (x : Side) : Prop where
  isn : (d.peer x).sender.isn = (cfg x).isn
  reported : ∀ m ∈ d.pair.network x, m.receiver.ackno ≠ none → (d.peer x).receiver.synSet = true
  outstanding : (d.peer x.other).receiver.synSet = false →
    (d.conv x).sent.length = (d.peer x).sender.sendBuffer.length
  answered : (d.peer x).receiver.synSet = true → (d.conv x).sent ≠ []

theorem send_ackno {t : TCPReceiver} (h : t.send.ackno ≠ none) : t.synSet = true := by
  unfold TCPReceiver.send at h
  by_contra hs
  exact h (if_neg hs)

theorem positions_length (n : Nat) (sent : List TCPSenderMessage) :
    (positions n sent).length = sent.length := by
  rw [← List.length_map Prod.snd, TCPSender.positions_map_snd]

/-- What a push transmits is outstanding. -/
theorem push_outstanding {s : TCPSender} {sent : List TCPSenderMessage} {written : Bytes}
    (h : Segmented s sent written) (hlen : sent.length = s.sendBuffer.length) :
    (sent ++ s.push.2).length = s.push.1.sendBuffer.length := by
  rw [h.pushed.sendBuffer, List.length_append, List.length_append, positions_length, hlen]

/-- Only an ackno takes segments off the buffer. -/
theorem receive_outstanding {s : TCPSender} {stale : Wrap32} {msg : TCPReceiverMessage}
    (h : s.acked (s.absAckno stale msg) = []) : (s.receive stale msg).sendBuffer = s.sendBuffer := by
  rcases s.receive_cases stale msg with ⟨-, error, he⟩ | ⟨-, hr⟩
  · rw [he]
  · have hsplit := List.takeWhile_append_dropWhile (p := TCPSender.ackedBy (s.absAckno stale msg))
      (l := s.sendBuffer)
    unfold TCPSender.acked at h
    rw [h, List.nil_append] at hsplit
    rw [hr.sendBuffer]
    exact hsplit

theorem receive_synSet {t t' : TCPReceiver} {m : TCPSenderMessage} (h : t.receive m = .ok t')
    (hs : t.synSet = true) : t'.synSet = true := by
  rcases TCPReceiver.receive_cases h with ⟨-, rfl⟩ | ⟨-, r', -, rfl⟩
  · exact hs
  · show (t.synSet || m.syn) = true
    rw [hs, Bool.true_or]

theorem push_greets {c : Conversation} (hg : c.session.Good) (op : Conversation.Op) :
    Greets c c.push.1 op c.push.2 where
  isn := (Segmented.pushed hg).isn
  syn := id
  sent := List.prefix_append _ _
  reports m hm hack := by
    obtain ⟨segment, -, rfl⟩ := List.mem_map.mp hm
    exact send_ackno (t := c.peer.receiver) hack
  answers := .inl
  outstanding hlen := .inl (push_outstanding hg hlen)

theorem receive_greets {c c' : Conversation} {out : List TCPMessage} {stale : Wrap32}
    {msg : TCPMessage} (hg : c.session.Good) (hok : c.peer.active = true →
      msg.receiver.ackno = none →
        c.peer.sender.acked (c.peer.sender.absAckno stale msg.receiver) = [])
    (hst : c.receive stale msg = .ok (c', out)) : Greets c c' (.receive stale msg) out := by
  rcases Conversation.receive_cases hst with ⟨-, rfl, rfl⟩ | ⟨ha, p', hans, rfl⟩
  · exact ⟨rfl, id, List.prefix_refl _, fun m hm => absurd hm List.not_mem_nil, .inl, .inl⟩
  · have htaken := @Session.Good.step _ (.receive stale msg.receiver) hg trivial
    refine ⟨?_, receive_synSet hans.receiver, List.prefix_append _ _, fun m hm hack => ?_,
      fun _ => .inr ?_, fun hlen => ?_⟩
    · show p'.sender.isn = c.session.sender.isn
      rw [hans.sender, ← Session.isn_step c.session hg (.receive stale msg.receiver)]
      exact Session.isn_step _ htaken .push
    · rw [hans.out] at hm
      obtain ⟨segment, -, rfl⟩ := List.mem_map.mp hm
      exact send_ackno (t := p'.receiver) hack
    · -- the push at the end of the call has sent the SYN
      have hpushed : Segmented p'.sender _ c.written :=
        hans.sender ▸ Segmented.push (show Segmented _ _ _ from htaken)
      refine hpushed.synSet.mp ?_
      rw [hans.sender]
      exact (TCPSender.push_extended (show Segmented _ _ _ from htaken).input).2
    · by_cases hack : msg.receiver.ackno = none
      · refine .inl ?_
        show (c.sent ++ c.peer.newSegments stale msg).length = p'.sender.sendBuffer.length
        rw [hans.sender]
        refine push_outstanding (s := c.peer.sender.receive stale msg.receiver) htaken ?_
        rw [receive_outstanding (hok ha hack)]
        exact hlen
      · exact .inr ⟨stale, msg, rfl, hack⟩

theorem step_greets {c c' : Conversation} {op : Conversation.Op} {out : List TCPMessage}
    (hg : c.session.Good) (hok : ∀ stale msg, op = .receive stale msg → c.peer.active = true →
      msg.receiver.ackno = none →
        c.peer.sender.acked (c.peer.sender.absAckno stale msg.receiver) = [])
    (hst : c.step op = .ok (c', out)) : Greets c c' op out := by
  cases op with
  | write data =>
    obtain ⟨rfl, rfl⟩ := pair_ok hst
    exact ⟨rfl, id, List.prefix_refl _, fun m hm => absurd hm List.not_mem_nil, .inl, .inl⟩
  | close =>
    obtain ⟨rfl, rfl⟩ := pair_ok hst
    exact ⟨rfl, id, List.prefix_refl _, fun m hm => absurd hm List.not_mem_nil, .inl, .inl⟩
  | shutdown =>
    obtain ⟨rfl, rfl⟩ := pair_ok hst
    have hpush := push_greets (c := c.close) (@Session.Good.step _ .close hg trivial) .shutdown
    exact ⟨hpush.isn, hpush.syn, hpush.sent, hpush.reports, hpush.answers, hpush.outstanding⟩
  | push =>
    obtain ⟨rfl, rfl⟩ := pair_ok hst
    exact push_greets hg .push
  | tick ms =>
    obtain ⟨rfl, rfl⟩ := pair_ok hst
    refine ⟨Session.isn_step c.session hg (.tick ms), id, List.prefix_refl _, fun m hm hack => ?_,
      .inl, fun hlen => .inl ?_⟩
    · obtain ⟨segment, -, rfl⟩ := List.mem_map.mp hm
      exact send_ackno (t := c.peer.receiver) hack
    · show c.sent.length = (c.peer.sender.tick ms).1.sendBuffer.length
      rw [TCPSender.tick_eq]
      exact hlen
  | read len =>
    obtain ⟨rfl, rfl⟩ := pair_ok hst
    exact ⟨rfl, id, List.prefix_refl _, fun m hm => absurd hm List.not_mem_nil, .inl, .inl⟩
  | receive stale msg => exact receive_greets hg (hok stale msg rfl) hst

section

variable {cfg : Side → TCPConfig} {d d' : Duplex} {e : Op} {x : Side}

theorem Greeted.new (cfg : Side → TCPConfig) (x : Side) : Greeted cfg (.new cfg) x where
  isn := rfl
  reported _ hm := absurd hm List.not_mem_nil
  outstanding _ := rfl
  answered h := absurd h Bool.false_ne_true

/-- A permitted step keeps `Greeted` at both ends. -/
theorem Greeted.step (h : ∀ y, Greeted cfg d y) (hinv : Inv cfg d) (hok : d.Permitted e)
    (hst : d.step e = .ok d') : ∀ y, Greeted cfg d' y := by
  obtain ⟨x, op⟩ := e
  obtain ⟨⟨-, hdelivers⟩, -, hsound⟩ := hok
  obtain ⟨c, out, hc, hm⟩ := moves_of_step hst
  have hg := step_greets (hinv x).carried.good (fun stale msg hop ha => by
    subst hop
    exact (hsound ha).2) hc
  have hother := h x.other
  intro y
  rcases x.eq_or_other y with rfl | rfl
  · refine ⟨?_, fun m hmem hack => ?_, fun hs => ?_, fun hs => ?_⟩
    · rw [Duplex.peer, hm.conv]
      exact hg.isn.trans (h y).isn
    · rw [Duplex.peer, hm.conv]
      rw [hm.network] at hmem
      rcases List.mem_append.mp hmem with hmem | hmem
      · exact hg.syn ((h y).reported m hmem hack)
      · exact hg.reports m hmem hack
    · rw [Duplex.peer, hm.other] at hs
      rw [Duplex.peer, hm.conv]
      rcases hg.outstanding ((h y).outstanding hs) with hlen | ⟨stale, msg, rfl, hack⟩
      · exact hlen
      · exact absurd (hother.reported msg hdelivers hack) (Bool.eq_false_iff.mp hs)
    · rw [Duplex.peer, hm.conv] at hs
      rw [hm.conv]
      rcases hg.answers hs with hs | hne
      · exact fun hnil => (h y).answered hs (List.prefix_nil.mp (hnil ▸ hg.sent))
      · exact hne
  · refine ⟨?_, fun m hmem hack => ?_, fun hs => ?_, fun hs => ?_⟩
    · rw [Duplex.peer, hm.other]
      exact hother.isn
    · rw [Duplex.peer, hm.other]
      rw [hm.otherNetwork] at hmem
      exact hother.reported m hmem hack
    · rw [Side.other_other, Duplex.peer, hm.conv] at hs
      rw [Duplex.peer, hm.other]
      refine hother.outstanding (Bool.eq_false_iff.mpr fun hs' => ?_)
      rw [Side.other_other] at hs'
      exact Bool.eq_false_iff.mp hs (hg.syn hs')
    · rw [Duplex.peer, hm.other] at hs
      rw [hm.other]
      exact hother.answered hs

theorem greeted (hfits : ∀ x, Fits (cfg x)) (h : (machine cfg).Reaches Permitted d) :
    ∀ x, Greeted cfg d x := by
  refine h.invariant_of (P := fun d => ∀ x, Greeted cfg d x) (fun d hd => ?_)
    fun d e d' hr hd hok hst => Greeted.step hd (linked hfits hr) hok hst
  obtain rfl : d = .new cfg := hd
  exact Greeted.new cfg

/-- In every run: when a peer that has sent its SYN, or heard one, has nothing in flight, the other
end has its SYN and knows its ISN. If the peer has an ackno, it knows the ISN of the other end. -/
theorem handshake_agreement (cfg : Side → TCPConfig) (d : Duplex) (x : Side)
    (hfits : ∀ x, Fits (cfg x)) (h : (machine cfg).Reaches Permitted d)
    (hopen : (d.peer x).hasAckno = true ∨ (d.conv x).sent ≠ [])
    (hflight : (d.peer x).sender.sequenceNumbersInFlight = 0) :
    (d.peer x.other).receiver.synSet = true ∧
      (d.peer x.other).receiver.initialSeqno = (cfg x).isn ∧
      ((d.peer x).hasAckno = true → (d.peer x).receiver.initialSeqno = (cfg x.other).isn) := by
  have hf := linked hfits h x
  have hb := (linked hfits h).back x
  have hgreeted := greeted hfits h
  have hheard : (d.peer x).hasAckno = true → (d.peer x).receiver.synSet = true := fun hack =>
    send_ackno (Option.ne_none_iff_isSome.mpr hack)
  have hsent : (d.conv x).sent ≠ [] := hopen.elim ((hgreeted x).answered ∘ hheard) id
  have hbuf : (d.peer x).sender.sendBuffer = [] := sendBuffer_nil hf.carried.good hflight
  have hsyn : (d.peer x.other).receiver.synSet = true := by
    by_contra hs
    have hlen := (hgreeted x).outstanding (Bool.eq_false_of_not_eq_true hs)
    rw [hbuf] at hlen
    exact hsent (List.length_eq_zero_iff.mp hlen)
  refine ⟨hsyn, ?_, fun hack => ?_⟩
  · rw [← (hgreeted x).isn]
    exact (hf.carried.delivered.after hsyn).2.1
  · rw [← (hgreeted x.other).isn]
    exact (hb.carried.delivered.after (hheard hack)).2.1

/-- The two messages of a handshake, seen by the end that connects. -/
theorem handshake_agreement_connected : ∃ d : Duplex, (d.peer .a).hasAckno = true ∧
    (d.peer .b).receiver.initialSeqno = ⟨7⟩ ∧ (d.peer .a).receiver.initialSeqno = ⟨50⟩ := by
  obtain ⟨d, h, hack, hflight⟩ := Machine.exists_reaches step
    (.new fun x => { isn := if x = .a then ⟨7⟩ else ⟨50⟩ }) Permitted
    (fun d => (d.peer .a).hasAckno = true ∧ (d.peer .a).sender.sequenceNumbersInFlight = 0)
    [⟨.a, .push⟩,
      ⟨.b, .receive ⟨0⟩ ⟨{ seqno := ⟨7⟩, syn := true }, { windowSize := 64000 }⟩⟩,
      ⟨.a, .receive ⟨0⟩ ⟨{ seqno := ⟨50⟩, syn := true },
        { ackno := some ⟨8⟩, windowSize := 64000 }⟩⟩]
    (by decide +kernel) (by decide +kernel)
  obtain ⟨-, hb, ha⟩ := handshake_agreement (fun x => { isn := if x = .a then ⟨7⟩ else ⟨50⟩ }) d .a
    (fun _ => .default _) h (.inl hack) hflight
  exact ⟨d, hack, hb, ha hack⟩

end

end Duplex

end Minnow
