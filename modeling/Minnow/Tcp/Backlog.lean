import Minnow.Reassembler.EndsBy
import Minnow.Tcp.Credit

/-!
# What a receiver has ahead of the stream

What a receiver has cached ends at the last byte that its peer has transmitted (`EndsBy`), whatever
has arrived in whatever order (`backlog`). So a receiver that has pushed all that was transmitted has
an empty cache: the last segment closes its stream if it carries the FIN, and its ackno covers all of
them (`Delivered.receive_last`). If it has not, the segment with the next byte takes it on, once the
application has read (`Delivered.receive_next`).
-/

namespace Minnow

open TCPSender (Session Segmented payloads totalLength)

/-! ## The last segment -/

namespace TCPSender

/-- The bytes that were transmitted, the SYN, and the FIN if the last segment carries it. -/
theorem Segmented.absSeqno_last {s : TCPSender} {written : Bytes} {pre : List TCPSenderMessage}
    {m : TCPSenderMessage} (h : Segmented s (pre ++ [m]) written) :
    s.absSeqno = (payloads (pre ++ [m])).length + 1 + m.fin.toNat := by
  have hsyn := h.cut.syn pre m [] rfl
  rw [h.absSeqno, TCPSender.totalLength_append, TCPSender.payloads_append, List.length_append,
    TCPSender.payloads_singleton, TCPSender.totalLength_cons, TCPSender.totalLength_nil]
  unfold TCPSenderMessage.sequenceLength
  by_cases hpre : pre = []
  · rw [hsyn.mpr hpre, hpre]
    simp [payloads]
    omega
  · have hno : m.syn = false := Bool.eq_false_iff.mpr fun hs => hpre (hsyn.mp hs)
    rw [h.cut.totalLength_eq hpre, hno, Bool.toNat_false]
    omega

/-- Once the FIN is sent, the last segment carries it. -/
theorem Segmented.fin_last {s : TCPSender} {written : Bytes} {pre : List TCPSenderMessage}
    {m : TCPSenderMessage} (h : Segmented s (pre ++ [m]) written) (hf : s.finSet = true) :
    m.fin = true := by
  obtain ⟨x, hx, hfin⟩ := h.finSet.mp hf
  rcases List.mem_append.mp hx with hx | hx
  · obtain ⟨a, b, rfl⟩ := List.append_of_mem hx
    have hnil := h.cut.fin a x (b ++ [m]) (by simp) hfin
    simp at hnil
  · rwa [List.mem_singleton.mp hx] at hfin

end TCPSender

namespace TCPReceiver

open Reassembler (EndsBy Placed)

section

variable {capacity : Nat} {s : Session} {t t' : TCPReceiver} {popped : Bytes}
  {m : TCPSenderMessage} {pre post : List TCPSenderMessage}

/-- All that was transmitted is pushed, and an end that is known was transmitted. -/
structure CaughtUp (s : Session) (t : TCPReceiver) : Prop where
  synSet : t.synSet = true
  endsBy : t.reassembler.EndsBy (payloads s.sent).length
  pushed : t.bytesPushed = (payloads s.sent).length
  finish : t.isClosed = true ∨ t.reassembler.finish = true → s.sender.finSet = true

/-- Before the first byte of such a stream nothing is cached. -/
theorem CaughtUp.behind (hc : CaughtUp s t) (h : Delivered capacity s t popped) (hgood : s.Good)
    (h0 : t.bytesPushed = 0) : t.reassembler.Behind := by
  have hempty := hc.endsBy.empty h.placed.inv (Nat.le_of_eq hc.pushed.symm)
  have hseg : Segmented s.sender s.sent s.written := hgood
  refine ⟨by simp [hempty], fun ⟨hf, hset⟩ => ?_⟩
  have hdrained := (hseg.drained (hc.finish (.inr hf))).2
  have hwritten := congrArg List.length hseg.bytes
  rw [hdrained, List.append_nil, ← hc.pushed, h0] at hwritten
  rw [(h.placed.finish hf).2, hwritten] at hset
  cases hset

theorem CaughtUp.benign (hc : CaughtUp s t) (h : Delivered capacity s t popped) (hgood : s.Good)
    (m : TCPSenderMessage) : t.Benign m := by
  refine ⟨⟨fun hset => ?_, fun _ _ h0 => hc.behind h hgood h0⟩, fun _ _ h0 => hc.behind h hgood h0⟩
  rw [hc.synSet] at hset
  cases hset

/-- What a receiver makes of a segment with a known place. -/
theorem Delivered.receive_eq (h : Delivered capacity s t popped) (hgood : s.Good)
    (hroom : s.written.length + capacity < 2 ^ 31) (hs : s.sent = pre ++ m :: post)
    (hrst : m.rst = false) (hsyn : t.synSet = true ∨ m.syn = true) (hr : t.receive m = .ok t') :
    ∃ r', t.reassembler.insert (payloads pre).length m.payload m.fin = .ok r' ∧
      t' = { t.takeFlags m with reassembler := r' }.acknowledge := by
  rcases receive_cases hr with ⟨hcond, -⟩ | ⟨-, r', hins, ht⟩
  · rw [hrst, h.noError] at hcond
    cases hcond
  · rw [h.streamFirstSeqno_eq hroom (TCPSender.Session.slice_at hgood hs) hsyn] at hins
    exact ⟨r', hins, ht⟩

/-- With nothing buffered for the application, the segment with the next byte is taken. -/
theorem Delivered.receive_next (h : Delivered capacity s t popped) (hgood : s.Good)
    (hroom : s.written.length + capacity < 2 ^ 31) (hcap : 1 ≤ capacity)
    (hs : s.sent = pre ++ m :: post) (hrst : m.rst = false) (hset : t.synSet = true)
    (hread : t.output.peek = []) (hle : (payloads pre).length ≤ t.bytesPushed)
    (hlt : t.bytesPushed < (payloads pre).length + m.payload.length) (hr : t.receive m = .ok t') :
    t.bytesPushed < t'.bytesPushed := by
  obtain ⟨r', hins, rfl⟩ := h.receive_eq hgood hroom hs hrst (.inl hset) hr
  have hcarries := (TCPSender.Session.slice_at hgood hs).carries
  have hstop := hcarries.stop_le
  have hinv := h.placed.inv
  have hcapacity : t.reassembler.output.capacity = capacity := h.outputCapacity
  have hwindow := h.placed.windowEnd_le
  have hnext := hinv.room (hcapacity ▸ hcap) hread
  have hph : ¬t.reassembler.Phantom (payloads pre).length m.payload := fun ⟨_, hnil, _⟩ => by
    rw [hnil, List.length_nil] at hlt
    omega
  obtain ⟨d, r'', hr'', hd⟩ := Reassembler.insert_spec m.fin hinv (by omega) (by omega) (by omega)
    hph fun _ => Reassembler.endExact_of_le hinv (by omega) (by omega) (by omega)
  obtain rfl := Except.ok.inj (hins.symm.trans hr'')
  show t.reassembler.bytesPushed < r'.bytesPushed
  rw [hd.pushed]
  by_contra hnone
  obtain rfl : d = [] := List.length_eq_zero_iff.mp (by omega)
  have hbyte : t.bytesPushed - (payloads pre).length < m.payload.length := by omega
  refine hd.gap _ (.inr ⟨hinv.free_next, ?_, hnext, List.getElem?_eq_getElem hbyte⟩)
  exact Nat.max_le.mpr ⟨Nat.le_refl _, hle⟩

/-- The last segment closes the stream if it has the FIN, and all of them are acknowledged. -/
theorem CaughtUp.receive_last (hc : CaughtUp s t) (h : Delivered capacity s t popped)
    (hgood : s.Good) (hroom : s.written.length + capacity < 2 ^ 31) (hcap : 1 ≤ capacity)
    (hs : s.sent = pre ++ [m]) (hrst : m.rst = false) (hread : t.output.peek = [])
    (hr : t.receive m = .ok t') : (m.fin = true → t'.isClosed = true) ∧
      t'.send.ackno = some (Wrap32.wrap s.sender.absSeqno s.sender.isn) := by
  obtain ⟨r', hins, ht⟩ := h.receive_eq hgood hroom hs hrst (.inl hc.synSet) hr
  have hseg : Segmented s.sender (pre ++ [m]) s.written := hs ▸ hgood
  have hcapacity : t.reassembler.output.capacity = capacity := h.outputCapacity
  have hall := hc.pushed
  rw [hs] at hall
  have hpushed := hall
  rw [TCPSender.payloads_append, TCPSender.payloads_singleton, List.length_append] at hpushed
  obtain ⟨hsame, hclose⟩ := Reassembler.insert_pushed h.placed
    (hc.endsBy.empty h.placed.inv (Nat.le_of_eq hc.pushed.symm)) hread (hcapacity ▸ hroom)
    (hcapacity ▸ hcap) hpushed hins
  replace hsame : r'.bytesPushed = t.bytesPushed := hsame
  have hclosed : t'.isClosed = r'.output.closed := by
    rw [ht]
    rfl
  refine ⟨fun hfin => hclosed.trans (hclose hfin), ?_⟩
  have hset : (t.synSet || m.syn) = true := by rw [hc.synSet, Bool.true_or]
  have hinit : (t.takeFlags m).initialSeqno = s.sender.isn := by
    show (if m.syn then m.seqno else t.initialSeqno) = _
    split
    · rename_i hsyn
      exact ((TCPSender.Session.slice_at hgood hs).syn hsyn).2
    · exact (h.after hc.synSet).2.1
  have hend : r'.output.closed = m.fin := by
    cases hfin : m.fin with
    | true => exact hclose hfin
    | false =>
      refine Bool.eq_false_iff.mpr fun hcl => ?_
      rcases Conversation.endSeen_receive hr (.inl (hclosed.trans hcl)) with hseen | hf
      · rw [hseg.fin_last (hc.finish hseen)] at hfin
        cases hfin
      · rw [hfin] at hf
        cases hf
  have hsend : t'.send.ackno = some (Wrap32.wrap
      (if r'.output.closed then
        r'.bytesPushed + (t.synSet || m.syn).toNat + (t.finSet || m.fin && (t.synSet || m.syn)).toNat
      else r'.bytesPushed + (t.synSet || m.syn).toNat) (t.takeFlags m).initialSeqno) := by
    rw [ht]
    exact if_pos hset
  have habs : s.sender.absSeqno = t.bytesPushed + 1 + m.fin.toNat := by
    rw [hall]
    exact hseg.absSeqno_last
  rw [hsend, hinit, hset, hend, hsame, habs]
  cases m.fin <;> simp

/-- A message of the peer leaves nothing behind what was transmitted. -/
theorem Delivered.endsBy (h : Delivered capacity s t popped) (hgood : s.Good)
    (hroom : s.written.length + capacity < 2 ^ 31) (hcap : 1 ≤ capacity)
    (hends : t.reassembler.EndsBy (payloads s.sent).length)
    (hle : t.bytesPushed ≤ (payloads s.sent).length)
    (hm : m ∈ s.sent ∨ TCPSender.Blank s m) (hrst : m.rst = false) (hok : t.Benign m)
    (hr : t.receive m = .ok t') : t'.reassembler.EndsBy (payloads s.sent).length ∧
      t'.bytesPushed ≤ (payloads s.sent).length := by
  have hseg : Segmented s.sender s.sent s.written := hgood
  have hcapacity : t.reassembler.output.capacity = capacity := h.outputCapacity
  have hn : (payloads s.sent).length ≤ s.written.length := by
    rw [hseg.bytes, List.length_append]
    omega
  by_cases hsyn : t.synSet = true ∨ m.syn = true
  · rcases hm with hm | hm
    · obtain ⟨pre, post, hs⟩ := List.append_of_mem hm
      obtain ⟨r', hins, rfl⟩ := h.receive_eq hgood hroom hs hrst hsyn hr
      refine hends.insert hle h.placed (hcapacity ▸ hroom) (hcapacity ▸ hcap) hn (.inl ?_)
        (fun ⟨hpre, hnil, h0⟩ => ?_) hins
      · rw [hs, TCPSender.payloads_append, TCPSender.payloads_cons, List.length_append,
          List.length_append]
        omega
      · cases hs' : m.syn with
        | true => exact hok.1.2 hs' hnil h0
        | false => exact h.behind (hpre ▸ TCPSender.Session.slice_at hgood hs) hnil hs'
    · obtain ⟨hno, hpayload, hfin⟩ := hm.fields
      have hset := hsyn.resolve_right (by simp [hno])
      obtain ⟨htake, hk⟩ := h.blank_index hroom hcap hm hset
      rcases receive_cases hr with ⟨hcond, -⟩ | ⟨-, r', hins, rfl⟩
      · rw [hrst, h.noError] at hcond
        cases hcond
      · have hbehind := hok.2 hm.length
        rw [htake] at hbehind
        rw [htake, hpayload, hfin] at hins
        refine hends.insert hle h.placed (hcapacity ▸ hroom) (hcapacity ▸ hcap) hn ?_
          (fun hph => hbehind hph.1 hph.2.2) hins
        rw [List.length_nil, Nat.add_zero]
        exact (Nat.lt_or_ge _ _).symm.imp_right fun hlt => ⟨rfl, hlt, hk⟩
  · rw [not_or, Bool.not_eq_true, Bool.not_eq_true] at hsyn
    obtain ⟨a, rfl⟩ := h.before hsyn.1
    have hlt : capacity < 2 ^ 64 := by omega
    have hignored : Ignorable capacity m := hok.1.1 hsyn.1 hsyn.2
    obtain ⟨a', ha'⟩ := receive_ignorable hlt hsyn.2 hrst hignored a
    obtain rfl := Except.ok.inj (hr.symm.trans ha')
    exact ⟨fun x hx => absurd hx List.not_mem_nil, hle⟩

end

end TCPReceiver

namespace Conversation

variable {c c' : Conversation} {op : Op} {out : List TCPMessage}

/-- What is transmitted first is sent. -/
theorem step_sent (hst : c.step op = .ok (c', out)) : ∃ segments, c'.sent = c.sent ++ segments ∧
    ∀ m ∈ segments, ∃ msg ∈ out, msg.sender = m := by
  have hnone : ∃ segments, c.sent = c.sent ++ segments ∧ ∀ m ∈ segments, ∃ msg ∈ out,
      msg.sender = m := ⟨[], (List.append_nil _).symm, fun m hm => absurd hm List.not_mem_nil⟩
  cases op with
  | write data | close | tick ms | read len =>
    obtain ⟨rfl, rfl⟩ := pair_ok hst
    exact hnone
  | shutdown | push =>
    obtain ⟨rfl, rfl⟩ := pair_ok hst
    exact ⟨_, rfl, fun m hm => ⟨_, List.mem_map_of_mem hm, rfl⟩⟩
  | receive stale msg =>
    rcases receive_cases hst with ⟨-, rfl, -⟩ | ⟨-, p', hans, rfl⟩
    · exact hnone
    · refine ⟨_, rfl, fun m hm => ?_⟩
      rw [hans.out]
      exact ⟨_, List.mem_map_of_mem (List.mem_append_left _ hm), rfl⟩

end Conversation

namespace Duplex

/-- In the direction from `x` to `y`: what is cached or pushed ends at the last byte that was
transmitted, and all that was transmitted is on the network. -/
structure Backlog (d : Duplex) (x y : Side) : Prop where
  endsBy : (d.peer y).receiver.reassembler.EndsBy (payloads (d.conv x).sent).length
  pushed : (d.peer y).receiver.bytesPushed ≤ (payloads (d.conv x).sent).length
  sent : ∀ m ∈ (d.conv x).sent, ∃ msg ∈ d.pair.network x, msg.sender = m

section

variable {cfg : Side → TCPConfig} {d d' : Duplex} {x : Side} {c : Conversation} {bytes : Bytes}
  {out : List TCPMessage} {op : Conversation.Op}

theorem Backlog.sender (h : Backlog d x x.other) (hm : Moves d d' x c bytes out)
    (hst : (d.conv x).step op = .ok (c, out)) : Backlog d' x x.other := by
  obtain ⟨segments, hsent, hout⟩ := Conversation.step_sent hst
  refine ⟨?_, ?_, ?_⟩
  · rw [Duplex.peer, hm.other, hm.conv, hsent, TCPSender.payloads_append, List.length_append]
    exact h.endsBy.mono (Nat.le_add_right _ _)
  · rw [Duplex.peer, hm.other, hm.conv, hsent, TCPSender.payloads_append, List.length_append]
    exact Nat.le_add_right_of_le h.pushed
  · rw [hm.conv, hm.network, hsent]
    intro m hmem
    rcases List.mem_append.mp hmem with hmem | hmem
    · obtain ⟨msg, hmsg, rfl⟩ := h.sent m hmem
      exact ⟨msg, List.mem_append_left _ hmsg, rfl⟩
    · obtain ⟨msg, hmsg, rfl⟩ := hout m hmem
      exact ⟨msg, List.mem_append_right _ hmsg, rfl⟩

theorem Backlog.receiver {capacity : Nat} (h : Backlog d x.other x)
    (hlinked : Linked capacity d x.other x) (hcap : 1 ≤ capacity)
    (hm : Moves d d' x c bytes out) (hok : d.Permitted ⟨x, op⟩)
    (hst : (d.conv x).step op = .ok (c, out)) : Backlog d' x.other x := by
  suffices hkept : c.peer.receiver.reassembler.EndsBy (payloads (d.conv x.other).sent).length ∧
      c.peer.receiver.bytesPushed ≤ (payloads (d.conv x.other).sent).length by
    refine ⟨?_, ?_, ?_⟩
    · rw [Duplex.peer, hm.conv, hm.other]
      exact hkept.1
    · rw [Duplex.peer, hm.conv, hm.other]
      exact hkept.2
    · rw [hm.other, hm.otherNetwork]
      exact h.sent
  cases op with
  | write data | close | shutdown | push | tick ms | read len =>
    obtain ⟨rfl, -⟩ := pair_ok hst
    exact ⟨h.endsBy, h.pushed⟩
  | receive stale msg =>
    rcases Conversation.receive_cases hst with ⟨-, rfl, -⟩ | ⟨ha, p', hans, rfl⟩
    · exact ⟨h.endsBy, h.pushed⟩
    · have hmem : msg ∈ d.pair.network x.other := hok.1.2
      have hcarried := hlinked.carried
      have hkind : msg.sender ∈ (d.conv x.other).sent ∨
          TCPSender.Blank (d.conv x.other).session msg.sender := by
        by_cases hlen : msg.sender.sequenceLength = 0
        · exact .inr (hlinked.blank msg hmem hlen)
        · exact .inl (hcarried.segments _ (List.mem_filter.mpr
            ⟨List.mem_map_of_mem hmem, decide_eq_true (Nat.pos_of_ne_zero hlen)⟩))
      exact hcarried.delivered.endsBy hcarried.good hcarried.room hcap h.endsBy h.pushed hkind
        (hkind.elim (hcarried.rst _) fun hb => hb.rst) (hok.2.2 ha).1 hans.receiver

theorem backlog (hfits : ∀ x, Fits (cfg x)) (h : (machine cfg).Reaches Permitted d) :
    ∀ x, Backlog d x x.other := by
  refine h.invariant_of (P := fun d => ∀ x, Backlog d x x.other) ?_ ?_
  · rintro _ rfl x
    exact ⟨fun _ hx => absurd hx List.not_mem_nil, Nat.zero_le _,
      fun m hm => absurd hm List.not_mem_nil⟩
  · intro d e d' hr hback hok hst
    obtain ⟨x, op⟩ := e
    obtain ⟨c, out, hc, hm⟩ := moves_of_step hst
    have hother : Backlog d x.other x := by
      have := hback x.other
      rwa [Side.other_other] at this
    intro y
    rcases x.eq_or_other y with rfl | rfl
    · exact (hback _).sender hm hc
    · rw [Side.other_other]
      exact hother.receiver ((linked hfits hr).back x) (hfits x).pos hm hok hc

end

end Duplex

end Minnow
