import Minnow.Tcp.Delivery

/-!
# A sender and a receiver over a network

`Net` is a sender and a receiver with one ISN, and a network between them that may lose, delay,
duplicate and reorder. It keeps every segment and every acknowledgement that was ever sent; a
delivery picks one of them by its place and leaves it there, so it can be picked again or never.
`read` are the bytes that the application at the receiver has popped, and `session` has the ghosts
of the sender.

`Carried` is the invariant: each side is in order (`Good`, `Delivered`), what is on the network was
really sent, and what has left `send_buffer_` is pushed at the receiver. `stream_integrity` is the
statement for every run whose deliveries are `Sound`; `pushed_out_of_place` is a run where one is
not.
-/

namespace Minnow

open TCPSender (Session Segmented positions totalLength payloads)

structure Net where
  session : Session
  receiver : TCPReceiver
  read : Bytes := []
  segments : List TCPSenderMessage := []
  acks : List TCPReceiverMessage := []
  deriving DecidableEq

namespace Net

inductive Op where
  | write (data : Bytes)
  | close
  | push
  | tick (ms : Nat)
  | deliver (i : Nat)
  | reply
  | deliverAck (i : Nat) (stale : Wrap32)
  | read (len : Nat)
  deriving DecidableEq

def step (n : Net) : Op → Except Fault Net
  | .write data => return { n with session := n.session.step (.write data) }
  | .close => return { n with session := n.session.step .close }
  | .push => return { n with
      session := n.session.step .push
      segments := n.segments ++ n.session.sender.push.2 }
  | .tick ms => return { n with
      session := n.session.step (.tick ms)
      segments := n.segments ++ (n.session.sender.tick ms).2 }
  | .deliver i =>
    match n.segments[i]? with
    | some message => do
      let receiver ← n.receiver.receive message
      return { n with receiver }
    | none => return n
  | .reply => return { n with acks := n.acks ++ [n.receiver.send] }
  | .deliverAck i stale =>
    match n.acks[i]? with
    | some msg => return { n with session := n.session.step (.receive stale msg) }
    | none => return n
  | .read len => return { n with
      receiver := n.receiver.read len
      read := n.read ++ n.receiver.output.peek.take len }

def new (sendCapacity : Nat) (isn : Wrap32) (initialRTOMs capacity : Nat) : Net where
  session := .new sendCapacity isn initialRTOMs
  receiver := .new capacity

def machine (sendCapacity : Nat) (isn : Wrap32) (initialRTOMs capacity : Nat) : Machine Net Op :=
  .det (.new sendCapacity isn initialRTOMs capacity) step

/-- The application does not write after its close, and the stream and the receive capacity stay
below `2 ^ 31`. -/
def Orderly (n : Net) : Op → Prop
  | .write data => n.session.Orderly (.write data) ∧
      (n.session.step (.write data)).written.length + n.receiver.output.capacity < 2 ^ 31
  | _ => True

/-- A segment is harmless where it is delivered, and what is read of an absent ackno acknowledges
nothing. -/
def Sound (n : Net) : Op → Prop
  | .deliver i => ∀ message ∈ n.segments[i]?, n.receiver.Harmless message
  | .deliverAck i stale => ∀ msg ∈ n.acks[i]?, msg.ackno = none →
      n.session.sender.acked (n.session.sender.absAckno stale msg) = []
  | _ => True

instance (n : Net) : ∀ op, Decidable (Orderly n op)
  | .write _ => by
    unfold Orderly
    infer_instance
  | .close | .push | .tick _ | .deliver _ | .reply | .deliverAck _ _ | .read _ => .isTrue trivial

instance (n : Net) : ∀ op, Decidable (Sound n op)
  | .deliver _ | .deliverAck _ _ => by
    unfold Sound
    infer_instance
  | .write _ | .close | .push | .tick _ | .reply | .read _ => .isTrue trivial

/-- The segments that have left `send_buffer_`. -/
def removed (n : Net) : List TCPSenderMessage :=
  n.session.sent.take (n.session.sent.length - n.session.sender.sendBuffer.length)

/-- The bytes that the receiver has pushed. -/
def received (n : Net) : Bytes := n.read ++ n.receiver.output.peek

/-! ## Acknowledgements -/

/-- The number is one that the receiver can acknowledge. -/
def Covered (n : Net) (absAckno : Nat) : Prop :=
  1 ≤ absAckno ∧ absAckno ≤ 1 + n.receiver.bytesPushed + n.receiver.isClosed.toNat

structure Carried (capacity : Nat) (n : Net) : Prop where
  good : n.session.Good
  delivered : n.receiver.Delivered capacity n.session n.read
  room : n.session.written.length + capacity < 2 ^ 31
  noError : n.session.sender.input.error = false
  rst : ∀ m ∈ n.session.sent, m.rst = false
  segments : ∀ m ∈ n.segments, m ∈ n.session.sent
  acks : ∀ msg ∈ n.acks, (msg.ackno = none → msg.windowSize ≠ 0) ∧ ∀ a ∈ msg.ackno,
    n.session.sent ≠ [] ∧ ∃ k, a = Wrap32.wrap k n.session.sender.isn ∧ n.Covered k
  removed : ∃ acked out, n.session.sent = acked ++ out ∧
    n.session.sender.sendBuffer = positions (totalLength acked) out ∧
    (payloads acked).length ≤ n.receiver.bytesPushed

section

variable {capacity sendCapacity initialRTOMs : Nat} {isn : Wrap32} {n n' : Net} {op : Op}

theorem Carried.new (hcap : capacity < 2 ^ 31) (hsend : sendCapacity < 2 ^ 64) :
    Carried capacity (.new sendCapacity isn initialRTOMs capacity) where
  good := .new hsend isn initialRTOMs
  delivered := .new (by omega) isn sendCapacity initialRTOMs
  room := by
    show 0 + capacity < 2 ^ 31
    omega
  noError := rfl
  rst m hm := absurd hm List.not_mem_nil
  segments m hm := absurd hm List.not_mem_nil
  acks msg hm := absurd hm List.not_mem_nil
  removed := ⟨[], [], rfl, rfl, Nat.le_refl 0⟩

/-- The sender goes on. -/
theorem Carried.session {op : TCPSender.Op} {segments : List TCPSenderMessage}
    (h : Carried capacity n) (hok : n.session.Orderly op)
    (hroom : (n.session.step op).written.length + capacity < 2 ^ 31)
    (herror : (n.session.step op).sender.input.error = false)
    (hrst : ∀ m ∈ (n.session.step op).sent, m.rst = false)
    (hsegments : ∀ m ∈ segments, m ∈ (n.session.step op).sent)
    (hremoved : ∃ acked out, (n.session.step op).sent = acked ++ out ∧
      (n.session.step op).sender.sendBuffer = positions (totalLength acked) out ∧
      (payloads acked).length ≤ n.receiver.bytesPushed) :
    Carried capacity { n with session := n.session.step op, segments } := by
  have hgrows := TCPSender.Session.grows h.good hok
  refine ⟨h.good.step hok, h.delivered.extend hgrows, hroom, herror, hrst, hsegments,
    fun msg hmsg => ?_, hremoved⟩
  obtain ⟨hwin, hack⟩ := h.acks msg hmsg
  refine ⟨hwin, fun a ha => ?_⟩
  obtain ⟨hne, k, hk⟩ := hack a ha
  refine ⟨fun hnil => hne ?_, k, ?_⟩
  · exact List.prefix_nil.mp (hnil ▸ hgrows.sent)
  · rw [hgrows.isn]
    exact hk

theorem Carried.push (h : Carried capacity n) : Carried capacity { n with
    session := n.session.step .push
    segments := n.segments ++ n.session.sender.push.2 } := by
  have hseg : Segmented n.session.sender n.session.sent n.session.written := h.good
  have hpushed := hseg.pushed
  obtain ⟨acked, out, hsent, hbuf, hle⟩ := h.removed
  refine h.session trivial h.room (hpushed.error.trans h.noError) (fun m hm => ?_)
    (fun m hm => ?_) ⟨acked, out ++ n.session.sender.push.2, ?_, ?_, hle⟩
  · rcases List.mem_append.mp hm with hm | hm
    · exact h.rst m hm
    · exact (hpushed.rst m hm).trans h.noError
  · rcases List.mem_append.mp hm with hm | hm
    · exact List.mem_append_left _ (h.segments m hm)
    · exact List.mem_append_right _ hm
  · show n.session.sent ++ _ = _
    rw [hsent, List.append_assoc]
  · show n.session.sender.push.1.sendBuffer = _
    rw [hpushed.sendBuffer, hbuf, TCPSender.positions_append, hseg.absSeqno, hsent,
      TCPSender.totalLength_append]

theorem Carried.tick (h : Carried capacity n) (ms : Nat) : Carried capacity { n with
    session := n.session.step (.tick ms)
    segments := n.segments ++ (n.session.sender.tick ms).2 } := by
  obtain ⟨acked, out, hsent, hbuf, hle⟩ := h.removed
  have htick := n.session.sender.tick_eq ms
  refine h.session trivial h.room ?_ h.rst (fun m hm => ?_) ⟨acked, out, hsent, ?_, hle⟩
  · show (n.session.sender.tick ms).1.input.error = false
    rw [htick]
    exact h.noError
  · rcases List.mem_append.mp hm with hm | hm
    · exact h.segments m hm
    · rcases n.session.sender.tick_retransmits ms with he | ⟨x, rest, hb, he⟩
      · rw [he] at hm
        simp at hm
      · -- the oldest outstanding segment was sent
        rw [he] at hm
        rw [hbuf] at hb
        have hx : x ∈ positions (totalLength acked) out := hb ▸ List.mem_cons_self
        rw [List.mem_singleton.mp hm]
        show x.2 ∈ n.session.sent
        rw [hsent]
        exact List.mem_append_right _ (TCPSender.mem_positions hx)
  · show (n.session.sender.tick ms).1.sendBuffer = _
    rw [htick]
    exact hbuf

/-- What the receiver can acknowledge of the first segments, it has pushed. -/
theorem Carried.payloads_le {l r : List TCPSenderMessage} {k : Nat} (h : Carried capacity n)
    (hsent : n.session.sent = l ++ r) (hne : l ≠ []) (hk : n.Covered k)
    (hle : totalLength l ≤ k) : (payloads l).length ≤ n.receiver.bytesPushed := by
  have hseg : Segmented n.session.sender n.session.sent n.session.written := h.good
  rw [hsent] at hseg
  have hlt := hseg.payloads_lt hne
  obtain ⟨-, hk⟩ := hk
  cases hc : n.receiver.isClosed with
  | false =>
    rw [hc, Bool.toNat_false] at hk
    omega
  | true =>
    -- all that was written is pushed
    have hall : n.receiver.bytesPushed = n.session.written.length :=
      (h.delivered.placed.closed hc).2
    rw [hall, hseg.bytes, TCPSender.payloads_append]
    simp only [List.length_append]
    omega

/-- An ackno of the receiver is the number that it stands for. -/
theorem Carried.absAckno_eq {msg : TCPReceiverMessage} {a : Wrap32} (h : Carried capacity n)
    (hcap : 1 ≤ capacity) (hmsg : msg ∈ n.acks) (ha : msg.ackno = some a) (stale : Wrap32) :
    n.Covered (n.session.sender.absAckno stale msg) := by
  have hseg : Segmented n.session.sender n.session.sent n.session.written := h.good
  obtain ⟨hne, k, rfl, hk⟩ := (h.acks msg hmsg).2 a ha
  have habs := hseg.absSeqno_le
  have hpos : 1 ≤ n.session.sender.absSeqno := by
    obtain ⟨m, rest, hm⟩ := List.exists_cons_of_ne_nil hne
    have := hseg.cut.length_pos m (by rw [hm]; exact List.mem_cons_self)
    rw [hseg.absSeqno, hm, TCPSender.totalLength_cons]
    omega
  have hroom := h.room
  have hpushed : n.receiver.bytesPushed ≤ n.session.written.length := h.delivered.placed.pushed_le
  have hclosed := Bool.toNat_le n.receiver.isClosed
  have hk' := hk
  unfold Covered at hk'
  unfold TCPSender.absAckno
  rw [ha]
  show n.Covered ((Wrap32.wrap k n.session.sender.isn).unwrap _ _)
  rw [Wrap32.unwrap_wrap _ (by omega) (by omega) (by omega) (by omega)]
  exact hk

theorem Carried.deliverAck {msg : TCPReceiverMessage} (h : Carried capacity n) (hcap : 1 ≤ capacity)
    (hmsg : msg ∈ n.acks) (stale : Wrap32) (hok : msg.ackno = none →
      n.session.sender.acked (n.session.sender.absAckno stale msg) = []) :
    Carried capacity { n with session := n.session.step (.receive stale msg) } := by
  have hinput : (n.session.sender.receive stale msg).input = n.session.sender.input :=
    TCPSender.receive_input (h.acks msg hmsg).1
  obtain ⟨acked, out, hsent, hbuf, hle⟩ := h.removed
  refine h.session trivial h.room ?_ h.rst h.segments ?_
  · show (n.session.sender.receive stale msg).input.error = false
    rw [hinput]
    exact h.noError
  show ∃ acked out, n.session.sent = acked ++ out ∧
    (n.session.sender.receive stale msg).sendBuffer = _ ∧ _
  rcases n.session.sender.receive_cases stale msg with ⟨-, error, he⟩ | ⟨-, hr⟩
  · rw [he]
    exact ⟨acked, out, hsent, hbuf, hle⟩
  · obtain ⟨a, r, rfl, htake, hdrop, hend⟩ := TCPSender.dropWhile_positions
      (n.session.sender.absAckno stale msg) (totalLength acked) out
    refine ⟨acked ++ a, r, by rw [hsent, List.append_assoc], ?_, ?_⟩
    · rw [hr.sendBuffer, TCPSender.unacked, hbuf, hdrop, TCPSender.totalLength_append]
    · by_cases ha : a = []
      · rw [ha, List.append_nil]
        exact hle
      · cases hm : msg.ackno with
        | none =>
          -- nothing is acknowledged then
          have := hok hm
          rw [TCPSender.acked, hbuf, htake] at this
          cases a with
          | nil => exact absurd rfl ha
          | cons m a => exact absurd this (List.cons_ne_nil _ _)
        | some x =>
          refine h.payloads_le (r := r) (by rw [hsent, List.append_assoc])
            (List.append_ne_nil_of_right_ne_nil _ ha) (h.absAckno_eq hcap hmsg hm stale) ?_
          rw [TCPSender.totalLength_append]
          exact hend ha

/-- The receiver goes on. -/
theorem Carried.receiver {t' : TCPReceiver} {read : Bytes} (h : Carried capacity n)
    (ht : t'.Delivered capacity n.session read) (hle : n.receiver.bytesPushed ≤ t'.bytesPushed)
    (hclosed : n.receiver.isClosed = true → t'.isClosed = true) :
    Carried capacity { n with receiver := t', read } := by
  refine ⟨h.good, ht, h.room, h.noError, h.rst, h.segments, fun msg hmsg => ?_, ?_⟩
  · obtain ⟨hwin, hack⟩ := h.acks msg hmsg
    refine ⟨hwin, fun a ha => ?_⟩
    obtain ⟨hne, k, hk, hpos, hkle⟩ := hack a ha
    refine ⟨hne, k, hk, hpos, Nat.le_trans hkle ?_⟩
    show 1 + n.receiver.bytesPushed + n.receiver.isClosed.toNat ≤
      1 + t'.bytesPushed + t'.isClosed.toNat
    cases hc : n.receiver.isClosed with
    | true =>
      rw [hclosed hc]
      omega
    | false =>
      rw [Bool.toNat_false]
      omega
  · obtain ⟨acked, out, hsent, hbuf, hlen⟩ := h.removed
    exact ⟨acked, out, hsent, hbuf, Nat.le_trans hlen hle⟩

/-- A delivery returns. -/
theorem Carried.deliver {message : TCPSenderMessage} (h : Carried capacity n) (hcap : 1 ≤ capacity)
    (hm : message ∈ n.segments) (hok : n.receiver.Harmless message) :
    ∃ t', n.receiver.receive message = .ok t' ∧ Carried capacity { n with receiver := t' } := by
  have hsent := h.segments message hm
  obtain ⟨t', ht', hd, hle, hclosed⟩ :=
    h.delivered.receive h.good h.room hcap hsent (h.rst message hsent) hok
  exact ⟨t', ht', h.receiver hd hle hclosed⟩

theorem Carried.step (h : Carried capacity n) (hcap : 1 ≤ capacity) (hord : n.Orderly op)
    (hok : n.Sound op) : ∃ n', n.step op = .ok n' ∧ Carried capacity n' := by
  obtain ⟨acked, out, hsent, hbuf, hle⟩ := h.removed
  have hcapacity : n.receiver.output.capacity = capacity := h.delivered.outputCapacity
  cases op with
  | write data =>
    obtain ⟨hopen, hroom⟩ := hord
    refine ⟨_, rfl, h.session hopen (hcapacity ▸ hroom) ?_ h.rst h.segments
      ⟨acked, out, hsent, hbuf, hle⟩⟩
    exact (ByteStream.push_error _ _).trans h.noError
  | close =>
    exact ⟨_, rfl, h.session trivial h.room h.noError h.rst h.segments
      ⟨acked, out, hsent, hbuf, hle⟩⟩
  | push => exact ⟨_, rfl, h.push⟩
  | tick ms => exact ⟨_, rfl, h.tick ms⟩
  | deliver i =>
    simp only [Net.step]
    cases hm : n.segments[i]? with
    | none => exact ⟨n, rfl, h⟩
    | some message =>
      obtain ⟨t', ht', hc⟩ := h.deliver hcap (List.mem_of_getElem? hm) (hok message hm)
      refine ⟨{ n with receiver := t' }, ?_, hc⟩
      show (n.receiver.receive message >>= _) = _
      rw [ht']
      rfl
  | reply =>
    have hroom := h.room
    obtain ⟨hwin, hack⟩ := h.delivered.send hcap (by omega)
    refine ⟨_, rfl, h.good, h.delivered, h.room, h.noError, h.rst, h.segments, fun msg hmsg => ?_,
      h.removed⟩
    rcases List.mem_append.mp hmsg with hmsg | hmsg
    · exact h.acks msg hmsg
    · rw [List.mem_singleton.mp hmsg]
      exact ⟨hwin, hack⟩
  | deliverAck i stale =>
    simp only [Net.step]
    cases hm : n.acks[i]? with
    | none => exact ⟨n, rfl, h⟩
    | some msg =>
      exact ⟨_, rfl, h.deliverAck hcap (List.mem_of_getElem? hm) stale (hok msg hm)⟩
  | read len =>
    exact ⟨_, rfl, h.receiver (h.delivered.read len) (Nat.le_refl _) id⟩

theorem Carried.received_eq (h : Carried capacity n) :
    n.received = n.session.written.take n.receiver.bytesPushed :=
  h.delivered.placed.pushed

/-- The segments that have left the buffer are the ones that are not in it. -/
theorem Carried.removed_eq (h : Carried capacity n) :
    n.session.sent = n.removed ++ n.session.sender.sendBuffer.map Prod.snd ∧
      payloads n.removed <+: n.received := by
  have hseg : Segmented n.session.sender n.session.sent n.session.written := h.good
  obtain ⟨acked, out, hsent, hbuf, hle⟩ := h.removed
  have hmap : n.session.sender.sendBuffer.map Prod.snd = out := by
    rw [hbuf, TCPSender.positions_map_snd]
  have hacked : n.removed = acked := by
    unfold Net.removed
    rw [← List.length_map Prod.snd, hmap, hsent, List.length_append, Nat.add_sub_cancel,
      List.take_left]
  rw [hacked, hmap]
  refine ⟨hsent, List.prefix_of_prefix_length_le ?_ (h.received_eq ▸ List.take_prefix _ _) ?_⟩
  · rw [hseg.bytes, hsent, TCPSender.payloads_append, List.append_assoc]
    exact List.prefix_append _ _
  · have hpushed : n.receiver.bytesPushed ≤ n.session.written.length := h.delivered.placed.pushed_le
    rw [h.received_eq, List.length_take, Nat.min_eq_left hpushed]
    exact hle

theorem carried (hsend : sendCapacity < 2 ^ 64) (hcap : 1 ≤ capacity) (hlt : capacity < 2 ^ 31)
    (h : (machine sendCapacity isn initialRTOMs capacity).Reaches
      (fun n op => n.Orderly op ∧ n.Sound op) n) : Carried capacity n := by
  refine h.invariant_det (.new hlt hsend) fun n op n' hn hok hst => ?_
  obtain ⟨n'', hst', hn''⟩ := hn.step hcap hok.1 hok.2
  obtain rfl : n' = n'' := Except.ok.inj (hst.symm.trans hst')
  exact hn''

/-- In every run whose deliveries are sound: what the receiver has pushed is a prefix of what was
written; its stream is closed only when the sender's is, and then all of it is pushed; and the
segments that have left `send_buffer_` carry pushed bytes only. No step fails. -/
theorem stream_integrity (sendCapacity : Nat) (isn : Wrap32) (initialRTOMs capacity : Nat) (n : Net)
    (hsend : sendCapacity < 2 ^ 64) (hcap : 1 ≤ capacity) (hlt : capacity < 2 ^ 31)
    (h : (machine sendCapacity isn initialRTOMs capacity).Reaches
      (fun n op => n.Orderly op ∧ n.Sound op) n) :
    n.received <+: n.session.written ∧
      (n.receiver.isClosed = true →
        n.session.sender.input.closed = true ∧ n.received = n.session.written) ∧
      (n.session.sent = n.removed ++ n.session.sender.sendBuffer.map Prod.snd ∧
        payloads n.removed <+: n.received) ∧
      ∀ op, n.Orderly op → n.Sound op → ∃ n', n.step op = .ok n' := by
  have hc := carried hsend hcap hlt h
  refine ⟨?_, fun hclosed => ?_, hc.removed_eq, fun op hord hok => ?_⟩
  · rw [hc.received_eq]
    exact List.take_prefix _ _
  · obtain ⟨hsender, hall⟩ := hc.delivered.placed.closed hclosed
    refine ⟨hsender, ?_⟩
    rw [hc.received_eq, show n.receiver.bytesPushed = _ from hall, List.take_length]
  · obtain ⟨n', hn', -⟩ := hc.step hcap hord hok
    exact ⟨n', hn'⟩

/-- Two segments and the FIN arrive in another order than they were sent, one of them twice. -/
theorem stream_integrity_reordered : ∃ n : Net, n.session.written = [97, 98] ∧
    n.received = [97, 98] := by
  obtain ⟨n, h, hw, hclosed⟩ := Machine.exists_reaches step (.new 8 ⟨7⟩ 100 8)
    (fun n op => n.Orderly op ∧ n.Sound op)
    (fun n => n.session.written = [97, 98] ∧ n.receiver.isClosed = true)
    [.push, .deliver 0, .reply, .deliverAck 0 ⟨0⟩, .write [97], .push, .write [98], .push, .close,
      .push, .deliver 2, .deliver 3, .deliver 1, .deliver 2, .read 1, .tick 100, .reply,
      .deliverAck 1 ⟨0⟩, .deliver 4]
    (by decide +kernel) (by decide +kernel)
  have hint := stream_integrity 8 ⟨7⟩ 100 8 n (by decide) (by decide) (by decide) h
  exact ⟨n, hw, (hint.2.1 hclosed).2.trans hw⟩

/-- The second byte arrives before the first, and then the SYN again: the empty SYN is taken for the
first byte, and the second one is pushed in its place. -/
theorem pushed_out_of_place : ∃ n, (machine 8 ⟨7⟩ 100 8).Reaches Orderly n ∧
    ¬ n.received <+: n.session.written := by
  obtain ⟨n, h, hr, hw⟩ := Machine.exists_reaches step (.new 8 ⟨7⟩ 100 8) Orderly
    (fun n => n.received = [98] ∧ n.session.written = [97, 98])
    [.push, .deliver 0, .reply, .deliverAck 0 ⟨0⟩, .write [97], .push, .write [98], .push,
      .deliver 2, .deliver 0]
    (by decide +kernel) (by decide +kernel)
  refine ⟨n, h, ?_⟩
  rw [hr, hw]
  decide

end

end Net

end Minnow
