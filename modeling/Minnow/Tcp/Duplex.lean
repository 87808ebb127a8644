import Minnow.Tcp.Connection
import Minnow.Tcp.Linger

/-!
# Two peers and their applications

`Duplex` is a `Pair`, two peers over a network that may lose, delay, duplicate and reorder, and the
bytes that the two applications have read. The applications write, close and read at both ends.

One direction of it is a `Net` (`flow`): the sender of one end, the receiver of the other one, and
what both have put into their messages. A `Net` carries segments that use sequence numbers; the
empty messages of a reply are told apart by `Blank`.

`Linked` is the invariant of one direction. A step of an end keeps the direction in which it sends
(`Linked.sender`) and the one in which it receives (`Linked.receiver`).
-/

namespace Minnow

open TCPSender (Session Segmented Grows positions totalLength payloads)

/-- The segment is not taken for what it is not, also if it uses no sequence number. -/
def TCPReceiver.Benign (t : TCPReceiver) (message : TCPSenderMessage) : Prop :=
  t.Harmless message ∧ (message.sequenceLength = 0 →
    (t.takeFlags message).streamFirstSeqno message = 0 → t.bytesPushed = 0 → t.reassembler.Behind)

instance (t : TCPReceiver) (message : TCPSenderMessage) : Decidable (t.Benign message) := by
  unfold TCPReceiver.Benign
  infer_instance

/-- Two peers over a network, and the bytes that the application at each of them has read. -/
structure Duplex where
  pair : Pair
  read : Side → Bytes := fun _ => []

namespace Duplex

abbrev Op := Pair.Op

abbrev conv (d : Duplex) (x : Side) : Conversation := d.pair.conv x

abbrev peer (d : Duplex) (x : Side) : TCPPeer := (d.conv x).peer

/-- The bytes that the application gets in a step. -/
def taken (c : Conversation) : Conversation.Op → Bytes
  | .read len => c.peer.receiver.output.peek.take len
  | _ => []

def step (d : Duplex) (e : Op) : Except Fault Duplex := do
  let pair ← d.pair.step e
  return { pair, read := Function.update d.read e.side (d.read e.side ++ taken (d.conv e.side) e.op) }

def new (cfg : Side → TCPConfig) : Duplex where
  pair := .new cfg

def machine (cfg : Side → TCPConfig) : Machine Duplex Op := .det (.new cfg) step

/-- The bytes that an end has received in order. -/
def received (d : Duplex) (x : Side) : Bytes := d.read x ++ (d.peer x).receiver.output.peek

def written (d : Duplex) (x : Side) : Bytes := (d.conv x).written

/-- What is written and the receive capacity of the other end stay below `2 ^ 31`. -/
def Roomy (d : Duplex) (x : Side) : Conversation.Op → Prop
  | .write data => ((d.conv x).write data).written.length +
      (d.peer x.other).receiver.output.capacity < 2 ^ 31
  | _ => True

/-- A message is benign where an active peer gets it, and what is read of an absent ackno
acknowledges nothing. -/
def Sound (d : Duplex) (x : Side) : Conversation.Op → Prop
  | .receive stale msg => (d.peer x).active = true → (d.peer x).receiver.Benign msg.sender ∧
      (msg.receiver.ackno = none →
        (d.peer x).sender.acked ((d.peer x).sender.absAckno stale msg.receiver) = [])
  | _ => True

/-- The network delivers what was sent, and no application writes after its close. -/
def Permitted (d : Duplex) (e : Op) : Prop :=
  d.pair.Orderly e ∧ d.Roomy e.side e.op ∧ d.Sound e.side e.op

instance (d : Duplex) (x : Side) : ∀ op, Decidable (d.Roomy x op)
  | .write _ => by
    unfold Roomy
    infer_instance
  | .receive _ _ | .close | .shutdown | .push | .tick _ | .read _ => .isTrue trivial

instance (d : Duplex) (x : Side) : ∀ op, Decidable (d.Sound x op)
  | .receive _ _ => by
    unfold Sound
    infer_instance
  | .write _ | .close | .shutdown | .push | .tick _ | .read _ => .isTrue trivial

instance (d : Duplex) (e : Op) : Decidable (d.Permitted e) := by
  unfold Permitted
  infer_instance

/-- The direction from `x` to `y`. -/
def flow (d : Duplex) (x y : Side) : Net where
  session := (d.conv x).session
  receiver := (d.peer y).receiver
  read := d.read y
  segments := ((d.pair.network x).map TCPMessage.sender).filter fun m => 0 < m.sequenceLength
  acks := (d.pair.network y).map TCPMessage.receiver

end Duplex

/-! ## Messages without sequence numbers -/

namespace TCPSender

/-- An empty message of the session: its number is behind the SYN, and at most behind the FIN. -/
structure Blank (s : Session) (m : TCPSenderMessage) : Prop where
  length : m.sequenceLength = 0
  rst : m.rst = false
  seqno : ∃ k, k ≤ s.written.length + 1 ∧ m.seqno = Wrap32.wrap (k + 1) s.sender.isn

variable {s s' : Session} {m : TCPSenderMessage}

theorem Blank.fields (h : Blank s m) : m.syn = false ∧ m.payload = [] ∧ m.fin = false := by
  have hlen := h.length
  unfold TCPSenderMessage.sequenceLength at hlen
  have hpayload : m.payload = [] := List.length_eq_zero_iff.mp (by omega)
  refine ⟨?_, hpayload, ?_⟩ <;> refine Bool.eq_false_iff.mpr fun hf => ?_ <;>
    simp [hf] at hlen

theorem Blank.extend (h : Blank s m) (hg : Grows s s') : Blank s' m := by
  obtain ⟨k, hk, hseq⟩ := h.seqno
  have hle := hg.written.length_le
  exact ⟨h.length, h.rst, k, by omega, hg.isn ▸ hseq⟩

/-- What a sender makes after its SYN. -/
theorem Segmented.blank {s : TCPSender} {sent : List TCPSenderMessage} {written : Bytes}
    (h : Segmented s sent written) (hs : s.synSet = true) (he : s.input.error = false) :
    Blank ⟨s, sent, written⟩ s.makeEmptyMessage := by
  obtain ⟨m, rest, rfl⟩ := List.exists_cons_of_ne_nil (h.synSet.mp hs)
  have hpos := h.cut.length_pos m List.mem_cons_self
  have hle := h.absSeqno_le
  have habs := h.absSeqno
  rw [totalLength_cons] at habs
  have hk : s.absSeqno - 1 ≤ written.length + 1 := by omega
  refine ⟨rfl, he, s.absSeqno - 1, hk, ?_⟩
  show (if s.synSet then s.seqno else s.isn) = _
  rw [if_pos hs, h.seqno hs, Nat.sub_add_cancel (by omega)]

end TCPSender

namespace Reassembler

variable {stream read : Bytes} {complete : Bool} {r : Reassembler} {firstIndex : Nat}

/-- The empty substring brings nothing, also behind the end of the stream. -/
theorem Placed.insert_blank (h : Placed stream complete r read)
    (hi : firstIndex ≤ stream.length + 1) (hroom : stream.length + r.output.capacity < 2 ^ 31)
    (hcap : 1 ≤ r.output.capacity) (hb : firstIndex = 0 → r.bytesPushed = 0 → r.Behind) :
    ∃ r', r.insert firstIndex [] false = .ok r' ∧ Placed stream complete r' read ∧
      r'.output.capacity = r.output.capacity ∧ r'.output.error = r.output.error ∧
      r.bytesPushed ≤ r'.bytesPushed ∧ (r.output.closed = true → r'.output.closed = true) := by
  by_cases hle : firstIndex ≤ stream.length
  · exact h.insert_ok ⟨fun _ _ hk => by simp at hk, hle, fun hl => Bool.noConfusion hl⟩ hroom hcap
      fun h0 _ => hb h0
  · -- one behind the end: nothing arrives there
    have hwin := h.windowEnd_le
    have hpos : 1 ≤ r.windowEnd := Nat.le_trans hcap (Nat.le_add_left _ _)
    obtain ⟨d, r', hr', hins⟩ := insert_spec false h.inv hpos (by omega) (by simp)
      (fun hph => by have := hph.1; omega)
      (fun _ => endExact_of_le h.inv hpos (by omega)
        (show firstIndex + ([] : Bytes).length ≤ 2 ^ 31 by simp only [List.length_nil]; omega))
    have harr : ∀ p b, r.Arrived firstIndex [] p b → stream[p]? = some b := by
      rintro p b (hb | ⟨-, -, -, hb⟩)
      · exact h.stored p b hb
      · simp at hb
    obtain ⟨happ, hle'⟩ := h.append fun i b hb => harr _ b (hins.bytes i b hb)
    have hpushed : r'.bytesPushed = r.bytesPushed + d.length := hins.pushed
    have hfin : r'.finish = r.finish := by simp [hins.finish]
    have hset : r'.finishSet = r.finishSet := by simp [hins.finishSet]
    refine ⟨r', hr', ⟨hins.inv, fun p b hb => harr p b ((hins.stored p b).mp hb).1, ?_, by omega,
      fun hf => hset ▸ h.finish (hfin ▸ hf), fun hc => ?_⟩, hins.capacity, hins.error,
      (insert_kept hr').1.pushed_le, (insert_kept hr').1.closed⟩
    · rw [hins.peek, hpushed, ← List.append_assoc, happ]
    · rw [hins.closed, Bool.or_eq_true] at hc
      rcases hc with hc | hc
      · obtain ⟨hcomplete, hall⟩ := h.closed hc
        exact ⟨hcomplete, by omega⟩
      · simp only [Bool.and_eq_true, decide_eq_true_eq] at hc
        obtain ⟨⟨⟨-, hf⟩, -⟩, hge⟩ := hc
        obtain ⟨hcomplete, hstop⟩ := h.finish (hfin ▸ hf)
        exact ⟨hcomplete, by omega⟩

end Reassembler

namespace TCPReceiver

open TCPSender (Blank)

section

variable {capacity : Nat} {s : Session} {t : TCPReceiver} {popped : Bytes}
  {message : TCPSenderMessage}

/-- An empty message before the SYN is ignored. -/
theorem ignorable_of_blank (h : Blank s message) : Ignorable capacity message :=
  ⟨.inl h.fields.2.1, fun hf => absurd (h.fields.2.2.symm.trans hf) Bool.noConfusion⟩

/-- What a receiver that has the SYN takes an empty message for. -/
theorem Delivered.blank_index (h : Delivered capacity s t popped)
    (hroom : s.written.length + capacity < 2 ^ 31) (hcap : 1 ≤ capacity) (hm : Blank s message)
    (hset : t.synSet = true) : t.takeFlags message = t ∧
      t.streamFirstSeqno message ≤ s.written.length + 1 := by
  obtain ⟨hsyn, -, hfin⟩ := hm.fields
  obtain ⟨-, hinit, -⟩ := h.after hset
  obtain ⟨k, hk, hseq⟩ := hm.seqno
  have htake : t.takeFlags message = t := by
    unfold takeFlags
    simp [hsyn, hfin]
  have hstream : t.streamSeqno = t.bytesPushed := h.streamSeqno
  have hpushed : t.bytesPushed ≤ s.written.length := h.placed.pushed_le
  have hback : (Wrap32.wrap (k + 1) s.sender.isn).add (2 ^ 32 - 1) =
      Wrap32.wrap k s.sender.isn := by
    rw [Wrap32.wrap_add]
    exact Wrap32.wrap_inj.mpr (by omega)
  refine ⟨htake, ?_⟩
  unfold streamFirstSeqno
  dsimp only
  rw [hset, hstream, hsyn, if_neg Bool.false_ne_true, if_pos rfl, hinit, hseq, hback,
    Wrap32.unwrap_wrap _ (by omega) (by omega) (by omega) (by omega)]
  exact hk

/-- An empty message leaves the receiver in order. -/
theorem Delivered.receive_blank (h : Delivered capacity s t popped)
    (hroom : s.written.length + capacity < 2 ^ 31) (hcap : 1 ≤ capacity) (hm : Blank s message)
    (hok : t.Benign message) :
    ∃ t', t.receive message = .ok t' ∧ Delivered capacity s t' popped ∧
      t.bytesPushed ≤ t'.bytesPushed ∧ (t.isClosed = true → t'.isClosed = true) := by
  obtain ⟨hsyn, hpayload, hfin⟩ := hm.fields
  cases hset : t.synSet with
  | false =>
    obtain ⟨a, rfl⟩ := h.before hset
    have hlt : capacity < 2 ^ 64 := by omega
    obtain ⟨a', ha'⟩ := receive_ignorable hlt hsyn hm.rst (ignorable_of_blank hm) a
    refine ⟨_, ha', ⟨h.placed, h.outputCapacity, h.noError, fun _ => ⟨a', rfl⟩,
      fun hs => Bool.noConfusion hs, h.streamSeqno⟩, Nat.le_refl _, id⟩
  | true =>
    obtain ⟨hne, hinit, -⟩ := h.after hset
    obtain ⟨htake, hk⟩ := h.blank_index hroom hcap hm hset
    have hcapacity : t.reassembler.output.capacity = capacity := h.outputCapacity
    have hbehind := hok.2 hm.length
    rw [htake] at hbehind
    obtain ⟨r', hr', hplaced, hcap', herr', hle, hclosed⟩ := h.placed.insert_blank hk
      (hcapacity ▸ hroom) (hcapacity ▸ hcap) hbehind
    have hreceive : t.receive message = .ok { t with reassembler := r' }.acknowledge := by
      have hcond : (message.rst || t.output.hasError) = false := by
        rw [hm.rst, h.noError, Bool.or_self]
      unfold TCPReceiver.receive
      rw [hcond, if_neg Bool.false_ne_true]
      dsimp only
      rw [htake, hpayload, hfin]
      show (t.reassembler.insert (t.streamFirstSeqno message) [] false >>= _) = _
      rw [hr']
      rfl
    have hack := acknowledge_ackno { t with reassembler := r' } hset
    refine ⟨_, hreceive, ⟨hplaced, hcap'.trans h.outputCapacity, herr'.trans h.noError,
      fun hs => ?_, fun _ => ⟨hne, hinit, hinit ▸ hack⟩, rfl⟩, hle, hclosed⟩
    exact absurd (hset.symm.trans hs) Bool.noConfusion

end

end TCPReceiver

namespace Net

variable {capacity : Nat} {n : Net}

/-- What is sent uses sequence numbers. -/
theorem Carried.length_pos {m : TCPSenderMessage} (h : Carried capacity n)
    (hm : m ∈ n.segments) : 0 < m.sequenceLength :=
  (show Segmented n.session.sender n.session.sent n.session.written from h.good).cut.length_pos m
    (h.segments m hm)

/-- The receiver reports, any number of times. -/
theorem Carried.reports {l : List TCPReceiverMessage} (h : Carried capacity n) (hcap : 1 ≤ capacity)
    (hl : ∀ msg ∈ l, msg = n.receiver.send) : Carried capacity { n with acks := n.acks ++ l } := by
  have hroom := h.room
  refine { h with acks := fun msg hmsg => ?_ }
  rcases List.mem_append.mp hmsg with hmsg | hmsg
  · exact h.acks msg hmsg
  · rw [hl msg hmsg]
    exact h.delivered.send hcap (by omega)

end Net

namespace Duplex

open TCPSender (Blank)

/-- The direction from `x` to `y` is in order, and the messages without sequence numbers are the
empty ones. -/
structure Linked (capacity : Nat) (d : Duplex) (x y : Side) : Prop where
  carried : Net.Carried capacity (d.flow x y)
  blank : ∀ msg ∈ d.pair.network x, msg.sender.sequenceLength = 0 →
    Blank (d.conv x).session msg.sender

/-- The end `x` goes on and sends `out`, its application gets `bytes`, and the other end rests. -/
structure Moves (d d' : Duplex) (x : Side) (c : Conversation) (bytes : Bytes)
    (out : List TCPMessage) : Prop where
  conv : d'.conv x = c
  other : d'.conv x.other = d.conv x.other
  network : d'.pair.network x = d.pair.network x ++ out
  otherNetwork : d'.pair.network x.other = d.pair.network x.other
  read : d'.read x = d.read x ++ bytes
  otherRead : d'.read x.other = d.read x.other

section

variable {capacity : Nat} {d d' : Duplex} {x : Side} {e : Op} {c : Conversation} {bytes : Bytes}
  {out : List TCPMessage} {segments : List TCPSenderMessage}

theorem step_moves (h : (d.conv e.side).step e.op = .ok (c, out)) :
    ∃ d', d.step e = .ok d' ∧ Moves d d' e.side c (taken (d.conv e.side) e.op) out := by
  refine ⟨⟨{
    conv := Function.update d.pair.conv e.side c
    network := Function.update d.pair.network e.side (d.pair.network e.side ++ out) },
    Function.update d.read e.side (d.read e.side ++ taken (d.conv e.side) e.op)⟩, ?_, ?_⟩
  · unfold step Pair.step
    rw [h]
    rfl
  · have hne := e.side.other_ne
    exact ⟨Function.update_self .., Function.update_of_ne hne .., Function.update_self ..,
      Function.update_of_ne hne .., Function.update_self .., Function.update_of_ne hne ..⟩

/-- A step moves the end that takes it. -/
theorem moves_of_step (h : d.step e = .ok d') : ∃ c out,
    (d.conv e.side).step e.op = .ok (c, out) ∧
      Moves d d' e.side c (taken (d.conv e.side) e.op) out := by
  obtain ⟨pair, hpair, -⟩ := bind_ok h
  obtain ⟨⟨c, out⟩, hc, -⟩ := bind_ok hpair
  obtain ⟨d'', hd', hm⟩ := step_moves hc
  obtain rfl : d' = d'' := Except.ok.inj (h.symm.trans hd')
  exact ⟨c, out, hc, hm⟩

/-- The direction in which the end sends. -/
theorem Moves.flow (h : Moves d d' x c bytes out) :
    d'.flow x x.other = { d.flow x x.other with
      session := c.session
      segments := (d.flow x x.other).segments ++
        (out.map TCPMessage.sender).filter fun m => 0 < m.sequenceLength } := by
  unfold Duplex.flow Duplex.peer
  rw [h.conv, h.other, h.network, h.otherNetwork, h.otherRead, List.map_append,
    List.filter_append]

/-- The direction in which the end receives. -/
theorem Moves.back (h : Moves d d' x c bytes out) :
    d'.flow x.other x = { d.flow x.other x with
      receiver := c.peer.receiver
      read := d.read x ++ bytes
      acks := (d.flow x.other x).acks ++ out.map TCPMessage.receiver } := by
  unfold Duplex.flow Duplex.peer
  rw [h.conv, h.other, h.network, h.otherNetwork, h.read, List.map_append]

/-- The segments among the messages that carry segments. -/
theorem filter_segments (report : TCPReceiverMessage)
    (h : ∀ m ∈ segments, 0 < m.sequenceLength) :
    ((segments.map fun m => TCPMessage.mk m report).map TCPMessage.sender).filter
      (fun m => 0 < m.sequenceLength) = segments := by
  rw [List.map_map, show TCPMessage.sender ∘ (fun m => TCPMessage.mk m report) = id from rfl,
    List.map_id]
  exact List.filter_eq_self.mpr fun m hm => decide_eq_true (h m hm)

/-- The sender goes on. -/
theorem Linked.sender (h : Linked capacity d x x.other) (segments : List TCPSenderMessage)
    (hm : Moves d d' x c bytes out)
    (hsegments : (out.map TCPMessage.sender).filter (fun m => 0 < m.sequenceLength) = segments)
    (hcarried : Net.Carried capacity { d.flow x x.other with
      session := c.session, segments := (d.flow x x.other).segments ++ segments })
    (hgrows : Grows (d.conv x).session c.session)
    (hblank : ∀ msg ∈ out, msg.sender.sequenceLength = 0 → Blank c.session msg.sender) :
    Linked capacity d' x x.other := by
  refine ⟨?_, fun msg hmsg hlen => ?_⟩
  · rw [hm.flow, hsegments]
    exact hcarried
  · rw [hm.network] at hmsg
    rw [hm.conv]
    rcases List.mem_append.mp hmsg with hmsg | hmsg
    · exact (h.blank msg hmsg hlen).extend hgrows
    · exact hblank msg hmsg hlen

/-- The receiver goes on, and all that the end sends reports it. -/
theorem Linked.receiver (h : Linked capacity d x.other x) (hcap : 1 ≤ capacity)
    (hm : Moves d d' x c bytes out)
    (hcarried : Net.Carried capacity { d.flow x.other x with
      receiver := c.peer.receiver, read := d.read x ++ bytes })
    (hreports : ∀ msg ∈ out, msg.receiver = c.peer.receiver.send) :
    Linked capacity d' x.other x := by
  refine ⟨?_, ?_⟩
  · rw [hm.back]
    refine hcarried.reports hcap fun msg hmsg => ?_
    obtain ⟨m, hm, rfl⟩ := List.mem_map.mp hmsg
    exact hreports m hm
  · rw [hm.otherNetwork, hm.other]
    exact h.blank

/-- The end does what keeps its sender in order and leaves its receiver as it is. -/
theorem Linked.quiet {back : Nat} (hf : Linked capacity d x x.other)
    (segments : List TCPSenderMessage) (hb : Linked back d x.other x) (hback : 1 ≤ back)
    (hm : Moves d d' x c [] (segments.map fun m => ⟨m, (d.peer x).receiver.send⟩))
    (hreceiver : c.peer.receiver = (d.peer x).receiver)
    (hcarried : Net.Carried capacity { d.flow x x.other with
      session := c.session, segments := (d.flow x x.other).segments ++ segments })
    (hgrows : Grows (d.conv x).session c.session) :
    Linked capacity d' x x.other ∧ Linked back d' x.other x := by
  have hpos : ∀ m ∈ segments, 0 < m.sequenceLength := fun m hm =>
    hcarried.length_pos (List.mem_append_right _ hm)
  refine ⟨hf.sender _ hm (filter_segments _ hpos) hcarried hgrows fun msg hmsg hlen => ?_,
    hb.receiver hback hm ?_ fun msg hmsg => ?_⟩
  · obtain ⟨m, hm, rfl⟩ := List.mem_map.mp hmsg
    exact absurd hlen (Nat.ne_of_gt (hpos m hm))
  · rw [hreceiver, List.append_nil]
    exact hb.carried
  · obtain ⟨m, hm, rfl⟩ := List.mem_map.mp hmsg
    exact (congrArg TCPReceiver.send hreceiver).symm

/-- The conversation after its peer has processed a message. -/
def heard (c : Conversation) (stale : Wrap32) (msg : TCPMessage) (p' : TCPPeer) : Conversation :=
  { c with
    peer := p'
    sent := c.sent ++ c.peer.newSegments stale msg
    acknos := c.acknos ++ [c.peer.sender.absAckno stale msg.receiver] }

/-- What an end makes of a message of the other one. -/
theorem Linked.receive {back : Nat} {stale : Wrap32} {msg : TCPMessage}
    (hf : Linked capacity d x x.other) (hb : Linked back d x.other x) (hcap : 1 ≤ capacity)
    (hback : 1 ≤ back) (hsent : msg ∈ d.pair.network x.other) (ha : (d.peer x).active = true)
    (hbenign : (d.peer x).receiver.Benign msg.sender) (hack : msg.receiver.ackno = none →
      (d.peer x).sender.acked ((d.peer x).sender.absAckno stale msg.receiver) = []) :
    ∃ c out, (d.conv x).step (.receive stale msg) = .ok (c, out) ∧
      ∀ d', Moves d d' x c [] out → Linked capacity d' x x.other ∧ Linked back d' x.other x := by
  -- the receiver takes the segment
  obtain ⟨t', ht', hreceiver⟩ : ∃ t', (d.peer x).receiver.receive msg.sender = .ok t' ∧
      Net.Carried back { d.flow x.other x with receiver := t' } := by
    by_cases hlen : msg.sender.sequenceLength = 0
    · obtain ⟨t', ht', hd, hle, hclosed⟩ := hb.carried.delivered.receive_blank hb.carried.room
        hback (hb.blank msg hsent hlen) hbenign
      exact ⟨t', ht', hb.carried.receiver hd hle hclosed⟩
    · have hmem : msg.sender ∈ (d.flow x.other x).segments := List.mem_filter.mpr
        ⟨List.mem_map_of_mem hsent, decide_eq_true (Nat.pos_of_ne_zero hlen)⟩
      exact hb.carried.deliver hback hmem hbenign.1
  -- the sender takes the ackno, and pushes
  have htaken := hf.carried.deliverAck hcap (List.mem_map_of_mem hsent) stale hack
  have hpushed := htaken.push
  obtain ⟨p', out, hp⟩ : ∃ p' out, (d.peer x).receive stale msg = .ok (p', out) :=
    TCPPeer.receive_ok ha ht'
  have hstep : (d.conv x).step (.receive stale msg) =
      .ok (heard (d.conv x) stale msg p', out) := by
    show (d.conv x).receive stale msg = _
    unfold Conversation.receive
    rw [hp, ok_bind]
    exact if_pos ha
  rcases TCPPeer.receive_cases hp with ⟨hna, -⟩ | ⟨-, hans⟩
  · exact absurd (ha.symm.trans hna) Bool.noConfusion
  obtain rfl := Except.ok.inj (ht'.symm.trans hans.receiver)
  have hheard : Net.Carried capacity { d.flow x x.other with
      session := (heard (d.conv x) stale msg p').session
      segments := (d.flow x x.other).segments ++ (d.peer x).newSegments stale msg } := by
    rw [heard, Conversation.session_receive hans]
    exact hpushed
  have hgrows : Grows (d.conv x).session (heard (d.conv x) stale msg p').session := by
    rw [heard, Conversation.session_receive hans]
    exact (@Session.grows _ (.receive stale msg.receiver) hf.carried.good trivial).trans
      (@Session.grows _ .push htaken.good trivial)
  have hpos : ∀ m ∈ (d.peer x).newSegments stale msg, 0 < m.sequenceLength := fun m hm =>
    hheard.length_pos (List.mem_append_right _ hm)
  have hblank : Blank (heard (d.conv x) stale msg p').session p'.sender.makeEmptyMessage := by
    refine Segmented.blank hheard.good ?_ hheard.noError
    show p'.sender.synSet = true
    rw [hans.sender]
    exact (TCPSender.push_extended (show Segmented _ _ _ from htaken.good).input).2
  have hsenders : out.map TCPMessage.sender = (d.peer x).newSegments stale msg ++
      if (d.peer x).wantsReply msg.sender && ((d.peer x).newSegments stale msg).isEmpty then
        [p'.sender.makeEmptyMessage] else [] := by
    rw [hans.out, List.map_map]
    exact List.map_id _
  refine ⟨_, _, hstep, fun d' hm => ⟨hf.sender _ hm ?_ hheard hgrows fun m hm hlen => ?_,
    hb.receiver hback hm ?_ fun m hm => ?_⟩⟩
  · rw [hsenders, List.filter_append,
      List.filter_eq_self.mpr fun m hm => decide_eq_true (hpos m hm)]
    split <;> simp [hblank.length]
  · have hm : m.sender ∈ out.map TCPMessage.sender := List.mem_map_of_mem hm
    rw [hsenders] at hm
    rcases List.mem_append.mp hm with hm | hm
    · exact absurd hlen (Nat.ne_of_gt (hpos _ hm))
    · split at hm
      · rw [List.mem_singleton.mp hm]
        exact hblank
      · exact absurd hm List.not_mem_nil
  · rw [List.append_nil]
    exact hreceiver
  · rw [hans.out] at hm
    obtain ⟨segment, -, rfl⟩ := List.mem_map.mp hm
    rfl

/-- A permitted step of an end returns and keeps both directions in order. -/
theorem Linked.step {back : Nat} {op : Conversation.Op} (hf : Linked capacity d x x.other)
    (hb : Linked back d x.other x) (hcap : 1 ≤ capacity) (hback : 1 ≤ back)
    (hok : d.Permitted ⟨x, op⟩) :
    ∃ d', d.step ⟨x, op⟩ = .ok d' ∧ Linked capacity d' x x.other ∧ Linked back d' x.other x := by
  obtain ⟨⟨hord, hsent⟩, hroomy, hsound⟩ := hok
  have hgood : (d.conv x).session.Good := hf.carried.good
  suffices h : ∃ c out, (d.conv x).step op = .ok (c, out) ∧
      ∀ d', Moves d d' x c (taken (d.conv x) op) out →
        Linked capacity d' x x.other ∧ Linked back d' x.other x by
    obtain ⟨c, out, hst, hnext⟩ := h
    obtain ⟨d', hd', hm⟩ := step_moves (e := ⟨x, op⟩) hst
    exact ⟨d', hd', hnext d' hm⟩
  have hclose : Net.Carried capacity { d.flow x x.other with
      session := (d.conv x).close.session } := by
    have hord : (d.flow x x.other).Orderly .close := trivial
    obtain ⟨n', hn', hc⟩ := hf.carried.step hcap hord trivial
    obtain rfl := Except.ok.inj hn'
    exact hc
  cases op with
  | write data =>
    have hwrite : (d.flow x x.other).Orderly (.write data) := ⟨hord, hroomy⟩
    obtain ⟨n', hn', hc⟩ := hf.carried.step hcap hwrite trivial
    obtain rfl := Except.ok.inj hn'
    refine ⟨_, _, rfl, fun d' hm => hf.quiet [] hb hback hm rfl ?_
      (@Session.grows _ (.write data) hgood hord)⟩
    rw [List.append_nil]
    exact hc
  | close =>
    refine ⟨_, _, rfl, fun d' hm => hf.quiet [] hb hback hm rfl ?_
      (@Session.grows _ .close hgood trivial)⟩
    rw [List.append_nil]
    exact hclose
  | shutdown =>
    have hgrows := @Session.grows _ .close hgood trivial
    exact ⟨_, _, rfl, fun d' hm => hf.quiet _ hb hback hm rfl hclose.push
      (hgrows.trans (@Session.grows _ .push hclose.good trivial))⟩
  | push =>
    exact ⟨_, _, rfl, fun d' hm => hf.quiet _ hb hback hm rfl hf.carried.push
      (@Session.grows _ .push hgood trivial)⟩
  | tick ms =>
    exact ⟨_, _, rfl, fun d' hm => hf.quiet _ hb hback hm rfl (hf.carried.tick ms)
      (@Session.grows _ (.tick ms) hgood trivial)⟩
  | read len =>
    have hread : (d.flow x.other x).Orderly (.read len) := trivial
    obtain ⟨n', hn', hc⟩ := hb.carried.step hback hread trivial
    obtain rfl := Except.ok.inj hn'
    refine ⟨_, _, rfl, fun d' hm => ⟨hf.sender [] hm rfl ?_ (.refl _) (by simp),
      hb.receiver hback hm hc (by simp)⟩⟩
    rw [List.append_nil]
    exact hf.carried
  | receive stale msg =>
    cases ha : (d.peer x).active with
    | true => exact hf.receive hb hcap hback hsent ha (hsound ha).1 (hsound ha).2
    | false =>
      -- the peer ignores it
      have hstep : (d.conv x).step (.receive stale msg) = .ok (d.conv x, []) := by
        show (d.conv x).receive stale msg = _
        unfold Conversation.receive TCPPeer.receive
        simp only [ha]
        rfl
      refine ⟨_, _, hstep, fun d' hm => hf.quiet [] hb hback hm rfl ?_ (.refl _)⟩
      rw [List.append_nil]
      exact hf.carried

end

end Duplex

end Minnow
