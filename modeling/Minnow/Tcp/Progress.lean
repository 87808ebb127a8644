import Minnow.Tcp.Serving

/-!
# No deadlock

Whatever a bad network has done to two peers with receive buffers below `2 ^ 15`, what their
applications have written can still arrive (`never_stuck`): there is a run in which nothing is
written any more, no clock ticks, and the peers only push, read and get messages that were sent,
and it ends with both streams delivered, and closed if they were closed at the other end.

The run is found with the progress rule. One considers a state from which no such run leaves less to
do (`Stuck`). No peer in it sends anything new. The receivers can catch up with what was sent
(`Stuck.catchUp`); each of them then acknowledges all of it, so nothing is outstanding and, the
window being open, nothing is left to send.

Larger buffers can stall: the window is a sum of two of them at most, and it has 16 bits.
-/

namespace Minnow

open TCPSender (Session Segmented payloads)

namespace Duplex

open TCPReceiver (CaughtUp)

/-! ## States from which nothing is done any more -/

/-- No run of serving steps completes, or leaves less to do. -/
structure Stuck (cfg : Side → TCPConfig) (d : Duplex) : Prop where
  reaches : (machine cfg).Reaches Permitted d
  halts : ∀ d', (machine cfg).Runs Serving d d' → ¬Complete d' ∧ d.left ≤ d'.left

/-- The other end rests, and this one sends nothing new. -/
structure Rests (d d' : Duplex) (x : Side) : Prop where
  other : d'.conv x.other = d.conv x.other
  sent : (d'.conv x).sent = (d.conv x).sent

/-- The end has taken and read all that the other one has sent. -/
structure Ready (d : Duplex) (x : Side) : Prop where
  caughtUp : CaughtUp (d.conv x.other).session (d.peer x).receiver
  read : (d.peer x).receiver.output.peek = []

/-- The bytes and the SYN that the end has not taken yet. -/
def behind (x : Side) (d : Duplex) : Nat :=
  (!(d.peer x).receiver.synSet).toNat +
    ((payloads (d.conv x.other).sent).length - (d.peer x).receiver.bytesPushed)

section

variable {cfg : Side → TCPConfig} {d d' : Duplex} {x : Side} {op : Conversation.Op}
  {msg : TCPMessage} (hfits : ∀ x, Fits (cfg x))

include hfits

theorem Stuck.runs (h : Stuck cfg d) (hr : (machine cfg).Runs Serving d d') : Stuck cfg d' := by
  obtain ⟨hreach, hkept⟩ := serves_runs hfits h.reaches hr
  refine ⟨hreach, fun d'' hr' => ?_⟩
  obtain ⟨hno, hle⟩ := h.halts d'' (hr.trans hr')
  exact ⟨hno, hkept.left_le.trans hle⟩

/-- A step settles nothing. -/
theorem Stuck.idles {e : Op} (h : Stuck cfg d) (hok : d.Serving e) (hst : d.step e = .ok d') :
    Stuck cfg d' ∧ Conversation.Idles (d.conv e.side) (d'.conv e.side) := by
  obtain ⟨hkept, hidle⟩ := serves_step hfits h.reaches hok hst
  have hrun : (machine cfg).Runs Serving d d' := .single hok hst
  exact ⟨h.runs hfits hrun, hidle (Nat.le_antisymm hkept.left_le (h.halts d' hrun).2)⟩

theorem Stuck.step (h : Stuck cfg d) (hok : d.Permitted ⟨x, op⟩) (hs : Conversation.Serves op) :
    ∃ d' c out, (d.conv x).step op = .ok (c, out) ∧ Moves d d' x c (taken (d.conv x) op) out ∧
      (machine cfg).Runs (ServingAt x) d d' ∧ Conversation.Idles (d.conv x) c := by
  obtain ⟨d', hd', -⟩ := (linked hfits h.reaches).step hfits hok
  obtain ⟨c, out, hc, hm⟩ := moves_of_step hd'
  have hm : Moves d d' x c (taken (d.conv x) op) out := hm
  have hidle : Conversation.Idles (d.conv x) (d'.conv x) := (h.idles hfits ⟨hok, hs⟩ hd').2
  rw [hm.conv] at hidle
  exact ⟨d', c, out, hc, hm, .single ⟨hok, hs, rfl⟩ hd', hidle⟩

theorem Stuck.rests (h : Stuck cfg d) (hr : (machine cfg).Runs (ServingAt x) d d') :
    Stuck cfg d' ∧ Rests d d' x := by
  induction hr with
  | refl => exact ⟨h, rfl, rfl⟩
  | @tail t u e _ hok hst ih =>
    obtain ⟨x', op⟩ := e
    obtain ⟨hok, hs, rfl⟩ := hok
    obtain ⟨ht, hrests⟩ := ih
    obtain ⟨hu, hidle⟩ := ht.idles hfits ⟨hok, hs⟩ hst
    obtain ⟨c, out, -, hm⟩ := moves_of_step hst
    exact ⟨hu, hm.other.trans hrests.other, hidle.sent.trans hrests.sent⟩

/-- The backlog of the end that receives. -/
theorem backlog_of_other (h : (machine cfg).Reaches Permitted d) (x : Side) :
    Backlog d x.other x := by
  have := backlog hfits h x.other
  rwa [Side.other_other] at this

/-- Behind the SYN, with all of it pushed and read. -/
theorem ready_of_pushed (h : (machine cfg).Reaches Permitted d)
    (hset : (d.peer x).receiver.synSet = true)
    (hall : (d.peer x).receiver.bytesPushed = (payloads (d.conv x.other).sent).length)
    (hread : (d.peer x).receiver.output.peek = []) : Ready d x where
  caughtUp := ⟨hset, (backlog_of_other hfits h x).endsBy, hall, (causal hfits h).ends x⟩
  read := hread

/-- A stream that is over is all pushed. -/
theorem ready_of_closed (h : (machine cfg).Reaches Permitted d)
    (hclosed : (d.peer x).receiver.isClosed = true)
    (hread : (d.peer x).receiver.output.peek = []) : Ready d x := by
  have hback := (linked hfits h).back x
  have hdelivered := hback.carried.delivered
  have hseg : Segmented (d.peer x.other).sender (d.conv x.other).sent (d.conv x.other).written :=
    hback.carried.good
  have hset : (d.peer x).receiver.synSet = true := by
    by_contra hno
    obtain ⟨a, ha⟩ := hdelivered.before (Bool.eq_false_of_not_eq_true hno)
    have hnew : (d.peer x).receiver = { TCPReceiver.new (cfg x).recvCapacity with ackno := a } := ha
    rw [hnew] at hclosed
    cases hclosed
  refine ready_of_pushed hfits h hset (Nat.le_antisymm (backlog_of_other hfits h x).pushed ?_) hread
  have hwritten := congrArg List.length hseg.bytes
  rw [List.length_append] at hwritten
  have hall : (d.peer x).receiver.bytesPushed = (d.conv x.other).written.length :=
    (hdelivered.placed.closed hclosed).2
  omega

omit hfits in
theorem behind_heard {stale : Wrap32} {p' : TCPPeer} {out : List TCPMessage}
    (hm : Moves d d' x (heard (d.conv x) stale msg p') [] out) :
    d'.behind x = (!p'.receiver.synSet).toNat +
      ((payloads (d.conv x.other).sent).length - p'.receiver.bytesPushed) := by
  unfold Duplex.behind Duplex.peer
  rw [hm.conv, hm.other]
  rfl

/-- The application reads all there is. -/
theorem Stuck.readAll (h : Stuck cfg d) (x : Side) : ∃ d',
    (machine cfg).Runs (ServingAt x) d d' ∧ (d'.peer x).receiver.output.peek = [] ∧
      d'.behind x = d.behind x := by
  have hok : d.Permitted ⟨x, .read (d.peer x).receiver.output.peek.length⟩ :=
    ⟨⟨trivial, trivial⟩, trivial, trivial⟩
  obtain ⟨d', c, out, hc, hm, hrun, -⟩ := h.step hfits hok trivial
  obtain ⟨rfl, rfl⟩ := pair_ok hc
  have hback := (linked hfits h.reaches).back x
  have hinv := hback.carried.delivered.placed.inv
  refine ⟨d', hrun, ?_, ?_⟩
  · unfold Duplex.peer
    rw [hm.conv]
    have hpop : ((d.peer x).receiver.output.pop (d.peer x).receiver.output.peek.length).peek =
        (d.peer x).receiver.output.peek.drop (d.peer x).receiver.output.peek.length :=
      ByteStream.pop_peek hinv.output _
    exact hpop.trans List.drop_length
  · unfold Duplex.behind Duplex.peer
    rw [hm.conv, hm.other]
    rfl

section

variable (hsmall : ∀ x, (cfg x).recvCapacity < 2 ^ 15)

include hsmall

/-- With nothing outstanding there is nothing left to send. -/
theorem Stuck.no_work (h : Stuck cfg d) (hbuf : (d.peer x).sender.sendBuffer = []) :
    (d.peer x).sender.hasWork = false := by
  have hflowing := (narrow hfits h.reaches x).credited.flowing (hsmall x.other)
  by_contra hwork
  have hok : d.Permitted ⟨x, .push⟩ := ⟨⟨trivial, trivial⟩, trivial, trivial⟩
  obtain ⟨d', c, out, hc, -, -, hidle⟩ := h.step hfits hok trivial
  obtain ⟨rfl, -⟩ := pair_ok hc
  have hsent : (d.conv x).sent ++ (d.peer x).sender.push.2 = (d.conv x).sent := hidle.sent
  exact (hflowing.transmits hbuf).2 (Bool.eq_true_of_not_eq_false hwork)
    (List.append_right_eq_self.mp hsent)

/-- Both ends have sent their SYN. -/
theorem Stuck.sent_ne (h : Stuck cfg d) (x : Side) : (d.conv x).sent ≠ [] := by
  have hseg : Segmented (d.peer x).sender (d.conv x).sent (d.conv x).written :=
    (linked hfits h.reaches x).carried.good
  intro hnil
  have hbuf : (d.peer x).sender.sendBuffer = [] := by
    have hbuffer := hseg.buffer
    rw [hnil] at hbuffer
    exact List.suffix_nil.mp hbuffer
  have hwork := h.no_work hfits hsmall hbuf
  unfold TCPSender.hasWork at hwork
  have hset : (d.peer x).sender.synSet = false :=
    Bool.eq_false_iff.mpr fun hs => hseg.synSet.mp hs hnil
  rw [hset] at hwork
  cases hwork

/-- An active end gets a message that was sent. -/
theorem Stuck.hear (h : Stuck cfg d) (ha : (d.peer x).active = true)
    (hmem : msg ∈ d.pair.network x.other) (hok : (d.peer x).receiver.Benign msg.sender) :
    ∃ d' stale p' out, (d.peer x).Answered stale msg p' out ∧
      Moves d d' x (heard (d.conv x) stale msg p') [] out ∧
      (machine cfg).Runs (ServingAt x) d d' ∧
      Conversation.Idles (d.conv x) (heard (d.conv x) stale msg p') := by
  have hcarried := (linked hfits h.reaches x).carried
  have hseg : Segmented (d.peer x).sender (d.conv x).sent (d.conv x).written := hcarried.good
  have htotal := (narrow hfits h.reaches x).credited.inFlight_le
  have hother := hsmall x.other
  have hroom : (d.conv x).written.length + (cfg x.other).recvCapacity < 2 ^ 31 := hcarried.room
  have habs := hseg.absSeqno_le
  have hflight : (d.peer x).sender.sequenceNumbersInFlight < 2 ^ 31 := by
    have hle : (d.peer x).sender.receiveWindow.toNat + (d.peer x).sender.sequenceNumbersInFlight ≤
      (cfg x.other).recvCapacity + (cfg x.other).recvCapacity := htotal
    omega
  obtain ⟨stale, hstale⟩ := hseg.exists_stale (by omega) hflight
  have hpermitted : d.Permitted ⟨x, .receive stale msg⟩ :=
    ⟨⟨trivial, hmem⟩, trivial, fun _ => ⟨hok, hstale msg.receiver⟩⟩
  obtain ⟨d', c, out, hc, hm, hrun, hidle⟩ := h.step hfits hpermitted trivial
  rcases Conversation.receive_cases hc with ⟨hno, -⟩ | ⟨-, p', hans, rfl⟩
  · rw [show (d.conv x).peer.active = true from ha] at hno
    cases hno
  · exact ⟨d', stale, p', out, hans, hm, hrun, hidle⟩

/-- An active end gets a segment of the other one. -/
theorem Stuck.hearSegment {m : TCPSenderMessage} (h : Stuck cfg d) (ha : (d.peer x).active = true)
    (hmem : m ∈ (d.conv x.other).sent) (hok : (d.peer x).receiver.Benign m) :
    ∃ d' stale msg p' out, (d.peer x).Answered stale msg p' out ∧ msg.sender = m ∧
      Moves d d' x (heard (d.conv x) stale msg p') [] out ∧
      (machine cfg).Runs (ServingAt x) d d' ∧
      Conversation.Idles (d.conv x) (heard (d.conv x) stale msg p') := by
  obtain ⟨msg, hmsg, rfl⟩ := (backlog_of_other hfits h.reaches x).sent m hmem
  obtain ⟨d', stale, p', out, hheard⟩ := h.hear hfits hsmall ha hmsg hok
  exact ⟨d', stale, msg, p', out, hheard.1, rfl, hheard.2⟩

/-- An end that has read everything and is not ready gets on. -/
theorem Stuck.advance (h : Stuck cfg d) (hread : (d.peer x).receiver.output.peek = [])
    (hno : ¬Ready d x) : ∃ d', (machine cfg).Runs (ServingAt x) d d' ∧
      d'.behind x < d.behind x := by
  have hcarried := ((linked hfits h.reaches).back x).carried
  have hdelivered := hcarried.delivered
  have hpushed := (backlog_of_other hfits h.reaches x).pushed
  have hrst : ∀ m ∈ (d.conv x.other).sent, m.rst = false := hcarried.rst
  have hclosed : (d.peer x).receiver.isClosed = false := Bool.eq_false_iff.mpr fun hc =>
    hno (ready_of_closed hfits h.reaches hc hread)
  have ha : (d.peer x).active = true := by
    by_contra hact
    have hover := (over_of_inactive hfits h.reaches (Bool.eq_false_of_not_eq_true hact)).2.2
    rw [hclosed] at hover
    cases hover
  cases hset : (d.peer x).receiver.synSet with
  | false =>
    -- the SYN is the first segment
    obtain ⟨m, rest, hsent⟩ := List.exists_cons_of_ne_nil (h.sent_ne hfits hsmall x.other)
    have hcut := (show Segmented (d.peer x.other).sender (d.conv x.other).sent
      (d.conv x.other).written from hcarried.good).cut
    have hsyn : m.syn = true := (hcut.syn [] m rest hsent).mpr rfl
    obtain ⟨d', stale, msg, p', out, hans, rfl, hm, hrun, -⟩ := h.hearSegment hfits hsmall ha
      (hsent ▸ List.mem_cons_self) (hdelivered.benign_syn hset hsyn)
    have hfirst : (d.conv x.other).session.sent = [] ++ msg.sender :: rest := hsent
    obtain ⟨r', hins, ht⟩ := hdelivered.receive_eq hcarried.good hcarried.room hfirst
      (hrst _ (hsent ▸ List.mem_cons_self)) (.inr hsyn) hans.receiver
    have hset' : p'.receiver.synSet = true := by
      rw [ht]
      show ((d.peer x).receiver.synSet || msg.sender.syn) = true
      rw [hsyn, Bool.or_true]
    have hle : (d.peer x).receiver.bytesPushed ≤ p'.receiver.bytesPushed := by
      rw [ht]
      exact (Reassembler.insert_kept hins).1.pushed_le
    refine ⟨d', hrun, ?_⟩
    rw [behind_heard hm, hset', Duplex.behind, hset, Bool.not_true, Bool.not_false,
      Bool.toNat_false, Bool.toNat_true]
    omega
  | true =>
    have hlt : (d.peer x).receiver.bytesPushed < (payloads (d.conv x.other).sent).length :=
      Nat.lt_of_le_of_ne hpushed fun hall =>
        hno (ready_of_pushed hfits h.reaches hset hall hread)
    obtain ⟨pre, m, post, hsent, hle, hlt'⟩ := TCPSender.exists_segment hlt
    have hne : m.payload ≠ [] := fun hnil => by
      rw [hnil, List.length_nil] at hlt'
      omega
    obtain ⟨d', stale, msg, p', out, hans, rfl, hm, hrun, -⟩ := h.hearSegment hfits hsmall ha
      (hsent ▸ List.mem_append_right _ List.mem_cons_self)
      (TCPReceiver.benign_of_payload hset hne)
    have hmore : (d.peer x).receiver.bytesPushed < p'.receiver.bytesPushed :=
      hdelivered.receive_next hcarried.good hcarried.room (hfits x).pos hsent
        (hrst _ (hsent ▸ List.mem_append_right _ List.mem_cons_self)) hset hread hle hlt'
        hans.receiver
    refine ⟨d', hrun, ?_⟩
    rw [behind_heard hm, Duplex.behind, receive_synSet hans.receiver hset, hset]
    omega

/-- An end can take and read all that was sent. -/
theorem Stuck.catchUp (h : Stuck cfg d) (x : Side) :
    ∃ d', (machine cfg).Runs (ServingAt x) d d' ∧ Ready d' x := by
  refine Machine.Runs.progress (Duplex.behind x) fun t ht _ => ?_
  obtain ⟨u, hu, hread, hsame⟩ := (h.rests hfits ht).1.readAll hfits x
  by_cases hready : Ready u x
  · exact ⟨u, hu, .inl hready⟩
  · have hstuck := ((h.rests hfits ht).1.rests hfits hu).1
    obtain ⟨v, hv, hlt⟩ := hstuck.advance hfits hsmall hread hready
    exact ⟨v, hu.trans hv, .inr (hsame ▸ hlt)⟩

omit hsmall in
/-- The other end may go on. -/
theorem Ready.rests (h : Ready d x) (hstuck : Stuck cfg d') (hconv : d'.conv x = d.conv x)
    (hsent : (d'.conv x.other).sent = (d.conv x.other).sent) : Ready d' x := by
  have hcaught := h.caughtUp
  have hread := h.read
  unfold Duplex.peer at hcaught hread
  rw [← hconv] at hcaught hread
  have hsame : (d.conv x.other).session.sent = (d'.conv x.other).session.sent := hsent.symm
  have hset := hcaught.synSet
  have hall := hcaught.pushed
  rw [hsame] at hall
  exact ready_of_pushed hfits hstuck.reaches hset hall hread

theorem Stuck.ready (h : Stuck cfg d) : ∃ d', Stuck cfg d' ∧ ∀ x, Ready d' x := by
  obtain ⟨t, ht, hready⟩ := h.catchUp hfits hsmall .a
  have hstuck := (h.rests hfits ht).1
  obtain ⟨u, hu, hready'⟩ := hstuck.catchUp hfits hsmall .b
  obtain ⟨hstuck', hrests⟩ := hstuck.rests hfits hu
  refine ⟨u, hstuck', fun x => ?_⟩
  cases x with
  | a => exact hready.rests hfits hstuck' hrests.other hrests.sent
  | b => exact hready'

/-- An ack of all that an active end has sent finds nothing outstanding. -/
theorem Stuck.acked {reply : TCPMessage} (h : Stuck cfg d') (hready : Ready d' x.other)
    (hconv : d'.conv x.other = d.conv x.other) (ha : (d.peer x.other).active = true)
    (hmem : reply ∈ d'.pair.network x) (hack : reply.receiver.ackno =
      some (Wrap32.wrap (d.peer x.other).sender.absSeqno (d.peer x.other).sender.isn)) :
    (d.peer x.other).sender.sendBuffer = [] := by
  have hcarried := ((linked hfits h.reaches).back x).carried
  have hseg : Segmented (d'.peer x.other).sender (d'.conv x.other).sent
    (d'.conv x.other).written := hcarried.good
  have hroom : (d'.conv x.other).written.length + (cfg x).recvCapacity < 2 ^ 31 := hcarried.room
  have hle := hseg.absSeqno_le
  have hown := ((linked hfits h.reaches).back x.other).carried
  unfold Duplex.peer at ha hack ⊢
  rw [← hconv] at ha hack ⊢
  have hmem : reply ∈ d'.pair.network x.other.other := x.other_other.symm ▸ hmem
  obtain ⟨d'', stale, p', out, hans, -, -, hidle⟩ := h.hear hfits hsmall ha hmem
    (hready.caughtUp.benign hown.delivered hown.good _)
  have htaken : Segmented ((d'.peer x.other).sender.receive stale reply.receiver)
    (d'.conv x.other).sent (d'.conv x.other).written := hseg.receive
  refine hidle.buffer ?_
  show p'.sender.sendBuffer = []
  rw [hans.sender, Conversation.push_buffer htaken (List.append_right_eq_self.mp hidle.sent)]
  exact hseg.receive_all (by omega) hack

/-- An active end that is ready acknowledges all that was sent, and is closed if the FIN was. -/
theorem Stuck.settled (h : Stuck cfg d) (hready : ∀ x, Ready d x)
    (ha : (d.peer x).active = true) : (d.peer x.other).sender.sendBuffer = [] ∧
      ((d.peer x.other).sender.finSet = true → (d.peer x).receiver.isClosed = true) := by
  have hcarried := ((linked hfits h.reaches).back x).carried
  have hseg : Segmented (d.peer x.other).sender (d.conv x.other).sent
    (d.conv x.other).written := hcarried.good
  obtain ⟨pre, m, hsent⟩ : ∃ pre m, (d.conv x.other).sent = pre ++ [m] := by
    rcases List.eq_nil_or_concat (d.conv x.other).sent with hnil | ⟨pre, m, hsent⟩
    · exact absurd hnil (h.sent_ne hfits hsmall x.other)
    · exact ⟨pre, m, hsent.trans (List.concat_eq_append ..)⟩
  have hmem : m ∈ (d.conv x.other).sent := hsent ▸ List.mem_append_right _ List.mem_cons_self
  -- the last segment once more
  obtain ⟨d', stale, msg, p', out, hans, rfl, hm, hrun, hidle⟩ := h.hearSegment hfits hsmall ha hmem
    ((hready x).caughtUp.benign hcarried.delivered hcarried.good _)
  obtain ⟨hclose, hack⟩ := (hready x).caughtUp.receive_last hcarried.delivered hcarried.good
    hcarried.room (hfits x).pos hsent (hcarried.rst _ hmem) (hready x).read hans.receiver
  refine ⟨?_, fun hfin => hidle.isClosed (hclose (Segmented.fin_last (hsent ▸ hseg) hfin))⟩
  cases hother : (d.peer x.other).active with
  | false =>
    exact sendBuffer_nil hseg (over_of_inactive hfits h.reaches hother).1
  | true =>
    -- the reply gets back
    have hstuck := (h.rests hfits hrun).1
    obtain ⟨reply, hreply, hreport⟩ := hans.replies (hseg.cut.length_pos _ hmem)
    have hready' : Ready d' x.other := by
      refine (hready x.other).rests hfits hstuck hm.other ?_
      rw [Side.other_other, hm.conv]
      exact hidle.sent
    exact hstuck.acked hfits hsmall hready' hm.other hother (hm.network ▸
      List.mem_append_right _ hreply) (hreport ▸ hack)

/-- There is no such state. -/
theorem not_stuck (h : Stuck cfg d) : False := by
  obtain ⟨t, ht, hready⟩ := h.ready hfits hsmall
  refine (ht.halts t .refl).1 fun x => ?_
  have hcarried := (linked hfits ht.reaches x).carried
  have hseg : Segmented (t.peer x).sender (t.conv x).sent (t.written x) := hcarried.good
  have hreceived : t.received x.other =
    (t.written x).take (t.peer x.other).receiver.bytesPushed := hcarried.received_eq
  cases ha : (t.peer x.other).active with
  | false =>
    have hclosed := (over_of_inactive hfits ht.reaches ha).2.2
    have hwhole := ((received_of_other hfits ht.reaches x.other).2 hclosed).2
    rw [Side.other_other] at hwhole
    exact ⟨hwhole, fun _ => hclosed⟩
  | true =>
    obtain ⟨hbuf, hclose⟩ := ht.settled hfits hsmall hready ha
    rw [Side.other_other] at hbuf hclose
    have hwork := ht.no_work hfits hsmall hbuf
    simp only [TCPSender.hasWork, Bool.or_eq_false_iff, Bool.not_eq_false', Bool.and_eq_false_iff,
      List.isEmpty_iff] at hwork
    obtain ⟨⟨-, hempty⟩, hfin⟩ := hwork
    have hpushed := (hready x.other).caughtUp.pushed
    rw [Side.other_other] at hpushed
    have hall : t.written x = payloads (t.conv x).sent := by
      rw [hseg.bytes, hempty, List.append_nil]
    refine ⟨?_, fun hc => hclose (hfin.resolve_left ?_)⟩
    · rw [hreceived, hall]
      exact List.take_of_length_le (Nat.le_of_eq hpushed.symm)
    · exact fun hopen => Bool.noConfusion (hopen.symm.trans hc)

end

end

/-- From every state of every run: however the network has lost, delayed, duplicated and reordered,
there is a run on in which the applications write and close nothing more, no clock ticks and only
messages that were sent are delivered, and that brings to each end all that the other application
has written, and the end of its stream if it was closed. -/
theorem never_stuck (cfg : Side → TCPConfig) (d : Duplex) (hfits : ∀ x, Fits (cfg x))
    (hsmall : ∀ x, (cfg x).recvCapacity < 2 ^ 15) (h : (machine cfg).Reaches Permitted d) :
    ∃ d', (machine cfg).Runs Serving d d' ∧ ∀ x, d'.received x.other = d.written x ∧
      ((d.peer x).sender.input.closed = true → (d'.peer x.other).receiver.isClosed = true) := by
  obtain ⟨d', hrun, hcomplete⟩ : ∃ d', (machine cfg).Runs Serving d d' ∧ Complete d' := by
    refine Machine.Runs.progress Duplex.left fun t ht _ => ?_
    by_contra hstuck
    push Not at hstuck
    exact not_stuck hfits hsmall ⟨(serves_runs hfits h ht).1, hstuck⟩
  have hkept := (serves_runs hfits h hrun).2
  refine ⟨d', hrun, fun x => ?_⟩
  obtain ⟨hreceived, hclosed⟩ := hcomplete x
  exact ⟨hreceived.trans (hkept.written x), fun hc => hclosed (hkept.ended x hc)⟩

/-- Two bytes and the FIN of a closed stream are lost. -/
theorem never_stuck_lost : ∃ d d' : Duplex, d.received .b = [] ∧ d'.received .b = [97, 98] ∧
    (d'.peer .b).receiver.isClosed = true := by
  obtain ⟨d, h, hnone, hwritten, hclosed⟩ := Machine.exists_reaches step
    (.new fun x => { isn := if x = .a then ⟨7⟩ else ⟨50⟩, recvCapacity := 1000 }) Permitted
    (fun d => d.received .b = [] ∧ d.written .a = [97, 98] ∧
      (d.peer .a).sender.input.closed = true)
    [⟨.a, .push⟩,
      ⟨.b, .receive ⟨0⟩ ⟨{ seqno := ⟨7⟩, syn := true }, { windowSize := 1000 }⟩⟩,
      ⟨.a, .receive ⟨0⟩ ⟨{ seqno := ⟨50⟩, syn := true },
        { ackno := some ⟨8⟩, windowSize := 1000 }⟩⟩,
      ⟨.a, .write [97, 98]⟩, ⟨.a, .push⟩, ⟨.a, .shutdown⟩, ⟨.a, .tick 2000⟩]
    (by decide +kernel) (by decide +kernel)
  obtain ⟨d', -, hrun⟩ := never_stuck
    (fun x => { isn := if x = .a then ⟨7⟩ else ⟨50⟩, recvCapacity := 1000 }) d
    (fun _ => ⟨(by decide : 64000 < 2 ^ 64), (by decide : 1 ≤ 1000), (by decide : 1000 < 2 ^ 31)⟩)
    (fun _ => (by decide : 1000 < 2 ^ 15)) h
  obtain ⟨hreceived, hclose⟩ := hrun .a
  exact ⟨d, d', hnone, hreceived.trans hwritten, hclose hclosed⟩

end Duplex

end Minnow
