import Minnow.Tcp.Timer

/-!
# Messages that should acknowledge nothing

An ackno beyond the next sequence number acknowledges what was never sent. `receive` compares it
with the end of the last outstanding segment, which is the next sequence number (`Queued`, in every
run), so it is refused as long as something is outstanding; otherwise it is taken for an ack of new
data (`impossible_ack_iff`).

A message without an ackno acknowledges nothing. `receive` reads the ackno before it asks whether
there is one. `receiveStrict` is `receive` with that read as a fault, so it never returns for such a
message; `no_ackno_never` also says when the value that happens to be read does no harm.
-/

namespace Minnow

namespace TCPSender

/-! ## What is outstanding in any run -/

/-- The stream is well formed, and the outstanding segments end at the next sequence number. -/
structure Queued (s : TCPSender) : Prop where
  input : s.input.WF
  outstanding : ∃ n out, s.sendBuffer = positions n out ∧ s.absSeqno = n + totalLength out

section

variable {s : TCPSender} {stale : Wrap32} {msg : TCPReceiverMessage} {a : Nat}

theorem Queued.new {capacity : Nat} (hcap : capacity < 2 ^ 64) (isn : Wrap32)
    (initialRTOMs : Nat) : Queued (.new capacity isn initialRTOMs) :=
  ⟨.new hcap, 0, [], rfl, rfl⟩

theorem Queued.push (h : Queued s) : Queued s.push.1 := by
  obtain ⟨hx, -⟩ := push_extended h.input
  obtain ⟨n, out, hbuf, habs⟩ := h.outstanding
  exact ⟨hx.input, n, out ++ s.push.2, hx.outstanding hbuf habs⟩

theorem Queued.receive (h : Queued s) : Queued (s.receive stale msg) := by
  obtain ⟨n, out, hbuf, habs⟩ := h.outstanding
  rcases s.receive_cases stale msg with ⟨-, error, he⟩ | ⟨-, hr⟩
  · have hw := h.input
    rw [he]
    exact ⟨⟨hw.cap, hw.length, hw.stop, hw.fits, hw.pushed⟩, n, out, hbuf, habs⟩
  · obtain ⟨acked, rest, -, hrest⟩ := hr.outstanding hbuf habs
    exact ⟨hr.input ▸ h.input, n + totalLength acked, rest, hrest⟩

theorem Queued.tick (h : Queued s) (ms : Nat) : Queued (s.tick ms).1 := by
  rw [tick_eq]
  exact ⟨h.input, h.outstanding⟩

/-- The test of `receive` for an ackno that is impossible. -/
theorem Queued.beyondLast_iff (h : Queued s) :
    s.beyondLast a = true ↔ s.sendBuffer ≠ [] ∧ s.absSeqno < a := by
  obtain ⟨n, out, hbuf, habs⟩ := h.outstanding
  unfold beyondLast
  cases hlast : s.sendBuffer.getLast? with
  | none =>
    rw [List.getLast?_eq_none_iff] at hlast
    simp [hlast]
  | some x =>
    have hne : s.sendBuffer ≠ [] := by
      intro hnil
      rw [hnil] at hlast
      cases hlast
    rw [hbuf] at hlast
    have hend := end_of_getLast_positions hlast
    simp only [decide_eq_true_eq, ne_eq, hne, not_false_eq_true, true_and]
    omega

end

namespace Session

variable {capacity initialRTOMs : Nat} {isn : Wrap32} {s : Session} {op : Op}

theorem queued_step (h : Queued s.sender) (op : Op) : Queued (s.step op).sender := by
  cases op with
  | write data => exact ⟨h.input.push data, h.outstanding⟩
  | close => exact ⟨h.input.close, h.outstanding⟩
  | push => exact h.push
  | tick ms => exact h.tick ms
  | receive stale msg => exact h.receive

theorem queued {ok : Session → Op → Prop} (hcap : capacity < 2 ^ 64)
    (h : (machine capacity isn initialRTOMs).Reaches ok s) : Queued s.sender :=
  h.invariant_total (P := fun s => Queued s.sender) (.new hcap isn initialRTOMs)
    fun _ op hs _ => queued_step hs op

end Session

/-! ## Impossible acknos -/

section

variable {s : TCPSender} {windowSize : UInt16} {a : Nat}

/-- What is done with a message when nothing is outstanding. -/
theorem processed_eq_self_iff (s : TCPSender) (windowSize : UInt16) (a : Nat) :
    (s.takeWindow windowSize).restartTimer a = s ↔ s.receiverFull = (windowSize == 0) ∧
      windowSize ≤ s.maxReceiveWindow ∧ a ≤ s.preAbsAckno := by
  have htake := takeWindow_eq s windowSize
  constructor
  · intro h
    have hrestart := restartTimer_eq (s.takeWindow windowSize) a
    rw [h, htake] at hrestart
    have hfull : s.receiverFull = (windowSize == 0) := congrArg receiverFull hrestart
    have hmax : s.maxReceiveWindow = max s.maxReceiveWindow windowSize :=
      congrArg maxReceiveWindow hrestart
    refine ⟨hfull, ?_, ?_⟩
    · have hnat := congrArg UInt16.toNat hmax
      rw [toNat_max16] at hnat
      rw [UInt16.le_iff_toNat_le]
      omega
    · by_contra hlt
      have hpre : (s.takeWindow windowSize).preAbsAckno = s.preAbsAckno := by rw [htake]
      have hnew : ((s.takeWindow windowSize).restartTimer a).preAbsAckno = a := by
        unfold restartTimer
        rw [if_pos (by omega)]
      rw [h] at hnew
      omega
  · rintro ⟨hfull, hmax, hpre⟩
    have hsame : s.takeWindow windowSize = s := by
      unfold takeWindow
      rw [if_neg (UInt16.not_lt.mpr hmax), ← hfull]
    rw [hsame, restartTimer, if_neg (by omega)]

end

/-- In every state of every run: an ackno beyond the next sequence number changes nothing, if and
only if something is outstanding, or the window and the ackno tell the sender nothing new. -/
theorem impossible_ack_iff {capacity initialRTOMs : Nat} {isn a : Wrap32} {s : Session}
    (hcap : capacity < 2 ^ 64)
    (h : (Session.machine capacity isn initialRTOMs).Reaches (fun _ _ => True) s)
    {msg : TCPReceiverMessage} (ha : msg.ackno = some a)
    (hlt : s.sender.absSeqno < a.unwrap s.sender.isn s.sender.absSeqno) (stale : Wrap32) :
    s.sender.receive stale msg = s.sender ↔ s.sender.sendBuffer ≠ [] ∨
      s.sender.receiverFull = (msg.windowSize == 0) ∧
      msg.windowSize ≤ s.sender.maxReceiveWindow ∧
      a.unwrap s.sender.isn s.sender.absSeqno ≤ s.sender.preAbsAckno := by
  have hq := Session.queued hcap h
  have habs : s.sender.absAckno stale msg = a.unwrap s.sender.isn s.sender.absSeqno := by
    unfold absAckno
    rw [ha, Option.getD_some]
  unfold receive
  dsimp only
  rw [habs]
  by_cases hb : s.sender.sendBuffer = []
  · have hno : ¬s.sender.beyondLast (a.unwrap s.sender.isn s.sender.absSeqno) = true := fun hyes =>
      (hq.beyondLast_iff.mp hyes).1 hb
    have herase : eraseAcked (a.unwrap s.sender.isn s.sender.absSeqno) msg.windowSize
        s.sender.sendBuffer s.sender = s.sender := by
      rw [hb, eraseAcked, ← hb]
    rw [if_neg hno, ha, Option.isNone_some, Bool.false_and, if_neg Bool.false_ne_true, herase,
      processed_eq_self_iff]
    simp [hb]
  · rw [if_pos (hq.beyondLast_iff.mpr ⟨hb, hlt⟩)]
    exact iff_of_true rfl (.inl hb)

/-- The SYN is outstanding. -/
theorem impossible_ack_of_syn : ∃ s, (Session.machine 10 ⟨0⟩ 1000).Reaches (fun _ _ => True) s ∧
    s.sender.receive ⟨0⟩ { ackno := some ⟨5⟩, windowSize := 7 } = s.sender := by
  obtain ⟨s, h, hlt, hb⟩ := Machine.exists_reaches Session.total (.new 10 ⟨0⟩ 1000)
    (fun _ _ => True) (fun s => s.sender.absSeqno < (Wrap32.mk 5).unwrap s.sender.isn
      s.sender.absSeqno ∧ s.sender.sendBuffer ≠ []) [.push] (by decide +kernel)
    (by decide +kernel)
  exact ⟨s, h, (impossible_ack_iff (by decide) h rfl hlt ⟨0⟩).mpr (.inl hb)⟩

/-- The SYN is acknowledged and nothing else was sent. An ackno of 100 is taken, and acks of what is
sent later do not restart the timer before they pass it. -/
theorem impossible_ack_taken : ∃ s, (Session.machine 10 ⟨0⟩ 1000).Reaches (fun _ _ => True) s ∧
    s.sender.absSeqno < (Wrap32.mk 100).unwrap s.sender.isn s.sender.absSeqno ∧
    (s.sender.receive ⟨0⟩ { ackno := some ⟨100⟩, windowSize := 7 }).preAbsAckno = 100 ∧
    s.sender.receive ⟨0⟩ { ackno := some ⟨100⟩, windowSize := 7 } ≠ s.sender := by
  obtain ⟨s, h, hlt, hpre, hpre'⟩ := Machine.exists_reaches Session.total (.new 10 ⟨0⟩ 1000)
    (fun _ _ => True) (fun s =>
      s.sender.absSeqno < (Wrap32.mk 100).unwrap s.sender.isn s.sender.absSeqno ∧
      (s.sender.receive ⟨0⟩ { ackno := some ⟨100⟩, windowSize := 7 }).preAbsAckno = 100 ∧
      s.sender.preAbsAckno = 1)
    [.push, .receive ⟨0⟩ { ackno := some ⟨1⟩, windowSize := 7 }] (by decide +kernel)
    (by decide +kernel)
  refine ⟨s, h, hlt, hpre, fun hsame => ?_⟩
  rw [hsame, hpre'] at hpre
  cases hpre

/-! ## No ackno -/

/-- What a read of an absent ackno is. -/
inductive AcknoFault where
  | absent
  deriving DecidableEq

/-- `receive`, whose first statement reads the ackno. -/
def receiveStrict (s : TCPSender) (msg : TCPReceiverMessage) : Except AcknoFault TCPSender :=
  match msg.ackno with
  | none => .error .absent
  | some ackno => .ok (s.receive ackno msg)

/-- Nothing was acknowledged. -/
structure Unacknowledged (s s' : TCPSender) : Prop where
  sendBuffer : s'.sendBuffer = s.sendBuffer
  timer : s'.timer = s.timer
  currentRTO : s'.currentRTO = s.currentRTO
  numConsecutiveRetran : s'.numConsecutiveRetran = s.numConsecutiveRetran
  preAbsAckno : s'.preAbsAckno = s.preAbsAckno

section

variable {s : TCPSender} {msg : TCPReceiverMessage}

/-- With an ackno it is the same. -/
theorem receiveStrict_of_some {a : Wrap32} (h : msg.ackno = some a) (stale : Wrap32) :
    s.receiveStrict msg = .ok (s.receive stale msg) := by
  unfold receiveStrict receive absAckno
  rw [h]
  rfl

/-- A buffer from which nothing is acknowledged stays as it is. -/
theorem unacked_eq_self_iff (s : TCPSender) (absAckno : Nat) :
    s.unacked absAckno = s.sendBuffer ↔ s.acked absAckno = [] := by
  have hsplit : s.acked absAckno ++ s.unacked absAckno = s.sendBuffer :=
    List.takeWhile_append_dropWhile
  constructor
  · intro h
    rw [h] at hsplit
    simpa using hsplit
  · intro h
    rw [← hsplit, h, List.nil_append]

theorem unacknowledged_iff (stale : Wrap32) (h : msg.ackno = none) :
    Unacknowledged s (s.receive stale msg) ↔
      s.beyondLast (s.absAckno stale msg) = true ∨ msg.windowSize = 0 ∨
      s.acked (s.absAckno stale msg) = [] ∧ s.absAckno stale msg ≤ s.preAbsAckno := by
  have haccepts : s.accepts stale msg = false ↔
      s.beyondLast (s.absAckno stale msg) = true ∨ msg.windowSize = 0 := by
    unfold accepts
    cases s.beyondLast (s.absAckno stale msg) <;> simp [h]
  rcases s.receive_cases stale msg with ⟨hno, error, he⟩ | ⟨hyes, hr⟩
  · rw [he]
    refine iff_of_true ⟨rfl, rfl, rfl, rfl, rfl⟩ ?_
    exact or_assoc.mp (.inl (haccepts.mp hno))
  · obtain ⟨-, hpre, -, hold⟩ := receive_timer hyes
    rw [← or_assoc, ← haccepts, hyes, ← unacked_eq_self_iff, ← hr.sendBuffer]
    constructor
    · intro hsame
      have := hsame.preAbsAckno
      exact .inr ⟨hsame.sendBuffer, by omega⟩
    · rintro (hno | ⟨hbuf, hle⟩)
      · cases hno
      · obtain ⟨htimer, hcount, hrto⟩ := hold hle
        exact ⟨hbuf, htimer, hrto, hcount, by omega⟩

/-- A message without an ackno never goes well: its ackno is read. Whatever the read gives, nothing
is acknowledged if and only if the value lies beyond the last segment, or the window is zero, or the
value acknowledges nothing new. -/
theorem no_ackno_never (s : TCPSender) (h : msg.ackno = none) :
    ¬(∃ s', s.receiveStrict msg = .ok s' ∧ Unacknowledged s s') ∧
    ∀ stale, Unacknowledged s (s.receive stale msg) ↔
      s.beyondLast (s.absAckno stale msg) = true ∨ msg.windowSize = 0 ∨
      s.acked (s.absAckno stale msg) = [] ∧ s.absAckno stale msg ≤ s.preAbsAckno := by
  refine ⟨?_, fun stale => unacknowledged_iff stale h⟩
  rintro ⟨s', hs', -⟩
  unfold receiveStrict at hs'
  rw [h] at hs'
  cases hs'

/-- A window of 5 in a message without an ackno, for a sender that has sent nothing. -/
theorem no_ackno_never_fresh :
    ¬∃ s', (new 10 ⟨0⟩ 1000).receiveStrict { windowSize := 5 } = .ok s' ∧
      Unacknowledged (new 10 ⟨0⟩ 1000) s' :=
  (no_ackno_never _ rfl).1

/-- The SYN of the peer arrives before its ack, and the memory of the ackno has the number behind
our SYN: the SYN is acknowledged. -/
theorem no_ackno_acknowledges : ∃ s,
    (Session.machine 10 ⟨0⟩ 1000).Reaches (fun _ _ => True) s ∧
    s.sender.receiveStrict { windowSize := 5 } = .error .absent ∧ s.sender.sendBuffer ≠ [] ∧
    (s.sender.receive ⟨1⟩ { windowSize := 5 }).sendBuffer = [] := by
  obtain ⟨s, h, hb, hb'⟩ := Machine.exists_reaches Session.total (.new 10 ⟨0⟩ 1000)
    (fun _ _ => True) (fun s => s.sender.sendBuffer ≠ [] ∧
      (s.sender.receive ⟨1⟩ { windowSize := 5 }).sendBuffer = [])
    [.push] (by decide +kernel) (by decide +kernel)
  exact ⟨s, h, rfl, hb, hb'⟩

end

end TCPSender

end Minnow
