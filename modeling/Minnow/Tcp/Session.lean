import Minnow.Tcp.Segments

/-!
# Runs of a sender

A `Session` is a sender with two ghosts: the segments that `push` has transmitted (`sent`) and the
bytes that the application has written (`written`). The application may not write after its close;
the messages that `receive` gets are arbitrary.

`Received` says what a message does that `receive` processes, and `Segmented` is kept by every
operation. So in every run the sender's own numbers, its outstanding segments and what it
retransmits all agree with what it has sent (`segments_outstanding`).
-/

namespace Minnow

namespace TCPSender

/-! ## Receive -/

/-- The windows after the segments of `acked` are credited. -/
def credited (windowSize : UInt16) (acked : List (Nat × TCPSenderMessage)) (s : TCPSender) :
    TCPSender :=
  acked.foldl (fun s x => s.creditAcked windowSize x.2) s

/-- The segment ends at `absAckno` or before. -/
def ackedBy (absAckno : Nat) (x : Nat × TCPSenderMessage) : Bool :=
  x.1 + x.2.sequenceLength ≤ absAckno

/-- The segments that leave the buffer. -/
def acked (s : TCPSender) (absAckno : Nat) : List (Nat × TCPSenderMessage) :=
  s.sendBuffer.takeWhile (ackedBy absAckno)

def unacked (s : TCPSender) (absAckno : Nat) : List (Nat × TCPSenderMessage) :=
  s.sendBuffer.dropWhile (ackedBy absAckno)

/-- The message is processed. -/
def accepts (s : TCPSender) (stale : Wrap32) (msg : TCPReceiverMessage) : Bool :=
  !(s.beyondLast (s.absAckno stale msg) || msg.ackno.isNone && msg.windowSize == 0)

/-- What a message does that is processed. -/
structure Received (s s' : TCPSender) (absAckno : Nat) (windowSize : UInt16) : Prop where
  sendBuffer : s'.sendBuffer = s.unacked absAckno
  input : s'.input = s.input
  isn : s'.isn = s.isn
  absSeqno : s'.absSeqno = s.absSeqno
  seqno : s'.seqno = s.seqno
  synSet : s'.synSet = s.synSet
  finSet : s'.finSet = s.finSet
  receiverFull : s'.receiverFull = (windowSize == 0)
  maxReceiveWindow : s'.maxReceiveWindow =
    max (credited windowSize (s.acked absAckno) s).maxReceiveWindow windowSize
  receiveWindow : s'.receiveWindow = (credited windowSize (s.acked absAckno) s).receiveWindow +
    UInt16.ofNat (windowSize.toNat -
      (credited windowSize (s.acked absAckno) s).maxReceiveWindow.toNat)

section

variable {s s' : TCPSender} {sent : List TCPSenderMessage} {written : Bytes} {stale : Wrap32}
  {msg : TCPReceiverMessage} {windowSize : UInt16}

theorem creditAcked_with (s : TCPSender) (windowSize a b : UInt16) (m : TCPSenderMessage) :
    { s.creditAcked windowSize m with receiveWindow := a, maxReceiveWindow := b } =
      { s with receiveWindow := a, maxReceiveWindow := b } := by
  unfold creditAcked
  split <;> rfl

/-- Only the windows change. -/
theorem credited_fields (windowSize : UInt16) (acked : List (Nat × TCPSenderMessage))
    (s : TCPSender) : credited windowSize acked s = { s with
      receiveWindow := (credited windowSize acked s).receiveWindow
      maxReceiveWindow := (credited windowSize acked s).maxReceiveWindow } := by
  induction acked generalizing s with
  | nil => rfl
  | cons x acked ih =>
    exact (ih (s.creditAcked windowSize x.2)).trans (creditAcked_with s _ _ _ x.2)

theorem eraseAcked_eq (absAckno : Nat) (windowSize : UInt16)
    (buffer : List (Nat × TCPSenderMessage)) (s : TCPSender) :
    eraseAcked absAckno windowSize buffer s =
      { credited windowSize (buffer.takeWhile (ackedBy absAckno)) s with
        sendBuffer := buffer.dropWhile (ackedBy absAckno) } := by
  induction buffer generalizing s with
  | nil => rfl
  | cons x buffer ih =>
    unfold eraseAcked
    split
    · rename_i h
      have hx : ackedBy absAckno x = true := decide_eq_true h
      rw [ih, List.takeWhile_cons_of_pos hx, List.dropWhile_cons_of_pos hx]
      rfl
    · rename_i h
      have hx : ¬ackedBy absAckno x = true := mt of_decide_eq_true h
      rw [List.takeWhile_cons_of_neg hx, List.dropWhile_cons_of_neg hx]
      rfl

theorem takeWindow_eq (s : TCPSender) (windowSize : UInt16) : s.takeWindow windowSize = { s with
    receiverFull := windowSize == 0
    maxReceiveWindow := max s.maxReceiveWindow windowSize
    receiveWindow := s.receiveWindow +
      UInt16.ofNat (windowSize.toNat - s.maxReceiveWindow.toNat) } := by
  have hmax : max s.maxReceiveWindow windowSize =
      if s.maxReceiveWindow ≤ windowSize then windowSize else s.maxReceiveWindow := rfl
  unfold takeWindow
  rw [hmax]
  split
  · rename_i h
    have hle := UInt16.le_of_lt h
    rw [if_pos hle, ← UInt16.toNat_sub_of_le _ _ hle, UInt16.ofNat_toNat]
  · rename_i h
    have hle : windowSize ≤ s.maxReceiveWindow := UInt16.not_lt.mp h
    rw [Nat.sub_eq_zero_of_le (UInt16.le_iff_toNat_le.mp hle)]
    split
    · rename_i h'
      rw [UInt16.le_antisymm hle h']
      simp
    · simp

theorem restartTimer_eq (s : TCPSender) (absAckno : Nat) : s.restartTimer absAckno = { s with
    timer := (s.restartTimer absAckno).timer
    preAbsAckno := (s.restartTimer absAckno).preAbsAckno
    numConsecutiveRetran := (s.restartTimer absAckno).numConsecutiveRetran
    currentRTO := (s.restartTimer absAckno).currentRTO } := by
  unfold restartTimer
  split <;> rfl

/-- A message is dropped, with at most the error flag set, or it is processed. -/
theorem receive_cases (s : TCPSender) (stale : Wrap32) (msg : TCPReceiverMessage) :
    (s.accepts stale msg = false ∧
      ∃ error, s.receive stale msg = { s with input := { s.input with error } }) ∨
    s.accepts stale msg = true ∧
      Received s (s.receive stale msg) (s.absAckno stale msg) msg.windowSize := by
  unfold receive accepts
  dsimp only
  cases s.beyondLast (s.absAckno stale msg) with
  | true => exact .inl ⟨rfl, s.input.error, if_pos rfl⟩
  | false =>
    rw [if_neg Bool.false_ne_true, Bool.false_or]
    cases msg.ackno.isNone && msg.windowSize == 0 with
    | true => exact .inl ⟨rfl, true, if_pos rfl⟩
    | false =>
      rw [if_neg Bool.false_ne_true, eraseAcked_eq, restartTimer_eq, takeWindow_eq,
        credited_fields]
      exact .inr ⟨rfl, rfl, rfl, rfl, rfl, rfl, rfl, rfl, rfl, rfl, rfl⟩

/-- Only an absent ackno with a zero window touches the stream. -/
theorem receive_input (h : msg.ackno = none → msg.windowSize ≠ 0) :
    (s.receive stale msg).input = s.input := by
  rcases s.receive_cases stale msg with ⟨ha, -⟩ | ⟨-, hr⟩
  · have hc : (msg.ackno.isNone && msg.windowSize == 0) = false := by
      refine Bool.eq_false_iff.mpr fun hc => ?_
      simp only [Bool.and_eq_true, Option.isNone_iff_eq_none, beq_iff_eq] at hc
      exact h hc.1 hc.2
    unfold accepts at ha
    rw [hc, Bool.or_false, Bool.not_eq_false'] at ha
    unfold receive
    dsimp only
    rw [ha, if_pos rfl]
  · exact hr.input

/-- The outstanding segments are the last ones transmitted. -/
theorem suffix_positions {n : Nat} {sent : List TCPSenderMessage}
    {l : List (Nat × TCPSenderMessage)} (h : l <:+ positions n sent) :
    ∃ pre post, sent = pre ++ post ∧ l = positions (n + totalLength pre) post := by
  induction sent generalizing n with
  | nil => exact ⟨[], [], rfl, List.suffix_nil.mp h⟩
  | cons m sent ih =>
    rcases List.suffix_cons_iff.mp h with rfl | h
    · exact ⟨[], m :: sent, rfl, rfl⟩
    · obtain ⟨pre, post, rfl, rfl⟩ := ih h
      exact ⟨m :: pre, post, rfl, by rw [totalLength_cons, Nat.add_assoc]⟩

theorem Segmented.outstanding (h : Segmented s sent written) : ∃ acked out,
    sent = acked ++ out ∧ s.sendBuffer = positions (totalLength acked) out := by
  obtain ⟨acked, out, hs, hb⟩ := suffix_positions h.buffer
  rw [Nat.zero_add] at hb
  exact ⟨acked, out, hs, hb⟩

/-- What is acknowledged of outstanding segments is a first part of them. -/
theorem dropWhile_positions (absAckno k : Nat) (out : List TCPSenderMessage) :
    ∃ a r, out = a ++ r ∧
      (positions k out).takeWhile (ackedBy absAckno) = positions k a ∧
      (positions k out).dropWhile (ackedBy absAckno) = positions (k + totalLength a) r ∧
      (a ≠ [] → k + totalLength a ≤ absAckno) := by
  induction out generalizing k with
  | nil => exact ⟨[], [], rfl, rfl, rfl, fun h => absurd rfl h⟩
  | cons m out ih =>
    by_cases hm : ackedBy absAckno (k, m) = true
    · obtain ⟨a, r, rfl, htake, hdrop, hle⟩ := ih (k + m.sequenceLength)
      refine ⟨m :: a, r, rfl, ?_, ?_, fun _ => ?_⟩
      · rw [positions, List.takeWhile_cons_of_pos hm, htake]
        rfl
      · rw [positions, List.dropWhile_cons_of_pos hm, hdrop, totalLength_cons, Nat.add_assoc]
      · by_cases ha : a = []
        · rw [ha]
          exact of_decide_eq_true hm
        · rw [totalLength_cons, ← Nat.add_assoc]
          exact hle ha
    · refine ⟨[], m :: out, rfl, ?_, ?_, fun h => absurd rfl h⟩
      · exact List.takeWhile_cons_of_neg hm
      · exact List.dropWhile_cons_of_neg hm

/-- What stays outstanding are the last segments. -/
theorem Received.outstanding {s s' : TCPSender} {absAckno k : Nat} {windowSize : UInt16}
    {out : List TCPSenderMessage} (hr : Received s s' absAckno windowSize)
    (hbuf : s.sendBuffer = positions k out) (habs : s.absSeqno = k + totalLength out) :
    ∃ acked rest, out = acked ++ rest ∧ s'.sendBuffer = positions (k + totalLength acked) rest ∧
      s'.absSeqno = k + totalLength acked + totalLength rest := by
  obtain ⟨acked, rest, rfl, -, hdrop, -⟩ := dropWhile_positions absAckno k out
  refine ⟨acked, rest, rfl, ?_, ?_⟩
  · rw [hr.sendBuffer, TCPSender.unacked, hbuf, hdrop]
  · rw [hr.absSeqno, habs, totalLength_append, Nat.add_assoc]

theorem positions_map_snd (n : Nat) (sent : List TCPSenderMessage) :
    (positions n sent).map Prod.snd = sent := by
  induction sent generalizing n with
  | nil => rfl
  | cons m sent ih => rw [positions, List.map_cons, ih]

theorem mem_positions {n : Nat} {x : Nat × TCPSenderMessage} (h : x ∈ positions n sent) :
    x.2 ∈ sent := by
  rw [← positions_map_snd n sent]
  exact List.mem_map_of_mem h

theorem positions_length_sum (n : Nat) (sent : List TCPSenderMessage) :
    ((positions n sent).map fun x => x.2.sequenceLength).sum = totalLength sent := by
  have hmap : (fun x : Nat × TCPSenderMessage => x.2.sequenceLength) =
      (fun m : TCPSenderMessage => m.sequenceLength) ∘ Prod.snd := rfl
  unfold totalLength
  rw [hmap, ← List.map_map, positions_map_snd]

/-- The outstanding segments end at the next sequence number. -/
theorem Segmented.inFlight_eq (h : Segmented s sent written) :
    s.sequenceNumbersInFlight = match s.sendBuffer.head? with
      | some x => s.absSeqno - x.1
      | none => 0 := by
  obtain ⟨acked, out, hsent, hbuf⟩ := h.outstanding
  have hlen : s.sequenceNumbersInFlight = totalLength out := by
    unfold sequenceNumbersInFlight
    rw [hbuf, positions_length_sum]
  rw [hlen, hbuf, h.absSeqno, hsent, totalLength_append]
  cases out with
  | nil => rfl
  | cons m out =>
    show _ = totalLength acked + _ - totalLength acked
    omega

theorem Segmented.received {absAckno : Nat} (h : Segmented s sent written)
    (hr : Received s s' absAckno windowSize) : Segmented s' sent written where
  cut := hr.isn ▸ h.cut
  input := hr.input ▸ h.input
  absSeqno := hr.absSeqno.trans h.absSeqno
  seqno hs := by
    rw [hr.seqno, hr.absSeqno, hr.isn]
    exact h.seqno (hr.synSet ▸ hs)
  synSet := hr.synSet ▸ h.synSet
  finSet := hr.finSet ▸ h.finSet
  drained hf := by
    rw [hr.input]
    exact h.drained (hr.finSet ▸ hf)
  bytes := hr.input ▸ h.bytes
  popped := hr.input ▸ h.popped
  buffer := by
    rw [hr.sendBuffer]
    exact (List.dropWhile_suffix _).trans h.buffer

theorem Segmented.receive (h : Segmented s sent written) :
    Segmented (s.receive stale msg) sent written := by
  rcases s.receive_cases stale msg with ⟨-, error, he⟩ | ⟨-, hr⟩
  · have hw := h.input
    rw [he]
    exact ⟨h.cut, ⟨hw.cap, hw.length, hw.stop, hw.fits, hw.pushed⟩, h.absSeqno, h.seqno, h.synSet,
      h.finSet, h.drained, h.bytes, h.popped, h.buffer⟩
  · exact h.received hr

/-! ## Tick -/

/-- A tick changes only the timer. -/
theorem tick_eq (s : TCPSender) (ms : Nat) : (s.tick ms).1 = { s with
    timer := (s.tick ms).1.timer
    numConsecutiveRetran := (s.tick ms).1.numConsecutiveRetran
    currentRTO := (s.tick ms).1.currentRTO } := by
  unfold tick
  dsimp only
  cases hb : s.sendBuffer with
  | nil => rfl
  | cons x rest =>
    dsimp only
    split <;> simp

/-- A tick retransmits the oldest outstanding segment or nothing. -/
theorem tick_retransmits (s : TCPSender) (ms : Nat) :
    (s.tick ms).2 = [] ∨ ∃ x rest, s.sendBuffer = x :: rest ∧ (s.tick ms).2 = [x.2] := by
  unfold tick
  dsimp only
  cases s.sendBuffer with
  | nil => exact .inl rfl
  | cons x rest =>
    dsimp only
    split
    · exact .inr ⟨x, rest, rfl, rfl⟩
    · exact .inl rfl

theorem Segmented.tick (h : Segmented s sent written) (ms : Nat) :
    Segmented (s.tick ms).1 sent written := by
  rw [tick_eq]
  exact ⟨h.cut, h.input, h.absSeqno, h.seqno, h.synSet, h.finSet, h.drained, h.bytes, h.popped,
    h.buffer⟩

/-! ## The application -/

/-- A write of the application. -/
def write (s : TCPSender) (data : Bytes) : TCPSender := { s with input := s.input.push data }

def close (s : TCPSender) : TCPSender := { s with input := s.input.close }

theorem Segmented.write (h : Segmented s sent written) (hc : s.input.closed = false)
    (data : Bytes) :
    Segmented (s.write data) sent (written ++ data.take s.input.availableCapacity) where
  cut := h.cut
  input := h.input.push data
  absSeqno := h.absSeqno
  seqno := h.seqno
  synSet := h.synSet
  finSet := h.finSet
  drained hf := by
    rw [(h.drained hf).1] at hc
    simp at hc
  bytes := by
    show _ = payloads sent ++ (s.input.push data).peek
    rw [ByteStream.push_peek h.input, h.bytes, List.append_assoc]
  popped := (ByteStream.push_bytesPopped _ _).trans h.popped
  buffer := h.buffer

theorem Segmented.close (h : Segmented s sent written) : Segmented s.close sent written :=
  ⟨h.cut, h.input.close, h.absSeqno, h.seqno, h.synSet, h.finSet, fun hf => ⟨rfl, (h.drained hf).2⟩,
    h.bytes, h.popped, h.buffer⟩

end

/-! ## Runs -/

/-- A sender, what it has transmitted first and what was written to it. -/
structure Session where
  sender : TCPSender
  sent : List TCPSenderMessage := []
  written : Bytes := []
  deriving DecidableEq

inductive Op where
  | write (data : Bytes)
  | close
  | push
  | tick (ms : Nat)
  | receive (stale : Wrap32) (msg : TCPReceiverMessage)
  deriving DecidableEq

namespace Session

def step (s : Session) : Op → Session
  | .write data => { s with
      sender := s.sender.write data
      written := s.written ++ data.take s.sender.input.availableCapacity }
  | .close => { s with sender := s.sender.close }
  | .push => { s with sender := s.sender.push.1, sent := s.sent ++ s.sender.push.2 }
  | .tick ms => { s with sender := (s.sender.tick ms).1 }
  | .receive stale msg => { s with sender := s.sender.receive stale msg }

def new (capacity : Nat) (isn : Wrap32) (initialRTOMs : Nat) : Session where
  sender := .new capacity isn initialRTOMs

/-- A step that cannot fail. -/
def total (s : Session) (op : Op) : Except Empty Session := .ok (s.step op)

def machine (capacity : Nat) (isn : Wrap32) (initialRTOMs : Nat) : Machine Session Op :=
  .det (.new capacity isn initialRTOMs) total

/-- The application does not write after its close. -/
def Orderly (s : Session) : Op → Prop
  | .write _ => s.sender.input.closed = false
  | _ => True

instance (s : Session) : ∀ op, Decidable (Orderly s op)
  | .write _ => by
    unfold Orderly
    infer_instance
  | .close | .push | .tick _ | .receive _ _ => .isTrue trivial

/-- `Segmented`, for a session. -/
def Good (s : Session) : Prop := Segmented s.sender s.sent s.written

variable {capacity initialRTOMs : Nat} {isn : Wrap32} {s s' : Session} {op : Op}

theorem Good.step (h : Good s) (hok : Orderly s op) : Good (s.step op) := by
  cases op with
  | write data => exact Segmented.write h hok data
  | close => exact Segmented.close h
  | push => exact TCPSender.Segmented.push h
  | tick ms => exact Segmented.tick h ms
  | receive stale msg => exact Segmented.receive h

theorem isn_step (s : Session) (hs : Good s) (op : Op) : (s.step op).sender.isn = s.sender.isn := by
  cases op with
  | write data => rfl
  | close => rfl
  | push => exact (Segmented.pushed hs).isn
  | tick ms =>
    show (s.sender.tick ms).1.isn = _
    rw [tick_eq]
  | receive stale msg =>
    show (s.sender.receive stale msg).isn = _
    rcases s.sender.receive_cases stale msg with ⟨-, error, he⟩ | ⟨-, hr⟩
    · rw [he]
    · exact hr.isn

theorem good (hcap : capacity < 2 ^ 64)
    (h : (machine capacity isn initialRTOMs).Reaches Orderly s) : Good s :=
  h.invariant_total (.new hcap isn initialRTOMs) fun _ _ hs hok => hs.step hok

theorem sender_isn (hcap : capacity < 2 ^ 64)
    (h : (machine capacity isn initialRTOMs).Reaches Orderly s) : s.sender.isn = isn := by
  refine h.invariant_of (P := fun s => s.sender.isn = isn) (fun s hs => ?_)
    fun s op s' hr hs hok hst => ?_
  · obtain rfl : s = _ := hs
    rfl
  · obtain rfl := Except.ok.inj hst
    exact (isn_step s (good hcap hr) op).trans hs

/-- In every run: the segments are cut from the stream one behind the other, what is outstanding is
the last of them, `sequence_numbers_in_flight` counts it, and a tick repeats its first segment or
nothing. The loop in `push` always comes to its end. -/
theorem segments_outstanding (capacity : Nat) (isn : Wrap32) (initialRTOMs : Nat) (s : Session)
    (hcap : capacity < 2 ^ 64) (h : (machine capacity isn initialRTOMs).Reaches Orderly s) :
    s.sender.isn = isn ∧ Segmented s.sender s.sent s.written ∧
      (s.sender.sequenceNumbersInFlight = match s.sender.sendBuffer.head? with
        | some x => s.sender.absSeqno - x.1
        | none => 0) ∧
      (∀ ms, (s.sender.tick ms).2 = [] ∨
        ∃ x rest, s.sender.sendBuffer = x :: rest ∧ (s.sender.tick ms).2 = [x.2]) ∧
      s.sender.pushed.guard = false :=
  ⟨sender_isn hcap h, good hcap h, Segmented.inFlight_eq (good hcap h),
    fun ms => tick_retransmits s.sender ms, Segmented.push_done (good hcap h)⟩

/-- A SYN, five bytes in two segments, the second with the FIN, and the first acknowledged. -/
theorem segments_outstanding_fin : ∃ s : Session, s.sender.finSet = true ∧
    s.sender.sequenceNumbersInFlight = 3 ∧ Segmented s.sender s.sent s.written := by
  obtain ⟨s, h, hf, hbuf⟩ := Machine.exists_reaches total (.new 8 ⟨7⟩ 100) Orderly
    (fun s => s.sender.finSet = true ∧
      s.sender.sendBuffer.head?.map (fun x => s.sender.absSeqno - x.1) = some 3)
    [.push, .receive ⟨0⟩ { ackno := some ⟨8⟩, windowSize := 3 }, .write [1, 2, 3, 4, 5], .push,
      .close, .receive ⟨0⟩ { ackno := some ⟨11⟩, windowSize := 4 }, .push]
    (by decide +kernel) (by decide +kernel)
  obtain ⟨-, hg, hflight, -⟩ := segments_outstanding 8 ⟨7⟩ 100 s (by decide) h
  refine ⟨s, hf, ?_, hg⟩
  rw [hflight]
  cases hh : s.sender.sendBuffer.head? with
  | none =>
    rw [hh] at hbuf
    cases hbuf
  | some x =>
    rw [hh] at hbuf
    exact Option.some.inj hbuf

end Session

end TCPSender

end Minnow
