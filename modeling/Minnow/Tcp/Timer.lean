import Minnow.Tcp.Session

/-!
# The retransmission timer

The sender has no flag for a running timer: `timer_` is a sum of ticks that is cleared when it
fires, when new data is acknowledged, and by every tick that finds nothing outstanding. `Timing`
keeps next to a sender what the timer stands for: the time since the last restart (`elapsed`), the
largest ack so far, the retransmissions since it and how many of them backed off, and the last
window.

`Timed` is the invariant. With nothing outstanding `timer_` is zero, so the first segment that is
sent then finds it restarted; otherwise it is `elapsed`. `timer_correct` is the statement for every
run whose acks do not run ahead; the application may do what it likes.
-/

namespace Minnow

namespace TCPSender

/-- A sender, with what its timer stands for. Before the first ack nothing is acknowledged, so the
largest one is `0`. -/
structure Timing where
  sender : TCPSender
  elapsed : Nat := 0
  largestAck : Nat := 0
  retransmissions : Nat := 0
  backoffs : Nat := 0
  lastWindow : Option UInt16 := none
  deriving DecidableEq

namespace Timing

/-- The last window that was advertised is not zero. -/
def windowOpen (s : Timing) : Bool := s.lastWindow.any (· != 0)

/-- A message arrives: an ack larger than every earlier one restarts everything. -/
def receive (s : Timing) (stale : Wrap32) (msg : TCPReceiverMessage) : Timing :=
  let absAckno := s.sender.absAckno stale msg
  let sender := s.sender.receive stale msg
  let lastWindow := some msg.windowSize
  if s.largestAck < absAckno then { sender, largestAck := absAckno, lastWindow }
  else { s with sender, lastWindow }

/-- Time passes, and the oldest segment may be sent again. -/
def tick (s : Timing) (ms : Nat) : Timing :=
  match s.sender.tick ms with
  | (sender, []) => { s with sender, elapsed := s.elapsed + ms }
  | (sender, m :: _) => { s with
      sender
      elapsed := 0
      retransmissions := s.retransmissions + 1
      backoffs := s.backoffs + (s.windowOpen || m.syn).toNat }

/-- A push, which restarts the timer when it sends the first outstanding segment. -/
def push (s : Timing) : Timing :=
  { s with
    sender := s.sender.push.1
    elapsed := if s.sender.sendBuffer.isEmpty && !s.sender.push.2.isEmpty then 0 else s.elapsed }

def step (s : Timing) : Op → Timing
  | .write data => { s with sender := s.sender.write data }
  | .close => { s with sender := s.sender.close }
  | .push => s.push
  | .tick ms => s.tick ms
  | .receive stale msg => s.receive stale msg

def new (capacity : Nat) (isn : Wrap32) (initialRTOMs : Nat) : Timing where
  sender := .new capacity isn initialRTOMs

/-- A step that cannot fail. -/
def total (s : Timing) (op : Op) : Except Empty Timing := .ok (s.step op)

def machine (capacity : Nat) (isn : Wrap32) (initialRTOMs : Nat) : Machine Timing Op :=
  .det (.new capacity isn initialRTOMs) total

/-- A message has an ackno that does not exceed the next sequence number, and no sum of times leaves
its 64 bits. -/
def Regular (s : Timing) : Op → Prop
  | .receive _ msg => ∃ a ∈ msg.ackno, a.unwrap s.sender.isn s.sender.absSeqno ≤ s.sender.absSeqno
  | .tick ms => s.sender.timer + ms < 2 ^ 64 ∧
      ((s.sender.tick ms).2 ≠ [] → 2 * s.sender.currentRTO < 2 ^ 64)
  | _ => True

instance (s : Timing) : ∀ op, Decidable (Regular s op)
  | .receive _ _ | .tick _ => by
    unfold Regular
    infer_instance
  | .write _ | .close | .push => .isTrue trivial

/-- The timer of the sender stands for what is kept beside it. -/
structure Timed (initialRTOMs : Nat) (s : Timing) : Prop where
  input : s.sender.input.WF
  initialRTO : s.sender.initialRTOMs = initialRTOMs
  outstanding : ∃ n out, s.sender.sendBuffer = positions n out ∧
    s.sender.absSeqno = n + totalLength out ∧ ∀ m ∈ out, 0 < m.sequenceLength
  ack_le : s.largestAck ≤ s.sender.absSeqno
  unacked : ∀ x ∈ s.sender.sendBuffer, s.largestAck < x.1 + x.2.sequenceLength
  preAbsAckno : s.sender.preAbsAckno = s.largestAck
  idle : s.sender.sendBuffer = [] → s.sender.timer = 0
  running : s.sender.sendBuffer ≠ [] → s.sender.timer = s.elapsed
  count : s.sender.numConsecutiveRetran = s.retransmissions
  window : s.sender.receiverFull = !s.windowOpen
  fresh : s.sender.synSet = false → s.sender.sendBuffer = [] ∧ s.backoffs = 0
  rto : s.sender.synSet = true → s.sender.currentRTO = initialRTOMs * 2 ^ s.backoffs

end Timing

/-! ## Receive -/

section

variable {s : TCPSender} {stale : Wrap32} {msg : TCPReceiverMessage}

theorem le_of_mem_positions {n : Nat} {out : List TCPSenderMessage} {x : Nat × TCPSenderMessage}
    (h : x ∈ positions n out) : n ≤ x.1 := by
  induction out generalizing n with
  | nil => simp [positions] at h
  | cons m out ih =>
    rcases List.mem_cons.mp h with rfl | h
    · exact Nat.le_refl _
    · exact Nat.le_trans (Nat.le_add_right _ _) (ih h)

theorem lt_of_mem_positions {n : Nat} {out : List TCPSenderMessage} {x : Nat × TCPSenderMessage}
    (hlen : ∀ m ∈ out, 0 < m.sequenceLength) (h : x ∈ positions n out) :
    n < x.1 + x.2.sequenceLength := by
  have hle := le_of_mem_positions h
  have hpos := hlen x.2 (mem_positions h)
  omega

theorem end_of_getLast_positions {n : Nat} {out : List TCPSenderMessage}
    {x : Nat × TCPSenderMessage} (h : (positions n out).getLast? = some x) :
    x.1 + x.2.sequenceLength = n + totalLength out := by
  rcases List.eq_nil_or_concat out with rfl | ⟨l, m, rfl⟩
  · simp [positions] at h
  · rw [List.concat_eq_append] at h ⊢
    rw [positions_append, positions, positions, List.getLast?_concat] at h
    obtain rfl := Option.some.inj h
    simp [totalLength, Nat.add_assoc]

/-- What stays in the buffer ends behind the ack. -/
theorem lt_of_mem_dropWhile {absAckno n : Nat} {out : List TCPSenderMessage}
    {x : Nat × TCPSenderMessage} (h : x ∈ (positions n out).dropWhile (ackedBy absAckno)) :
    absAckno < x.1 + x.2.sequenceLength := by
  induction out generalizing n with
  | nil => simp [positions] at h
  | cons m out ih =>
    rw [positions, List.dropWhile_cons] at h
    split at h
    · exact ih h
    · rename_i hm
      have hlt : absAckno < n + m.sequenceLength := Nat.lt_of_not_le (mt decide_eq_true hm)
      rcases List.mem_cons.mp h with rfl | h
      · exact hlt
      · have := le_of_mem_positions h
        omega

/-- An ack that does not run ahead is processed. -/
theorem accepts_of_le {n : Nat} {out : List TCPSenderMessage} {a : Wrap32}
    (hbuf : s.sendBuffer = positions n out) (habs : s.absSeqno = n + totalLength out)
    (hmsg : msg.ackno = some a) (hle : s.absAckno stale msg ≤ s.absSeqno) :
    s.accepts stale msg = true := by
  have hlast : s.beyondLast (s.absAckno stale msg) = false := by
    unfold beyondLast
    split
    · rename_i x hx
      rw [hbuf] at hx
      have := end_of_getLast_positions hx
      exact decide_eq_false (by omega)
    · rfl
  unfold accepts
  rw [hlast, hmsg]
  rfl

/-- What a processed message does to the timer: it restarts for an ack of new data. -/
theorem receive_timer (h : s.accepts stale msg = true) :
    (s.receive stale msg).initialRTOMs = s.initialRTOMs ∧
    (s.receive stale msg).preAbsAckno = max s.preAbsAckno (s.absAckno stale msg) ∧
    (s.preAbsAckno < s.absAckno stale msg → (s.receive stale msg).timer = 0 ∧
      (s.receive stale msg).numConsecutiveRetran = 0 ∧
      (s.receive stale msg).currentRTO = s.initialRTOMs) ∧
    (s.absAckno stale msg ≤ s.preAbsAckno → (s.receive stale msg).timer = s.timer ∧
      (s.receive stale msg).numConsecutiveRetran = s.numConsecutiveRetran ∧
      (s.receive stale msg).currentRTO = s.currentRTO) := by
  unfold accepts at h
  rw [Bool.not_eq_true', Bool.or_eq_false_iff] at h
  unfold receive
  dsimp only
  rw [h.1, h.2, if_neg Bool.false_ne_true, if_neg Bool.false_ne_true, eraseAcked_eq, takeWindow_eq,
    credited_fields]
  unfold restartTimer
  dsimp only
  split
  · rename_i hlt
    exact ⟨rfl, (Nat.max_eq_right (Nat.le_of_lt hlt)).symm, fun _ => ⟨rfl, rfl, rfl⟩,
      fun hle => absurd hlt (Nat.not_lt.mpr hle)⟩
  · rename_i hlt
    exact ⟨rfl, (Nat.max_eq_left (Nat.not_lt.mp hlt)).symm, fun h => absurd h hlt,
      fun _ => ⟨rfl, rfl, rfl⟩⟩

end

section

variable {s : TCPSender} {ms t : Nat} {x : Nat × TCPSenderMessage}
  {rest : List (Nat × TCPSenderMessage)}

theorem tick_nil (hb : s.sendBuffer = []) : s.tick ms = ({ s with timer := 0 }, []) := by
  unfold tick
  simp [hb]

theorem tick_wait (hb : s.sendBuffer = x :: rest) (hsum : add64 s.timer ms = t)
    (h : t < s.currentRTO) : s.tick ms = ({ s with timer := t }, []) := by
  unfold tick
  simp [hb, hsum, Nat.not_le.mpr h]

theorem tick_fire (hb : s.sendBuffer = x :: rest) (hsum : add64 s.timer ms = t)
    (h : s.currentRTO ≤ t) : s.tick ms = ({ s with
      numConsecutiveRetran := s.numConsecutiveRetran + 1
      currentRTO := if !s.receiverFull || x.2.syn then add64 s.currentRTO s.currentRTO
        else s.currentRTO
      timer := 0 }, [x.2]) := by
  unfold tick
  simp [hb, hsum, h]

end

namespace Timing

section

variable {capacity initialRTOMs : Nat} {isn : Wrap32} {s : Timing} {op : Op}

theorem Timed.new (hcap : capacity < 2 ^ 64) (isn : Wrap32) (initialRTOMs : Nat) :
    Timed initialRTOMs (.new capacity isn initialRTOMs) where
  input := .new hcap
  initialRTO := rfl
  outstanding := ⟨0, [], rfl, rfl, fun m hm => by simp at hm⟩
  ack_le := Nat.le_refl 0
  unacked _ hx := absurd hx List.not_mem_nil
  preAbsAckno := rfl
  idle _ := rfl
  running h := absurd rfl h
  count := rfl
  window := rfl
  fresh _ := ⟨rfl, rfl⟩
  rto h := absurd h Bool.false_ne_true

theorem Timed.receive {stale : Wrap32} {msg : TCPReceiverMessage} (h : Timed initialRTOMs s)
    (hok : Regular s (.receive stale msg)) : Timed initialRTOMs (s.receive stale msg) := by
  obtain ⟨a, ha, hle⟩ := hok
  obtain ⟨n, out, hbuf, habs, hlen⟩ := h.outstanding
  replace hle : s.sender.absAckno stale msg ≤ s.sender.absSeqno := by
    unfold absAckno
    rw [ha]
    exact hle
  have hacc := accepts_of_le hbuf habs ha hle
  obtain ⟨hinit, hpre, hnew, hold⟩ := receive_timer hacc
  rcases s.sender.receive_cases stale msg with ⟨hacc', -⟩ | ⟨-, hr⟩
  · rw [hacc] at hacc'
    simp at hacc'
  have hpos : ∃ n out, (s.sender.receive stale msg).sendBuffer = positions n out ∧
      (s.sender.receive stale msg).absSeqno = n + totalLength out ∧
      ∀ m ∈ out, 0 < m.sequenceLength := by
    obtain ⟨acked, rest, rfl, hbuf', habs'⟩ := hr.outstanding hbuf habs
    exact ⟨_, rest, hbuf', habs', fun m hm => hlen m (List.mem_append_right _ hm)⟩
  have hfull : (s.sender.receive stale msg).receiverFull =
      !(some msg.windowSize).any (· != 0) := by
    rw [hr.receiverFull]
    simp [bne]
  have hfresh : (s.sender.receive stale msg).synSet = false →
      (s.sender.receive stale msg).sendBuffer = [] ∧ s.backoffs = 0 := fun hs => by
    obtain ⟨he, hb⟩ := h.fresh (hr.synSet ▸ hs)
    refine ⟨?_, hb⟩
    rw [hr.sendBuffer, TCPSender.unacked, he]
    rfl
  rw [h.preAbsAckno] at hpre hnew hold
  unfold Timing.receive
  dsimp only
  split
  · rename_i hlt
    obtain ⟨ht, hn, hrto⟩ := hnew hlt
    refine ⟨hr.input ▸ h.input, hinit.trans h.initialRTO, hpos, hr.absSeqno ▸ hle, fun x hx => ?_,
      hpre.trans (Nat.max_eq_right (Nat.le_of_lt hlt)), fun _ => ht, fun _ => ht, hn, hfull,
      fun hs => ⟨(hfresh hs).1, rfl⟩, fun _ => ?_⟩
    · rw [hr.sendBuffer, TCPSender.unacked, hbuf] at hx
      exact lt_of_mem_dropWhile hx
    · rw [hrto, h.initialRTO]
      exact (Nat.mul_one _).symm
  · -- an old ack acknowledges nothing that is outstanding
    rename_i hlt
    obtain ⟨ht, hn, hrto⟩ := hold (Nat.not_lt.mp hlt)
    have hsame : (s.sender.receive stale msg).sendBuffer = s.sender.sendBuffer := by
      rw [hr.sendBuffer]
      refine List.dropWhile_eq_self_iff.mpr fun hl => ?_
      have := h.unacked _ (List.getElem_mem hl)
      exact mt of_decide_eq_true (by omega)
    refine ⟨hr.input ▸ h.input, hinit.trans h.initialRTO, hpos, hr.absSeqno ▸ h.ack_le,
      hsame ▸ h.unacked, hpre.trans (Nat.max_eq_left (Nat.not_lt.mp hlt)), fun he => ?_,
      fun hne => ?_, hn.trans h.count, hfull, hfresh, fun hs => ?_⟩
    · exact ht.trans (h.idle (hsame ▸ he))
    · exact ht.trans (h.running (hsame ▸ hne))
    · exact hrto.trans (h.rto (hr.synSet ▸ hs))

/-! ## Push and tick -/

/-- A push keeps the timer, which is zero when it sends the first outstanding segment. -/
theorem Timed.push (h : Timed initialRTOMs s) : Timed initialRTOMs s.push := by
  obtain ⟨hx, hsyn⟩ := push_extended h.input
  obtain ⟨n, out, hbuf, habs, hlen⟩ := h.outstanding
  obtain ⟨hbuf', habs'⟩ := hx.outstanding hbuf habs
  refine ⟨hx.input, hx.initialRTOMs.trans h.initialRTO,
    ⟨n, out ++ s.sender.push.2, hbuf', habs', fun m hm => ?_⟩, ?_, fun x hmem => ?_,
    hx.preAbsAckno.trans h.preAbsAckno, fun he => ?_, fun hne => ?_,
    hx.numConsecutiveRetran.trans h.count, hx.receiverFull.trans h.window, fun hs => ?_,
    fun _ => ?_⟩
  · rcases List.mem_append.mp hm with hm | hm
    · exact hlen m hm
    · exact hx.length_pos m hm
  · show s.largestAck ≤ s.sender.push.1.absSeqno
    rw [hx.absSeqno]
    exact Nat.le_trans h.ack_le (Nat.le_add_right _ _)
  · -- what is sent now lies behind every number that was used
    rw [show s.push.sender.sendBuffer = _ from hx.sendBuffer] at hmem
    rcases List.mem_append.mp hmem with hmem | hmem
    · exact h.unacked x hmem
    · exact Nat.lt_of_le_of_lt h.ack_le (lt_of_mem_positions hx.length_pos hmem)
  · rw [show s.push.sender.sendBuffer = _ from hx.sendBuffer] at he
    exact hx.timer.trans (h.idle (List.append_eq_nil_iff.mp he).1)
  · show s.sender.push.1.timer = if _ then _ else _
    rw [hx.timer]
    by_cases hidle : s.sender.sendBuffer = []
    · rw [h.idle hidle, if_pos]
      rw [show s.push.sender.sendBuffer = _ from hx.sendBuffer, hidle, List.nil_append] at hne
      rw [hidle, List.isEmpty_nil, Bool.true_and, Bool.not_eq_true', List.isEmpty_eq_false_iff]
      intro hnil
      rw [hnil] at hne
      exact hne rfl
    · rw [h.running hidle, if_neg]
      simp [hidle]
  · rw [show s.push.sender.synSet = true from hsyn] at hs
    simp at hs
  · rcases hx.syn with ⟨hs, hrto⟩ | ⟨hs, -, hrto⟩
    · exact hrto.trans (h.rto (hs.symm.trans hsyn))
    · show s.sender.push.1.currentRTO = initialRTOMs * 2 ^ s.backoffs
      rw [hrto, (h.fresh hs).2, h.initialRTO]
      exact (Nat.mul_one _).symm

/-- A tick retransmits where something is outstanding and the time has come. -/
theorem Timed.tick_fires {ms : Nat} (h : Timed initialRTOMs s)
    (hfits : s.sender.timer + ms < 2 ^ 64) :
    (s.sender.tick ms).2 ≠ [] ↔
      s.sender.sendBuffer ≠ [] ∧ s.sender.currentRTO ≤ s.elapsed + ms := by
  cases hb : s.sender.sendBuffer with
  | nil =>
    rw [tick_nil hb]
    simp
  | cons x rest =>
    have hsum : add64 s.sender.timer ms = s.elapsed + ms := by
      rw [add64_of_lt hfits, h.running (by simp [hb])]
    by_cases hrto : s.sender.currentRTO ≤ s.elapsed + ms
    · rw [tick_fire hb hsum hrto]
      simp [hrto]
    · rw [tick_wait hb hsum (Nat.lt_of_not_le hrto)]
      simp [hrto]

/-- The RTO after a retransmission of `m`. -/
theorem Timed.backed_off (h : Timed initialRTOMs s) (hsyn : s.sender.synSet = true)
    (hdouble : 2 * s.sender.currentRTO < 2 ^ 64) (m : TCPSenderMessage) :
    (if !s.sender.receiverFull || m.syn then add64 s.sender.currentRTO s.sender.currentRTO
      else s.sender.currentRTO) =
    initialRTOMs * 2 ^ (s.backoffs + (s.windowOpen || m.syn).toNat) := by
  rw [h.window, Bool.not_not]
  cases hb : s.windowOpen || m.syn with
  | false =>
    rw [if_neg Bool.false_ne_true]
    exact h.rto hsyn
  | true =>
    rw [if_pos rfl, add64_of_lt (by omega), h.rto hsyn, Bool.toNat_true, pow_succ]
    ring

theorem Timed.tick {ms : Nat} (h : Timed initialRTOMs s) (hok : Regular s (.tick ms)) :
    Timed initialRTOMs (s.tick ms) := by
  obtain ⟨hfits, hdouble⟩ := hok
  unfold Timing.tick
  cases hb : s.sender.sendBuffer with
  | nil =>
    rw [tick_nil hb]
    exact ⟨h.input, h.initialRTO, h.outstanding, h.ack_le, h.unacked, h.preAbsAckno,
      fun _ => rfl, fun hne => absurd hb hne, h.count, h.window, h.fresh, h.rto⟩
  | cons x rest =>
    have hne : s.sender.sendBuffer ≠ [] := by simp [hb]
    have hsyn : s.sender.synSet = true := by
      by_contra hs
      exact hne (h.fresh (Bool.eq_false_of_not_eq_true hs)).1
    have hsum : add64 s.sender.timer ms = s.elapsed + ms := by
      rw [add64_of_lt hfits, h.running hne]
    by_cases hrto : s.sender.currentRTO ≤ s.elapsed + ms
    · rw [tick_fire hb hsum hrto] at hdouble ⊢
      exact ⟨h.input, h.initialRTO, h.outstanding, h.ack_le, h.unacked, h.preAbsAckno,
        fun _ => rfl, fun _ => rfl, congrArg (· + 1) h.count, h.window,
        fun hs => absurd (hsyn.symm.trans hs) Bool.false_ne_true.symm,
        fun _ => h.backed_off hsyn (hdouble (List.cons_ne_nil _ _)) x.2⟩
    · rw [tick_wait hb hsum (Nat.lt_of_not_le hrto)]
      exact ⟨h.input, h.initialRTO, h.outstanding, h.ack_le, h.unacked, h.preAbsAckno,
        fun he => absurd he hne, fun _ => rfl, h.count, h.window, h.fresh, h.rto⟩

theorem Timed.step (h : Timed initialRTOMs s) (hok : Regular s op) :
    Timed initialRTOMs (s.step op) := by
  cases op with
  | write data =>
    exact ⟨h.input.push data, h.initialRTO, h.outstanding, h.ack_le, h.unacked, h.preAbsAckno,
      h.idle, h.running, h.count, h.window, h.fresh, h.rto⟩
  | close =>
    exact ⟨h.input.close, h.initialRTO, h.outstanding, h.ack_le, h.unacked, h.preAbsAckno,
      h.idle, h.running, h.count, h.window, h.fresh, h.rto⟩
  | push => exact h.push
  | tick ms => exact h.tick hok
  | receive stale msg => exact h.receive hok

theorem timed (hcap : capacity < 2 ^ 64)
    (h : (machine capacity isn initialRTOMs).Reaches Regular s) : Timed initialRTOMs s :=
  h.invariant_total (.new hcap isn initialRTOMs) fun _ _ hs hok => hs.step hok

/-- The timer in every state of a run whose acks do not run ahead. A tick retransmits exactly when
something is outstanding and the time since the last restart reaches the RTO, and then the oldest
segment alone. -/
theorem timer_correct (capacity : Nat) (isn : Wrap32) (initialRTOMs : Nat) (s : Timing)
    (hcap : capacity < 2 ^ 64) (h : (machine capacity isn initialRTOMs).Reaches Regular s) :
    (∀ ms, s.sender.timer + ms < 2 ^ 64 →
      ((s.sender.tick ms).2 ≠ [] ↔
        s.sender.sendBuffer ≠ [] ∧ s.sender.currentRTO ≤ s.elapsed + ms) ∧
      ((s.sender.tick ms).2 ≠ [] → ∃ x rest, s.sender.sendBuffer = x :: rest ∧
        (s.sender.tick ms).2 = [x.2])) ∧
    s.sender.consecutiveRetransmissions = s.retransmissions ∧
    (s.sender.synSet = true → s.sender.currentRTO = initialRTOMs * 2 ^ s.backoffs) := by
  have ht := timed hcap h
  refine ⟨fun ms hms => ⟨ht.tick_fires hms, fun hne => ?_⟩, ht.count, ht.rto⟩
  exact (tick_retransmits s.sender ms).resolve_left hne

/-- The SYN is sent and resent, acknowledged with a window of five, and three bytes are resent. -/
theorem timer_correct_resent : ∃ s : Timing, s.elapsed = 30 ∧ s.sender.currentRTO = 200 ∧
    s.sender.consecutiveRetransmissions = 1 ∧ (s.sender.tick 169).2 = [] ∧
    (s.sender.tick 170).2 ≠ [] := by
  obtain ⟨s, hs, ht, he, hr, hb, hsyn, hne⟩ := Machine.exists_reaches total (.new 10 ⟨5⟩ 100)
    Regular
    (fun s => s.sender.timer = 30 ∧ s.elapsed = 30 ∧ s.retransmissions = 1 ∧ s.backoffs = 1 ∧
      s.sender.synSet = true ∧ s.sender.sendBuffer ≠ [])
    [.push, .tick 99, .tick 2, .receive ⟨0⟩ { ackno := some ⟨6⟩, windowSize := 5 },
      .write [97, 98, 99], .push, .tick 100, .tick 30]
    (by decide +kernel) (by decide +kernel)
  obtain ⟨htick, hcount, hrto⟩ := timer_correct 10 ⟨5⟩ 100 s (by decide) hs
  replace hrto : s.sender.currentRTO = 200 := by simp [hrto hsyn, hb]
  refine ⟨s, he, hrto, hcount.trans hr, ?_, ?_⟩
  · by_contra hne
    have := ((htick 169 (by omega)).1.mp hne).2
    omega
  · exact (htick 170 (by omega)).1.mpr ⟨hne, by omega⟩

/-- The RTO of a sender that has not sent its SYN is zero. And the first ack, of the ISN itself,
restarts nothing: 60 ms later the SYN is resent, with an RTO of 100 ms. -/
theorem no_timeout_before_syn :
    (∃ s : Timing, (machine 10 ⟨5⟩ 100).Reaches Regular s ∧
      s.sender.currentRTO ≠ 100 * 2 ^ s.backoffs) ∧
    ∃ s : Timing, (machine 10 ⟨5⟩ 100).Reaches Regular s ∧ s.sender.sendBuffer ≠ [] ∧
      Regular s (.receive ⟨0⟩ { ackno := some ⟨5⟩, windowSize := 1 }) ∧
      (s.step (.receive ⟨0⟩ { ackno := some ⟨5⟩, windowSize := 1 })).sender.currentRTO = 100 ∧
      ((s.step (.receive ⟨0⟩ { ackno := some ⟨5⟩, windowSize := 1 })).sender.tick 60).2 ≠ [] := by
  refine ⟨⟨.new 10 ⟨5⟩ 100, .init rfl, by decide⟩, ?_⟩
  exact Machine.exists_reaches total (.new 10 ⟨5⟩ 100) Regular
    (fun s => s.sender.sendBuffer ≠ [] ∧
      Regular s (.receive ⟨0⟩ { ackno := some ⟨5⟩, windowSize := 1 }) ∧
      (s.step (.receive ⟨0⟩ { ackno := some ⟨5⟩, windowSize := 1 })).sender.currentRTO = 100 ∧
      ((s.step (.receive ⟨0⟩ { ackno := some ⟨5⟩, windowSize := 1 })).sender.tick 60).2 ≠ [])
    [.push, .tick 60] (by decide +kernel) (by decide +kernel)

end

end Timing

end TCPSender

end Minnow
