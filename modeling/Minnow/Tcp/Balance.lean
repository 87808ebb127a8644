import Minnow.Tcp.PushLoop

/-!
# The balance of the window

What is left of a sender's window and what is in flight make up the largest window that it has heard
of, as long as the SYN is not acknowledged. The message that acknowledges it sets the window anew
and gives back what else it acknowledges, so from then on the two make up the largest window heard
since then and what was in flight behind the SYN's segment. A `Balance` keeps these two numbers next
to the session (`largest`, `behind`): the messages and the outstanding segments determine them.

`Balanced` is the invariant of every run, whatever the application and the receiver do. It is about
16-bit words, so the sum is right up to multiples of `2 ^ 16` (`exact`: and right where it fits).
`no_stall` follows: the window has wrapped to zero iff `2 ^ 16` of the sum are not in flight, so
with nothing outstanding iff the sum is `2 ^ 16`.
-/

namespace Minnow

namespace TCPSender

/-- The first sequence number that is outstanding if `l` is, and the next one if nothing is. -/
def firstOf (s : TCPSender) (l : List (Nat × TCPSenderMessage)) : Nat :=
  (l.head?.map Prod.fst).getD s.absSeqno

/-- The first outstanding sequence number. -/
def firstOutstanding (s : TCPSender) : Nat := s.firstOf s.sendBuffer

/-! ## A push -/

/-- What the rounds of a push that have transmitted `p.transmitted` leave. -/
structure Spent (s : TCPSender) (p : Pushing) : Prop where
  roomy : Roomy p
  maxReceiveWindow : p.sender.maxReceiveWindow = s.maxReceiveWindow
  window : p.sender.receiveWindow.toNat + totalLength p.transmitted = s.receiveWindow.toNat
  temp : p.tempReceiveWindow.toNat + totalLength p.transmitted = s.pushWindow.toNat
  bytes : s.input.peek = payloads p.transmitted ++ p.sender.input.peek
  syn : ∀ m ∈ p.transmitted.tail, m.syn = false
  synSet : s.synSet = true → ∀ m ∈ p.transmitted, m.syn = false
  sent : p.transmitted ≠ [] → p.sender.synSet = true
  idle : p.transmitted = [] → p = s.pushing

variable {s s' : TCPSender} {p : Pushing} {m : TCPSenderMessage}

theorem Spent.start (h : Opening s) : Spent s s.pushing where
  roomy := .start h.input h.fresh
  maxReceiveWindow := rfl
  window := rfl
  temp := rfl
  bytes := rfl
  syn _ hm := absurd hm List.not_mem_nil
  synSet _ _ hm := absurd hm List.not_mem_nil
  sent h := absurd rfl h
  idle _ := rfl

theorem Spent.round (h : Spent s p) (hg : p.guard = true) (hr : Round p p.body m) :
    Spent s p.body := by
  obtain ⟨m', hr', hfits⟩ := h.roomy.fits hg
  have hm : [m'] = [m] := List.append_cancel_left (hr'.transmitted.symm.trans hr.transmitted)
  obtain rfl : m' = m := (List.cons.inj hm).1
  have hsyn := hr.syn
  have hwindow : p.body.sender.receiveWindow.toNat =
      p.sender.receiveWindow.toNat - m'.sequenceLength := by
    rw [hr.sender]
    exact toNat_sub_ofNat hfits.window
  have htemp : p.body.tempReceiveWindow.toNat =
      p.tempReceiveWindow.toNat - m'.sequenceLength := by
    rw [hr.window]
    exact toNat_sub_ofNat hfits.temp
  have hlen : totalLength p.body.transmitted =
      totalLength p.transmitted + m'.sequenceLength := by
    rw [hr.transmitted, totalLength_append, totalLength_cons, totalLength_nil, Nat.add_zero]
  have hw := h.window
  have ht := h.temp
  have hfit := hfits.window
  have hfit' := hfits.temp
  refine ⟨h.roomy.round hr hfits, ?_, by omega, by omega, ?_, ?_, ?_, fun _ => ?_, fun hnil => ?_⟩
  · rw [hr.sender]
    exact h.maxReceiveWindow
  · rw [h.bytes, hr.transmitted, payloads_append, payloads_singleton, List.append_assoc,
      hr.peek h.roomy.ready.input]
  · rw [hr.transmitted]
    intro x hx
    by_cases hnil : p.transmitted = []
    · rw [hnil] at hx
      exact absurd hx List.not_mem_nil
    · rw [List.tail_append_of_ne_nil hnil] at hx
      rcases List.mem_append.mp hx with hx | hx
      · exact h.syn x hx
      · rw [List.mem_singleton.mp hx, hsyn, h.sent hnil]
        rfl
  · rw [hr.transmitted]
    intro hs x hx
    rcases List.mem_append.mp hx with hx | hx
    · exact h.synSet hs x hx
    · rw [List.mem_singleton.mp hx, hsyn]
      by_cases hnil : p.transmitted = []
      · rw [h.idle hnil]
        show (!s.synSet) = false
        rw [hs]
        rfl
      · rw [h.sent hnil]
        rfl
  · rw [hr.sender]
  · rw [hr.transmitted] at hnil
    simp at hnil

/-- After a push there is no room in its window, or nothing to send. -/
theorem Opening.push_spent (h : Opening s) : Spent s s.pushed ∧ s.pushed.guard = false :=
  push_loop h.input (.start h) fun _ _ hp hg hr => hp.round hg hr

/-- A push transmits iff there is something to send and room, or the SYN is to be sent. -/
theorem Opening.push_transmits_iff (h : Opening s) : s.push.2 ≠ [] ↔
    s.hasWork = true ∧ (s.synSet = true → 0 < s.pushWindow.toNat) := by
  rw [← pushing_guard]
  constructor
  · intro hne
    by_contra hg
    rw [push_of_done (Bool.eq_false_iff.mpr hg)] at hne
    exact hne rfl
  · intro hg hnil
    obtain ⟨hspent, hdone⟩ := h.push_spent
    rw [hspent.idle hnil, hg] at hdone
    cases hdone

/-- A push transmits no more than its window, and takes that from the window of the sender. -/
theorem Opening.push_windows (h : Opening s) : totalLength s.push.2 ≤ s.pushWindow.toNat ∧
    s.push.1.receiveWindow.toNat + totalLength s.push.2 = s.receiveWindow.toNat := by
  have htemp := h.push_spent.1.temp
  exact ⟨Nat.le.intro (Nat.add_comm _ _ ▸ htemp), h.push_spent.1.window⟩

/-- A push uses its window up, or transmits all the bytes there are. -/
theorem Opening.push_uses (h : Opening s) :
    min s.pushWindow.toNat s.input.peek.length ≤ totalLength s.push.2 := by
  obtain ⟨hspent, hdone⟩ := h.push_spent
  have htemp : s.pushed.tempReceiveWindow.toNat + totalLength s.push.2 = s.pushWindow.toNat :=
    hspent.temp
  rcases Nat.eq_zero_or_pos s.pushed.tempReceiveWindow.toNat with hz | hpos
  · omega
  · -- there is room left, so no byte is
    have hempty : s.pushed.sender.input.peek = [] := by
      by_contra hne
      have hsyn : s.pushed.sender.synSet = true := (push_extended h.input).2
      rw [(guard_iff _ hsyn).mpr ⟨hpos, .inl (hspent.roomy.ready.streamBytes ▸ hne)⟩] at hdone
      cases hdone
    have hbytes : s.input.peek = payloads s.push.2 ++ s.pushed.sender.input.peek := hspent.bytes
    rw [hbytes, hempty, List.append_nil]
    exact Nat.le_trans (Nat.min_le_right _ _) (payloads_length_le _)

theorem push_inFlight (h : s.input.WF) :
    s.push.1.sequenceNumbersInFlight = s.sequenceNumbersInFlight + totalLength s.push.2 := by
  unfold sequenceNumbersInFlight
  rw [(push_extended h).1.sendBuffer, List.map_append, List.sum_append, positions_length_sum]

/-! ## Runs -/

/-- A session, the largest window heard of since the SYN was acknowledged (or ever, before that),
and what was in flight behind the SYN's segment when it was. -/
structure Balance where
  session : Session
  largest : Nat := 1
  behind : Nat := 0
  deriving DecidableEq

namespace Balance

/-- The message acknowledges the SYN. -/
def acksSyn (b : Balance) (stale : Wrap32) (msg : TCPReceiverMessage) : Bool :=
  (b.session.sender.acked (b.session.sender.absAckno stale msg)).any (·.2.syn)

/-- The two numbers after a message that is processed. -/
def hear (b : Balance) (stale : Wrap32) (msg : TCPReceiverMessage) : Balance :=
  if b.acksSyn stale msg then { b with
    largest := max 1 msg.windowSize.toNat
    behind := dataLength b.session.sender.sendBuffer }
  else { b with largest := max b.largest msg.windowSize.toNat }

def step (b : Balance) (op : Op) : Balance :=
  let b' := match op with
    | .receive stale msg => if b.session.sender.accepts stale msg then b.hear stale msg else b
    | _ => b
  { b' with session := b.session.step op }

def total (b : Balance) (op : Op) : Except Empty Balance := .ok (b.step op)

def new (capacity : Nat) (isn : Wrap32) (initialRTOMs : Nat) : Balance where
  session := .new capacity isn initialRTOMs

def machine (capacity : Nat) (isn : Wrap32) (initialRTOMs : Nat) : Machine Balance Op :=
  .det (.new capacity isn initialRTOMs) total

/-- What is left of the window and what is in flight. -/
def sum (b : Balance) : Nat :=
  b.session.sender.receiveWindow.toNat + b.session.sender.sequenceNumbersInFlight

/-- The sum is that of the two numbers, up to multiples of `2 ^ 16`. -/
structure Balanced (b : Balance) : Prop where
  opening : Opening b.session.sender
  outstanding : ∃ n out, b.session.sender.sendBuffer = positions n out ∧
    b.session.sender.absSeqno = n + totalLength out
  syn : ∀ x ∈ b.session.sender.sendBuffer.tail, x.2.syn = false
  largest : b.session.sender.maxReceiveWindow.toNat = b.largest
  pos : 1 ≤ b.largest
  behind : b.behind < 2 ^ 16
  le : b.sum ≤ b.largest + b.behind
  mod : b.sum % 2 ^ 16 = (b.largest + b.behind) % 2 ^ 16
  unacked : b.session.sender.synSet = false ∨
    b.session.sender.sendBuffer.any (·.2.syn) = true → b.sum = b.largest ∧ b.behind = 0

variable {b : Balance} {absAckno : Nat} {op : Op} {stale : Wrap32} {msg : TCPReceiverMessage}

theorem Balanced.new {capacity : Nat} (h : capacity < 2 ^ 64) (isn : Wrap32)
    (initialRTOMs : Nat) : Balanced (.new capacity isn initialRTOMs) where
  opening := .new h isn initialRTOMs
  outstanding := ⟨0, [], rfl, rfl⟩
  syn _ hx := absurd hx List.not_mem_nil
  largest := rfl
  pos := Nat.le_refl 1
  behind := Nat.two_pow_pos 16
  le := Nat.le_refl 1
  mod := rfl
  unacked _ := ⟨rfl, rfl⟩

/-- The stream, the timer and the numbers sent are of no account. -/
theorem Balanced.still {b' : Balance} (h : Balanced b) (ho : Opening b'.session.sender)
    (hbuf : b'.session.sender.sendBuffer = b.session.sender.sendBuffer)
    (habs : b'.session.sender.absSeqno = b.session.sender.absSeqno)
    (hsyn : b'.session.sender.synSet = b.session.sender.synSet)
    (hwin : b'.session.sender.receiveWindow = b.session.sender.receiveWindow)
    (hmax : b'.session.sender.maxReceiveWindow = b.session.sender.maxReceiveWindow)
    (hlargest : b'.largest = b.largest) (hbehind : b'.behind = b.behind) : Balanced b' := by
  have hsum : b'.sum = b.sum := by
    unfold sum sequenceNumbersInFlight
    rw [hwin, hbuf]
  constructor
  · exact ho
  · rw [hbuf, habs]
    exact h.outstanding
  · rw [hbuf]
    exact h.syn
  · rw [hmax, hlargest]
    exact h.largest
  · exact hlargest ▸ h.pos
  · exact hbehind ▸ h.behind
  · rw [hsum, hlargest, hbehind]
    exact h.le
  · rw [hsum, hlargest, hbehind]
    exact h.mod
  · rw [hsum, hlargest, hbehind, hsyn, hbuf]
    exact h.unacked

/-- A push moves numbers from the window into flight. -/
theorem Balanced.push (h : Balanced b) : Balanced (b.step .push) := by
  obtain ⟨hext, hset⟩ := push_extended h.opening.input
  obtain ⟨hspent, -⟩ := h.opening.push_spent
  obtain ⟨n, out, hbuf, habs⟩ := h.outstanding
  have hbuffer : (b.step .push).session.sender.sendBuffer = b.session.sender.sendBuffer ++
      positions b.session.sender.absSeqno b.session.sender.push.2 := hext.sendBuffer
  have hsum : (b.step .push).sum = b.sum := by
    obtain ⟨-, hwindow⟩ := h.opening.push_windows
    have hflight := push_inFlight h.opening.input
    show b.session.sender.push.1.receiveWindow.toNat +
      b.session.sender.push.1.sequenceNumbersInFlight = _
    unfold sum
    omega
  -- only the first segment that the sender ever transmits has the SYN
  have hnew : b.session.sender.synSet = true →
      ∀ x ∈ positions b.session.sender.absSeqno b.session.sender.push.2, x.2.syn = false :=
    fun hs x hx => hspent.synSet hs x.2 (mem_positions hx)
  constructor
  · exact h.opening.push
  · obtain ⟨hbuf', habs'⟩ := hext.outstanding hbuf habs
    exact ⟨n, out ++ b.session.sender.push.2, hbuf', habs'⟩
  · rw [hbuffer]
    intro x hx
    cases hs : b.session.sender.synSet with
    | false =>
      rw [h.opening.unsent hs, List.nil_append] at hx
      have htail : x.2 ∈ b.session.sender.push.2.tail := by
        rw [← positions_map_snd b.session.sender.absSeqno b.session.sender.push.2, ← List.map_tail]
        exact List.mem_map_of_mem hx
      exact hspent.syn x.2 htail
    | true =>
      by_cases hnil : b.session.sender.sendBuffer = []
      · rw [hnil, List.nil_append] at hx
        exact hnew hs x (List.mem_of_mem_tail hx)
      · rw [List.tail_append_of_ne_nil hnil] at hx
        rcases List.mem_append.mp hx with hx | hx
        · exact h.syn x hx
        · exact hnew hs x hx
  · rw [show (b.step .push).session.sender.maxReceiveWindow = _ from hspent.maxReceiveWindow]
    exact h.largest
  · exact h.pos
  · exact h.behind
  · rw [hsum]
    exact h.le
  · rw [hsum]
    exact h.mod
  · intro hopen
    rw [hsum]
    refine h.unacked ?_
    rcases hopen with hs | hany
    · rw [show (b.step .push).session.sender.synSet = true from hset] at hs
      cases hs
    · cases hs : b.session.sender.synSet with
      | false => exact .inl rfl
      | true =>
        rw [hbuffer, List.any_append, Bool.or_eq_true] at hany
        refine .inr (hany.resolve_right fun hany => ?_)
        obtain ⟨x, hx, hsyn⟩ := List.any_eq_true.mp hany
        rw [hnew hs x hx] at hsyn
        cases hsyn

/-- The segments that a message acknowledges and those that it leaves. -/
theorem sendBuffer_eq (s : TCPSender) (absAckno : Nat) :
    s.sendBuffer = s.acked absAckno ++ s.unacked absAckno :=
  List.takeWhile_append_dropWhile.symm

theorem unacked_tail_no_syn {s : TCPSender} (h : ∀ x ∈ s.sendBuffer.tail, x.2.syn = false)
    (absAckno : Nat) : ∀ x ∈ (s.unacked absAckno).tail, x.2.syn = false := by
  intro x hx
  refine h x ?_
  rw [sendBuffer_eq s absAckno]
  by_cases hnil : s.acked absAckno = []
  · rw [hnil]
    exact hx
  · rw [List.tail_append_of_ne_nil hnil]
    exact List.mem_append_right _ (List.mem_of_mem_tail hx)

theorem step_of_accepts (h : b.session.sender.accepts stale msg = true) :
    b.step (.receive stale msg) =
      { b.hear stale msg with session := b.session.step (.receive stale msg) } := by
  unfold step
  dsimp only
  rw [if_pos h]

theorem step_of_drops (h : b.session.sender.accepts stale msg = false) :
    b.step (.receive stale msg) =
      { b with session := b.session.step (.receive stale msg) } := by
  unfold step
  dsimp only
  rw [if_neg (by rw [h]; exact Bool.false_ne_true)]

/-- If the SYN's segment is acknowledged, the numbers behind it are what is in flight behind it. -/
theorem Balanced.dataLength_sendBuffer (h : Balanced b) (absAckno : Nat)
    (hany : (b.session.sender.acked absAckno).any (·.2.syn) = true) :
    dataLength b.session.sender.sendBuffer = dataLength (b.session.sender.acked absAckno) +
        ((b.session.sender.unacked absAckno).map fun x => x.2.sequenceLength).sum ∧
      (b.session.sender.unacked absAckno).any (·.2.syn) = false := by
  have hne : b.session.sender.acked absAckno ≠ [] := fun hnil => by
    rw [hnil] at hany
    cases hany
  have hno : ∀ x ∈ b.session.sender.unacked absAckno, x.2.syn = false := fun x hx =>
    h.syn x (by
      rw [sendBuffer_eq _ absAckno, List.tail_append_of_ne_nil hne]
      exact List.mem_append_right _ hx)
  refine ⟨?_, by simpa using hno⟩
  rw [← dataLength_of_no_syn hno]
  conv_lhs => rw [sendBuffer_eq b.session.sender absAckno]
  unfold dataLength
  rw [List.filter_append, List.map_append, List.sum_append]

/-- The numbers `b` after a message that is processed, and the sum before the window is cut to
16 bits. -/
structure Hears (b : Balance) (sum : Nat) (unacked : Prop) : Prop where
  pos : 1 ≤ b.largest
  behind : b.behind < 2 ^ 16
  le : sum ≤ b.largest + b.behind
  mod : sum % 2 ^ 16 = (b.largest + b.behind) % 2 ^ 16
  unacked : unacked → sum = b.largest ∧ b.behind = 0

/-- Until the SYN is acknowledged, what is in flight is within the largest window. -/
theorem Balanced.dataLength_le (h : Balanced b) (hany : b.acksSyn stale msg = true) :
    dataLength b.session.sender.sendBuffer ≤ b.largest := by
  unfold acksSyn at hany
  have hopen := (h.unacked (.inr (by
    rw [sendBuffer_eq _ (b.session.sender.absAckno stale msg), List.any_append, hany,
      Bool.true_or]))).1
  calc dataLength b.session.sender.sendBuffer
      ≤ b.session.sender.sequenceNumbersInFlight := TCPSender.dataLength_le _
    _ ≤ b.sum := Nat.le_add_left _ _
    _ = b.largest := hopen

/-- The message that acknowledges the SYN starts both numbers anew. -/
theorem Balanced.hear_syn (h : Balanced b)
    (hany : b.acksSyn stale msg = true) (habs : b.session.sender.absAckno stale msg = absAckno) :
    Hears (b.hear stale msg)
      (b.session.sender.nextWindow absAckno msg.windowSize +
        ((b.session.sender.unacked absAckno).map fun x => x.2.sequenceLength).sum)
      (b.session.sender.synSet = false ∨
        (b.session.sender.unacked absAckno).any (·.2.syn) = true) := by
  have hb : b.hear stale msg = { b with
      largest := max 1 msg.windowSize.toNat
      behind := dataLength b.session.sender.sendBuffer } := if_pos hany
  have hflight := h.dataLength_le hany
  unfold acksSyn at hany
  rw [habs] at hany
  obtain ⟨hdata, hno⟩ := h.dataLength_sendBuffer absAckno hany
  have hmax := h.largest
  have hlt := b.session.sender.maxReceiveWindow.toNat_lt
  rw [hb]
  unfold nextWindow
  rw [if_pos hany]
  refine ⟨Nat.le_max_left _ _, ?_, ?_, ?_, fun hs => ?_⟩
  · show dataLength b.session.sender.sendBuffer < 2 ^ 16
    omega
  · show _ ≤ max 1 msg.windowSize.toNat + dataLength b.session.sender.sendBuffer
    omega
  · show _ = (max 1 msg.windowSize.toNat + dataLength b.session.sender.sendBuffer) % 2 ^ 16
    rw [hdata, Nat.add_assoc]
  · rcases hs with hs | hs
    · rw [acked, h.opening.unsent hs] at hany
      cases hany
    · rw [hno] at hs
      cases hs

/-- Any other message only makes the largest window grow. -/
theorem Balanced.hear_data (h : Balanced b)
    (hany : b.acksSyn stale msg = false) (habs : b.session.sender.absAckno stale msg = absAckno) :
    Hears (b.hear stale msg)
      (b.session.sender.nextWindow absAckno msg.windowSize +
        ((b.session.sender.unacked absAckno).map fun x => x.2.sequenceLength).sum)
      (b.session.sender.synSet = false ∨
        (b.session.sender.unacked absAckno).any (·.2.syn) = true) := by
  have hb : b.hear stale msg = { b with largest := max b.largest msg.windowSize.toNat } :=
    if_neg (by rw [hany]; exact Bool.false_ne_true)
  unfold acksSyn at hany
  rw [habs] at hany
  have hdata : dataLength (b.session.sender.acked absAckno) +
      ((b.session.sender.unacked absAckno).map fun x => x.2.sequenceLength).sum =
        b.session.sender.sequenceNumbersInFlight := by
    rw [dataLength_of_no_syn (by simpa using hany), ← List.sum_append, ← List.map_append,
      ← sendBuffer_eq]
    rfl
  have hpos := h.pos
  have hle := h.le
  have hmod := h.mod
  have hmax := h.largest
  unfold sum at hle hmod
  rw [hb]
  unfold nextWindow
  rw [if_neg (by rw [hany]; exact Bool.false_ne_true)]
  refine ⟨?_, h.behind, ?_, ?_, fun hs => ?_⟩
  · show 1 ≤ max b.largest msg.windowSize.toNat
    omega
  · show _ ≤ max b.largest msg.windowSize.toNat + b.behind
    omega
  · show _ = (max b.largest msg.windowSize.toNat + b.behind) % 2 ^ 16
    omega
  · obtain ⟨hopen, hzero⟩ := h.unacked (hs.imp_right fun hs => by
      rw [sendBuffer_eq _ absAckno, List.any_append, hs, Bool.or_true])
    unfold sum at hopen
    refine ⟨?_, hzero⟩
    show _ = max b.largest msg.windowSize.toNat
    omega

theorem Balanced.hears (h : Balanced b) (habs : b.session.sender.absAckno stale msg = absAckno) :
    Hears (b.hear stale msg)
      (b.session.sender.nextWindow absAckno msg.windowSize +
        ((b.session.sender.unacked absAckno).map fun x => x.2.sequenceLength).sum)
      (b.session.sender.synSet = false ∨
        (b.session.sender.unacked absAckno).any (·.2.syn) = true) := by
  cases hany : b.acksSyn stale msg with
  | true => exact h.hear_syn hany habs
  | false => exact h.hear_data hany habs

/-- A message takes what it acknowledges out of flight and gives it back to the window, and adds
what the largest window has grown by. -/
theorem Balanced.receive (h : Balanced b) (stale : Wrap32) (msg : TCPReceiverMessage) :
    Balanced (b.step (.receive stale msg)) := by
  have hopening : Opening (b.step (.receive stale msg)).session.sender :=
    h.opening.receive stale msg
  have hstep : (b.step (.receive stale msg)).session.sender =
      b.session.sender.receive stale msg := rfl
  rcases b.session.sender.receive_cases stale msg with ⟨hno, error, he⟩ | ⟨hyes, hr⟩
  · have hb := step_of_drops hno
    rw [he] at hstep
    exact h.still hopening (by rw [hstep]) (by rw [hstep]) (by rw [hstep]) (by rw [hstep])
      (by rw [hstep]) (by rw [hb]) (by rw [hb])
  · obtain ⟨absAckno, habs⟩ : ∃ absAckno, b.session.sender.absAckno stale msg = absAckno := ⟨_, rfl⟩
    obtain ⟨n, out, hbuf, hnum⟩ := h.outstanding
    rw [habs] at hr
    have hb : (b.step (.receive stale msg)).largest = (b.hear stale msg).largest ∧
        (b.step (.receive stale msg)).behind = (b.hear stale msg).behind := by
      rw [step_of_accepts hyes]
      exact ⟨rfl, rfl⟩
    have hwin := hr.receiveWindow_toNat h.syn
    have hmax := hr.maxReceiveWindow_toNat h.syn
    have hlargest : (b.hear stale msg).largest =
        (b.session.sender.receive stale msg).maxReceiveWindow.toNat := by
      rw [hmax, h.largest, ← habs]
      unfold hear acksSyn
      split <;> rfl
    have hears := h.hears habs
    have hle := hears.le
    have hmod := hears.mod
    have hsum : (b.step (.receive stale msg)).sum =
        b.session.sender.nextWindow absAckno msg.windowSize % 2 ^ 16 +
          ((b.session.sender.unacked absAckno).map fun x => x.2.sequenceLength).sum := by
      unfold sum sequenceNumbersInFlight
      rw [hstep, hwin, hr.sendBuffer]
    constructor
    · exact hopening
    · obtain ⟨acked, rest, -, hbuf', hnum'⟩ := hr.outstanding hbuf hnum
      exact ⟨n + totalLength acked, rest, hbuf', hnum'⟩
    · rw [hstep, hr.sendBuffer]
      exact unacked_tail_no_syn h.syn absAckno
    · rw [hstep, hb.1]
      exact hlargest.symm
    · rw [hb.1]
      exact hears.pos
    · rw [hb.2]
      exact hears.behind
    · rw [hsum, hb.1, hb.2]
      omega
    · rw [hsum, hb.1, hb.2]
      omega
    · rw [hsum, hb.1, hb.2, hstep, hr.synSet, hr.sendBuffer]
      intro hopen
      obtain ⟨heq, hzero⟩ := hears.unacked hopen
      have hlt := (b.session.sender.receive stale msg).maxReceiveWindow.toNat_lt
      exact ⟨by omega, hzero⟩

theorem Balanced.step (h : Balanced b) (op : Op) : Balanced (b.step op) := by
  cases op with
  | write data => exact h.still (h.opening.step (.write data)) rfl rfl rfl rfl rfl rfl rfl
  | close => exact h.still (h.opening.step .close) rfl rfl rfl rfl rfl rfl rfl
  | push => exact h.push
  | tick ms =>
    have htick : (b.step (.tick ms)).session.sender = (b.session.sender.tick ms).1 := rfl
    rw [tick_eq] at htick
    exact h.still (h.opening.step (.tick ms)) (by rw [htick]) (by rw [htick]) (by rw [htick])
      (by rw [htick]) (by rw [htick]) rfl rfl
  | receive stale msg => exact h.receive stale msg

theorem balanced {capacity initialRTOMs : Nat} {isn : Wrap32} (hcap : capacity < 2 ^ 64)
    (h : (machine capacity isn initialRTOMs).Reaches (fun _ _ => True) b) : Balanced b :=
  h.invariant_total (.new hcap isn initialRTOMs) fun _ op hb _ => hb.step op

/-- The two numbers are bounded by the windows heard of. -/
theorem Balanced.step_le {cap : Nat} (h : Balanced b) (hpos : 1 ≤ cap) (hlargest : b.largest ≤ cap)
    (hbehind : b.behind ≤ cap)
    (hw : ∀ stale msg, op = .receive stale msg → msg.windowSize.toNat ≤ cap) :
    (b.step op).largest ≤ cap ∧ (b.step op).behind ≤ cap := by
  cases op with
  | write data | close | push | tick ms => exact ⟨hlargest, hbehind⟩
  | receive stale msg =>
    have hwindow := hw stale msg rfl
    cases ha : b.session.sender.accepts stale msg with
    | false =>
      rw [step_of_drops ha]
      exact ⟨hlargest, hbehind⟩
    | true =>
      rw [step_of_accepts ha]
      unfold hear
      split
      · rename_i hany
        exact ⟨Nat.max_le.mpr ⟨hpos, hwindow⟩, (h.dataLength_le hany).trans hlargest⟩
      · exact ⟨Nat.max_le.mpr ⟨hlargest, hwindow⟩, hbehind⟩

/-- The sum is exact as long as it fits into 16 bits. -/
theorem Balanced.exact (h : Balanced b) (hfits : b.largest + b.behind < 2 ^ 16) :
    b.sum = b.largest + b.behind := by
  have hle := h.le
  have hmod := h.mod
  omega

/-- What is left of the window ends at the first outstanding number plus the sum. -/
theorem Balanced.first_add_sum (h : Balanced b) :
    b.session.sender.firstOutstanding + b.sum =
      b.session.sender.absSeqno + b.session.sender.receiveWindow.toNat := by
  obtain ⟨n, out, hbuf, habs⟩ := h.outstanding
  unfold firstOutstanding firstOf sum sequenceNumbersInFlight
  rw [hbuf, positions_length_sum]
  cases out with
  | nil =>
    show b.session.sender.absSeqno + (b.session.sender.receiveWindow.toNat + 0) = _
    rw [Nat.add_zero]
  | cons m out =>
    show n + (b.session.sender.receiveWindow.toNat + totalLength (m :: out)) = _
    omega

/-! ## No stall -/

/-- In every run, the window is used up iff all of the largest window heard of since the SYN was
acknowledged and of what was in flight behind the SYN then is in flight, or `2 ^ 16` less, where it
has wrapped. So with nothing outstanding, a push with something to send transmits iff the two are
not `2 ^ 16` together. -/
theorem no_stall (capacity : Nat) (isn : Wrap32) (initialRTOMs : Nat) (b : Balance)
    (hcap : capacity < 2 ^ 64)
    (h : (machine capacity isn initialRTOMs).Reaches (fun _ _ => True) b) :
    (b.session.sender.receiveWindow = 0 ↔
      b.session.sender.sequenceNumbersInFlight = b.largest + b.behind ∨
        b.session.sender.sequenceNumbersInFlight + 2 ^ 16 = b.largest + b.behind) ∧
    (b.session.sender.sendBuffer = [] →
      (b.session.sender.receiveWindow ≠ 0 ↔ b.largest + b.behind ≠ 2 ^ 16) ∧
      (b.session.sender.hasWork = true →
        (b.session.sender.push.2 ≠ [] ↔ b.largest + b.behind ≠ 2 ^ 16))) := by
  have hb := balanced hcap h
  have hzero : b.session.sender.receiveWindow = 0 ↔ b.session.sender.receiveWindow.toNat = 0 :=
    ⟨fun h => h ▸ rfl, fun h => UInt16.toNat.inj h⟩
  have hused : b.session.sender.receiveWindow = 0 ↔
      b.session.sender.sequenceNumbersInFlight = b.largest + b.behind ∨
        b.session.sender.sequenceNumbersInFlight + 2 ^ 16 = b.largest + b.behind := by
    have hle := hb.le
    have hmod := hb.mod
    have hmax := hb.largest
    have hbehind := hb.behind
    have hlt := b.session.sender.maxReceiveWindow.toNat_lt
    have hlt' := b.session.sender.receiveWindow.toNat_lt
    unfold sum at hle hmod
    rw [hzero]
    omega
  refine ⟨hused, fun hbuf => ?_⟩
  have hnone : b.session.sender.sequenceNumbersInFlight = 0 := by
    unfold sequenceNumbersInFlight
    rw [hbuf]
    rfl
  have hwin : b.session.sender.receiveWindow ≠ 0 ↔ b.largest + b.behind ≠ 2 ^ 16 := by
    have hpos := hb.pos
    rw [ne_eq, hused, hnone]
    omega
  refine ⟨hwin, fun hwork => ?_⟩
  have hroom : 0 < b.session.sender.receiveWindow.toNat ↔ b.largest + b.behind ≠ 2 ^ 16 := by
    rw [← hwin, ne_eq, hzero, Nat.pos_iff_ne_zero]
  rw [hb.opening.push_transmits_iff, ← hroom]
  obtain ⟨hle, -, hpush⟩ := b.session.sender.pushWindow_le
  refine ⟨fun hgo => ?_, fun hroom => ⟨hwork, fun _ => hpush hroom⟩⟩
  cases hs : b.session.sender.synSet with
  | false => exact (hb.opening.fresh hs).2
  | true => exact Nat.lt_of_lt_of_le (hgo.2 hs) hle

/-- A window of 1002 is learned before the SYN, so one number is in flight behind the SYN's segment
when it is acknowledged, and the second message is as large as can be without a stall. -/
theorem no_stall_acked : ∃ b : Balance, b.largest + b.behind = 65535 ∧
    b.session.sender.push.2 ≠ [] := by
  obtain ⟨b, h, hbuf, hwork, hsum⟩ := Machine.exists_reaches total (.new 2000 ⟨7⟩ 100)
    (fun _ _ => True)
    (fun b => b.session.sender.sendBuffer = [] ∧ b.session.sender.hasWork = true ∧
      b.largest + b.behind = 65535)
    [.receive ⟨0⟩ { ackno := some ⟨7⟩, windowSize := 1002 }, .write (List.replicate 1002 97), .push,
      .receive ⟨0⟩ { ackno := some ⟨1009⟩, windowSize := 65534 }]
    (by decide +kernel) (by decide +kernel)
  exact ⟨b, hsum, (((no_stall 2000 ⟨7⟩ 100 b (by decide) h).2 hbuf).2 hwork).mpr (by omega)⟩

end Balance

namespace Session

/-- A message with an ackno that does not exceed the next sequence number. -/
def Timely (s : Session) : Op → Prop
  | .receive _ msg => ∃ a ∈ msg.ackno, a.unwrap s.sender.isn s.sender.absSeqno ≤ s.sender.absSeqno
  | _ => True

instance (s : Session) : ∀ op, Decidable (Timely s op)
  | .receive _ _ => by
    unfold Timely
    infer_instance
  | .write _ | .close | .push | .tick _ => .isTrue trivial

/-- A window of 1002 is learned before the SYN, so the SYN carries payload and a second segment one
byte. Both are acknowledged with a window of 65535: 65535 for the SYN and 1 for the byte. -/
theorem stalled : ∃ s, (machine 2000 ⟨7⟩ 100).Reaches Timely s ∧
    s.sender.sendBuffer = [] ∧ s.sender.hasWork = true ∧ s.sender.push.2 = [] := by
  exact Machine.exists_reaches total (.new 2000 ⟨7⟩ 100) Timely
    (fun s => s.sender.sendBuffer = [] ∧ s.sender.hasWork = true ∧ s.sender.push.2 = [])
    [.receive ⟨0⟩ { ackno := some ⟨7⟩, windowSize := 1002 }, .write (List.replicate 1002 97), .push,
      .receive ⟨0⟩ { ackno := some ⟨1009⟩, windowSize := 65535 }]
    (by decide +kernel) (by decide +kernel)

end Session

end TCPSender

end Minnow
