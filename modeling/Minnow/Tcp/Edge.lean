import Minnow.Tcp.Balance

/-!
# The right edge of the receiver's window

The receiver offers the sequence numbers below `abs_ackno + max(1, window_size)` with each message.
`Offered` keeps the greatest edge of a run next to the sender, and the sender should never go
beyond it.

It keeps what is left of the window instead, which ends where the sum of its `Balance` does, counted
from the first outstanding number. That end is beyond the edge if a window has become smaller since
the largest one, or if something was in flight behind the SYN when it was acknowledged; and with a
zero window every push takes another probe from what is left. `Respects` excludes both: no message
with a window leaves the sum beyond the edge, and no more probes are made than there are numbers on
offer. `within_edge` is then the property for every run. `respects_of_grown` says that windows that
never become smaller are within the condition, `beyond_edge_probe` and `beyond_edge_window` that the
sender can go beyond the edge where it does not hold.
-/

namespace Minnow

namespace TCPSender

/-- The edge that a message offers. An absent ackno counts as `0`, and one beyond the next sequence
number does not count. -/
def edgeOf (s : TCPSender) (msg : TCPReceiverMessage) : Nat :=
  let absAckno := (msg.ackno.map fun a => a.unwrap s.isn s.absSeqno).getD 0
  if absAckno ≤ s.absSeqno then absAckno + max 1 msg.windowSize.toNat else 0

/-- A balance, the right edge, how many numbers the last message left below it, and the pushes with
something to send since that message. -/
structure Offered extends Balance where
  edge : Nat := 1
  offer : Nat := 1
  probes : Nat := 0
  deriving DecidableEq

namespace Offered

def step (s : Offered) (op : Op) : Offered where
  toBalance := s.toBalance.step op
  edge := match op with
    | .receive _ msg => max s.edge (s.session.sender.edgeOf msg)
    | _ => s.edge
  offer := match op with
    | .receive _ msg => max s.edge (s.session.sender.edgeOf msg) - s.session.sender.absSeqno
    | _ => s.offer
  probes := match op with
    | .receive _ _ => 0
    | .push => s.probes + s.session.sender.hasWork.toNat
    | _ => s.probes

def total (s : Offered) (op : Op) : Except Empty Offered := .ok (s.step op)

def new (capacity : Nat) (isn : Wrap32) (initialRTOMs : Nat) : Offered where
  toBalance := .new capacity isn initialRTOMs

def machine (capacity : Nat) (isn : Wrap32) (initialRTOMs : Nat) : Machine Offered Op :=
  .det (.new capacity isn initialRTOMs) total

/-- A message with a window leaves the largest window and what was behind the SYN, counted from the
first number that it leaves outstanding, within the edge. With a zero window, no more pushes than
there are numbers on offer find something to send, unless the sum is within the edge anyway. -/
def Respects (s : Offered) : Op → Prop
  | .receive stale msg =>
    s.session.sender.accepts stale msg = true → msg.windowSize ≠ 0 →
      s.session.sender.firstOf (s.session.sender.unacked (s.session.sender.absAckno stale msg)) +
          ((s.hear stale msg).largest + (s.hear stale msg).behind) ≤
        max s.edge (s.session.sender.edgeOf msg)
  | .push => s.session.sender.receiverFull = true → s.session.sender.hasWork = true →
      s.session.sender.firstOutstanding + (s.largest + s.behind) ≤ s.edge ∨ s.probes < s.offer
  | _ => True

instance (s : Offered) : ∀ op, Decidable (Respects s op)
  | .receive _ _ | .push => by
    unfold Respects
    infer_instance
  | .write _ | .close | .tick _ => .isTrue trivial

/-- What is sent is within the edge, and so is the sum unless the window is zero. Then the probes
use up what was on offer, one number each if there is a window left to take it from. -/
structure Within (s : Offered) : Prop where
  balanced : s.Balanced
  le : s.session.sender.absSeqno ≤ s.edge
  window : s.session.sender.receiverFull = false →
    s.session.sender.firstOutstanding + (s.largest + s.behind) ≤ s.edge
  probes : s.session.sender.receiverFull = true →
    s.session.sender.absSeqno + s.offer ≤ s.edge + s.probes
  spent : s.session.sender.receiverFull = true → s.largest + s.behind < 2 ^ 16 →
    s.edge < s.session.sender.firstOutstanding + (s.largest + s.behind) →
    s.session.sender.absSeqno + s.offer = s.edge + s.probes

variable {s : Offered} {op : Op}

theorem Within.new {capacity : Nat} (hcap : capacity < 2 ^ 64) (isn : Wrap32)
    (initialRTOMs : Nat) : Within (.new capacity isn initialRTOMs) where
  balanced := .new hcap isn initialRTOMs
  le := Nat.zero_le _
  window h := Bool.noConfusion h
  probes _ := Nat.le_refl 1
  spent _ _ _ := rfl

/-- What is left of the window ends within the sum. -/
theorem Within.end_le (h : Within s) :
    s.session.sender.absSeqno + s.session.sender.receiveWindow.toNat ≤
      s.session.sender.firstOutstanding + (s.largest + s.behind) :=
  h.balanced.first_add_sum ▸ Nat.add_le_add_left h.balanced.le _

/-- A push beyond the edge has a window left to take from. -/
theorem Within.room (h : Within s) (hfits : s.largest + s.behind < 2 ^ 16)
    (hbeyond : s.edge < s.session.sender.firstOutstanding + (s.largest + s.behind)) :
    0 < s.session.sender.receiveWindow.toNat := by
  have hsum := h.balanced.first_add_sum
  rw [h.balanced.exact hfits] at hsum
  have hle := h.le
  omega

/-- A push with something to send and a window transmits. -/
theorem Within.push_pos (h : Within s) (hwork : s.session.sender.hasWork = true)
    (hroom : 0 < s.session.sender.receiveWindow.toNat) :
    0 < totalLength s.session.sender.push.2 := by
  refine totalLength_pos (push_extended h.balanced.opening.input).1.length_pos ?_
  exact h.balanced.opening.push_transmits_iff.mpr ⟨hwork, fun _ => (pushWindow_le _).2.2 hroom⟩

/-- A push adds to the outstanding segments behind the first one. -/
theorem push_firstOutstanding {t : TCPSender} (h : t.input.WF) :
    t.push.1.firstOutstanding = t.firstOutstanding := by
  have hext := (push_extended h).1
  unfold firstOutstanding firstOf
  rw [hext.sendBuffer, hext.absSeqno]
  cases t.sendBuffer with
  | nil => cases t.push.2 <;> rfl
  | cons x rest => rfl

theorem Within.push (h : Within s) (hok : Respects s .push) : Within (s.step .push) := by
  have hopening := h.balanced.opening
  have hext := (push_extended hopening.input).1
  have habs : (s.step .push).session.sender.absSeqno =
      s.session.sender.absSeqno + totalLength s.session.sender.push.2 := hext.absSeqno
  have hfull : (s.step .push).session.sender.receiverFull = s.session.sender.receiverFull :=
    hext.receiverFull
  have hfirst : (s.step .push).session.sender.firstOutstanding =
      s.session.sender.firstOutstanding := push_firstOutstanding hopening.input
  have hprobes : (s.step .push).probes = s.probes + s.session.sender.hasWork.toNat := rfl
  have hle := h.le
  have hend := h.end_le
  obtain ⟨hfits, -⟩ := hopening.push_windows
  obtain ⟨hwindow, hone, -⟩ := s.session.sender.pushWindow_le
  refine ⟨h.balanced.step .push, ?_, fun hf => ?_, fun hf => ?_, fun hf hsum hbeyond => ?_⟩
  · show _ ≤ s.edge
    rw [habs]
    cases hf : s.session.sender.receiverFull with
    | false =>
      have := h.window hf
      omega
    | true =>
      have hprobe := hone hf
      have hoffer := h.probes hf
      cases hwork : s.session.sender.hasWork with
      | false =>
        rw [push_of_no_work hwork]
        exact hle
      | true => rcases hok hf hwork with hin | hlt <;> omega
  · rw [hfirst]
    exact h.window (hfull ▸ hf)
  · rw [hfull] at hf
    have hprobe := hone hf
    have hoffer := h.probes hf
    rw [habs, hprobes]
    show _ + s.offer ≤ s.edge + _
    cases hwork : s.session.sender.hasWork with
    | false =>
      rw [push_of_no_work hwork]
      exact hoffer
    | true =>
      rw [Bool.toNat_true]
      omega
  · rw [hfull] at hf
    rw [hfirst] at hbeyond
    have hprobe := hone hf
    have hspent := h.spent hf hsum hbeyond
    rw [habs, hprobes]
    show _ + s.offer = s.edge + _
    cases hwork : s.session.sender.hasWork with
    | false =>
      rw [push_of_no_work hwork]
      exact hspent
    | true =>
      have hpos := h.push_pos hwork (h.room hsum hbeyond)
      rw [Bool.toNat_true]
      omega

theorem firstOutstanding_of_received {t t' : TCPSender} {absAckno : Nat} {windowSize : UInt16}
    (hr : Received t t' absAckno windowSize) :
    t'.firstOutstanding = t.firstOf (t.unacked absAckno) := by
  unfold TCPSender.firstOutstanding firstOf
  rw [hr.sendBuffer, hr.absSeqno]

theorem Within.receive {stale : Wrap32} {msg : TCPReceiverMessage} (h : Within s)
    (hok : Respects s (.receive stale msg)) : Within (s.step (.receive stale msg)) := by
  have hedge : s.edge ≤ (s.step (.receive stale msg)).edge := Nat.le_max_left _ _
  have hsender : (s.step (.receive stale msg)).session.sender =
      s.session.sender.receive stale msg := rfl
  have hbalance : (s.step (.receive stale msg)).toBalance =
      s.toBalance.step (.receive stale msg) := rfl
  have habs : (s.session.sender.receive stale msg).absSeqno = s.session.sender.absSeqno := by
    rcases s.session.sender.receive_cases stale msg with ⟨-, error, he⟩ | ⟨-, hr⟩
    · rw [he]
    · exact hr.absSeqno
  have hle : (s.step (.receive stale msg)).session.sender.absSeqno ≤
      (s.step (.receive stale msg)).edge := by
    rw [hsender, habs]
    exact Nat.le_trans h.le hedge
  have hoffer : (s.step (.receive stale msg)).session.sender.absSeqno +
      (s.step (.receive stale msg)).offer = (s.step (.receive stale msg)).edge := by
    rw [hsender, habs] at hle ⊢
    exact Nat.add_sub_of_le hle
  refine ⟨h.balanced.step _, hle, fun hf => ?_, fun _ => hoffer.le, fun _ _ _ => hoffer⟩
  rcases s.session.sender.receive_cases stale msg with ⟨hno, error, he⟩ | ⟨hyes, hr⟩
  · rw [hsender, he] at hf
    rw [hbalance, Balance.step_of_drops hno]
    show (s.session.sender.receive stale msg).firstOutstanding + _ ≤ _
    rw [he]
    exact Nat.le_trans (h.window hf) hedge
  · have hne : msg.windowSize ≠ 0 := fun hz => by
      rw [hsender, hr.receiverFull, hz] at hf
      cases hf
    rw [hbalance, Balance.step_of_accepts hyes]
    show (s.session.sender.receive stale msg).firstOutstanding + _ ≤ _
    rw [firstOutstanding_of_received hr]
    exact hok hyes hne

/-- The stream and the timer are of no account. -/
theorem Within.still {s' : Offered} (h : Within s) (hb : s'.Balanced)
    (hsender : s'.session.sender = { s.session.sender with
      input := s'.session.sender.input
      timer := s'.session.sender.timer
      numConsecutiveRetran := s'.session.sender.numConsecutiveRetran
      currentRTO := s'.session.sender.currentRTO })
    (hlargest : s'.largest = s.largest) (hbehind : s'.behind = s.behind)
    (hedge : s'.edge = s.edge) (hoffer : s'.offer = s.offer) (hprobes : s'.probes = s.probes) :
    Within s' := by
  have habs : s'.session.sender.absSeqno = s.session.sender.absSeqno := by rw [hsender]
  have hfull : s'.session.sender.receiverFull = s.session.sender.receiverFull := by rw [hsender]
  have hfirst : s'.session.sender.firstOutstanding = s.session.sender.firstOutstanding := by
    rw [hsender]
    rfl
  refine ⟨hb, ?_, ?_, ?_, ?_⟩
  · rw [habs, hedge]
    exact h.le
  · rw [hfull, hfirst, hlargest, hbehind, hedge]
    exact h.window
  · rw [hfull, habs, hedge, hoffer, hprobes]
    exact h.probes
  · rw [hfull, hfirst, hlargest, hbehind, habs, hedge, hoffer, hprobes]
    exact h.spent

theorem Within.step (h : Within s) (hok : Respects s op) : Within (s.step op) := by
  cases op with
  | write data => exact h.still (h.balanced.step (.write data)) rfl rfl rfl rfl rfl rfl
  | close => exact h.still (h.balanced.step .close) rfl rfl rfl rfl rfl rfl
  | push => exact h.push hok
  | tick ms =>
    have htick : (s.step (.tick ms)).session.sender = (s.session.sender.tick ms).1 := rfl
    rw [tick_eq] at htick
    exact h.still (h.balanced.step (.tick ms)) (by rw [htick]) rfl rfl rfl rfl rfl
  | receive stale msg => exact h.receive hok

theorem within {capacity initialRTOMs : Nat} {isn : Wrap32} (hcap : capacity < 2 ^ 64)
    (h : (machine capacity isn initialRTOMs).Reaches Respects s) : Within s :=
  h.invariant_total (.new hcap isn initialRTOMs) fun _ _ hs hok => hs.step hok

/-- In every run whose steps respect the window, however it grows, shrinks or becomes zero, nothing
beyond the right edge is sent. -/
theorem within_edge (capacity : Nat) (isn : Wrap32) (initialRTOMs : Nat) (s : Offered)
    (hcap : capacity < 2 ^ 64)
    (h : (machine capacity isn initialRTOMs).Reaches Respects s) :
    s.session.sender.absSeqno ≤ s.edge :=
  (within hcap h).le

/-- A window that grows, becomes zero and is probed, and opens again. -/
theorem within_edge_probe : ∃ s : Offered, s.session.sender.absSeqno = 6 ∧
    s.session.sender.absSeqno ≤ s.edge := by
  obtain ⟨s, h, habs⟩ := Machine.exists_reaches total (.new 8 ⟨7⟩ 100) Respects
    (fun s => s.session.sender.absSeqno = 6)
    [.push, .receive ⟨0⟩ { ackno := some ⟨8⟩, windowSize := 2 }, .write [1, 2, 3, 4, 5], .push,
      .receive ⟨0⟩ { ackno := some ⟨10⟩, windowSize := 0 }, .push,
      .receive ⟨0⟩ { ackno := some ⟨11⟩, windowSize := 2 }, .push]
    (by decide +kernel) (by decide +kernel)
  exact ⟨s, habs, within_edge 8 ⟨7⟩ 100 s (by decide) h⟩

/-- Two pushes into a zero window send two probes. -/
theorem sent_beyond_edge : ∃ s, (machine 8 ⟨7⟩ 100).Reaches (fun _ _ => True) s ∧
    s.edge < s.session.sender.absSeqno := by
  exact Machine.exists_reaches total (.new 8 ⟨7⟩ 100) (fun _ _ => True)
    (fun s => s.edge < s.session.sender.absSeqno)
    [.push, .receive ⟨0⟩ { ackno := some ⟨8⟩, windowSize := 2 }, .write [1, 2, 3, 4], .push,
      .receive ⟨0⟩ { ackno := some ⟨10⟩, windowSize := 0 }, .push, .push]
    (by decide +kernel) (by decide +kernel)

/-! ## Where the condition holds, and where it fails -/

/-- A message is within the condition if nothing in front of its ackno is left outstanding, as for
every ackno that is not an old one, if its window is the largest one, and if nothing was in flight
behind the SYN when it was acknowledged. -/
theorem respects_of_grown {stale : Wrap32} {msg : TCPReceiverMessage} {a : Wrap32}
    (hack : msg.ackno = some a)
    (hle : a.unwrap s.session.sender.isn s.session.sender.absSeqno ≤ s.session.sender.absSeqno)
    (hfirst : s.session.sender.firstOf
        (s.session.sender.unacked (s.session.sender.absAckno stale msg)) ≤
      s.session.sender.absAckno stale msg)
    (hlargest : (s.hear stale msg).largest = max 1 msg.windowSize.toNat)
    (hbehind : (s.hear stale msg).behind = 0) : Respects s (.receive stale msg) := by
  intro _ _
  have habs : s.session.sender.absAckno stale msg =
      a.unwrap s.session.sender.isn s.session.sender.absSeqno := by
    unfold absAckno
    rw [hack]
    rfl
  have hedge : s.session.sender.edgeOf msg =
      s.session.sender.absAckno stale msg + max 1 msg.windowSize.toNat := by
    unfold edgeOf
    rw [hack, habs, Option.map_some, Option.getD_some]
    dsimp only
    rw [if_pos hle]
  rw [hedge, hlargest, hbehind]
  omega

/-- A push that makes one probe too many goes beyond the edge. -/
theorem Within.beyond_edge_probe (h : Within s) (hfits : s.largest + s.behind < 2 ^ 16)
    (hok : ¬Respects s .push) : (s.step .push).edge < (s.step .push).session.sender.absSeqno := by
  obtain ⟨hfull, hwork, hbeyond, hprobes⟩ : s.session.sender.receiverFull = true ∧
      s.session.sender.hasWork = true ∧
      s.edge < s.session.sender.firstOutstanding + (s.largest + s.behind) ∧
      s.offer ≤ s.probes := by
    unfold Respects at hok
    push Not at hok
    exact hok
  have hspent := h.spent hfull hfits hbeyond
  have hpos := h.push_pos hwork (h.room hfits hbeyond)
  have habs : (s.step .push).session.sender.absSeqno =
      s.session.sender.absSeqno + totalLength s.session.sender.push.2 :=
    (push_extended h.balanced.opening.input).1.absSeqno
  rw [habs]
  show s.edge < _
  omega

/-- A message that leaves the sum beyond the edge makes the next push go beyond it, if there are
bytes enough. -/
theorem Within.beyond_edge_window {stale : Wrap32} {msg : TCPReceiverMessage} (h : Within s)
    (hfits : (s.hear stale msg).largest + (s.hear stale msg).behind < 2 ^ 16)
    (hok : ¬Respects s (.receive stale msg))
    (hbytes : (s.step (.receive stale msg)).session.sender.receiveWindow.toNat ≤
      s.session.sender.input.peek.length) :
    ((s.step (.receive stale msg)).step .push).edge <
      ((s.step (.receive stale msg)).step .push).session.sender.absSeqno := by
  obtain ⟨hyes, hne, hbeyond⟩ : s.session.sender.accepts stale msg = true ∧
      msg.windowSize ≠ 0 ∧ max s.edge (s.session.sender.edgeOf msg) <
        s.session.sender.firstOf (s.session.sender.unacked (s.session.sender.absAckno stale msg)) +
          ((s.hear stale msg).largest + (s.hear stale msg).behind) := by
    unfold Respects at hok
    push Not at hok
    exact hok
  have hb := h.balanced.step (.receive stale msg)
  obtain ⟨t, ht⟩ : ∃ t, s.session.sender.receive stale msg = t := ⟨_, rfl⟩
  have hsender : (s.step (.receive stale msg)).session.sender = t := ht
  have hsum := hb.first_add_sum
  rw [hb.exact (by rw [Balance.step_of_accepts hyes]; exact hfits),
    Balance.step_of_accepts hyes] at hsum
  replace hsum : (s.session.sender.receive stale msg).firstOutstanding +
      ((s.hear stale msg).largest + (s.hear stale msg).behind) =
    (s.session.sender.receive stale msg).absSeqno +
      (s.session.sender.receive stale msg).receiveWindow.toNat := hsum
  have hopening : Opening t := hsender ▸ hb.opening
  have huses := hopening.push_uses
  rw [hsender] at hbytes
  rw [ht] at hsum
  rcases s.session.sender.receive_cases stale msg with ⟨hno, -⟩ | ⟨-, hr⟩
  · rw [hyes] at hno
    cases hno
  · rw [ht] at hr
    have hfirst := firstOutstanding_of_received hr
    have hpush : t.pushWindow = t.receiveWindow := by
      unfold pushWindow
      rw [hr.receiverFull, beq_eq_false_iff_ne.mpr hne, Bool.false_and,
        if_neg Bool.false_ne_true]
    rw [hpush, hr.input, Nat.min_eq_left hbytes] at huses
    have habs : ((s.step (.receive stale msg)).step .push).session.sender.absSeqno =
        t.absSeqno + totalLength t.push.2 := by
      show (s.session.sender.receive stale msg).push.1.absSeqno = _
      rw [ht]
      exact (push_extended hopening.input).1.absSeqno
    rw [habs]
    show max s.edge (s.session.sender.edgeOf msg) < _
    omega

end Offered

end TCPSender

end Minnow
