import Minnow.Tcp.Balance

/-!
# A window that is not used up

A sender with nothing outstanding and something to send transmits with the next push as long as no
message makes its window wrap to zero: what is left of the window and what is in flight are never
both zero then (`Flowing`). A message only moves sequence numbers from one to the other, or adds to
them. Which messages make it wrap, in terms of the windows heard, is said by `Balance.no_stall`.
-/

namespace Minnow

namespace TCPSender

namespace Session

/-- The window that a processed message leaves is not a positive multiple of `2 ^ 16`. -/
def Unwrapped (s : Session) : Op → Prop
  | .receive stale msg =>
    s.sender.accepts stale msg = true →
      s.sender.nextWindow (s.sender.absAckno stale msg) msg.windowSize % 2 ^ 16 = 0 →
      s.sender.nextWindow (s.sender.absAckno stale msg) msg.windowSize = 0
  | _ => True

instance (s : Session) : ∀ op, Decidable (Unwrapped s op)
  | .receive _ _ => by
    unfold Unwrapped
    infer_instance
  | .write _ | .close | .push | .tick _ => .isTrue trivial

/-- A message that leaves no window acknowledges nothing. -/
theorem nextWindow_eq_zero {s : TCPSender} {absAckno : Nat} {windowSize : UInt16}
    (h : s.nextWindow absAckno windowSize = 0) : s.receiveWindow.toNat = 0 ∧
      ((s.acked absAckno).map fun x => x.2.sequenceLength).sum = 0 := by
  unfold nextWindow at h
  cases hany : (s.acked absAckno).any (·.2.syn) with
  | true =>
    rw [hany, if_pos rfl] at h
    omega
  | false =>
    have hno : ∀ x ∈ s.acked absAckno, x.2.syn = false := by simpa using hany
    rw [hany, if_neg Bool.false_ne_true, dataLength_of_no_syn hno] at h
    omega

/-- The window and what is in flight are not both zero. -/
structure Flowing (s : Session) : Prop where
  good : Good s
  fresh : Fresh s.sender
  pos : 0 < s.sender.receiveWindow.toNat + s.sender.sequenceNumbersInFlight

variable {capacity initialRTOMs : Nat} {isn : Wrap32} {s : Session} {op : Op}

theorem Flowing.new (hcap : capacity < 2 ^ 64) (isn : Wrap32) (initialRTOMs : Nat) :
    Flowing (.new capacity isn initialRTOMs) where
  good := .new hcap isn initialRTOMs
  fresh _ := ⟨rfl, Nat.one_pos⟩
  pos := Nat.one_pos

theorem Flowing.push (h : Flowing s) : Flowing (s.step .push) := by
  have hseg : Segmented s.sender s.sent s.written := h.good
  refine ⟨h.good.step trivial, h.good.fresh_step h.fresh .push, ?_⟩
  have hrest := hseg.push_receiveWindow h.fresh
  have hflight : (s.step .push).sender.sequenceNumbersInFlight =
      s.sender.sequenceNumbersInFlight + totalLength s.sender.push.2 := by
    show s.sender.push.1.sequenceNumbersInFlight = _
    unfold sequenceNumbersInFlight
    rw [hseg.pushed.sendBuffer, List.map_append, List.sum_append, positions_length_sum]
  have hpos := h.pos
  rw [hflight]
  show 0 < s.sender.push.1.receiveWindow.toNat + _
  omega

theorem Flowing.receive {stale : Wrap32} {msg : TCPReceiverMessage} (h : Flowing s)
    (hok : Unwrapped s (.receive stale msg)) : Flowing (s.step (.receive stale msg)) := by
  have hgood : Good (s.step (.receive stale msg)) := h.good.step trivial
  have hfresh := h.good.fresh_step h.fresh (.receive stale msg)
  have hseg : Segmented s.sender s.sent s.written := h.good
  refine ⟨hgood, hfresh, ?_⟩
  show 0 < (s.sender.receive stale msg).receiveWindow.toNat +
    (s.sender.receive stale msg).sequenceNumbersInFlight
  rcases s.sender.receive_cases stale msg with ⟨-, error, he⟩ | ⟨ha, hr⟩
  · rw [he]
    exact h.pos
  · rw [hseg.receiveWindow_toNat hr]
    by_cases hz : s.sender.nextWindow (s.sender.absAckno stale msg) msg.windowSize % 2 ^ 16 = 0
    · -- then nothing is acknowledged and the window was zero before
      have hnext := hok ha hz
      obtain ⟨hw, hacked⟩ := nextWindow_eq_zero hnext
      have hpos := h.pos
      have hsum : s.sender.sequenceNumbersInFlight =
          ((s.sender.acked (s.sender.absAckno stale msg)).map fun x => x.2.sequenceLength).sum +
            (s.sender.receive stale msg).sequenceNumbersInFlight := by
        unfold sequenceNumbersInFlight
        rw [hr.sendBuffer, ← List.sum_append, ← List.map_append]
        unfold acked unacked
        rw [List.takeWhile_append_dropWhile]
      omega
    · omega

theorem Flowing.step (h : Flowing s) (hord : Orderly s op) (hok : Unwrapped s op) :
    Flowing (s.step op) := by
  cases op with
  | write data => exact ⟨h.good.step hord, h.fresh, h.pos⟩
  | close => exact ⟨h.good.step trivial, h.fresh, h.pos⟩
  | push => exact h.push
  | tick ms =>
    refine ⟨h.good.step trivial, h.good.fresh_step h.fresh _, ?_⟩
    show 0 < (s.sender.tick ms).1.receiveWindow.toNat + (s.sender.tick ms).1.sequenceNumbersInFlight
    rw [tick_eq]
    exact h.pos
  | receive stale msg => exact h.receive hok

/-- With nothing outstanding the window is not zero, and what there is to send is sent. -/
theorem Flowing.transmits (h : Flowing s) (hbuf : s.sender.sendBuffer = []) :
    0 < s.sender.receiveWindow.toNat ∧ (s.sender.hasWork = true → s.sender.push.2 ≠ []) := by
  have hseg : Segmented s.sender s.sent s.written := h.good
  have hpos : 0 < s.sender.receiveWindow.toNat := by
    have := h.pos
    unfold sequenceNumbersInFlight at this
    rw [hbuf] at this
    exact this
  exact ⟨hpos, fun hwork =>
    hseg.push_transmits ((pushing_guard _).mpr ⟨hwork, fun _ => (pushWindow_le _).2.2 hpos⟩)⟩

end Session

end TCPSender

end Minnow
