import Minnow.Tcp.Session

/-!
# The window of a sender

`receive_window_` is what is left of the window. A push takes from it what it transmits
(`push_fits`: never more than there is), and a message that is processed gives back what it
acknowledges and adds what the window has grown (`receiveWindow_toNat`). The second is a sum of
16-bit words, and nothing keeps it below `2 ^ 16`: `nextWindow` is the sum itself.
-/

namespace Minnow

namespace TCPSender

/-- Something is left to send: the SYN, a byte or the FIN. -/
def hasWork (s : TCPSender) : Bool :=
  !s.synSet || !s.input.peek.isEmpty || s.input.isClosed && !s.finSet

/-- The sequence numbers of the segments without a SYN. -/
def dataLength (l : List (Nat × TCPSenderMessage)) : Nat :=
  ((l.filter fun x => !x.2.syn).map fun x => x.2.sequenceLength).sum

/-- The window that a processed message leaves, before it is cut to 16 bits. -/
def nextWindow (s : TCPSender) (absAckno : Nat) (windowSize : UInt16) : Nat :=
  (if (s.acked absAckno).any (·.2.syn) then max 1 windowSize.toNat
    else s.receiveWindow.toNat + (windowSize.toNat - s.maxReceiveWindow.toNat)) +
    dataLength (s.acked absAckno)

/-- Before the SYN the window is the largest one heard of. -/
def Fresh (s : TCPSender) : Prop :=
  s.synSet = false → s.receiveWindow = s.maxReceiveWindow ∧ 0 < s.receiveWindow.toNat

variable {s s' : TCPSender} {sent : List TCPSenderMessage} {written : Bytes} {absAckno : Nat}
  {windowSize : UInt16} {l : List (Nat × TCPSenderMessage)}

/-! ## Push -/

theorem pushWindow_le (s : TCPSender) : s.pushWindow.toNat ≤ s.receiveWindow.toNat ∧
    (s.receiverFull = true → s.pushWindow.toNat ≤ 1) ∧
    (0 < s.receiveWindow.toNat → 0 < s.pushWindow.toNat) := by
  have hone : (1 : UInt16).toNat = 1 := rfl
  unfold pushWindow
  split
  · rename_i h
    simp only [Bool.and_eq_true, decide_eq_true_eq] at h
    have := UInt16.lt_iff_toNat_lt.mp h.2
    rw [hone]
    exact ⟨this, fun _ => Nat.le_refl 1, fun _ => Nat.one_pos⟩
  · rename_i h
    refine ⟨Nat.le_refl _, fun hf => ?_, id⟩
    have hw : ¬(0 : UInt16) < s.receiveWindow := fun hw => h (by
      rw [hf, Bool.true_and]
      exact decide_eq_true hw)
    rw [UInt16.lt_iff_toNat_lt] at hw
    have hzero : (0 : UInt16).toNat = 0 := rfl
    omega

/-- The loop in `push` starts iff there is something to send and room, or the SYN is to be sent. -/
theorem pushing_guard (s : TCPSender) : s.pushing.guard = true ↔
    s.hasWork = true ∧ (s.synSet = true → 0 < s.pushWindow.toNat) := by
  unfold hasWork
  cases hs : s.synSet with
  | false =>
    have hg : s.pushing.guard = true := by
      unfold Pushing.guard pushing
      simp [hs]
    simp [hg]
  | true =>
    rw [guard_iff _ hs]
    show 0 < s.pushWindow.toNat ∧
      (s.input.peek ≠ [] ∨ s.input.isClosed = true ∧ s.finSet = false) ↔ _
    simp only [Bool.not_true, Bool.false_or, Bool.or_eq_true, Bool.not_eq_true',
      List.isEmpty_eq_false_iff, Bool.and_eq_true, true_implies]
    tauto

theorem push_of_done (h : s.pushing.guard = false) : s.push = (s, []) := by
  unfold push pushed
  rw [loop_of_done h]
  rfl

theorem push_of_no_work (h : s.hasWork = false) : s.push = (s, []) := by
  refine push_of_done (Bool.eq_false_iff.mpr fun hg => ?_)
  rw [((pushing_guard s).mp hg).1] at h
  simp at h

/-- A push transmits no more than its window. -/
theorem Segmented.push_fits (h : Segmented s sent written) (hf : Fresh s) :
    totalLength s.push.2 ≤ s.pushWindow.toNat := by
  rcases Nat.eq_zero_or_pos s.pushWindow.toNat with hz | hpos
  · have hdone : s.pushing.guard = false := Bool.eq_false_iff.mpr fun hg => by
      have hroom := ((pushing_guard s).mp hg).2
      cases hs : s.synSet with
      | false =>
        have := s.pushWindow_le.2.2 (hf hs).2
        omega
      | true =>
        have := hroom hs
        omega
    rw [push_of_done hdone]
    exact Nat.zero_le _
  · exact h.pushed.fits hpos

theorem Segmented.push_receiveWindow (h : Segmented s sent written) (hf : Fresh s) :
    s.push.1.receiveWindow.toNat + totalLength s.push.2 = s.receiveWindow.toNat := by
  have hle := Nat.le_trans (h.push_fits hf) s.pushWindow_le.1
  rw [h.pushed.receiveWindow, toNat_sub_ofNat hle]
  omega

/-- A push sends the SYN at the latest. -/
theorem Segmented.push_synSet (h : Segmented s sent written) : s.push.1.synSet = true := by
  have hdone := h.push_done
  unfold Pushing.guard at hdone
  rw [Bool.or_eq_false_iff, Bool.not_eq_false'] at hdone
  exact hdone.2

theorem Segmented.push_length_pos (h : Segmented s sent written) (hne : s.push.2 ≠ []) :
    0 < totalLength s.push.2 := by
  obtain ⟨m, l, hm⟩ := List.exists_cons_of_ne_nil hne
  have hpos := h.push.cut.length_pos m (by rw [hm]; simp)
  rw [hm, totalLength_cons]
  omega

/-- A push uses its window up, or transmits all the bytes there are. -/
theorem Segmented.push_uses (h : Segmented s sent written) (hf : Fresh s) :
    min s.pushWindow.toNat s.input.peek.length ≤ totalLength s.push.2 := by
  obtain ⟨hinv, hdone⟩ := pushed_inv h
  have hfits := h.push_fits hf
  have htemp : s.pushed.tempReceiveWindow.toNat = s.pushWindow.toNat - totalLength s.push.2 := by
    rw [hinv.window]
    exact toNat_sub_ofNat hfits
  rcases Nat.eq_zero_or_pos s.pushed.tempReceiveWindow.toNat with hz | hpos
  · omega
  · -- there is room left, so no byte is
    have hempty : s.pushed.sender.input.peek = [] := by
      by_contra hne
      rw [(guard_iff _ h.push_synSet).mpr ⟨hpos, .inl (hinv.ready.streamBytes ▸ hne)⟩] at hdone
      simp at hdone
    have hbytes : payloads sent ++ s.input.peek =
        payloads sent ++ payloads s.push.2 ++ s.pushed.sender.input.peek := by
      rw [← h.bytes, ← payloads_append]
      exact hinv.segmented.bytes
    rw [hempty, List.append_nil] at hbytes
    rw [List.append_cancel_left hbytes]
    exact Nat.le_trans (Nat.min_le_right _ _) (payloads_length_le _)

/-! ## Receive -/

/-- The SYN can only be in the first outstanding segment. -/
theorem Segmented.tail_no_syn (h : Segmented s sent written) {x : Nat × TCPSenderMessage}
    (hx : x ∈ s.sendBuffer.tail) : x.2.syn = false := by
  obtain ⟨done, out, hsent, hbuf⟩ := h.outstanding
  rw [hbuf] at hx
  cases out with
  | nil => exact absurd hx List.not_mem_nil
  | cons m out =>
    obtain ⟨pre, post, ho⟩ := List.append_of_mem (mem_positions hx)
    have hs : sent = (done ++ m :: pre) ++ x.2 :: post := by
      rw [hsent, ho, List.append_assoc, List.cons_append]
    refine Bool.eq_false_iff.mpr fun hsyn => ?_
    have := (h.cut.syn _ _ _ hs).mp hsyn
    simp at this

theorem credited_of_no_syn (windowSize : UInt16) (h : ∀ x ∈ l, x.2.syn = false)
    (s : TCPSender) :
    (credited windowSize l s).receiveWindow = s.receiveWindow + UInt16.ofNat (dataLength l) ∧
      (credited windowSize l s).maxReceiveWindow = s.maxReceiveWindow := by
  induction l generalizing s with
  | nil => exact ⟨(UInt16.add_zero _).symm, rfl⟩
  | cons x l ih =>
    obtain ⟨hx, hl⟩ := List.forall_mem_cons.mp h
    have hc : s.creditAcked windowSize x.2 =
        { s with receiveWindow := s.receiveWindow + UInt16.ofNat x.2.sequenceLength } := by
      unfold creditAcked
      rw [hx, if_neg Bool.false_ne_true]
    have hd : dataLength (x :: l) = x.2.sequenceLength + dataLength l := by
      unfold dataLength
      simp [hx]
    obtain ⟨h₁, h₂⟩ := ih hl (s.creditAcked windowSize x.2)
    rw [hc] at h₁ h₂
    refine ⟨?_, ?_⟩
    · show (credited windowSize l (s.creditAcked windowSize x.2)).receiveWindow = _
      rw [hc, h₁, hd, add_ofNat_add]
    · show (credited windowSize l (s.creditAcked windowSize x.2)).maxReceiveWindow = _
      rw [hc, h₂]

theorem dataLength_of_no_syn (h : ∀ x ∈ l, x.2.syn = false) :
    dataLength l = (l.map fun x => x.2.sequenceLength).sum := by
  unfold dataLength
  rw [List.filter_eq_self.mpr fun x hx => by rw [h x hx]; rfl]

theorem acked_tail_no_syn (h : ∀ x ∈ s.sendBuffer.tail, x.2.syn = false) (absAckno : Nat) :
    ∀ x ∈ (s.acked absAckno).tail, x.2.syn = false := fun x hx =>
  h x ((List.takeWhile_prefix _).sublist.tail.subset hx)

/-- The largest window after the segments are credited. -/
theorem credited_maxReceiveWindow (h : ∀ x ∈ l.tail, x.2.syn = false) (s : TCPSender) :
    (credited windowSize l s).maxReceiveWindow =
      if l.any (·.2.syn) then max 1 windowSize else s.maxReceiveWindow := by
  cases l with
  | nil => rfl
  | cons x l =>
    have hl : ∀ y ∈ l, y.2.syn = false := h
    have hno : l.any (·.2.syn) = false := by
      simp only [List.any_eq_false]
      intro y hy
      simp [hl y hy]
    show (credited windowSize l (s.creditAcked windowSize x.2)).maxReceiveWindow = _
    rw [(credited_of_no_syn windowSize hl _).2, List.any_cons, hno, Bool.or_false]
    unfold creditAcked
    split <;> rfl

theorem dataLength_le (l : List (Nat × TCPSenderMessage)) :
    dataLength l ≤ (l.map fun x => x.2.sequenceLength).sum := by
  induction l with
  | nil => exact Nat.le_refl 0
  | cons x l ih =>
    unfold dataLength at *
    cases hx : x.2.syn <;> simp [hx] <;> omega

/-- What is acknowledged leaves the numbers in flight. -/
theorem inFlight_received (hr : Received s s' absAckno windowSize) :
    s.sequenceNumbersInFlight = ((s.acked absAckno).map fun x => x.2.sequenceLength).sum +
      s'.sequenceNumbersInFlight := by
  unfold sequenceNumbersInFlight
  rw [hr.sendBuffer, ← List.sum_append, ← List.map_append]
  unfold acked unacked
  rw [List.takeWhile_append_dropWhile]

/-- The window after a message is the sum cut to 16 bits. -/
theorem Received.receiveWindow_toNat (hr : Received s s' absAckno windowSize)
    (htail : ∀ x ∈ s.sendBuffer.tail, x.2.syn = false) :
    s'.receiveWindow.toNat = s.nextWindow absAckno windowSize % 2 ^ 16 := by
  replace htail := acked_tail_no_syn htail absAckno
  rw [hr.receiveWindow, toNat_add_ofNat]
  unfold nextWindow
  generalize s.acked absAckno = l at htail
  cases hany : l.any (·.2.syn) with
  | false =>
    have hno : ∀ x ∈ l, x.2.syn = false := by simpa using hany
    obtain ⟨hw, hmax⟩ := credited_of_no_syn windowSize hno s
    rw [hw, hmax, toNat_add_ofNat, if_neg Bool.false_ne_true]
    omega
  | true =>
    cases l with
    | nil => exact absurd hany Bool.false_ne_true
    | cons x l =>
      have hl : ∀ y ∈ l, y.2.syn = false := htail
      have hx : x.2.syn = true := by
        have hno : l.any (·.2.syn) = false := List.any_eq_false.mpr fun y hy => by
          rw [hl y hy]
          exact Bool.false_ne_true
        simpa [hno] using hany
      have hc : s.creditAcked windowSize x.2 = { s with
          receiveWindow := max 1 windowSize, maxReceiveWindow := max 1 windowSize } := by
        unfold creditAcked
        rw [hx, if_pos rfl]
      have hd : dataLength (x :: l) = dataLength l := by
        unfold dataLength
        simp [hx]
      obtain ⟨hw, hmax⟩ := credited_of_no_syn windowSize hl (s.creditAcked windowSize x.2)
      have hcredit : credited windowSize (x :: l) s =
        credited windowSize l (s.creditAcked windowSize x.2) := rfl
      have hone : (1 : UInt16).toNat = 1 := rfl
      rw [hcredit, hd, hw, hmax, hc, toNat_add_ofNat, toNat_max16, hone, if_pos rfl]
      omega

/-- The largest window after a processed message. -/
theorem Received.maxReceiveWindow_toNat (hr : Received s s' absAckno windowSize)
    (htail : ∀ x ∈ s.sendBuffer.tail, x.2.syn = false) :
    s'.maxReceiveWindow.toNat = if (s.acked absAckno).any (·.2.syn) then max 1 windowSize.toNat
      else max s.maxReceiveWindow.toNat windowSize.toNat := by
  have hone : (1 : UInt16).toNat = 1 := rfl
  rw [hr.maxReceiveWindow, toNat_max16,
    credited_maxReceiveWindow (acked_tail_no_syn htail absAckno)]
  split
  · rw [toNat_max16, hone]
    omega
  · rfl

theorem Segmented.receiveWindow_toNat (h : Segmented s sent written)
    (hr : Received s s' absAckno windowSize) :
    s'.receiveWindow.toNat = s.nextWindow absAckno windowSize % 2 ^ 16 :=
  hr.receiveWindow_toNat fun _ => h.tail_no_syn

/-- Before the SYN nothing is outstanding. -/
theorem Segmented.unsent (h : Segmented s sent written) (hs : s.synSet = false) :
    s.sendBuffer = [] := by
  have hnil : sent = [] := not_not.mp (mt h.synSet.mpr (Bool.eq_false_iff.mp hs))
  have hbuf := h.buffer
  rw [hnil] at hbuf
  exact List.suffix_nil.mp hbuf

/-- With nothing outstanding a message leaves the larger one of the two windows. -/
theorem Fresh.received (hf : Fresh s) (hbuf : s.synSet = false → s.sendBuffer = [])
    (hr : Received s s' absAckno windowSize) : Fresh s' := by
  intro hs
  rw [hr.synSet] at hs
  obtain ⟨hw, hpos⟩ := hf hs
  have hacked : s.acked absAckno = [] := by
    unfold acked
    rw [hbuf hs]
    rfl
  have hmax := hr.maxReceiveWindow
  have hnext := congrArg UInt16.toNat hr.receiveWindow
  rw [hacked] at hmax hnext
  replace hmax : s'.maxReceiveWindow = max s.maxReceiveWindow windowSize := hmax
  replace hnext : s'.receiveWindow.toNat = max s.receiveWindow.toNat windowSize.toNat := by
    rw [hnext, toNat_add_ofNat]
    show (s.receiveWindow.toNat + (windowSize.toNat - s.maxReceiveWindow.toNat)) % 2 ^ 16 = _
    have hlt := windowSize.toNat_lt
    have hlt' := s.receiveWindow.toNat_lt
    rw [← hw]
    omega
  refine ⟨UInt16.toNat.inj ?_, by omega⟩
  rw [hmax, hnext, toNat_max16, hw]

namespace Session

/-- `Fresh` holds in every run. -/
theorem Good.fresh_step {s : Session} (h : Good s) (hf : Fresh s.sender) (op : Op) :
    Fresh (s.step op).sender := by
  cases op with
  | write data => exact hf
  | close => exact hf
  | push =>
    intro hs
    rw [show (s.step .push).sender.synSet = true from Segmented.push_synSet h] at hs
    simp at hs
  | tick ms =>
    show Fresh (s.sender.tick ms).1
    rw [tick_eq]
    exact hf
  | receive stale msg =>
    show Fresh (s.sender.receive stale msg)
    rcases s.sender.receive_cases stale msg with ⟨-, error, he⟩ | ⟨-, hr⟩
    · rw [he]
      exact hf
    · exact hf.received (Segmented.unsent h) hr

end Session

end TCPSender

end Minnow
