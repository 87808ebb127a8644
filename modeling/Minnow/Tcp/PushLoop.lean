import Minnow.Tcp.Window

/-!
# The loop in `push`

Nothing in the loop looks whether a subtraction goes below zero. `Fits` says that none does in a
round, and `Visits` are the states in which the loop tests its guard. What it takes for all rounds
to fit is a window that is not zero before the SYN (`Fresh`), since the first round transmits a SYN
whatever the window is. That holds in every run, also when the application writes after its close,
which the loop does not look at either.
-/

namespace Minnow

namespace TCPSender

/-- The loop of a push tests its guard in `p`. -/
inductive Visits (s : TCPSender) : Pushing → Prop where
  | start : Visits s s.pushing
  | round {p : Pushing} : Visits s p → p.guard = true → Visits s p.body

/-- The round from `p` transmits `m`, and every one of its subtractions is exact. -/
structure Fits (p : Pushing) (m : TCPSenderMessage) : Prop where
  transmitted : p.body.transmitted = p.transmitted ++ [m]
  length_pos : 1 ≤ m.sequenceLength
  syn : p.addSyn.message.syn.toNat ≤ p.addSyn.tempReceiveWindow.toNat
  temp : m.sequenceLength ≤ p.tempReceiveWindow.toNat
  window : m.sequenceLength ≤ p.sender.receiveWindow.toNat

/-- The window of the loop is a part of the sender's, and there is room for the SYN. -/
structure Roomy (p : Pushing) : Prop where
  ready : Ready p
  le : p.tempReceiveWindow.toNat ≤ p.sender.receiveWindow.toNat
  syn : p.sender.synSet = false → 0 < p.tempReceiveWindow.toNat

variable {s s' : TCPSender} {p : Pushing} {m : TCPSenderMessage}

/-! ## The rounds -/

theorem Roomy.start (h : s.input.WF) (hf : Fresh s) : Roomy s.pushing where
  ready := ⟨h, rfl, rfl⟩
  le := s.pushWindow_le.1
  syn hs := s.pushWindow_le.2.2 (hf hs).2

/-- The loop goes on with room in the window. -/
theorem Roomy.room (h : Roomy p) (hg : p.guard = true) : 0 < p.tempReceiveWindow.toNat := by
  cases hs : p.sender.synSet with
  | false => exact h.syn hs
  | true => exact ((guard_iff p hs).mp hg).1

theorem Roomy.fits (h : Roomy p) (hg : p.guard = true) : ∃ m, Round p p.body m ∧ Fits p m := by
  obtain ⟨m, hr⟩ := body_round h.ready hg
  have hroom := h.room hg
  have hle := hr.length_le hroom
  refine ⟨m, hr, hr.transmitted, hr.length_pos, ?_, hle, hle.trans h.le⟩
  rw [Pushing.addSyn_eq]
  exact (Bool.toNat_le _).trans hroom

/-- Both windows become smaller by the same length. -/
theorem Roomy.round (h : Roomy p) (hr : Round p p.body m) (hm : Fits p m) : Roomy p.body := by
  have hsender := hr.sender
  refine ⟨⟨?_, hr.streamBytes, hr.message⟩, ?_, fun hs => ?_⟩
  · rw [hr.input]
    exact h.ready.input.pop _
  · rw [hr.window, hsender]
    show (p.tempReceiveWindow - _).toNat ≤ (p.sender.receiveWindow - _).toNat
    rw [toNat_sub_ofNat hm.temp, toNat_sub_ofNat hm.window]
    exact Nat.sub_le_sub_right h.le _
  · rw [hsender] at hs
    cases hs

theorem Visits.roomy (hv : Visits s p) (h : s.input.WF) (hf : Fresh s) : Roomy p := by
  induction hv with
  | start => exact .start h hf
  | round _ hg ih =>
    obtain ⟨m, hr, hm⟩ := ih.fits hg
    exact ih.round hr hm

/-- The loop comes to its end. -/
theorem push_terminates (h : s.input.WF) : Visits s s.pushed ∧ s.pushed.guard = false :=
  push_loop h .start fun _ _ hp hg _ => hp.round hg

/-! ## Every run -/

/-- Before the SYN nothing is outstanding and there is a window. -/
structure Opening (s : TCPSender) : Prop where
  input : s.input.WF
  unsent : s.synSet = false → s.sendBuffer = []
  fresh : Fresh s

namespace Opening

theorem new {capacity : Nat} (h : capacity < 2 ^ 64) (isn : Wrap32) (initialRTOMs : Nat) :
    Opening (.new capacity isn initialRTOMs) :=
  ⟨.new h, fun _ => rfl, fun _ => ⟨rfl, Nat.one_pos⟩⟩

theorem push (h : Opening s) : Opening s.push.1 := by
  obtain ⟨hext, hsyn⟩ := push_extended h.input
  refine ⟨hext.input, fun hs => ?_, fun hs => ?_⟩ <;>
  · rw [hsyn] at hs
    cases hs

theorem tick (h : Opening s) (ms : Nat) : Opening (s.tick ms).1 := by
  rw [tick_eq]
  exact ⟨h.input, h.unsent, h.fresh⟩

theorem receive (h : Opening s) (stale : Wrap32) (msg : TCPReceiverMessage) :
    Opening (s.receive stale msg) := by
  rcases s.receive_cases stale msg with ⟨-, error, he⟩ | ⟨-, hr⟩
  · have hw := h.input
    rw [he]
    exact ⟨⟨hw.cap, hw.length, hw.stop, hw.fits, hw.pushed⟩, h.unsent, h.fresh⟩
  · refine ⟨hr.input ▸ h.input, fun hs => ?_, h.fresh.received h.unsent hr⟩
    rw [hr.sendBuffer, unacked, h.unsent (hr.synSet ▸ hs)]
    rfl

theorem step {s : Session} (h : Opening s.sender) (op : Op) : Opening (s.step op).sender := by
  cases op with
  | write data => exact ⟨h.input.push data, h.unsent, h.fresh⟩
  | close => exact ⟨h.input.close, h.unsent, h.fresh⟩
  | push => exact h.push
  | tick ms => exact h.tick ms
  | receive stale msg => exact h.receive stale msg

end Opening

namespace Session

/-- The receiver message carries an ackno. -/
def Acknowledging (_ : Session) : Op → Prop
  | .receive _ msg => msg.ackno.isSome = true
  | _ => True

instance (s : Session) : ∀ op, Decidable (Acknowledging s op)
  | .receive _ _ => by
    unfold Acknowledging
    infer_instance
  | .write _ | .close | .push | .tick _ => .isTrue trivial

/-- In every run the loop of a push ends, and each of its rounds transmits a message that is not
empty and fits both windows, with room for the SYN. -/
theorem push_never_wraps (capacity : Nat) (isn : Wrap32) (initialRTOMs : Nat) (s : Session)
    (hcap : capacity < 2 ^ 64)
    (h : (machine capacity isn initialRTOMs).Reaches Acknowledging s) :
    Visits s.sender s.sender.pushed ∧ s.sender.pushed.guard = false ∧
    ∀ p, Visits s.sender p → p.guard = true → ∃ m, Fits p m := by
  have hopen : Opening s.sender :=
    h.invariant_total (P := fun s => Opening s.sender) (.new hcap isn initialRTOMs)
      fun s op hs _ => hs.step op
  obtain ⟨hvisits, hdone⟩ := push_terminates hopen.input
  refine ⟨hvisits, hdone, fun p hp hg => ?_⟩
  obtain ⟨m, -, hm⟩ := (hp.roomy hopen.input hopen.fresh).fits hg
  exact ⟨m, hm⟩

/-- A window of zero before the SYN, and bytes written after the close and the FIN. -/
theorem push_never_wraps_after_fin : ∃ s : Session, s.sender.finSet = true ∧
    s.sender.input.bytesBuffered = 2 ∧
    ∀ p, Visits s.sender p → p.guard = true → ∃ m, Fits p m := by
  obtain ⟨s, h, hfin, hbytes⟩ := Machine.exists_reaches total (.new 8 ⟨7⟩ 100) Acknowledging
    (fun s => s.sender.finSet = true ∧ s.sender.input.bytesBuffered = 2)
    [.receive ⟨0⟩ { ackno := some ⟨7⟩, windowSize := 0 }, .push,
      .receive ⟨0⟩ { ackno := some ⟨8⟩, windowSize := 5 }, .close, .push, .write [1, 2]]
    (by decide +kernel) (by decide +kernel)
  exact ⟨s, hfin, hbytes, (push_never_wraps 8 ⟨7⟩ 100 s (by decide) h).2.2⟩

end Session

end TCPSender

end Minnow
