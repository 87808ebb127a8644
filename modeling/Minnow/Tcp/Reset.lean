import Minnow.Tcp.Ignored

/-!
# Resets at the sender

`receive` does not look at the RST of a message. What sets the error is a message without an ackno
and with a zero window (`receive_hasError`), so the two agree only where the RST is set in just
these messages. Once the error is there it stays, and every message that the sender makes from then
on carries it (`resetting`).
-/

namespace Minnow

namespace TCPSender

/-- The message that `receive` takes for a reset. -/
def TakenForReset (s : TCPSender) (stale : Wrap32) (msg : TCPReceiverMessage) : Prop :=
  s.beyondLast (s.absAckno stale msg) = false ∧ msg.ackno = none ∧ msg.windowSize = 0

instance (s : TCPSender) (stale : Wrap32) (msg : TCPReceiverMessage) :
    Decidable (s.TakenForReset stale msg) :=
  inferInstanceAs (Decidable (_ ∧ _ ∧ _))

/-- The stream has an error, and every message made now carries it. -/
structure Resetting (s : TCPSender) : Prop where
  hasError : s.input.hasError = true
  empty : s.makeEmptyMessage.rst = true
  pushed : ∀ m ∈ s.push.2, m.rst = true

section

variable {s : TCPSender} {stale : Wrap32} {msg : TCPReceiverMessage}

theorem receive_hasError (s : TCPSender) (stale : Wrap32) (msg : TCPReceiverMessage) :
    (s.receive stale msg).input.hasError = true ↔
      s.input.hasError = true ∨ s.TakenForReset stale msg := by
  unfold TakenForReset
  rcases s.receive_cases stale msg with ⟨hno, -⟩ | ⟨hyes, hr⟩
  · unfold accepts at hno
    rw [Bool.not_eq_false', Bool.or_eq_true] at hno
    unfold receive
    dsimp only
    cases hlast : s.beyondLast (s.absAckno stale msg) with
    | true => simp
    | false =>
      rw [hlast] at hno
      have htaken := hno.resolve_left Bool.false_ne_true
      rw [if_neg Bool.false_ne_true, htaken, if_pos rfl]
      simp only [Bool.and_eq_true, Option.isNone_iff_eq_none, beq_iff_eq] at htaken
      exact iff_of_true rfl (.inr ⟨rfl, htaken⟩)
  · rw [hr.input]
    refine (or_iff_left ?_).symm
    rintro ⟨hlast, hnone, hzero⟩
    unfold accepts at hyes
    simp [hlast, hnone, hzero] at hyes

/-- A push neither sets the error nor clears it, and its segments say whether it is there. -/
theorem push_rst (h : s.input.WF) :
    s.push.1.input.error = s.input.error ∧ ∀ m ∈ s.push.2, m.rst = s.input.error := by
  refine (push_loop h (P := fun p => p.sender.input.error = s.input.error ∧
    ∀ m ∈ p.transmitted, m.rst = s.input.error) ⟨rfl, fun m hm => absurd hm List.not_mem_nil⟩
    fun p m hp _ hr => ?_).1
  obtain ⟨herr, hsent⟩ := hp
  refine ⟨?_, fun x hx => ?_⟩
  · rw [hr.input]
    exact herr
  · rw [hr.transmitted] at hx
    rcases List.mem_append.mp hx with hx | hx
    · exact hsent x hx
    · rw [List.mem_singleton.mp hx, hr.rst, herr]

theorem Queued.resetting (h : Queued s) (herr : s.input.hasError = true) : Resetting s :=
  ⟨herr, herr, fun m hm => ((push_rst h.input).2 m hm).trans herr⟩

end

namespace Session

variable {capacity initialRTOMs : Nat} {isn : Wrap32} {s t : Session} {op : Op}

/-- No operation clears the error. -/
theorem hasError_step (h : Queued s.sender) (herr : s.sender.input.hasError = true) (op : Op) :
    (s.step op).sender.input.hasError = true := by
  cases op with
  | write data => exact (ByteStream.push_error _ data).trans herr
  | close => exact herr
  | push => exact (push_rst h.input).1.trans herr
  | tick ms =>
    show (s.sender.tick ms).1.input.hasError = true
    rw [tick_eq]
    exact herr
  | receive stale msg => exact (receive_hasError _ stale msg).mpr (.inl herr)

theorem hasError_runs {ok : Session → Op → Prop} (h : Queued s.sender)
    (herr : s.sender.input.hasError = true)
    (hrun : (machine capacity isn initialRTOMs).Runs ok s t) :
    Queued t.sender ∧ t.sender.input.hasError = true := by
  induction hrun with
  | refl => exact ⟨h, herr⟩
  | tail _ _ hst ih =>
    obtain rfl := Except.ok.inj hst
    exact ⟨queued_step ih.1 _, hasError_step ih.1 ih.2 _⟩

/-- The law for resets: the error is set by the RST and by nothing else, and it shows in every later
message. -/
def Propagates (capacity : Nat) (isn : Wrap32) (initialRTOMs : Nat) (s : Session) (stale : Wrap32)
    (msg : TCPReceiverMessage) : Prop :=
  ((s.step (.receive stale msg)).sender.input.hasError = true ↔
    s.sender.input.hasError = true ∨ msg.rst = true) ∧
  ∀ t, (machine capacity isn initialRTOMs).Runs (fun _ _ => True) (s.step (.receive stale msg)) t →
    (s.step (.receive stale msg)).sender.input.hasError = true → Resetting t.sender

/-- In every state of every run, resets are propagated if and only if there was an error before, or
the message has an RST just when it is taken for one. -/
theorem reset_propagates_iff (hcap : capacity < 2 ^ 64)
    (h : (machine capacity isn initialRTOMs).Reaches (fun _ _ => True) s) (stale : Wrap32)
    (msg : TCPReceiverMessage) : Propagates capacity isn initialRTOMs s stale msg ↔
      s.sender.input.hasError = true ∨ (msg.rst = true ↔ s.sender.TakenForReset stale msg) := by
  have hq := queued hcap h
  have hlater : ∀ t, (machine capacity isn initialRTOMs).Runs (fun _ _ => True)
      (s.step (.receive stale msg)) t →
      (s.step (.receive stale msg)).sender.input.hasError = true → Resetting t.sender := by
    intro t hrun herr
    obtain ⟨hqt, hert⟩ := hasError_runs (queued_step hq _) herr hrun
    exact hqt.resetting hert
  unfold Propagates
  rw [and_iff_left hlater]
  show ((s.sender.receive stale msg).input.hasError = true ↔ _) ↔ _
  rw [receive_hasError]
  tauto

/-- A reset without an ackno and with a zero window, before anything is sent. -/
theorem reset_propagates_fresh :
    Propagates 10 ⟨0⟩ 1000 (.new 10 ⟨0⟩ 1000) ⟨0⟩ { rst := true } :=
  (reset_propagates_iff (by decide) (.init rfl) ⟨0⟩ _).mpr
    (.inr (iff_of_true rfl (by decide +kernel)))

/-- A reset that acknowledges the SYN and has a window. -/
theorem reset_dropped : ∃ s, (machine 10 ⟨0⟩ 1000).Reaches (fun _ _ => True) s ∧
    (s.step (.receive ⟨0⟩ { ackno := some ⟨1⟩, windowSize := 5, rst := true })
      ).sender.input.hasError = false ∧
    ¬Propagates 10 ⟨0⟩ 1000 s ⟨0⟩ { ackno := some ⟨1⟩, windowSize := 5, rst := true } := by
  obtain ⟨s, h, herr⟩ := Machine.exists_reaches total (.new 10 ⟨0⟩ 1000) (fun _ _ => True)
    (fun s => (s.step (.receive ⟨0⟩ { ackno := some ⟨1⟩, windowSize := 5, rst := true })
      ).sender.input.hasError = false) [.push] (by decide +kernel) (by decide +kernel)
  refine ⟨s, h, herr, fun hprop => ?_⟩
  have hyes := hprop.1.mpr (.inr rfl)
  rw [herr] at hyes
  cases hyes

end Session

end TCPSender

end Minnow
