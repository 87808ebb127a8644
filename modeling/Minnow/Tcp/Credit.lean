import Minnow.Tcp.Agreement

/-!
# Small receive buffers

The windows that a sender hears of bound both numbers of its `Balance`, so what is left of its
window and what is in flight are together at most two receive buffers: with buffers below `2 ^ 15`
the sum never wraps. `Credited` is the invariant of a sender that hears of such windows only, and
holds at both ends of a `Duplex` (`narrow`). So no sender in it ever stalls.
-/

namespace Minnow

open TCPSender (Session Balance)

namespace TCPSender

namespace Session

/-- The windows that the sender has heard of are at most `cap`. -/
structure Credited (cap : Nat) (s : Session) : Prop where
  good : Good s
  balance : ∃ b : Balance, b.session = s ∧ b.Balanced ∧ b.largest ≤ cap ∧ b.behind ≤ cap

variable {cap : Nat} {s : Session} {op : Op}

theorem Credited.new {capacity : Nat} (hcap : capacity < 2 ^ 64) (isn : Wrap32)
    (initialRTOMs : Nat) (hpos : 1 ≤ cap) : Credited cap (.new capacity isn initialRTOMs) where
  good := .new hcap isn initialRTOMs
  balance := ⟨.new capacity isn initialRTOMs, rfl, .new hcap isn initialRTOMs, hpos, Nat.zero_le _⟩

theorem Credited.step (h : Credited cap s) (hpos : 1 ≤ cap) (hord : s.Orderly op)
    (hw : ∀ stale msg, op = .receive stale msg → msg.windowSize.toNat ≤ cap) :
    Credited cap (s.step op) := by
  obtain ⟨b, rfl, hb, hlargest, hbehind⟩ := h.balance
  obtain ⟨hlargest', hbehind'⟩ := hb.step_le hpos hlargest hbehind hw
  exact ⟨h.good.step hord, b.step op, rfl, hb.step op, hlargest', hbehind'⟩

/-- What is left of the window and what is in flight are at most twice the buffer. -/
theorem Credited.inFlight_le (h : Credited cap s) :
    s.sender.receiveWindow.toNat + s.sender.sequenceNumbersInFlight ≤ cap + cap := by
  obtain ⟨b, rfl, hb, hlargest, hbehind⟩ := h.balance
  exact hb.le.trans (Nat.add_le_add hlargest hbehind)

/-- With buffers below `2 ^ 15` the sum never wraps, so it is never zero. -/
theorem Credited.flowing (h : Credited cap s) (hcap : cap < 2 ^ 15) : Flowing s := by
  obtain ⟨b, rfl, hb, hlargest, hbehind⟩ := h.balance
  have hsum := hb.exact (by omega)
  have hpos := hb.pos
  refine ⟨h.good, hb.opening.fresh, ?_⟩
  show 0 < b.sum
  omega

end Session

end TCPSender

/-! ## The two ends -/

/-- A receiver offers no more than its buffer. -/
theorem TCPReceiver.send_windowSize_le (t : TCPReceiver) (h : t.reassembler.Inv) :
    t.send.windowSize.toNat ≤ t.output.capacity := by
  have havail : t.output.availableCapacity ≤ t.output.capacity := by
    rw [show t.output.availableCapacity = _ from h.output.availableCapacity_eq]
    exact Nat.sub_le _ _
  have hmod := Nat.mod_le (min (sub64 65535 t.reassembler.countBytesPending)
    t.output.availableCapacity) (2 ^ 16)
  calc t.send.windowSize.toNat
      = min (sub64 65535 t.reassembler.countBytesPending) t.output.availableCapacity % 2 ^ 16 := rfl
    _ ≤ t.output.availableCapacity := Nat.le_trans hmod (Nat.min_le_right _ _)
    _ ≤ t.output.capacity := havail

namespace Conversation

variable {cap : Nat} {c c' : Conversation} {op : Op} {out : List TCPMessage}

/-- Every message carries the report of the receiver behind the step. -/
theorem step_reports (hst : c.step op = .ok (c', out)) :
    ∀ m ∈ out, m.receiver = c'.peer.receiver.send := by
  cases op with
  | write data | close | read len =>
    obtain ⟨rfl, rfl⟩ := pair_ok hst
    simp
  | shutdown | push | tick ms =>
    obtain ⟨rfl, rfl⟩ := pair_ok hst
    intro m hm
    obtain ⟨segment, -, rfl⟩ := List.mem_map.mp hm
    rfl
  | receive stale msg =>
    rcases receive_cases hst with ⟨-, rfl, rfl⟩ | ⟨-, p', hans, rfl⟩
    · simp
    · intro m hm
      rw [hans.out] at hm
      obtain ⟨segment, -, rfl⟩ := List.mem_map.mp hm
      rfl

theorem credited_step (h : c.session.Credited cap) (hpos : 1 ≤ cap)
    (hord : c.Orderly op)
    (hw : ∀ stale msg, op = .receive stale msg → msg.receiver.windowSize.toNat ≤ cap)
    (hst : c.step op = .ok (c', out)) : c'.session.Credited cap := by
  have hstep : ∀ {s : Session} (o : TCPSender.Op), s.Credited cap → s.Orderly o →
      (∀ stale msg, o = .receive stale msg → msg.windowSize.toNat ≤ cap) →
        (s.step o).Credited cap := fun o hs => hs.step hpos
  have hpush : ∀ s : Session, s.Credited cap → (s.step .push).Credited cap :=
    fun _ hs => hs.step hpos trivial nofun
  cases op with
  | write data =>
    obtain ⟨rfl, -⟩ := pair_ok hst
    exact hstep (.write data) h hord nofun
  | close =>
    obtain ⟨rfl, -⟩ := pair_ok hst
    exact hstep .close h trivial nofun
  | shutdown =>
    obtain ⟨rfl, -⟩ := pair_ok hst
    exact hpush (c.session.step .close) (hstep .close h trivial nofun)
  | push =>
    obtain ⟨rfl, -⟩ := pair_ok hst
    exact hpush c.session h
  | tick ms =>
    obtain ⟨rfl, -⟩ := pair_ok hst
    exact hstep (.tick ms) h trivial nofun
  | receive stale msg =>
    rcases receive_cases hst with ⟨-, rfl, -⟩ | ⟨-, p', hans, rfl⟩
    · exact h
    · rw [session_receive hans]
      have hheard : (c.session.step (.receive stale msg.receiver)).Credited cap :=
        hstep _ h trivial fun stale' msg' hop => by
          obtain ⟨-, rfl⟩ := TCPSender.Op.receive.inj hop
          exact hw stale msg rfl
      exact hpush _ hheard
  | read len =>
    obtain ⟨rfl, -⟩ := pair_ok hst
    exact h

end Conversation

namespace Duplex

variable {cfg : Side → TCPConfig} {d : Duplex}

/-- The window of the end is credited, and what it sends offers no more than its buffer. -/
structure Narrow (cfg : Side → TCPConfig) (d : Duplex) (x : Side) : Prop where
  credited : (d.conv x).session.Credited (cfg x.other).recvCapacity
  offers : ∀ m ∈ d.pair.network x, m.receiver.windowSize.toNat ≤ (cfg x).recvCapacity

theorem narrow (hfits : ∀ x, Fits (cfg x))
    (h : (machine cfg).Reaches Permitted d) : ∀ x, Narrow cfg d x := by
  refine h.invariant_of (P := fun d => ∀ x, Narrow cfg d x) ?_ ?_
  · rintro _ rfl x
    exact ⟨.new (hfits x).send _ _ (hfits x.other).pos, fun m hm => absurd hm List.not_mem_nil⟩
  · intro d e d' hr hnarrow hok hst
    obtain ⟨x, op⟩ := e
    obtain ⟨c, out, hc, hm⟩ := moves_of_step hst
    have hcredited := Conversation.credited_step (hnarrow x).credited (hfits x.other).pos
      hok.1.1 (fun stale msg hop => by
        subst hop
        exact (hnarrow x.other).offers msg hok.1.2) hc
    -- the receiver behind the step
    have hback := ((linked hfits (hr.step hok hst)).back x).carried.delivered
    have hreceiver : (d'.flow x.other x).receiver = c.peer.receiver :=
      congrArg (fun c => c.peer.receiver) hm.conv
    rw [hreceiver] at hback
    intro y
    rcases x.eq_or_other y with rfl | rfl
    · refine ⟨hm.conv.symm ▸ hcredited, fun m hmem => ?_⟩
      rw [hm.network] at hmem
      rcases List.mem_append.mp hmem with hmem | hmem
      · exact (hnarrow _).offers m hmem
      · rw [Conversation.step_reports hc m hmem, ← hback.outputCapacity]
        exact TCPReceiver.send_windowSize_le _ hback.placed.inv
    · refine ⟨hm.other.symm ▸ (hnarrow _).credited, fun m hmem => ?_⟩
      rw [hm.otherNetwork] at hmem
      exact (hnarrow _).offers m hmem

end Duplex

end Minnow
