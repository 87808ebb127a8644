import Minnow.Reassembler.Final
import Minnow.Tcp.Receiver

/-!
# The advertised window

`send` reports `min( 65535 - count_bytes_pending(), available_capacity() )`, cut to 16 bits. The
window counts from the ackno, so it should be the room of the output whatever is stored behind a
gap. The pending bytes only stay out of it while they and the room together fit into 16 bits
(`Exact`, with the coincidences of the wrapped difference); `advertised_iff` says that this is
exactly when the report is right.

`edge` is the first absolute index behind the advertised window. Where the report is right it is the
end of the reassembler's window, which never moves back (`windowEnd_mono`).
-/

namespace Minnow

namespace TCPReceiver

/-- `count_bytes_pending()`, a 64-bit sum. -/
def pending (t : TCPReceiver) : Nat := t.reassembler.countBytesPending % 2 ^ 64

def available (t : TCPReceiver) : Nat := t.output.availableCapacity

/-- The first index behind the advertised window. -/
def edge (t : TCPReceiver) : Nat := t.bytesPushed + t.send.windowSize.toNat

/-- Nothing is pending, or what is pending and the room fit into 16 bits together; or the difference
wraps, and what is left of it after the cut to 16 bits happens to be right. -/
def Exact (t : TCPReceiver) : Prop :=
  t.pending = 0 ∨ t.pending + t.available < 2 ^ 16 ∨
    2 ^ 16 ≤ t.pending ∧ (t.available < 2 ^ 16 ∨
      min (2 ^ 64 + 65535 - t.pending) t.available % 2 ^ 16 = 65535)

instance (t : TCPReceiver) : Decidable (Exact t) := by
  unfold Exact
  infer_instance

/-- The stream of a receiver with this capacity. -/
structure Sized (capacity : Nat) (t : TCPReceiver) : Prop where
  output : t.output.WF
  capacity_eq : t.output.capacity = capacity

def machine (capacity : Nat) : Machine TCPReceiver Op := .det (.new capacity) step

/-- Only the first SYN of a run is taken. -/
def SingleSyn (t : TCPReceiver) : Op → Prop
  | .receive message => message.syn = true → t.synSet = false
  | .read _ => True

instance (t : TCPReceiver) : ∀ op, Decidable (SingleSyn t op)
  | .receive _ => by
    unfold SingleSyn
    infer_instance
  | .read _ => .isTrue trivial

section

variable {capacity : Nat} {s t t' : TCPReceiver} {op : Op}

theorem windowSize_toNat (t : TCPReceiver) : t.send.windowSize.toNat =
    min (sub64 65535 t.reassembler.countBytesPending) t.available % 2 ^ 16 := by
  show (UInt16.ofNat _).toNat = _
  rw [UInt16.toNat_ofNat']
  rfl

/-- The difference with the pending bytes: it wraps when there are more than 65535. -/
theorem sub64_pending (t : TCPReceiver) : sub64 65535 t.reassembler.countBytesPending =
    if t.pending < 2 ^ 16 then 65535 - t.pending else 2 ^ 64 + 65535 - t.pending := by
  have hlt : t.pending < 2 ^ 64 := Nat.mod_lt _ (by decide)
  show (65535 + (2 ^ 64 - t.pending)) % 2 ^ 64 = _
  split <;> omega

/-- The report is right exactly when the pending bytes stay out of it. -/
theorem advertised_iff (t : TCPReceiver) :
    t.send.windowSize.toNat = min 65535 t.available ↔ Exact t := by
  have hlt : t.pending < 2 ^ 64 := Nat.mod_lt _ (by decide)
  rw [windowSize_toNat, sub64_pending]
  unfold Exact
  split
  · rename_i h
    rw [Nat.mod_eq_of_lt (by omega)]
    omega
  · rename_i h
    by_cases ha : t.available < 2 ^ 16
    · rw [Nat.min_eq_right (by omega), Nat.mod_eq_of_lt ha]
      omega
    · have hne : t.pending ≠ 0 := by omega
      simp only [hne, ha, false_or]
      omega

/-! ## Runs -/

theorem Sized.new (h : capacity < 2 ^ 64) : Sized capacity (.new capacity) := ⟨.new h, rfl⟩

/-- An insert neither pops nor changes the capacity. -/
theorem Sized.insert {r' : Reassembler} {firstIndex : Nat} {data : Bytes} {isLast : Bool}
    (h : Sized capacity t) (hr : t.reassembler.insert firstIndex data isLast = .ok r') :
    r'.output.WF ∧ r'.output.capacity = capacity := by
  have hend : r'.windowEnd = t.reassembler.windowEnd := (Reassembler.insert_kept hr).1.windowEnd
  rcases Reassembler.insert_output h.output hr with ⟨hout, -⟩ | ⟨-, m, -, hf, -⟩
  · rw [hout]
    exact ⟨h.output, h.capacity_eq⟩
  · refine ⟨hf.output, ?_⟩
    -- what is pushed is buffered, so the bytes popped stay, and with them the capacity
    have hw : t.reassembler.output.WF := h.output
    have hnew := hf.output.bytesPushed_eq
    have hold := hw.bytesPushed_eq
    rw [hf.peek, List.length_append, List.length_take] at hnew
    have hmin : r'.output.bytesPushed = t.reassembler.output.bytesPushed + _ := hf.pushed
    have hc : t.reassembler.output.capacity = capacity := h.capacity_eq
    unfold Reassembler.windowEnd at hend
    omega

theorem Sized.step (h : Sized capacity t) (hst : t.step op = .ok t') : Sized capacity t' := by
  cases op with
  | receive message =>
    rcases receive_cases hst with ⟨-, rfl⟩ | ⟨-, r', hins, rfl⟩
    · have hw := h.output
      exact ⟨⟨hw.cap, hw.length, hw.stop, hw.fits, hw.pushed⟩, h.capacity_eq⟩
    · obtain ⟨hw, hc⟩ := h.insert hins
      exact ⟨hw, hc⟩
  | read len =>
    obtain rfl := Except.ok.inj hst
    exact ⟨h.output.pop len, h.capacity_eq⟩

theorem sized (hcap : capacity < 2 ^ 64) {ok : TCPReceiver → Op → Prop}
    (h : (machine capacity).Reaches ok t) : Sized capacity t :=
  h.invariant_det (.new hcap) fun _ _ _ ht _ hst => ht.step hst

theorem windowEnd_step (hst : t.step op = .ok t') :
    t.reassembler.windowEnd ≤ t'.reassembler.windowEnd := by
  cases op with
  | receive message =>
    rcases receive_cases hst with ⟨-, rfl⟩ | ⟨-, r', hins, rfl⟩
    · exact Nat.le_refl _
    · exact Nat.le_of_eq (Reassembler.insert_kept hins).1.windowEnd.symm
  | read len =>
    obtain rfl := Except.ok.inj hst
    exact t.reassembler.windowEnd_le_pop len

theorem windowEnd_mono {ok : TCPReceiver → Op → Prop} (hs : (machine capacity).Reaches ok s)
    (ht : (machine capacity).Runs ok s t) : s.reassembler.windowEnd ≤ t.reassembler.windowEnd :=
  ht.rel (R := fun s t => s.reassembler.windowEnd ≤ t.reassembler.windowEnd) hs
    (fun _ => Nat.le_refl _) (fun _ _ _ => Nat.le_trans) fun _ _ _ _ _ hst => windowEnd_step hst

/-- A right report of a small receiver ends where the reassembler's window ends. -/
theorem Sized.edge_eq (h : Sized capacity t) (hcap : capacity < 2 ^ 16) (hex : Exact t) :
    t.edge = t.reassembler.windowEnd := by
  have havail : t.available = t.output.capacity - t.output.bufferSize :=
    h.output.availableCapacity_eq
  have hend : t.bytesPushed + t.available = t.reassembler.windowEnd := h.output.window_end
  have hc := h.capacity_eq
  unfold edge
  rw [(advertised_iff t).mpr hex, Nat.min_eq_right (by omega)]
  exact hend

/-- In every run the report is right exactly where `Exact` holds, and between two states where it is
the right edge of a receiver of at most 65535 bytes does not move back. -/
theorem advertised_window (capacity : Nat) (s : TCPReceiver) (hcap : capacity < 2 ^ 64)
    (h : (machine capacity).Reaches (fun _ _ => True) s) :
    (s.send.windowSize.toNat = min 65535 s.available ↔ Exact s) ∧
      (capacity < 2 ^ 16 → Exact s → ∀ t, (machine capacity).Runs (fun _ _ => True) s t →
        Exact t → s.edge ≤ t.edge) := by
  refine ⟨advertised_iff s, fun hsmall hs t ht hext => ?_⟩
  rw [(sized hcap h).edge_eq hsmall hs, (sized hcap (ht.reaches h)).edge_eq hsmall hext]
  exact windowEnd_mono h ht

/-- A byte behind a gap, then the gap is filled and the stream is read. -/
theorem advertised_window_gap : ∃ s t : TCPReceiver, s.pending = 1 ∧ s.send.windowSize.toNat = 8 ∧
    t.bytesPushed = 2 ∧ s.edge ≤ t.edge := by
  obtain ⟨s, hs, hp, ha, hex, hok, hends⟩ := Machine.exists_reaches step (.new 8)
    (fun _ _ => True)
    (fun s => s.pending = 1 ∧ s.available = 8 ∧ Exact s ∧
      Machine.Allowed (fun _ _ => True) step s
        [.receive { seqno := ⟨11⟩, payload := [97] }, .read 1] ∧
      Machine.Ends (fun t => t.bytesPushed = 2 ∧ Exact t) step s
        [.receive { seqno := ⟨11⟩, payload := [97] }, .read 1])
    [.receive { seqno := ⟨10⟩, syn := true }, .receive { seqno := ⟨12⟩, payload := [98] }]
    (by decide +kernel) (by decide +kernel)
  obtain ⟨t, ht, hb, hext⟩ := Machine.exists_runs (.new 8) hends hok
  obtain ⟨hwin, hedge⟩ := advertised_window 8 s (by decide) hs
  refine ⟨s, t, hp, ?_, hb, hedge (by decide) hex t ht hext⟩
  rw [hwin.mpr hex, ha]
  rfl

/-- One byte behind a gap takes one from the window of an empty stream, and its edge moves back. -/
theorem edge_moves_back : ∃ s t, (machine 65535).Reaches SingleSyn s ∧
    (machine 65535).Runs SingleSyn s t ∧ t.send.windowSize.toNat ≠ min 65535 t.available ∧
    t.edge < s.edge := by
  obtain ⟨s, hs, he, hok, hends⟩ := Machine.exists_reaches step (.new 65535) SingleSyn
    (fun s => s.edge = 65535 ∧
      Machine.Allowed SingleSyn step s [.receive { seqno := ⟨12⟩, payload := [98] }] ∧
      Machine.Ends (fun t => t.send.windowSize.toNat ≠ min 65535 t.available ∧ t.edge = 65534)
        step s [.receive { seqno := ⟨12⟩, payload := [98] }])
    [.receive { seqno := ⟨10⟩, syn := true }]
    (by decide +kernel) (by decide +kernel)
  obtain ⟨t, ht, hne, he'⟩ := Machine.exists_runs (.new 65535) hends hok
  exact ⟨s, t, hs, ht, hne, by omega⟩

end

end TCPReceiver

end Minnow
