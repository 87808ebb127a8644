import Minnow.Reassembler.Accept
import Minnow.Reassembler.Final

/-!
# Substrings outside the window

A substring that begins beyond the window, or ends before the next expected index, has no byte to
give. `insert` returns early for it, but a last one has recorded its end by then: the end is
compared with the window after both went through `int`, so an old end passes, and so does a huge
one that wraps. `outside_iff` says when the reassembler is left as it was.

The runs are arbitrary, so the cache may be in disorder; only the output stream has to be in order.
-/

namespace Minnow

namespace Reassembler

/-- The last index of the substring, cut to 32 bits, is beyond the window and not negative as an
`int`; or the end is the one that is recorded already. -/
def KeepsEnd (r : Reassembler) (firstIndex dataSize : Nat) : Prop :=
  (r.windowEnd ≤ (firstIndex + dataSize - 1) % 2 ^ 32 ∧
      (firstIndex + dataSize - 1) % 2 ^ 32 < 2 ^ 31) ∨
    r.finish = true ∧ r.finishSet = add64 firstIndex dataSize

instance (r : Reassembler) (firstIndex dataSize : Nat) :
    Decidable (r.KeepsEnd firstIndex dataSize) :=
  inferInstanceAs (Decidable (_ ∧ _ ∨ _ ∧ _))

/-- The substring lies outside the window. -/
def LiesOutside (r : Reassembler) (firstIndex dataSize : Nat) : Prop :=
  r.windowEnd ≤ firstIndex ∨ firstIndex + dataSize < r.bytesPushed

variable {r : Reassembler} {s s' : Session} {op : Op} {firstIndex capacity n : Nat} {data : Bytes}

/-- What holds of the window in every run. -/
structure Windowed (capacity : Nat) (s : Session) : Prop where
  capacity_le : capacity ≤ s.reassembler.windowEnd
  output : capacity < 2 ^ 64 → s.reassembler.output.WF

theorem Windowed.new (capacity : Nat) : Windowed capacity (.new capacity) where
  capacity_le := Nat.le_of_eq (Nat.zero_add capacity).symm
  output := .new

theorem Windowed.step (h : Windowed capacity s) (hst : s.step op = .ok s') :
    Windowed capacity s' where
  capacity_le := Nat.le_trans h.capacity_le (windowEnd_step hst)
  output hcap := by
    cases op with
    | insert firstIndex data isLast =>
      obtain ⟨r', hr', rfl⟩ := Session.step_insert hst
      rcases insert_output (h.output hcap) hr' with ⟨hout, -⟩ | ⟨-, m, -, hflushed, -⟩
      · exact hout ▸ h.output hcap
      · exact hflushed.output
    | pop len =>
      obtain rfl : s.afterPop len = s' := Except.ok.inj hst
      exact (h.output hcap).pop len

theorem windowed {ok : Session → Op → Prop} (h : (machine capacity).Reaches ok s) :
    Windowed capacity s :=
  h.invariant_det (.new capacity) fun _ _ _ hs _ hst => hs.step hst

/-- Outside the window the early return is taken. -/
theorem outsideWindow_of_liesOutside (hwf : r.output.WF) (hw : 1 ≤ r.windowEnd)
    (hhi : r.windowEnd ≤ 2 ^ 31) (ho : r.LiesOutside firstIndex n) :
    r.outsideWindow firstIndex n = true := by
  have hwin : r.bytesPushed + r.output.availableCapacity = r.windowEnd := hwf.window_end
  unfold outsideWindow
  rw [add64_of_lt (by omega), hwin, sub64_of_le hw (by omega)]
  simp only [Bool.or_eq_true, decide_eq_true_eq]
  rcases ho with ho | ho
  · exact .inl (by omega)
  · exact .inr (by rw [add64_of_lt (by omega)]; omega)

/-- The test for the end, through both conversions. -/
theorem marksEnd_iff (hwf : r.output.WF) (hw : 1 ≤ r.windowEnd) (hhi : r.windowEnd ≤ 2 ^ 31)
    (hn : n ≠ 0) : r.marksEnd firstIndex n = true ↔
      ¬(r.windowEnd ≤ (firstIndex + n - 1) % 2 ^ 32 ∧ (firstIndex + n - 1) % 2 ^ 32 < 2 ^ 31) := by
  have hdata : sub64 (add64 firstIndex n) 1 % 2 ^ 32 = (firstIndex + n - 1) % 2 ^ 32 := by
    unfold sub64 add64
    omega
  unfold marksEnd lastDataIndex
  rw [lastAvailableIndex_of_le hwf hw hhi, clampInt_eq, hdata, decide_eq_true_iff]
  split <;> omega

/-- The mark changes nothing just when it is not made, or made already. -/
theorem markEnd_eq_self_iff (r : Reassembler) (firstIndex n : Nat) (isLast : Bool) :
    r.markEnd firstIndex n isLast = r ↔ (isLast = true → r.marksEnd firstIndex n = true →
      r.finish = true ∧ r.finishSet = add64 firstIndex n) := by
  have hfinish := markEnd_finish r firstIndex n isLast
  have hset := markEnd_finishSet r firstIndex n isLast
  constructor
  · intro h hlast hmark
    rw [h, hlast, hmark] at hfinish hset
    exact ⟨by simpa using hfinish, hset⟩
  · intro h
    unfold markEnd
    split
    · rename_i hc
      obtain ⟨hlast, hmark⟩ := Bool.and_eq_true_iff.mp hc
      obtain ⟨hf, hfs⟩ := h hlast hmark
      rw [← hf, ← hfs]
    · rfl

/-- In every state of every run with a window below `2 ^ 31`, a substring that lies outside the
window leaves the reassembler as it was, if and only if it is not a last one or keeps the end. -/
theorem outside_iff (hcap : 1 ≤ capacity) (h : (machine capacity).Reaches (fun _ _ => True) s)
    (hhi : s.reassembler.windowEnd ≤ 2 ^ 31) (hne : data ≠ [])
    (ho : s.reassembler.LiesOutside firstIndex data.length) (isLast : Bool) :
    s.reassembler.insert firstIndex data isLast = .ok s.reassembler ↔
      (isLast = true → s.reassembler.KeepsEnd firstIndex data.length) := by
  have hwindowed := windowed h
  have hw := hwindowed.capacity_le
  have hwf := hwindowed.output (by omega)
  have hlen : data.length ≠ 0 := fun h0 => hne (List.length_eq_zero_iff.mp h0)
  have hmark : s.reassembler.marksEnd firstIndex data.length = true ↔ _ :=
    marksEnd_iff hwf (by omega) hhi hlen
  rw [insert_eq, if_pos (outsideWindow_of_liesOutside hwf (by omega) hhi ho), Except.ok.injEq,
    markEnd_eq_self_iff, hmark]
  unfold KeepsEnd
  exact forall_congr' fun _ => or_iff_not_imp_left.symm

/-- A huge index whose lower half is beyond the window too. -/
theorem outside_of_huge : ∃ s, (machine 4).Reaches (fun _ _ => True) s ∧
    s.reassembler.bytesPushed = 2 ∧
    s.reassembler.insert (2 ^ 40 + 1000) [7, 8] true = .ok s.reassembler := by
  obtain ⟨s, h, hw, hpushed⟩ := Machine.exists_reaches Session.step (.new 4) (fun _ _ => True)
    (fun s => s.reassembler.windowEnd = 4 ∧ s.reassembler.bytesPushed = 2)
    [.insert 0 [5, 6] false] (by decide +kernel) (by decide +kernel)
  refine ⟨s, h, hpushed, (outside_iff (by decide) h (by rw [hw]; decide) (by decide)
    (.inl (by rw [hw]; decide)) true).mpr fun _ => .inl ?_⟩
  rw [hw]
  decide

/-- A last substring that was pushed long ago: the stream gets an end that it has passed. -/
theorem outside_sets_end : ∃ s, (machine 4).Reaches (fun _ _ => True) s ∧
    s.reassembler.windowEnd ≤ 2 ^ 31 ∧ s.reassembler.LiesOutside 0 ([5] : Bytes).length ∧
    s.reassembler.insert 0 [5] true ≠ .ok s.reassembler := by
  obtain ⟨s, h, hw, hpushed, hfinish, hinsert⟩ := Machine.exists_reaches Session.step (.new 4)
    (fun _ _ => True) (fun s => s.reassembler.windowEnd = 4 ∧ s.reassembler.bytesPushed = 2 ∧
      s.reassembler.finish = false ∧
      (s.reassembler.insert 0 [5] true).map Reassembler.finish = .ok true)
    [.insert 0 [5, 6] false] (by decide +kernel) (by decide +kernel)
  refine ⟨s, h, by rw [hw]; decide, .inr (by rw [hpushed]; decide), fun hsame => ?_⟩
  rw [hsame] at hinsert
  have hfinish' : s.reassembler.finish = true := Except.ok.inj hinsert
  rw [hfinish] at hfinish'
  cases hfinish'

end Reassembler

end Minnow
