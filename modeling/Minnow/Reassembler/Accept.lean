import Minnow.Reassembler.Runs

/-!
# In-order data is accepted

Bytes at the next expected index should be pushed as far as there is room, wherever in the 64-bit
index space the stream has got to. They are, unless one of the two conversions through `int` gets
in the way: `IntExact` asks that neither of them takes an end of a range below the smaller of the
two ends. All ranges that end at or below `2 ^ 31` are so (`intExact_of_le`), and no longer one
whose smaller end is beyond (`not_intExact_of_gt`).
-/

namespace Minnow

namespace Reassembler

/-- Neither conversion through `int` takes the last index of the window or of the substring below
the smaller of the two. -/
def IntExact (windowEnd firstIndex dataSize : Nat) : Prop :=
  min (windowEnd - 1) (firstIndex + dataSize - 1) ≤ clampInt (windowEnd - 1) ∧
    min (windowEnd - 1) (firstIndex + dataSize - 1) ≤ clampInt (firstIndex + dataSize - 1)

/-- The insert is of a string that a program can hold, and it lies outside the window or has
exact ends. -/
def ExactEnds (s : Session) : Op → Prop
  | .insert firstIndex data _ => data.length < 2 ^ 63 ∧
      (s.reassembler.windowEnd ≤ firstIndex ∨
        firstIndex + data.length < s.reassembler.bytesPushed ∨
        IntExact s.reassembler.windowEnd firstIndex data.length)
  | .pop _ => True

instance (s : Session) : ∀ op, Decidable (ExactEnds s op)
  | .insert firstIndex data _ => by
    unfold ExactEnds IntExact
    infer_instance
  | .pop _ => .isTrue trivial

section

variable {data : Bytes} {firstIndex capacity n : Nat} {isLast : Bool} {s : Session}
  {r : Reassembler}

theorem intExact_of_le {windowEnd : Nat} (hw : windowEnd ≤ 2 ^ 31)
    (hs : firstIndex + n ≤ 2 ^ 31) : IntExact windowEnd firstIndex n := by
  unfold IntExact
  rw [clampInt_of_lt (by omega), clampInt_of_lt (by omega)]
  omega

theorem not_intExact_of_gt {windowEnd : Nat} (hw : 2 ^ 31 < windowEnd)
    (hs : 2 ^ 31 < firstIndex + n) : ¬ IntExact windowEnd firstIndex n := by
  have := clampInt_lt (windowEnd - 1)
  unfold IntExact
  omega

/-- Inside the window, exact conversions keep the smaller of the two last indices. -/
theorem IntExact.endExact (hx : IntExact r.windowEnd firstIndex n) (h : r.Inv)
    (hw : 1 ≤ r.windowEnd) (hhi : r.windowEnd < 2 ^ 63) (hf : firstIndex < r.windowEnd)
    (hn : n < 2 ^ 63) : r.EndExact firstIndex n := by
  have hle₁ := clampInt_le (r.windowEnd - 1)
  have hle₂ := clampInt_le (firstIndex + n - 1)
  unfold IntExact at hx
  unfold EndExact lastIndex lastAvailableIndex lastDataIndex
  rw [add64_of_lt (by rw [h.window]; omega), h.window, sub64_of_le hw (by omega),
    add64_of_lt (by omega)]
  by_cases h0 : firstIndex + n = 0
  · rw [h0, show clampInt (sub64 0 1) = 0 by decide]
    omega
  · rw [sub64_of_le (by omega) (by omega)]
    omega

/-- The inserts of such a run are the ones specified, so they keep the invariant. -/
theorem inv_step {s s' : Session} {op : Op} (h : s.reassembler.Inv)
    (hw : 1 ≤ s.reassembler.windowEnd) (hhi : s.reassembler.windowEnd < 2 ^ 63)
    (hok : ExactEnds s op) (hst : s.step op = .ok s') : s'.reassembler.Inv := by
  cases op with
  | insert firstIndex data isLast =>
    obtain ⟨r', hr', rfl⟩ := Session.step_insert hst
    obtain ⟨hn, hok⟩ := hok
    by_cases hph : s.reassembler.Phantom firstIndex data
    · obtain ⟨rfl, rfl, h0⟩ := hph
      obtain ⟨d, r'', hr'', hins⟩ := insert_phantom_spec isLast h hw hhi h0
      obtain rfl : r' = r'' := Except.ok.inj (hr'.symm.trans hr'')
      exact hins.inv
    · obtain ⟨d, r'', hr'', hins⟩ := insert_spec isLast h hw hhi hn hph fun ho => by
        have hin := mt (outsideWindow_iff h hw hhi hn).mpr (by rw [ho]; simp)
        rcases hok with hok | hok | hok
        · exact absurd (.inl hok) hin
        · exact absurd (.inr hok) hin
        · exact hok.endExact h hw hhi (by omega) hn
      obtain rfl : r' = r'' := Except.ok.inj (hr'.symm.trans hr'')
      exact hins.inv
  | pop len =>
    obtain rfl : s.afterPop len = s' := Except.ok.inj hst
    exact h.pop len

theorem windowEnd_step {s s' : Session} {op : Op} (hst : s.step op = .ok s') :
    s.reassembler.windowEnd ≤ s'.reassembler.windowEnd := by
  cases op with
  | insert firstIndex data isLast =>
    obtain ⟨r', hr', rfl⟩ := Session.step_insert hst
    exact Nat.le_of_eq (insert_kept hr').1.windowEnd.symm
  | pop len =>
    obtain rfl : s.afterPop len = s' := Except.ok.inj hst
    exact afterPop_windowEnd_le s len

/-- The window only moves on. So what the steps keep while it ends at or below `bound` holds of
every state in which it ends there. -/
theorem inv_while {ok : Session → Op → Prop} {P : Session → Prop} {bound : Nat}
    (hcap : 1 ≤ capacity) (h : (machine capacity).Reaches ok s)
    (hnew : capacity ≤ bound → P (.new capacity))
    (hstep : ∀ s op s', P s → 1 ≤ s.reassembler.windowEnd → s.reassembler.windowEnd ≤ bound →
      ok s op → s.step op = .ok s' → P s') :
    1 ≤ s.reassembler.windowEnd ∧ (s.reassembler.windowEnd ≤ bound → P s) := by
  refine h.invariant_det (P := fun s => 1 ≤ s.reassembler.windowEnd ∧
    (s.reassembler.windowEnd ≤ bound → P s)) ?_ fun s op s' hs hok hst => ?_
  · have hw : (Session.new capacity).reassembler.windowEnd = capacity := Nat.zero_add _
    exact ⟨by omega, fun hle => hnew (by omega)⟩
  · have hmono := windowEnd_step hst
    exact ⟨Nat.le_trans hs.1 hmono, fun hle =>
      hstep s op s' (hs.2 (by omega)) hs.1 (by omega) hok hst⟩

/-- As long as the window stays below `2 ^ 63`, the state is in order. -/
theorem inv_of_exactEnds (hcap : 1 ≤ capacity)
    (h : (machine capacity).Reaches ExactEnds s) :
    1 ≤ s.reassembler.windowEnd ∧ (s.reassembler.windowEnd < 2 ^ 63 → s.reassembler.Inv) := by
  obtain ⟨hw, hinv⟩ := inv_while (P := fun s => s.reassembler.Inv) hcap h
    (fun (hle : capacity ≤ 2 ^ 63 - 1) => .new (by omega))
    fun s op s' hs hw hle hok hst => inv_step hs hw (by omega) hok hst
  exact ⟨hw, fun hlt => hinv (by omega)⟩

/-- The first bytes of `data` are those that fit; they are pushed as they are if and only if none of
them contradicts a byte that was stored for its index before. -/
structure Accepted (r : Reassembler) (data : Bytes) (d : Bytes) (r' : Reassembler) : Prop where
  peek : r'.output.peek = r.output.peek ++ d
  pushed : r'.bytesPushed = r.bytesPushed + d.length
  le : min data.length r.output.availableCapacity ≤ d.length
  bytes : d.take (min data.length r.output.availableCapacity) =
      data.take (min data.length r.output.availableCapacity) ↔
    ∀ i < min data.length r.output.availableCapacity, ∀ b,
      Stored r.cache.entries (r.bytesPushed + i) b → data[i]? = some b

/-- What an insert at the next expected index pushes, in a state in order. -/
theorem Inv.accepts (h : r.Inv) (hw : 1 ≤ r.windowEnd) (hhi : r.windowEnd < 2 ^ 63)
    (hne : data ≠ []) (hn : data.length < 2 ^ 63)
    (hx : IntExact r.windowEnd r.bytesPushed data.length) :
    ∃ d r', r.insert r.bytesPushed data isLast = .ok r' ∧ Accepted r data d r' := by
  have hwin := h.window
  obtain ⟨d, r', hr', hins⟩ := insert_spec isLast h hw hhi hn (fun hph => hne hph.2.1)
    fun ho => by
      have hin := mt (outsideWindow_iff h hw hhi hn).mpr (by rw [ho]; simp)
      exact hx.endExact h hw hhi (by omega) hn
  have hle : min data.length r.output.availableCapacity ≤ d.length := by
    by_contra hlt
    -- the byte at the first index that is not pushed has arrived, from the data or before
    by_cases hf : Free r.cache.entries (r.bytesPushed + d.length)
    · refine hins.gap (data.get ⟨d.length, by omega⟩) (.inr ⟨hf, by omega, by omega, ?_⟩)
      rw [Nat.add_sub_cancel_left]
      exact List.getElem?_eq_getElem (by omega)
    · obtain ⟨b, hb⟩ := not_forall_not.mp hf
      exact hins.gap b (.inl hb)
  refine ⟨d, r', hr', hins.peek, hins.pushed, hle, ?_, ?_⟩
  · intro heq i hi b hb
    have hd : d[i]? = data[i]? := by
      have := congrArg (·[i]?) heq
      simpa only [List.getElem?_take_of_lt hi] using this
    rw [← hd]
    -- the pushed byte is the stored one
    have hdi := List.getElem?_eq_getElem (show i < d.length by omega)
    rcases hins.bytes i _ hdi with hb' | ⟨hf, -⟩
    · rw [hdi, h.tiled.stored_inj r.cache.sorted hb hb']
    · exact absurd hb (hf b)
  · intro hagree
    refine List.ext_getElem? fun i => ?_
    rw [List.getElem?_take, List.getElem?_take]
    split
    · rename_i hi
      have hdi := List.getElem?_eq_getElem (show i < d.length by omega)
      rw [hdi]
      rcases hins.bytes i _ hdi with hb | ⟨-, -, -, hb⟩
      · exact (hagree i hi _ hb).symm
      · rw [← hb, Nat.add_sub_cancel_left]
    · rfl

/-- In every run whose inserts have exact ends, and in every state of it with a window below
`2 ^ 63`: an insert of non-empty data with exact ends at the next expected index pushes at least
the bytes that fit, and pushes them as they are unless they contradict a byte stored before. -/
theorem accepts_in_order (capacity : Nat) (hcap : 1 ≤ capacity) (s : Session)
    (h : (machine capacity).Reaches ExactEnds s) (hhi : s.reassembler.windowEnd < 2 ^ 63)
    (data : Bytes) (isLast : Bool) (hne : data ≠ []) (hn : data.length < 2 ^ 63)
    (hx : IntExact s.reassembler.windowEnd s.reassembler.bytesPushed data.length) :
    ∃ d r', s.reassembler.insert s.reassembler.bytesPushed data isLast = .ok r' ∧
      Accepted s.reassembler data d r' := by
  obtain ⟨hw, hinv⟩ := inv_of_exactEnds hcap h
  exact (hinv hhi).accepts hw hhi hne hn hx

/-- Two bytes at the start of a stream with a byte cached behind them. -/
theorem accepts_in_order_cached : ∃ s, (machine 4).Reaches ExactEnds s ∧
    ∃ d r', s.reassembler.insert s.reassembler.bytesPushed [10, 11] false = .ok r' ∧
      Accepted s.reassembler [10, 11] d r' := by
  obtain ⟨s, h, h0, hw⟩ := Machine.exists_reaches Session.step (.new 4) ExactEnds
    (fun s => s.reassembler.bytesPushed = 0 ∧ s.reassembler.windowEnd = 4) [.insert 2 [12] false]
    (by decide +kernel) (by decide +kernel)
  exact ⟨s, h, accepts_in_order 4 (by decide) s h (by rw [hw]; decide) [10, 11] false (by decide)
    (by decide) (by rw [hw, h0]; exact intExact_of_le (by decide) (by decide))⟩

/-- A fresh reassembler whose capacity is one more than `2 ^ 31` takes one byte of two. -/
theorem accepts_one_of_two :
    (machine (2 ^ 31 + 1)).Reaches (fun _ _ => True) (.new (2 ^ 31 + 1)) ∧
    ∃ r', (Session.new (2 ^ 31 + 1)).reassembler.insert 0 [10, 11] false = .ok r' ∧
      r'.bytesPushed < (Session.new (2 ^ 31 + 1)).reassembler.bytesPushed +
        min 2 (Session.new (2 ^ 31 + 1)).reassembler.output.availableCapacity := by
  refine ⟨.init rfl, ?_⟩
  have hrun : ((Session.new (2 ^ 31 + 1)).reassembler.insert 0 [10, 11] false).map
      Reassembler.bytesPushed = .ok 1 := by decide +kernel
  obtain ⟨r', hr, hpushed⟩ := map_ok hrun
  refine ⟨r', hr, ?_⟩
  rw [hpushed]
  decide +kernel

end

end Reassembler

end Minnow
