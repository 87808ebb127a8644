import Minnow.Reassembler.Cache

/-!
# What one `insert` does

`Inv` is the invariant of a reassembler whose index arithmetic never went wrong: the output stream
is well formed, and the cached segments are tiled in the window behind the next expected index.

`insert_spec` says all that one `insert` does to such a state, in terms of the bytes that have
`Arrived` (they were stored, or the substring offers them inside the window and nothing was
stored for their index): it pushes the run of them at the next expected index, and the rest
stays stored. It asks that the two conversions through `int` do no harm (`EndExact`: whenever the
window and the substring end at or below `2 ^ 31`, `endExact_of_le`), and that the call is not
`insert( 0, "", … )` on a stream without bytes. That one call is `insert_phantom_spec`: its last
index is clamped to `0`, so the code takes it for a byte at index `0` that it does not have.
-/

namespace Minnow

namespace Reassembler

/-- The first index that lies beyond the window. -/
def windowEnd (r : Reassembler) : Nat := r.output.bytesPopped + r.output.capacity

structure Inv (r : Reassembler) : Prop where
  output : r.output.WF
  tiled : Tiled (r.bytesPushed + 1) r.windowEnd r.cache.entries

/-- The substring offers byte `b` for index `p` inside the window. -/
def Offered (r : Reassembler) (firstIndex : Nat) (data : Bytes) (p : Nat) (b : UInt8) : Prop :=
  max r.bytesPushed firstIndex ≤ p ∧ p < r.windowEnd ∧ data[p - firstIndex]? = some b

/-- Byte `b` for index `p` is stored before the insert, or the substring brings it. -/
def Arrived (r : Reassembler) (firstIndex : Nat) (data : Bytes) (p : Nat) (b : UInt8) : Prop :=
  Stored r.cache.entries p b ∨ Free r.cache.entries p ∧ r.Offered firstIndex data p b

/-- The conversions through `int` do not change the last index that is kept. -/
def EndExact (r : Reassembler) (firstIndex dataSize : Nat) : Prop :=
  r.lastIndex firstIndex dataSize = min (r.windowEnd - 1) (firstIndex + dataSize - 1)

/-- `r'` has pushed `d`, and is in order. -/
structure Pushed (r : Reassembler) (d : Bytes) (r' : Reassembler) : Prop where
  inv : r'.Inv
  peek : r'.output.peek = r.output.peek ++ d
  popped : r'.output.bytesPopped = r.output.bytesPopped
  capacity : r'.output.capacity = r.output.capacity
  error : r'.output.error = r.output.error
  pushed : r'.bytesPushed = r.bytesPushed + d.length

/-- The effect of an insert that pushes `d`. -/
structure Inserted (r : Reassembler) (firstIndex : Nat) (data : Bytes) (isLast : Bool)
    (d : Bytes) (r' : Reassembler) : Prop extends Pushed r d r' where
  bytes : ∀ i b, d[i]? = some b → r.Arrived firstIndex data (r.bytesPushed + i) b
  gap : ∀ b, ¬ r.Arrived firstIndex data (r.bytesPushed + d.length) b
  stored : ∀ p b, Stored r'.cache.entries p b ↔
    r.Arrived firstIndex data p b ∧ r.bytesPushed + d.length ≤ p
  stop_le : ∀ hi, (∀ x ∈ r.cache.entries, stop x ≤ hi) → firstIndex + data.length ≤ hi →
    ∀ x ∈ r'.cache.entries, stop x ≤ hi
  finish : r'.finish = (r.finish || isLast && r.marksEnd firstIndex data.length)
  finishSet : r'.finishSet = if isLast && r.marksEnd firstIndex data.length then
    add64 firstIndex data.length else r.finishSet
  closed : r'.output.closed = (r.output.closed || !r.outsideWindow firstIndex data.length &&
    r'.finish && r'.cache.entries.isEmpty && decide (r'.finishSet ≤ r'.bytesPushed))

section

variable {r : Reassembler} {firstIndex : Nat} {data : Bytes} {isLast : Bool}

theorem Inv.new {capacity : Nat} (h : capacity < 2 ^ 64) : Inv { output := { capacity } } :=
  ⟨.new h, .nil⟩

theorem Inv.window (h : r.Inv) : r.bytesPushed + r.output.availableCapacity = r.windowEnd :=
  h.output.window_end

theorem Inv.pushed_le (h : r.Inv) : r.bytesPushed ≤ r.windowEnd := by
  rw [← h.window]
  exact Nat.le_add_right _ _

/-- Nothing is stored for the next expected index. -/
theorem Inv.free_next (h : r.Inv) : Free r.cache.entries r.bytesPushed := fun b hb => by
  have := (h.tiled.stored_bounds hb).1
  omega

theorem lastDataIndex_zero : lastDataIndex 0 0 = 0 := by decide

theorem lastAvailableIndex_of_le (hwf : r.output.WF) (hw : 1 ≤ r.windowEnd)
    (hhi : r.windowEnd ≤ 2 ^ 31) : r.lastAvailableIndex = r.windowEnd - 1 := by
  have hwin : r.bytesPushed + r.output.availableCapacity = r.windowEnd := hwf.window_end
  unfold lastAvailableIndex
  rw [add64_of_lt (by omega), hwin, sub64_of_le hw (by omega), clampInt_of_lt (by omega)]

theorem lastDataIndex_of_le {dataSize : Nat} (hs : firstIndex + dataSize ≤ 2 ^ 31) :
    lastDataIndex firstIndex dataSize = firstIndex + dataSize - 1 := by
  by_cases h0 : firstIndex + dataSize = 0
  · rw [Nat.eq_zero_of_add_eq_zero_right h0, Nat.eq_zero_of_add_eq_zero_left h0]
    exact lastDataIndex_zero
  · unfold lastDataIndex
    rw [add64_of_lt (by omega), sub64_of_le (by omega) (by omega), clampInt_of_lt (by omega)]

/-- Below `2 ^ 31` the conversions through `int` are harmless. -/
theorem endExact_of_le (h : r.Inv) (hw : 1 ≤ r.windowEnd) (hhi : r.windowEnd ≤ 2 ^ 31)
    {dataSize : Nat} (hs : firstIndex + dataSize ≤ 2 ^ 31) : r.EndExact firstIndex dataSize := by
  unfold EndExact lastIndex
  rw [lastAvailableIndex_of_le h.output hw hhi, lastDataIndex_of_le hs]

/-- Below `2 ^ 31` the end is recorded exactly when it lies in the window. -/
theorem marksEnd_of_le (h : r.Inv) (hw : 1 ≤ r.windowEnd) (hhi : r.windowEnd ≤ 2 ^ 31)
    {dataSize : Nat} (hs : firstIndex + dataSize ≤ 2 ^ 31) :
    r.marksEnd firstIndex dataSize = decide (firstIndex + dataSize ≤ r.windowEnd) := by
  unfold marksEnd
  rw [lastAvailableIndex_of_le h.output hw hhi, lastDataIndex_of_le hs]
  exact decide_eq_decide.mpr (by omega)

/-- The early returns: the substring starts beyond the window or ends before the next expected
index. -/
theorem outsideWindow_iff (h : r.Inv) (hw : 1 ≤ r.windowEnd) (hhi : r.windowEnd < 2 ^ 63)
    {dataSize : Nat} (hs : dataSize < 2 ^ 63) :
    r.outsideWindow firstIndex dataSize = true ↔
      r.windowEnd ≤ firstIndex ∨ firstIndex + dataSize < r.bytesPushed := by
  unfold outsideWindow
  rw [add64_of_lt (by rw [h.window]; omega), h.window, sub64_of_le hw (by omega)]
  simp only [Bool.or_eq_true, decide_eq_true_eq]
  by_cases hf : r.windowEnd ≤ firstIndex
  · exact iff_of_true (.inl (by omega)) (.inl hf)
  · rw [add64_of_lt (by omega)]
    omega

/-- An early return loses nothing: the substring offers no byte. -/
theorem not_offered_of_outside
    (ho : r.windowEnd ≤ firstIndex ∨ firstIndex + data.length < r.bytesPushed) (p : Nat)
    (b : UInt8) : ¬ r.Offered firstIndex data p b := by
  rintro ⟨hle, hlt, hb⟩
  have := (List.getElem?_eq_some_iff.mp hb).1
  omega

/-- Bytes that the stream has from index `m` on continue its first `m` bytes. -/
theorem take_append_eq {stream d : Bytes} {m : Nat}
    (h : ∀ i b, d[i]? = some b → stream[m + i]? = some b) :
    stream.take m ++ d = stream.take (m + d.length) := by
  rw [List.take_add]
  congr 1
  refine List.ext_getElem? fun i => ?_
  rw [List.getElem?_take, List.getElem?_drop]
  split
  · rename_i hi
    rw [List.getElem?_eq_getElem hi, h i _ (List.getElem?_eq_getElem hi)]
  · exact List.getElem?_eq_none (by omega)

/-! ## Storing the substring -/

/-- Storing the substring up to its last index: the view is inside the data, no `substr` throws, and
the map keeps its bytes and gets those of the substring at the indices where it has none. No segment
ends beyond a bound that the cached segments and the last index keep. -/
theorem store_upto (hi : Nat) (h : r.Inv) (hhi : hi < 2 ^ 63)
    (hstop : ∀ x ∈ r.cache.entries, stop x ≤ hi) (hL : r.lastIndex firstIndex data.length < hi)
    (hwL : max r.bytesPushed firstIndex ≤ r.lastIndex firstIndex data.length + 1)
    (hle : r.lastIndex firstIndex data.length + 1 ≤ firstIndex + data.length) :
    ∃ m, r.store firstIndex data = .ok m ∧ Tiled r.bytesPushed hi m.entries ∧
      ∀ p b, Stored m.entries p b ↔ Stored r.cache.entries p b ∨
        Free r.cache.entries p ∧ max r.bytesPushed firstIndex ≤ p ∧
          p < r.lastIndex firstIndex data.length + 1 ∧ data[p - firstIndex]? = some b := by
  unfold store
  dsimp only
  generalize r.lastIndex firstIndex data.length = L at *
  generalize hw : max r.bytesPushed firstIndex = w at *
  have hcut : min (L + 1 - w) data.length = L + 1 - w := by omega
  rw [add64_sub64_one hwL (by omega), hcut, sub64_of_le (by omega) (by omega)]
  have hin : (view data (w - firstIndex) (L + 1 - w)).Inside := view_inside.mpr (by omega)
  have hbytes : (view data (w - firstIndex) (L + 1 - w)).toList =
      (data.drop (w - firstIndex)).take (L + 1 - w) := toList_view (by omega)
  have hlen : (view data (w - firstIndex) (L + 1 - w)).length = L + 1 - w := rfl
  have htl := hin.length_toList
  generalize view data (w - firstIndex) (L + 1 - w) = v at *
  have htb : ∀ p b, w ≤ p →
      (v.toList[p - w]? = some b ↔ p < L + 1 ∧ data[p - firstIndex]? = some b) := by
    intro p b hwp
    rw [hbytes, List.getElem?_take, List.getElem?_drop,
      show w - firstIndex + (p - w) = p - firstIndex by omega]
    split
    · exact ⟨fun hb => ⟨by omega, hb⟩, fun hb => hb.2⟩
    · exact ⟨fun hb => (Option.some_ne_none b hb.symm).elim, fun hb => absurd hb.1 (by omega)⟩
  have htile : Tiled r.bytesPushed hi r.cache.entries :=
    ⟨fun x hx => by have := h.tiled.lo_le x hx; omega, h.tiled.last, hstop, h.tiled.apart⟩
  have habs : ∀ m, Absorbs ⟨r.cache, w, v⟩ m →
      ∀ p b, Stored m.entries p b ↔ Stored r.cache.entries p b ∨ Free r.cache.entries p ∧ w ≤ p ∧
        p < L + 1 ∧ data[p - firstIndex]? = some b := by
    intro m hm p b
    rw [hm p b]
    exact or_congr_right (and_congr_right fun _ => and_congr_right fun hwp => htb p b hwp)
  by_cases hempty : w = L + 1
  · -- no byte of the substring is new and inside the window
    rw [if_neg (by simp; omega)]
    obtain ⟨m, hrun, htm, hm⟩ := overlay_empty_spec (L := L) (c := ⟨r.cache, w, v⟩) htile
      (show r.bytesPushed ≤ w by omega) hempty.symm (by simp only; omega) (by omega)
      (by simp only; omega)
    exact ⟨m, hrun, htm, habs m hm⟩
  · by_cases hc : r.cache.entries = []
    · rw [if_pos (by simp [hc]; omega), hin.string]
      have hsep : ∀ x ∈ r.cache.entries, stop x ≤ w ∨ w < x.1 ∧ w + v.toList.length ≤ x.1 := by
        simp [hc]
      have htm := htile.set (e := L) (t := v.toList) (show r.bytesPushed ≤ w by omega) (by omega)
        (by omega) hsep
      refine ⟨_, appendTail_of_mem (x := (w, L, v.toList)) htm
        ((OrdMap.mem_set _ _ _ _).mpr (.inl rfl)) (Nat.le_refl _), htm, habs _ fun p b => ?_⟩
      rw [Tiled.stored_set hsep]
      refine or_congr_right ⟨fun hb => ⟨?_, hb⟩, And.right⟩
      simp [Free, Stored, hc]
    · rw [if_neg (by simp [hc])]
      have hc' : CursorOK r.bytesPushed hi L r.cache.entries ⟨r.cache, w, v⟩ :=
        ⟨htile, fun _ hx => hx, r.cache.sorted, fun _ hx => .inl hx,
          show r.bytesPushed ≤ w by omega, hin, by simp only; omega, by simp only; omega, by omega,
          by omega⟩
      obtain ⟨m, hrun, htm, hm⟩ := overlay_spec hc' hc
      exact ⟨m, hrun, htm, habs m hm⟩

/-- Storing the part of the substring that lies in the window: the map keeps its bytes and gets the
offered ones. -/
theorem store_spec (hi : Nat) (h : r.Inv) (hhi : r.windowEnd < 2 ^ 63)
    (hstop : ∀ x ∈ r.cache.entries, stop x ≤ hi)
    (hle : min r.windowEnd (firstIndex + data.length) ≤ hi) (hif : hi ≤ r.windowEnd)
    (hf : firstIndex < r.windowEnd) (hp : r.bytesPushed ≤ firstIndex + data.length)
    (hpos : 0 < firstIndex + data.length) (hx : r.EndExact firstIndex data.length) :
    ∃ m, r.store firstIndex data = .ok m ∧ Tiled r.bytesPushed hi m.entries ∧
      ∀ p b, Stored m.entries p b ↔ r.Arrived firstIndex data p b := by
  have hpw := h.pushed_le
  unfold EndExact at hx
  have hwL : max r.bytesPushed firstIndex ≤ r.lastIndex firstIndex data.length + 1 := by omega
  obtain ⟨m, hm, ht, hst⟩ := store_upto hi h (by omega) hstop (by omega) hwL (by omega)
  refine ⟨m, hm, ht, fun p b => (hst p b).trans ?_⟩
  refine or_congr_right (and_congr_right fun _ => and_congr_right fun _ => ?_)
  refine ⟨fun ⟨_, hb⟩ => ⟨by omega, hb⟩, fun ⟨hpw', hb⟩ => ⟨?_, hb⟩⟩
  have := (List.getElem?_eq_some_iff.mp hb).1
  omega

/-! ## The end of `insert` -/

theorem Pushed.windowEnd {d : Bytes} {r' : Reassembler} (h : Pushed r d r') :
    r'.windowEnd = r.windowEnd := by
  unfold Reassembler.windowEnd
  rw [h.popped, h.capacity]

/-- Pushing bytes that fit, when the segments left start behind them. -/
theorem pushReady_spec {d : Bytes} (ho : r.output.WF)
    (hfit : d.length ≤ r.output.availableCapacity)
    (ht : Tiled (r.bytesPushed + d.length + 1) r.windowEnd r.cache.entries) :
    Pushed r d (r.pushReady d) := by
  unfold pushReady
  cases d with
  | nil => exact ⟨⟨ho, ht⟩, (List.append_nil _).symm, rfl, rfl, rfl, rfl⟩
  | cons b d =>
    rw [List.isEmpty_cons, if_neg Bool.false_ne_true]
    have hpush : (r.output.push (b :: d)).bytesPushed = r.bytesPushed + (b :: d).length := by
      rw [ByteStream.push_bytesPushed, Nat.min_eq_right hfit]
      rfl
    refine ⟨⟨ho.push _, ?_⟩, ?_, ByteStream.push_bytesPopped _ _, ByteStream.push_capacity _ _,
      ByteStream.push_error _ _, hpush⟩
    · show Tiled ((r.output.push (b :: d)).bytesPushed + 1)
        ((r.output.push (b :: d)).bytesPopped + (r.output.push (b :: d)).capacity) _
      rw [hpush, ByteStream.push_bytesPopped, ByteStream.push_capacity]
      exact ht
    · rw [ByteStream.push_peek ho, List.take_of_length_le hfit]

@[simp] theorem pushReady_cache (r : Reassembler) (d : Bytes) :
    (r.pushReady d).cache = r.cache := by
  unfold pushReady; split <;> rfl

@[simp] theorem pushReady_finish (r : Reassembler) (d : Bytes) :
    (r.pushReady d).finish = r.finish := by
  unfold pushReady; split <;> rfl

@[simp] theorem pushReady_finishSet (r : Reassembler) (d : Bytes) :
    (r.pushReady d).finishSet = r.finishSet := by
  unfold pushReady; split <;> rfl

@[simp] theorem pushReady_closed (r : Reassembler) (d : Bytes) :
    (r.pushReady d).output.closed = r.output.closed := by
  unfold pushReady; split <;> simp

theorem closeIfDone_closed (r : Reassembler) (next : Nat) :
    (r.closeIfDone next).output.closed = (r.output.closed ||
      r.finish && r.cache.entries.isEmpty && decide (r.finishSet ≤ next)) := by
  unfold closeIfDone
  simp only [ge_iff_le]
  split
  · rename_i hc
    rw [hc, Bool.or_true]
    rfl
  · rename_i hc
    rw [Bool.eq_false_iff.mpr hc, Bool.or_false]

/-- Closing the stream changes nothing else. -/
theorem closeIfDone_fields (r : Reassembler) (next : Nat) :
    (r.closeIfDone next).cache = r.cache ∧ (r.closeIfDone next).finish = r.finish ∧
      (r.closeIfDone next).finishSet = r.finishSet := by
  unfold closeIfDone
  split <;> exact ⟨rfl, rfl, rfl⟩

theorem Pushed.closeIfDone {d : Bytes} {r' : Reassembler} (h : Pushed r d r') (next : Nat) :
    Pushed r d (r'.closeIfDone next) := by
  unfold Reassembler.closeIfDone
  split
  · exact ⟨⟨h.inv.output.close, h.inv.tiled⟩, h.peek, h.popped, h.capacity, h.error, h.pushed⟩
  · exact h

/-- The end of `insert`, once it is known what `popReady` takes. -/
theorem flush_spec {n next : Nat} {d : Bytes} (ho : r.output.WF)
    (hq : popReady r.cache.entries r.bytesPushed = (n, next, d))
    (hfit : d.length ≤ r.output.availableCapacity)
    (ht : Tiled (r.bytesPushed + d.length + 1) r.windowEnd (r.cache.drop n).entries) :
    Pushed r d r.flush ∧ r.flush.cache = r.cache.drop n ∧ r.flush.finish = r.finish ∧
      r.flush.finishSet = r.finishSet ∧
      r.flush.output.closed = (r.output.closed || r.finish && (r.cache.drop n).entries.isEmpty &&
        decide (r.finishSet ≤ next)) := by
  have hp := pushReady_spec (r := { r with cache := r.cache.drop n }) (d := d) ho hfit ht
  unfold flush
  rw [hq]
  dsimp only
  obtain ⟨hc, hf, hs⟩ := closeIfDone_fields ({ r with cache := r.cache.drop n }.pushReady d) next
  refine ⟨?_, ?_, ?_, ?_, ?_⟩
  · have h := hp.closeIfDone next
    exact ⟨h.inv, h.peek, h.popped, h.capacity, h.error, h.pushed⟩
  · rw [hc, pushReady_cache]
  · rw [hf, pushReady_finish]
  · rw [hs, pushReady_finishSet]
  · rw [closeIfDone_closed, pushReady_cache, pushReady_finish, pushReady_finishSet,
      pushReady_closed]

/-- The end of `insert`, for a map that is tiled from the next expected index on. -/
theorem flush_tiled {r₁ : Reassembler} {m : Cache} (h : r.Inv) (hhi : r.windowEnd < 2 ^ 63)
    (hout : r₁.output = r.output) (ht : Tiled r.bytesPushed r.windowEnd m.entries) :
    ∃ n d, Ready m.entries r.bytesPushed n (r.bytesPushed + d.length) d ∧
      Pushed r d (flush { r₁ with cache := m }) ∧
      (flush { r₁ with cache := m }).cache = m.drop n ∧
      (flush { r₁ with cache := m }).finish = r₁.finish ∧
      (flush { r₁ with cache := m }).finishSet = r₁.finishSet ∧
      (flush { r₁ with cache := m }).output.closed = (r.output.closed ||
        r₁.finish && (m.drop n).entries.isEmpty &&
          decide (r₁.finishSet ≤ r.bytesPushed + d.length)) := by
  obtain ⟨o, c, finish, finishSet⟩ := r₁
  obtain rfl : o = r.output := hout
  have hq := popReady_spec ht m.sorted hhi
  generalize hqe : popReady m.entries r.bytesPushed = q at hq
  obtain ⟨n, next, d⟩ := q
  simp only at hq
  obtain rfl := hq.next_eq
  have hfit : d.length ≤ r.output.availableCapacity := by
    rcases Nat.eq_zero_or_pos d.length with h0 | hpos
    · omega
    · -- the last ready byte lies in the window
      have hlast := (ht.stored_bounds (hq.stored (d.length - 1) _
        (List.getElem?_eq_getElem (show d.length - 1 < d.length by omega)))).2
      have := h.window
      omega
  obtain ⟨hp, hrest⟩ := flush_spec (r := ⟨r.output, m, finish, finishSet⟩) h.output hqe hfit
    (hq.tiled_drop ht)
  exact ⟨n, d, hq, ⟨hp.inv, hp.peek, hp.popped, hp.capacity, hp.error, hp.pushed⟩, hrest⟩

/-! ## `insert` -/

@[simp] theorem markEnd_output (r : Reassembler) (firstIndex dataSize : Nat) (isLast : Bool) :
    (r.markEnd firstIndex dataSize isLast).output = r.output := by
  unfold markEnd; split <;> rfl

@[simp] theorem markEnd_cache (r : Reassembler) (firstIndex dataSize : Nat) (isLast : Bool) :
    (r.markEnd firstIndex dataSize isLast).cache = r.cache := by
  unfold markEnd; split <;> rfl

theorem markEnd_finish (r : Reassembler) (firstIndex dataSize : Nat) (isLast : Bool) :
    (r.markEnd firstIndex dataSize isLast).finish =
      (r.finish || isLast && r.marksEnd firstIndex dataSize) := by
  unfold markEnd
  split
  · rename_i hc
    rw [hc, Bool.or_true]
  · rename_i hc
    rw [Bool.eq_false_iff.mpr hc, Bool.or_false]

theorem markEnd_finishSet (r : Reassembler) (firstIndex dataSize : Nat) (isLast : Bool) :
    (r.markEnd firstIndex dataSize isLast).finishSet =
      if isLast && r.marksEnd firstIndex dataSize then add64 firstIndex dataSize
      else r.finishSet := by
  unfold markEnd
  split <;> rfl

/-- Marking the end touches neither the stream nor the cache, so `insert` may be read as storing
into the old state and flushing the marked one. -/
theorem insert_eq (r : Reassembler) (firstIndex : Nat) (data : Bytes) (isLast : Bool) :
    r.insert firstIndex data isLast =
      if r.outsideWindow firstIndex data.length then
        .ok (r.markEnd firstIndex data.length isLast)
      else (r.store firstIndex data).map fun cache =>
        flush { r.markEnd firstIndex data.length isLast with cache } := by
  have hcong : ∀ r₁ : Reassembler, r₁.output = r.output → r₁.cache = r.cache →
      r₁.outsideWindow firstIndex data.length = r.outsideWindow firstIndex data.length ∧
        r₁.store firstIndex data = r.store firstIndex data := by
    rintro ⟨o, m, f, fs⟩ ho hm
    obtain rfl : o = r.output := ho
    obtain rfl : m = r.cache := hm
    exact ⟨rfl, rfl⟩
  obtain ⟨hout, hst⟩ := hcong (r.markEnd firstIndex data.length isLast) (markEnd_output ..)
    (markEnd_cache ..)
  unfold insert
  dsimp only
  rw [hout, hst]
  split
  · rfl
  · cases r.store firstIndex data <;> rfl

/-- An insert that returns marks the end; inside the window it stores the data and flushes. -/
theorem insert_cases {r' : Reassembler} (h : r.insert firstIndex data isLast = .ok r') :
    r.outsideWindow firstIndex data.length = true ∧
      r' = r.markEnd firstIndex data.length isLast ∨
    r.outsideWindow firstIndex data.length = false ∧ ∃ cache,
      r.store firstIndex data = .ok cache ∧
      r' = flush { r.markEnd firstIndex data.length isLast with cache } := by
  rw [insert_eq] at h
  split at h
  · rename_i ho
    exact .inl ⟨ho, (Except.ok.inj h).symm⟩
  · rename_i ho
    obtain ⟨cache, hs, hflush⟩ := map_ok h
    exact .inr ⟨Bool.eq_false_of_not_eq_true ho, cache, hs, hflush.symm⟩

/-- The one call whose last index is clamped: no byte, at index `0`, of a stream without bytes. -/
def Phantom (r : Reassembler) (firstIndex : Nat) (data : Bytes) : Prop :=
  firstIndex = 0 ∧ data = [] ∧ r.bytesPushed = 0

instance : Decidable (r.Phantom firstIndex data) := by
  unfold Phantom
  infer_instance

/-- An early return marks the end at most. -/
theorem inserted_outside (isLast : Bool) (h : r.Inv) (hw : 1 ≤ r.windowEnd)
    (hhi : r.windowEnd < 2 ^ 63) (hs : data.length < 2 ^ 63)
    (ho : r.outsideWindow firstIndex data.length = true) :
    Inserted r firstIndex data isLast [] (r.markEnd firstIndex data.length isLast) := by
  have hfin := markEnd_finish r firstIndex data.length isLast
  have hset := markEnd_finishSet r firstIndex data.length isLast
  have hout := markEnd_output r firstIndex data.length isLast
  have hcache := markEnd_cache r firstIndex data.length isLast
  generalize r.markEnd firstIndex data.length isLast = r₁ at *
  have hpush₁ : r₁.bytesPushed = r.bytesPushed := by unfold bytesPushed; rw [hout]
  have hwin₁ : r₁.windowEnd = r.windowEnd := by unfold windowEnd; rw [hout]
  have hoff : ∀ p b, ¬ r.Offered firstIndex data p b :=
    not_offered_of_outside ((outsideWindow_iff h hw hhi hs).mp ho)
  have harr : ∀ p b, r.Arrived firstIndex data p b ↔ Stored r.cache.entries p b := fun p b =>
    or_iff_left fun hb => hoff p b hb.2
  refine ⟨⟨⟨hout ▸ h.output, ?_⟩, ?_, ?_, ?_, ?_, ?_⟩, ?_, ?_, ?_, ?_, hfin, hset, ?_⟩
  · rw [hpush₁, hwin₁, hcache]
    exact h.tiled
  · rw [hout, List.append_nil]
  · rw [hout]
  · rw [hout]
  · rw [hout]
  · exact hpush₁
  · intro i b hb
    simp at hb
  · intro b hb
    exact h.free_next b ((harr _ b).mp hb)
  · intro p b
    rw [harr, hcache]
    refine ⟨fun hb => ⟨hb, ?_⟩, And.left⟩
    have := (h.tiled.stored_bounds hb).1
    simp only [List.length_nil]
    omega
  · intro hi hstop _ x hx
    exact hstop x (hcache ▸ hx)
  · rw [hout, ho]
    simp

/-- All that an insert does. -/
theorem insert_spec (isLast : Bool) (h : r.Inv) (hw : 1 ≤ r.windowEnd) (hhi : r.windowEnd < 2 ^ 63)
    (hs : data.length < 2 ^ 63) (hph : ¬ r.Phantom firstIndex data)
    (hx : r.outsideWindow firstIndex data.length = false → r.EndExact firstIndex data.length) :
    ∃ d r', r.insert firstIndex data isLast = .ok r' ∧
      Inserted r firstIndex data isLast d r' := by
  rw [insert_eq]
  split
  · rename_i ho
    exact ⟨[], _, rfl, inserted_outside isLast h hw hhi hs ho⟩
  · rename_i ho
    have hfin := markEnd_finish r firstIndex data.length isLast
    have hset := markEnd_finishSet r firstIndex data.length isLast
    have hout := markEnd_output r firstIndex data.length isLast
    generalize r.markEnd firstIndex data.length isLast = r₁ at *
    rw [Bool.not_eq_true] at ho
    have hin := mt (outsideWindow_iff h hw hhi hs).mpr (by rw [ho]; simp)
    have hpos : 0 < firstIndex + data.length := by
      by_contra h0
      refine hph ⟨by omega, List.eq_nil_of_length_eq_zero (by omega), by omega⟩
    have hstore := fun hi hstop hle hif => store_spec hi h hhi hstop hle hif (by omega) (by omega)
      hpos (hx ho)
    obtain ⟨m, hst, htm, hm⟩ := hstore _ h.tiled.stop_le (Nat.min_le_left _ _) (Nat.le_refl _)
    have hstop : ∀ hi, (∀ x ∈ r.cache.entries, stop x ≤ hi) → firstIndex + data.length ≤ hi →
        ∀ x ∈ m.entries, stop x ≤ hi := by
      intro hi hcut hle x hxm
      obtain ⟨m', hst', htm', -⟩ := hstore (min hi r.windowEnd)
        (fun y hy => Nat.le_min.mpr ⟨hcut y hy, h.tiled.stop_le y hy⟩) (by omega)
        (Nat.min_le_right _ _)
      obtain rfl : m = m' := Except.ok.inj (hst.symm.trans hst')
      exact Nat.le_trans (htm'.stop_le x hxm) (Nat.min_le_left _ _)
    rw [hst]
    obtain ⟨n, d, hq, hp, hc, hf, hfs, hcl⟩ := flush_tiled h hhi hout htm
    refine ⟨d, _, rfl, ⟨hp, ?_, ?_, ?_, ?_, hf.trans hfin, hfs.trans hset, ?_⟩⟩
    · intro i b hb
      exact (hm _ b).mp (hq.stored i b hb)
    · intro b hb
      exact hq.free b ((hm _ b).mpr hb)
    · intro p b
      rw [hc]
      exact (hq.stored_drop p b).trans (and_congr_left' (hm p b))
    · intro hi hcut hle x hxd
      rw [hc] at hxd
      exact hstop hi hcut hle x (List.mem_of_mem_drop hxd)
    · rw [hcl, hf, hfs, hc, hp.pushed, ho]
      simp

/-! ## What holds of every insert

Whatever the arguments are and however the index arithmetic went before.
-/

/-- The window and the flags after an insert. -/
structure Kept (r r' : Reassembler) : Prop where
  windowEnd : r'.windowEnd = r.windowEnd
  error : r'.output.error = r.output.error
  pushed_le : r.bytesPushed ≤ r'.bytesPushed
  closed : r.output.closed = true → r'.output.closed = true
  finish : r'.output.closed = true → r.output.closed = true ∨ r'.finish = true

theorem flush_kept (r : Reassembler) : Kept r r.flush ∧ r.flush.finish = r.finish := by
  have hpush : ∀ (r : Reassembler) (d : Bytes), Kept r (r.pushReady d) := by
    intro r d
    refine ⟨?_, ?_, ?_, ?_, ?_⟩
    · unfold pushReady windowEnd
      split
      · rfl
      · rw [ByteStream.push_bytesPopped, ByteStream.push_capacity]
    · unfold pushReady
      split <;> simp
    · unfold pushReady bytesPushed
      split
      · exact Nat.le_refl _
      · rw [ByteStream.push_bytesPushed]
        omega
    · rw [pushReady_closed]
      exact id
    · rw [pushReady_closed]
      exact .inl
  have hclose : ∀ (r : Reassembler) (n : Nat), Kept r (r.closeIfDone n) := by
    intro r n
    unfold closeIfDone
    split
    · rename_i hc
      simp only [Bool.and_eq_true] at hc
      exact ⟨rfl, rfl, Nat.le_refl _, fun _ => rfl, fun _ => .inr hc.1.1⟩
    · exact ⟨rfl, rfl, Nat.le_refl _, id, .inl⟩
  unfold flush
  generalize popReady r.cache.entries r.bytesPushed = q
  obtain ⟨n, next, d⟩ := q
  have h₁ := hpush { r with cache := r.cache.drop n } d
  have h₂ := hclose (pushReady { r with cache := r.cache.drop n } d) next
  have hf : (closeIfDone (pushReady { r with cache := r.cache.drop n } d) next).finish =
      r.finish := by
    rw [(closeIfDone_fields _ _).2.1, pushReady_finish]
  refine ⟨⟨h₂.windowEnd.trans h₁.windowEnd, h₂.error.trans h₁.error,
    Nat.le_trans h₁.pushed_le h₂.pushed_le, fun hc => h₂.closed (h₁.closed hc), fun hc => ?_⟩, hf⟩
  rcases h₂.finish hc with hc | hc
  · rw [pushReady_closed] at hc
    exact .inl hc
  · exact .inr hc

theorem insert_kept {r' : Reassembler} (h : r.insert firstIndex data isLast = .ok r') :
    Kept r r' ∧ r'.finish = (r.finish || isLast && r.marksEnd firstIndex data.length) := by
  have hfin := markEnd_finish r firstIndex data.length isLast
  have hout := markEnd_output r firstIndex data.length isLast
  have hcases := insert_cases h
  generalize r.markEnd firstIndex data.length isLast = r₁ at *
  have hmark : ∀ m, Kept r { r₁ with cache := m } := fun m =>
    ⟨by unfold windowEnd; rw [hout], by rw [hout],
      by unfold bytesPushed; rw [hout], fun hc => by rw [hout]; exact hc,
      fun hc => .inl (by rw [hout] at hc; exact hc)⟩
  rcases hcases with ⟨-, rfl⟩ | ⟨-, m, -, rfl⟩
  · exact ⟨hmark r'.cache, hfin⟩
  · obtain ⟨hk, hf⟩ := flush_kept { r₁ with cache := m }
    have h₁ := hmark m
    refine ⟨⟨hk.windowEnd.trans h₁.windowEnd, hk.error.trans h₁.error,
      Nat.le_trans h₁.pushed_le hk.pushed_le, fun hc => hk.closed (h₁.closed hc), fun hc => ?_⟩,
      hf.trans hfin⟩
    rcases hk.finish hc with hc | hc
    · exact (h₁.finish hc).imp_right fun hf' => hf.trans hf'
    · exact .inr hc

/-- The effect of `insert( 0, "", … )` on a stream without bytes. An empty segment that claims to
end at index `0` goes in front of the map, so the run that is pushed is the one from index `1`. -/
structure PhantomInserted (r : Reassembler) (isLast : Bool) (d : Bytes) (r' : Reassembler) : Prop
    extends Pushed r d r' where
  bytes : ∀ i b, d[i]? = some b → Stored r.cache.entries (1 + i) b
  gap : Free r.cache.entries (1 + d.length)
  stored : ∀ p b, Stored r'.cache.entries p b ↔ Stored r.cache.entries p b ∧ 1 + d.length ≤ p
  mem : ∀ x ∈ r'.cache.entries, x ∈ r.cache.entries ∧ 1 + d.length < x.1
  finish : r'.finish = (r.finish || isLast)
  finishSet : r'.finishSet = if isLast then 0 else r.finishSet
  closed : r'.output.closed = (r.output.closed ||
    r'.finish && r'.cache.entries.isEmpty && decide (r'.finishSet ≤ 1 + d.length))

theorem store_phantom (h0 : r.bytesPushed = 0) (hlt : ∀ x ∈ r.cache.entries, 0 < x.1) :
    ∃ m, r.store 0 [] = .ok m ∧ m.entries = (0, 0, []) :: r.cache.entries := by
  have hL : r.lastIndex 0 0 = 0 := by
    unfold lastIndex
    rw [lastDataIndex_zero, Nat.min_zero]
  have hset : (r.cache.set 0 (0, [])).entries = (0, 0, []) :: r.cache.entries :=
    OrdMap.set_entries_of_lt hlt
  refine ⟨r.cache.set 0 (0, []), ?_, hset⟩
  have hv : (view [] (sub64 0 0) (min (add64 (sub64 0 0) 1) 0)).length = 0 := rfl
  have hstring : (view [] (sub64 0 0) (min (add64 (sub64 0 0) 1) 0)).string = .ok [] := by decide
  unfold store
  rw [h0, List.length_nil, hL, Nat.max_self]
  dsimp only
  generalize view [] (sub64 0 0) (min (add64 (sub64 0 0) 1) 0) = v at *
  cases hl : r.cache.entries with
  | nil =>
    rw [List.isEmpty_nil, Bool.true_and, decide_eq_true (Nat.le_refl 0), if_pos rfl, hstring]
    exact appendTail_nil 0 hv
  | cons x rest =>
    have hx : 0 < x.1 := hlt x (hl ▸ List.mem_cons_self)
    simp only [List.isEmpty_cons, Bool.false_and, Bool.false_eq_true, if_false]
    unfold overlay
    rw [if_pos hx, if_pos hx, hstring]
    exact appendTail_nil 0 hv

theorem insert_phantom_spec (isLast : Bool) (h : r.Inv) (hw : 1 ≤ r.windowEnd)
    (hhi : r.windowEnd < 2 ^ 63) (h0 : r.bytesPushed = 0) :
    ∃ d r', r.insert 0 [] isLast = .ok r' ∧ PhantomInserted r isLast d r' := by
  have hmark : r.marksEnd 0 ([] : Bytes).length = true := by
    unfold marksEnd
    rw [List.length_nil, lastDataIndex_zero]
    exact decide_eq_true (Nat.zero_le _)
  have hfin := markEnd_finish r 0 ([] : Bytes).length isLast
  have hset := markEnd_finishSet r 0 ([] : Bytes).length isLast
  have hout := markEnd_output r 0 ([] : Bytes).length isLast
  rw [hmark, Bool.and_true] at hfin hset
  have ho : r.outsideWindow 0 ([] : Bytes).length = false := by
    rw [← Bool.not_eq_true, outsideWindow_iff h hw hhi (by decide)]
    simp only [List.length_nil]
    omega
  rw [insert_eq, ho]
  generalize r.markEnd 0 ([] : Bytes).length isLast = r₁ at *
  have hpush₁ : r₁.bytesPushed = 0 := by unfold bytesPushed; rw [hout]; exact h0
  have hwin₁ : r₁.windowEnd = r.windowEnd := by unfold windowEnd; rw [hout]
  obtain ⟨m, hst, hm⟩ := store_phantom h0 fun x hx => by
    have := h.tiled.lo_le x hx
    omega
  have hdrop : ∀ n, (m.drop (n + 1)).entries = r.cache.entries.drop n := fun n => by
    show m.entries.drop (n + 1) = _
    rw [hm, List.drop_succ_cons]
  have ht : Tiled 1 r.windowEnd r.cache.entries := by
    have := h.tiled
    rwa [h0] at this
  have hq := popReady_spec ht r.cache.sorted hhi
  have hqe : popReady m.entries r₁.bytesPushed =
      ((popReady r.cache.entries 1).1 + 1, (popReady r.cache.entries 1).2) := by
    rw [hm, hpush₁]
    rfl
  generalize popReady r.cache.entries 1 = q at hq hqe
  obtain ⟨n, next, d⟩ := q
  simp only at hq hqe
  obtain rfl := hq.next_eq
  have hfit : d.length ≤ r.output.availableCapacity := by
    have hwin := h.window
    rcases Nat.eq_zero_or_pos d.length with h0 | hpos
    · omega
    · have hlast := (ht.stored_bounds (hq.stored (d.length - 1) _
        (List.getElem?_eq_getElem (show d.length - 1 < d.length by omega)))).2
      omega
  obtain ⟨hp, hc, hf, hfs, hcl⟩ := flush_spec (r := { r₁ with cache := m }) (d := d)
    (hout ▸ h.output) hqe (by rw [hout]; exact hfit) (by
      show Tiled (r₁.bytesPushed + _ + 1) r₁.windowEnd _
      rw [hpush₁, hwin₁, hdrop, show 0 + d.length + 1 = 1 + d.length by omega]
      exact (hq.tiled_drop ht).mono_lo fun x hx => Nat.le_of_lt (hq.left x hx))
  rw [hst]
  refine ⟨d, _, rfl, ⟨⟨hp.inv, ?_, ?_, ?_, ?_, ?_⟩, hq.stored, hq.free, ?_, ?_, ?_, ?_, ?_⟩⟩
  · rw [hp.peek, hout]
  · rw [hp.popped, hout]
  · rw [hp.capacity, hout]
  · rw [hp.error, hout]
  · rw [h0, ← hpush₁]
    exact hp.pushed
  · intro p b
    rw [hc]
    show Stored (m.drop (n + 1)).entries p b ↔ _
    rw [hdrop]
    exact hq.stored_drop p b
  · intro x hx
    rw [hc] at hx
    replace hx : x ∈ (m.drop (n + 1)).entries := hx
    rw [hdrop] at hx
    exact ⟨List.mem_of_mem_drop hx, hq.left x hx⟩
  · exact hf.trans hfin
  · exact hfs.trans hset
  · rw [hcl, hf, hfs, hc, hout]

/-! ## Pops -/

theorem windowEnd_le_pop (r : Reassembler) (len : Nat) : r.windowEnd ≤ (r.pop len).windowEnd := by
  unfold windowEnd pop
  rw [ByteStream.pop_bytesPopped, ByteStream.pop_capacity]
  omega

theorem Inv.pop (h : r.Inv) (len : Nat) : (r.pop len).Inv :=
  ⟨h.output.pop len, h.tiled.mono_hi (r.windowEnd_le_pop len)⟩

end

end Reassembler

end Minnow
