import Minnow.Reassembler.Accept
import Minnow.Reassembler.Reads

/-!
# The representation invariant

`Represents` is what the cache looks like in a state whose index arithmetic never went wrong,
whatever the peer has sent: contradictory bytes, empty strings, any indices. A substring that starts
inside the window is taken to end at or below `2 ^ 31`. One that starts before the window may be
longer, and then its last index as an `int` decides (`Settled`): if it comes out more than one
below the next expected index, the first view of the data leaves the data.

A settled insert stores the data up to its last index, which is a last index in the window and in
the data, so `store_upto` is about it.
-/

namespace Minnow

namespace Reassembler

/-- The entries of the cache are what the rest of the class takes them for. -/
structure Represents (r : Reassembler) : Prop where
  length : ∀ x ∈ r.cache.entries, x.1 + x.2.2.length = x.2.1 + 1
  disjoint : ∀ x ∈ r.cache.entries, ∀ y ∈ r.cache.entries, x.1 < y.1 → x.2.1 < y.1
  inside : ∀ x ∈ r.cache.entries, r.bytesPushed ≤ x.1 ∧ x.1 < r.windowEnd ∧ x.2.1 < r.windowEnd
  greatest : ∀ x ∈ r.cache.entries, ∀ y, r.cache.last? = some y → x.2.1 ≤ y.2.1
  next : ∀ x ∈ r.cache.entries, x.1 ≠ r.bytesPushed
  pending : r.countBytesPending ≤ r.output.availableCapacity

/-- Every key of the map is in front of `hi`. -/
def KeysBelow (hi : Nat) (l : List Segment) : Prop := ∀ x ∈ l, x.1 < hi

/-- The cursor has no bytes beyond the last index. -/
structure Trimmed (L : Nat) (c : Cursor) : Prop where
  lt : c.writeIndex < 2 ^ 63
  fits : c.writeIndex + c.trimmedData.length ≤ L + 1 ∨ c.trimmedData.length = 0

/-- The first `string_view` stays in the data; its terminator is not in view. -/
def WithinData (r : Reassembler) (firstIndex : Nat) (data : Bytes) : Prop :=
  r.outsideWindow firstIndex data.length = false →
    sub64 (max r.bytesPushed firstIndex) firstIndex +
      min (add64 (sub64 (r.lastIndex firstIndex data.length) (max r.bytesPushed firstIndex)) 1)
        data.length ≤ data.length

/-- A substring that begins before the next expected index and reaches it: its last index, cut to
32 bits, is not negative as an `int` and at most one below the next expected index. -/
def Settled (r : Reassembler) (firstIndex dataSize : Nat) : Prop :=
  firstIndex < r.bytesPushed → r.bytesPushed ≤ firstIndex + dataSize → 1 < r.bytesPushed →
    r.bytesPushed ≤ (firstIndex + dataSize - 1) % 2 ^ 32 + 1 ∧
      (firstIndex + dataSize - 1) % 2 ^ 32 < 2 ^ 31

/-- A string that a program can hold, with its end at or below `2 ^ 31` if it starts inside the
window. -/
def Bounded (r : Reassembler) (firstIndex dataSize : Nat) : Prop :=
  dataSize < 2 ^ 63 ∧
    (r.bytesPushed ≤ firstIndex → firstIndex < r.windowEnd → firstIndex + dataSize ≤ 2 ^ 31)

instance (r : Reassembler) (firstIndex dataSize : Nat) :
    Decidable (r.Bounded firstIndex dataSize) :=
  inferInstanceAs (Decidable (_ ∧ (_ → _ → _)))

instance (r : Reassembler) (firstIndex dataSize : Nat) :
    Decidable (r.Settled firstIndex dataSize) :=
  inferInstanceAs (Decidable (_ → _ → _ → _ ∧ _))

variable {r r' : Reassembler} {firstIndex hi L lo n : Nat} {data : Bytes} {l : List Segment}
  {c c' : Cursor} {m : Cache}

theorem settled_iff : r.Settled firstIndex n ↔ (firstIndex < r.bytesPushed →
    r.bytesPushed ≤ firstIndex + n → r.bytesPushed ≤ clampInt (firstIndex + n - 1) + 1) := by
  unfold Settled
  rw [clampInt_eq]
  refine imp_congr_right fun _ => imp_congr_right fun _ => ?_
  split <;> omega

/-! ## What a tiled cache looks like -/

theorem Tiled.sum_le (h : Tiled lo hi l) (hs : Sorted l) (hle : lo ≤ hi) :
    (l.map fun x => x.2.2.length).sum ≤ hi - lo := by
  induction l generalizing lo with
  | nil => exact Nat.zero_le _
  | cons x rest ih =>
    obtain ⟨hfirst, hsr⟩ := List.pairwise_cons.mp hs
    have hlo := h.lo_le x List.mem_cons_self
    have hstop := h.stop_le x List.mem_cons_self
    have hrest : Tiled (stop x) hi rest :=
      (h.subset fun _ => List.mem_cons_of_mem _).mono_lo fun y hy =>
        h.apart x List.mem_cons_self y (List.mem_cons_of_mem _ hy) (hfirst y hy)
    have hsum := ih hrest hsr hstop
    rw [List.map_cons, List.sum_cons]
    unfold stop at hsum hstop
    omega

theorem Inv.represents (h : r.Inv) (hk : KeysBelow r.windowEnd r.cache.entries) :
    Represents r where
  length := h.tiled.last
  disjoint x hx y hy hlt := by
    have hlast := h.tiled.last x hx
    have hapart := h.tiled.apart x hx y hy hlt
    omega
  inside x hx := by
    have hlo := h.tiled.lo_le x hx
    have hlast := h.tiled.last x hx
    have hstop := h.tiled.stop_le x hx
    exact ⟨by omega, hk x hx, by omega⟩
  greatest _ hx _ hy := h.tiled.last_le hx hy
  next x hx := by
    have hlo := h.tiled.lo_le x hx
    omega
  pending := by
    have hwin := h.window
    by_cases hfull : r.bytesPushed + 1 ≤ r.windowEnd
    · have hsum : r.countBytesPending ≤ r.windowEnd - (r.bytesPushed + 1) :=
        h.tiled.sum_le r.cache.sorted hfull
      omega
    · -- a full window leaves no place for an entry
      have hnil : r.cache.entries = [] := by
        refine List.eq_nil_iff_forall_not_mem.mpr fun x hx => ?_
        have hlo := h.tiled.lo_le x hx
        have hlt := hk x hx
        omega
      unfold countBytesPending
      rw [hnil]
      exact Nat.zero_le _

theorem Tiled.intEnds (h : Tiled lo hi l) (hhi : hi ≤ 2 ^ 31) : IntEnds l := fun x hx => by
  have hlast := h.last x hx
  have hstop := h.stop_le x hx
  omega

/-! ## The keys -/

theorem KeysBelow.set {k : Nat} {v : Nat × Bytes} (h : KeysBelow hi m.entries) (hk : k < hi) :
    KeysBelow hi (m.set k v).entries := by
  intro x hx
  rcases (OrdMap.mem_set _ _ _ _).mp hx with rfl | ⟨hx, -⟩
  · exact hk
  · exact h x hx

theorem Trimmed.drop (h : Trimmed L c) (m : Cache) (count : Nat) {q : Nat}
    (hle : c.writeIndex ≤ q) (hq : q < 2 ^ 63) :
    Trimmed L ⟨m, q, (c.trimmedData.drop (q - c.writeIndex)).take count⟩ := by
  refine ⟨hq, ?_⟩
  simp only [StringView.length_take, StringView.length_drop]
  have := h.fits
  omega

/-- A round stores in front of the entry that is there. -/
theorem Overlaid.below {s e : Nat} (h : Overlaid L s e c c') (hs : s < hi) (he : e < 2 ^ 31)
    (hhi : hi ≤ 2 ^ 31) (hm : KeysBelow hi c.cache.entries) (hc : Trimmed L c) :
    KeysBelow hi c'.cache.entries ∧ Trimmed L c' := by
  have hadd : add64 e 1 = e + 1 := add64_of_lt (by omega)
  have hlt := hc.lt
  cases h with
  | gap t hws => exact ⟨hm.set (by omega), ⟨hc.lt, hc.fits⟩⟩
  | fill head hws => exact ⟨hm.set (by omega), ⟨hc.lt, hc.fits⟩⟩
  | fillOn head tail hws _ htail =>
    rw [hadd, sub64_of_le (by omega) (by omega)] at htail
    rw [hadd]
    obtain ⟨-, rfl⟩ := StringView.substr_ok htail
    exact ⟨hm.set (by omega), hc.drop _ _ (by omega) (by omega)⟩
  | covered => exact ⟨hm, hc⟩
  | behind tail _ _ htail =>
    rw [hadd, sub64_of_le (Nat.le_max_right _ _) (by omega)] at htail
    rw [hadd]
    obtain ⟨-, rfl⟩ := StringView.substr_ok htail
    exact ⟨hm, hc.drop _ _ (Nat.le_max_right _ _) (by omega)⟩

theorem overlay_below (hl : IntEnds l) (hk : KeysBelow hi l) (hhi : hi ≤ 2 ^ 31)
    (hm : KeysBelow hi c.cache.entries) (hc : Trimmed L c) (h : overlay L l c = .ok c') :
    KeysBelow hi c'.cache.entries ∧ Trimmed L c' := by
  induction l generalizing c with
  | nil =>
    obtain rfl := Except.ok.inj h
    exact ⟨hm, hc⟩
  | cons y rest ih =>
    have hs : y.1 < hi := hk _ List.mem_cons_self
    obtain ⟨c₁, hround, hrest⟩ := overlay_cons_ok (by omega) h
    obtain ⟨hm₁, hc₁⟩ := hround.below hs (hl _ List.mem_cons_self) hhi hm hc
    rcases hrest with rfl | hrest
    · exact ⟨hm₁, hc₁⟩
    · exact ih (fun x hx => hl x (List.mem_cons_of_mem _ hx))
        (fun x hx => hk x (List.mem_cons_of_mem _ hx)) hm₁ hc₁ hrest

theorem appendTail_below (hL : L < hi) (hhi : hi ≤ 2 ^ 31) (hm : KeysBelow hi c.cache.entries)
    (hc : Trimmed L c) (h : appendTail L c = .ok m) : KeysBelow hi m.entries := by
  rcases appendTail_ok h with rfl | ⟨y, tail, -, he, hne, rfl⟩
  · exact hm
  · have hw := hc.fits.resolve_right hne
    refine hm.set ?_
    rw [add64_of_lt (by omega)]
    omega

/-- Every segment that is stored starts in front of the end of the window. -/
theorem store_below (hl : IntEnds r.cache.entries) (hk : KeysBelow hi r.cache.entries)
    (hhi : hi ≤ 2 ^ 31) (hL : r.lastIndex firstIndex data.length < hi)
    (hw : max r.bytesPushed firstIndex ≤ r.lastIndex firstIndex data.length + 1)
    (h : r.store firstIndex data = .ok m) : KeysBelow hi m.entries := by
  have hc : ∀ m, Trimmed (r.lastIndex firstIndex data.length)
      ⟨m, max r.bytesPushed firstIndex, view data (sub64 (max r.bytesPushed firstIndex) firstIndex)
        (min (add64 (sub64 (r.lastIndex firstIndex data.length) (max r.bytesPushed firstIndex)) 1)
          data.length)⟩ := fun m => by
    refine ⟨by simp only; omega, .inl ?_⟩
    rw [add64_sub64_one hw (by omega)]
    show max r.bytesPushed firstIndex + min _ data.length ≤ _
    omega
  unfold store at h
  dsimp only at h
  split at h
  · rename_i hempty
    simp only [Bool.and_eq_true, decide_eq_true_eq] at hempty
    obtain ⟨t, -, h⟩ := bind_ok h
    exact appendTail_below hL hhi (hk.set (by omega)) (hc _) h
  · obtain ⟨c, ho, h⟩ := bind_ok h
    obtain ⟨hkc, hcc⟩ := overlay_below hl hk hhi hk (hc _) ho
    exact appendTail_below hL hhi hkc hcc h

/-! ## A settled insert -/

/-- Inside the window the last index of a settled insert is one of the data, or the one before
the first new byte. -/
theorem Settled.bounds (hs : r.Settled firstIndex n) (h : r.Inv) (hw : 1 ≤ r.windowEnd)
    (hhi : r.windowEnd ≤ 2 ^ 31) (hb : r.Bounded firstIndex n) (hf : firstIndex < r.windowEnd)
    (hp : r.bytesPushed ≤ firstIndex + n) (hpos : 0 < firstIndex + n) :
    max r.bytesPushed firstIndex ≤ r.lastIndex firstIndex n + 1 ∧
      r.lastIndex firstIndex n + 1 ≤ firstIndex + n ∧ r.lastIndex firstIndex n < r.windowEnd := by
  have hpw := h.pushed_le
  have hn := hb.1
  have hs := settled_iff.mp hs
  have hle := clampInt_le (firstIndex + n - 1)
  have hin : r.bytesPushed ≤ firstIndex → clampInt (firstIndex + n - 1) = firstIndex + n - 1 :=
    fun hle => clampInt_of_lt (by have := hb.2 hle hf; omega)
  unfold lastIndex lastDataIndex
  rw [lastAvailableIndex_of_le h.output hw hhi, add64_of_lt (by omega),
    sub64_of_le (by omega) (by omega)]
  omega

theorem Inv.insert_settled (h : r.Inv) (hk : KeysBelow r.windowEnd r.cache.entries)
    (hw : 1 ≤ r.windowEnd) (hhi : r.windowEnd ≤ 2 ^ 31)
    (hb : r.Bounded firstIndex data.length) (hs : r.Settled firstIndex data.length)
    (isLast : Bool) :
    r.WithinData firstIndex data ∧ ∃ r', r.insert firstIndex data isLast = .ok r' ∧ r'.Inv ∧
      KeysBelow r'.windowEnd r'.cache.entries := by
  have hn := hb.1
  have hpw := h.pushed_le
  cases ho : r.outsideWindow firstIndex data.length with
  | true =>
    have hins := inserted_outside isLast h hw (by omega) hn ho
    refine ⟨fun hin => absurd (ho.symm.trans hin) Bool.noConfusion, _,
      by rw [insert_eq, if_pos ho], hins.inv, ?_⟩
    rw [hins.toPushed.windowEnd, markEnd_cache]
    exact hk
  | false =>
    have hin := mt (outsideWindow_iff h hw (by omega) hn).mpr (by rw [ho]; simp)
    by_cases hph : r.Phantom firstIndex data
    · obtain ⟨rfl, rfl, h0⟩ := hph
      obtain ⟨d, r', hr', hins⟩ := insert_phantom_spec isLast h hw (by omega) h0
      refine ⟨fun _ => ?_, r', hr', hins.inv, fun x hx => ?_⟩
      · rw [h0, Nat.max_self, sub64_self, List.length_nil, Nat.min_zero]
      · rw [hins.toPushed.windowEnd]
        exact hk x (hins.mem x hx).1
    · have hpos : 0 < firstIndex + data.length := by
        by_contra h0
        exact hph ⟨by omega, List.eq_nil_of_length_eq_zero (by omega), by omega⟩
      obtain ⟨hwL, hle, hlt⟩ := hs.bounds h hw hhi hb (by omega) (by omega) hpos
      refine ⟨fun _ => ?_, ?_⟩
      · rw [add64_sub64_one hwL (by omega), sub64_of_le (Nat.le_max_right _ _) (by omega)]
        omega
      · obtain ⟨m, hm, htm, -⟩ := store_upto r.windowEnd h (by omega) h.tiled.stop_le hlt hwL hle
        have hkm := store_below (h.tiled.intEnds hhi) hk hhi hlt hwL hm
        have hout := markEnd_output r firstIndex data.length isLast
        rw [insert_eq, if_neg (by rw [ho]; exact Bool.false_ne_true), hm]
        obtain ⟨n, d, -, hp, hc, -⟩ := flush_tiled h (by omega) hout htm
        refine ⟨_, rfl, hp.inv, fun x hx => ?_⟩
        rw [hc] at hx
        rw [hp.windowEnd]
        exact hkm x (List.mem_of_mem_drop hx)

/-- An insert that is not settled starts at least one byte into the data, with a length that has
wrapped. -/
theorem Inv.settled_of_withinData (h : r.Inv) (hw : 1 ≤ r.windowEnd) (hhi : r.windowEnd ≤ 2 ^ 31)
    (hn : data.length < 2 ^ 63) (hin : r.WithinData firstIndex data) :
    r.Settled firstIndex data.length := by
  refine settled_iff.mpr fun hf hp => ?_
  by_contra hlt
  have hpw := h.pushed_le
  have ho : r.outsideWindow firstIndex data.length = false := by
    rw [← Bool.not_eq_true, outsideWindow_iff h hw (by omega) hn]
    omega
  have hlast : r.lastIndex firstIndex data.length = clampInt (firstIndex + data.length - 1) := by
    unfold lastIndex lastDataIndex
    rw [lastAvailableIndex_of_le h.output hw hhi, add64_of_lt (by omega),
      sub64_of_le (by omega) (by omega)]
    omega
  have hview := hin ho
  rw [hlast, Nat.max_eq_left (Nat.le_of_lt hf), sub64_of_le (by omega) (by omega)] at hview
  unfold sub64 add64 at hview
  omega

/-! ## Runs -/

/-- The inserts are bounded and settled. -/
def Settles (s : Session) : Op → Prop
  | .insert firstIndex data _ => s.reassembler.Bounded firstIndex data.length ∧
      s.reassembler.Settled firstIndex data.length
  | .pop _ => True

instance (s : Session) : ∀ op, Decidable (Settles s op)
  | .insert .. => inferInstanceAs (Decidable (_ ∧ _))
  | .pop _ => .isTrue trivial

/-- One operation keeps the segments in order, as long as the window ends at or below `2 ^ 31`. -/
theorem settled_step {s s' : Session} {op : Op} (h : s.reassembler.Inv)
    (hk : KeysBelow s.reassembler.windowEnd s.reassembler.cache.entries)
    (hw : 1 ≤ s.reassembler.windowEnd) (hhi : s.reassembler.windowEnd ≤ 2 ^ 31)
    (hok : Settles s op) (hst : s.step op = .ok s') :
    s'.reassembler.Inv ∧ KeysBelow s'.reassembler.windowEnd s'.reassembler.cache.entries := by
  cases op with
  | insert firstIndex data isLast =>
    obtain ⟨r', hr', rfl⟩ := Session.step_insert hst
    obtain ⟨-, r'', hr'', hinv, hbelow⟩ := h.insert_settled hk hw hhi hok.1 hok.2 isLast
    obtain rfl : r' = r'' := Except.ok.inj (hr'.symm.trans hr'')
    exact ⟨hinv, hbelow⟩
  | pop len =>
    obtain rfl : s.afterPop len = s' := Except.ok.inj hst
    exact ⟨h.pop len, fun x hx => Nat.lt_of_lt_of_le (hk x hx) (afterPop_windowEnd_le s len)⟩

theorem inv_of_settles {capacity : Nat} {s : Session} (hcap : 1 ≤ capacity)
    (h : (machine capacity).Reaches Settles s) :
    1 ≤ s.reassembler.windowEnd ∧ (s.reassembler.windowEnd ≤ 2 ^ 31 → s.reassembler.Inv ∧
      KeysBelow s.reassembler.windowEnd s.reassembler.cache.entries) := by
  refine inv_while (P := fun s => s.reassembler.Inv ∧
    KeysBelow s.reassembler.windowEnd s.reassembler.cache.entries) hcap h
    (fun hle => ⟨.new (by omega), fun x hx => (List.not_mem_nil hx).elim⟩)
    fun s op s' ⟨hinv, hbelow⟩ hw hle hok hst => settled_step hinv hbelow hw hle hok hst

/-- In every state of every such run the cache is what it is taken for, and a bounded insert of
any bytes stays in its data and returns if and only if it is settled. -/
theorem cache_represents {capacity : Nat} {s : Session} (hcap : 1 ≤ capacity)
    (h : (machine capacity).Reaches Settles s) (hhi : s.reassembler.windowEnd ≤ 2 ^ 31) :
    Represents s.reassembler ∧ ∀ firstIndex data isLast,
      s.reassembler.Bounded firstIndex data.length →
        ((s.reassembler.WithinData firstIndex data ∧
            ∃ r', s.reassembler.insert firstIndex data isLast = .ok r') ↔
          s.reassembler.Settled firstIndex data.length) := by
  obtain ⟨hw, hinv⟩ := inv_of_settles hcap h
  obtain ⟨hinv, hbelow⟩ := hinv hhi
  refine ⟨hinv.represents hbelow, fun firstIndex data isLast hb => ⟨fun hin => ?_, fun hs => ?_⟩⟩
  · exact hinv.settled_of_withinData hw hhi hb.1 hin.1
  · obtain ⟨hin, r', hr', -⟩ := hinv.insert_settled hbelow hw hhi hb hs isLast
    exact ⟨hin, r', hr'⟩

/-- Contradictory bytes, an empty substring in front of cached ones, and old bytes; then an insert
that covers all of them. -/
theorem cache_represents_of_conflict : ∃ s, (machine 6).Reaches Settles s ∧
    s.reassembler.cache.entries = [(2, 1, []), (3, 4, [9, 8])] ∧ Represents s.reassembler ∧
    ∃ r', s.reassembler.insert 0 [6, 6, 6, 6, 6, 6, 6] true = .ok r' := by
  obtain ⟨s, h, hw, hcache, hb, hs⟩ := Machine.exists_reaches Session.step (.new 6) Settles
    (fun s => s.reassembler.windowEnd = 7 ∧
      s.reassembler.cache.entries = [(2, 1, []), (3, 4, [9, 8])] ∧
      s.reassembler.Bounded 0 7 ∧ s.reassembler.Settled 0 7)
    [.insert 3 [9, 8] false, .insert 2 [] false, .insert 3 [7] true, .insert 0 [5] false, .pop 1,
      .insert 0 [6] false]
    (by decide +kernel) (by decide +kernel)
  obtain ⟨hrep, hiff⟩ := cache_represents (by decide) h (by rw [hw]; decide)
  exact ⟨s, h, hcache, hrep, ((hiff 0 [6, 6, 6, 6, 6, 6, 6] true hb).mpr hs).2⟩

/-- After two bytes and one behind a gap, a string from index `0` on whose last index is `2 ^ 31`:
as an `int` that is negative, so the view of the string starts at its third byte and has the length
of the string, and all of it is read. -/
theorem leaves_data : ∃ s, (machine 10).Reaches Settles s ∧ s.reassembler.windowEnd = 10 ∧
    s.reassembler.Bounded 0 (List.replicate (2 ^ 31 + 1) (7 : UInt8)).length ∧
    ¬ s.reassembler.WithinData 0 (List.replicate (2 ^ 31 + 1) 7) ∧
    ∀ r', s.reassembler.insert 0 (List.replicate (2 ^ 31 + 1) 7) false ≠ .ok r' := by
  obtain ⟨s, h, hw, hp, hcache, hout⟩ := Machine.exists_reaches Session.step (.new 10) Settles
    (fun s => s.reassembler.windowEnd = 10 ∧ s.reassembler.bytesPushed = 2 ∧
      s.reassembler.cache.entries = [(5, 5, [3])] ∧
      s.reassembler.outsideWindow 0 (2 ^ 31 + 1) = false)
    [.insert 0 [1, 2] false, .insert 5 [3] false] (by decide +kernel) (by decide +kernel)
  have hinv := ((inv_of_settles (by decide) h).2 (by rw [hw]; decide)).1
  have hlen : (List.replicate (2 ^ 31 + 1) (7 : UInt8)).length = 2 ^ 31 + 1 :=
    List.length_replicate
  generalize List.replicate (2 ^ 31 + 1) (7 : UInt8) = data at *
  have hread : s.reassembler.ReadsOutside 0 data := by
    have hlast : s.reassembler.lastIndex 0 (2 ^ 31 + 1) ≤ lastDataIndex 0 (2 ^ 31 + 1) :=
      Nat.min_le_right _ _
    rw [show lastDataIndex 0 (2 ^ 31 + 1) = 0 by decide +kernel] at hlast
    have hall : ∀ L len, lengthRead s.reassembler.cache L 2 len = len := fun L len => by
      unfold lengthRead OrdMap.last?
      rw [hcache]
      rfl
    rw [readsOutside_iff (by omega) (by omega), hlen, hp, hall]
    exact ⟨hout, by omega, by omega⟩
  refine ⟨s, h, hw, ⟨by omega, by omega⟩, fun hin => ?_, fun r' hr' => ?_⟩
  · have hs := hinv.settled_of_withinData (by omega) (by omega) (by omega) hin
    rw [hlen] at hs
    unfold Settled at hs
    omega
  · exact (insert_returns (hinv.tiled.intEnds (by omega)) 0 data false).mp ⟨r', hr'⟩ hread

end Reassembler

end Minnow
