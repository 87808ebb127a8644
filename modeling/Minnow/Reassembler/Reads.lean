import Minnow.Reassembler.Insert

/-!
# Where `insert` returns

The `string_view` that `insert` starts with is cut from a position and a length that are computed
apart. It reaches beyond the data only if the last index of the data, as an `int`, lies below the
index that the new part starts at. Nothing of it is read then as long as no segment is cached; with
one, the first round of the loop and the statement after it read the first `lengthRead` bytes of the
view (`store_behind`). `ReadsOutside` is the case that these reach beyond the terminator.

In every other case `insert` returns (`insert_returns`): the later calls of `substr` stay in their
view, because a cursor whose index is below the last index has all the bytes up to it (`Fits`).

Nothing is asked of the size of the window or of the substring. What keeps the 64-bit sums from
wrapping is that every last index that is stored was an `int`.
-/

namespace Minnow

namespace Reassembler

/-- How many bytes are read of a view of `len` bytes that starts at index `w`, when the last index
`L` lies below `w`: a segment is stored in front of the first cached one, or behind the last one. -/
def lengthRead (m : Cache) (L w len : Nat) : Nat :=
  match m.entries, m.last? with
  | (segmentStart, segmentEnd, _) :: _, some (_, lastEnd, _) =>
    if w < segmentStart then len
    else if lastEnd < L then
      if segmentEnd < L then min (add64 (sub64 L segmentStart) 1) len else len
    else 0
  | _, _ => 0

/-- Bytes behind the terminator of the data are read. -/
def ReadsOutside (r : Reassembler) (firstIndex : Nat) (data : Bytes) : Prop :=
  let w := max r.bytesPushed firstIndex
  let L := r.lastIndex firstIndex data.length
  r.outsideWindow firstIndex data.length = false ∧ L < w ∧
    data.length + 1 - sub64 w firstIndex <
      lengthRead r.cache L w (min (add64 (sub64 L w) 1) data.length)

instance (r : Reassembler) (firstIndex : Nat) (data : Bytes) :
    Decidable (r.ReadsOutside firstIndex data) :=
  inferInstanceAs (Decidable (_ ∧ _ ∧ _))

/-- Every last index of the map is an `int`. -/
def IntEnds (l : List Segment) : Prop := ∀ x ∈ l, x.2.1 < 2 ^ 31

/-- The cursor has the bytes up to the last index, in a view inside its memory. -/
structure Fits (L : Nat) (c : Cursor) : Prop where
  inside : c.trimmedData.Inside
  reaches : L ≤ c.writeIndex ∨ L < c.writeIndex + c.trimmedData.length

section

variable {L firstIndex : Nat} {data : Bytes} {isLast : Bool} {r r' : Reassembler}
  {l : List Segment} {c : Cursor} {m : Cache}

theorem IntEnds.set {k e : Nat} {t : Bytes} (h : IntEnds m.entries) (he : e < 2 ^ 31) :
    IntEnds (m.set k (e, t)).entries := by
  intro x hx
  rcases (OrdMap.mem_set _ _ _ _).mp hx with rfl | ⟨hx, -⟩
  · exact he
  · exact h x hx

theorem sub64_self (n : Nat) : sub64 n n = 0 := by
  unfold sub64
  omega

/-- The view from a later index on, as long as it is not behind the last one. -/
theorem Fits.substr_ok (h : Fits L c) {q : Nat} (count : Nat) (hL : L < 2 ^ 31)
    (hq : q = c.writeIndex ∨ c.writeIndex < q ∧ q ≤ L) :
    c.trimmedData.substr (sub64 q c.writeIndex) count =
      .ok ((c.trimmedData.drop (q - c.writeIndex)).take count) := by
  rcases hq with rfl | ⟨hlt, hle⟩
  · rw [sub64_self, Nat.sub_self]
    exact StringView.substr_eq (Nat.zero_le _)
  · rw [sub64_of_le (Nat.le_of_lt hlt) (by omega)]
    refine StringView.substr_eq ?_
    rcases h.reaches with h | h
    · omega
    · omega

theorem Fits.next (h : Fits L c) {q count : Nat} {m : Cache} (hle : c.writeIndex ≤ q)
    (hcount : q < L → L - q < count) :
    Fits L ⟨m, q, (c.trimmedData.drop (q - c.writeIndex)).take count⟩ := by
  refine ⟨(h.inside.drop _).take _, ?_⟩
  by_cases hq : L ≤ q
  · exact .inl hq
  · refine .inr ?_
    have := hcount (Nat.lt_of_not_le hq)
    simp only [StringView.length_take, StringView.length_drop]
    rcases h.reaches with h | h
    · omega
    · omega

/-- The loop over the cache returns, and keeps what the statement after it needs. -/
theorem overlay_fits (hL : L < 2 ^ 31) (hl : IntEnds l) (hm : IntEnds c.cache.entries)
    (hc : Fits L c) :
    ∃ c', overlay L l c = .ok c' ∧ IntEnds c'.cache.entries ∧ Fits L c' := by
  induction l generalizing c with
  | nil => exact ⟨c, rfl, hm, hc⟩
  | cons y rest ih =>
    obtain ⟨s, e, bytes⟩ := y
    have he : e < 2 ^ 31 := hl _ List.mem_cons_self
    have hrest : IntEnds rest := fun x hx => hl x (List.mem_cons_of_mem _ hx)
    have hadd : add64 e 1 = e + 1 := add64_of_lt (by omega)
    unfold overlay
    by_cases hws : c.writeIndex < s
    · rw [if_pos hws]
      by_cases hLs : L < s
      · rw [if_pos hLs]
        rw [hc.inside.string]
        exact ⟨_, rfl, hm.set hL, hc.inside, hc.reaches⟩
      · -- the gap before the segment is filled
        have hgap : add64 c.writeIndex (sub64 s c.writeIndex) = s := by
          rw [sub64_of_le (by omega) (by omega), add64_of_lt (by omega)]
          omega
        have hm' := hm.set (k := c.writeIndex)
          (t := (c.trimmedData.take (sub64 s c.writeIndex)).toList)
          (show sub64 s 1 < 2 ^ 31 by rw [sub64_of_le (by omega) (by omega)]; omega)
        rw [if_neg hLs]
        dsimp only
        rw [hgap, hadd, StringView.substr_eq (Nat.zero_le _), StringView.drop_zero, ok_bind,
          (hc.inside.take _).string, ok_bind]
        by_cases hstop : L < max s (e + 1)
        · rw [if_pos hstop]
          exact ⟨_, rfl, hm', hc.inside, hc.reaches⟩
        · rw [if_neg hstop, hc.substr_ok _ hL (.inr (by omega)), ok_bind, if_neg (by omega)]
          refine ih hrest hm' (hc.next (by omega) fun _ => ?_)
          rw [sub64_of_le (by omega) (by omega), add64_of_lt (by omega)]
          omega
    · rw [if_neg hws]
      by_cases hLe : L ≤ e
      · rw [if_pos hLe]
        exact ⟨_, rfl, hm, hc⟩
      · rw [if_neg hLe]
        dsimp only
        rw [hadd, hc.substr_ok _ hL (by omega), ok_bind]
        have hnext : Fits L ⟨c.cache, max (e + 1) c.writeIndex,
            (c.trimmedData.drop (max (e + 1) c.writeIndex - c.writeIndex)).take
              (add64 (sub64 L s) 1)⟩ := by
          refine hc.next (Nat.le_max_right _ _) fun hlt => ?_
          rw [sub64_of_le (by omega) (by omega), add64_of_lt (by omega)]
          omega
        by_cases hdone : max (e + 1) c.writeIndex > L
        · rw [if_pos hdone]
          exact ⟨_, rfl, hm, hnext⟩
        · rw [if_neg hdone]
          exact ih hrest hm hnext

theorem appendTail_fits (hL : L < 2 ^ 31) (hm : IntEnds c.cache.entries) (hc : Fits L c) :
    ∃ m, appendTail L c = .ok m ∧ IntEnds m.entries := by
  unfold appendTail
  cases hlast : c.cache.last? with
  | none => exact ⟨_, rfl, hm⟩
  | some y =>
    obtain ⟨k, e, bytes⟩ := y
    have he : e < 2 ^ 31 := hm _ (OrdMap.last?_mem hlast)
    dsimp only
    split
    · rename_i h
      simp only [Bool.and_eq_true, decide_eq_true_eq] at h
      rw [add64_of_lt (show e + 1 < 2 ^ 64 by omega), hc.substr_ok _ hL (by omega), ok_bind,
        ((hc.inside.drop _).take _).string]
      exact ⟨_, rfl, hm.set hL⟩
    · exact ⟨_, rfl, hm⟩

/-! ## Insert -/

theorem lastIndex_lt (r : Reassembler) (firstIndex n : Nat) : r.lastIndex firstIndex n < 2 ^ 31 :=
  Nat.lt_of_le_of_lt (Nat.min_le_right _ _) (clampInt_lt _)

/-- The last index of the data is in the data, unless there is none. -/
theorem lastDataIndex_le (firstIndex n : Nat) :
    lastDataIndex firstIndex n = 0 ∨ lastDataIndex firstIndex n < firstIndex + n := by
  unfold lastDataIndex
  have hmod : add64 firstIndex n ≤ firstIndex + n := Nat.mod_le _ _
  by_cases h0 : add64 firstIndex n = 0
  · rw [h0]
    exact .inl (by decide)
  · have hlt : add64 firstIndex n < 2 ^ 64 := Nat.mod_lt _ (by decide)
    have := clampInt_le (sub64 (add64 firstIndex n) 1)
    rw [sub64_of_le (by omega) hlt] at this ⊢
    exact .inr (by omega)

/-- If the new part does not start behind the last index, the first view has the bytes of the data
from the one to the other. -/
theorem view_fits (hw : max r.bytesPushed firstIndex ≤ r.lastIndex firstIndex data.length)
    (m : Cache) :
    Fits (r.lastIndex firstIndex data.length) ⟨m, max r.bytesPushed firstIndex,
      view data (sub64 (max r.bytesPushed firstIndex) firstIndex)
        (min (add64 (sub64 (r.lastIndex firstIndex data.length)
          (max r.bytesPushed firstIndex)) 1) data.length)⟩ := by
  have hL := r.lastIndex_lt firstIndex data.length
  have hlast := lastDataIndex_le firstIndex data.length
  have hmin : r.lastIndex firstIndex data.length ≤ lastDataIndex firstIndex data.length :=
    Nat.min_le_right _ _
  rw [sub64_of_le hw (by omega), add64_of_lt (by omega), sub64_of_le (Nat.le_max_right _ _)
    (by omega)]
  refine ⟨view_inside.mpr (by omega), ?_⟩
  show _ ≤ max r.bytesPushed firstIndex ∨ _ < max r.bytesPushed firstIndex + min _ data.length
  omega

theorem store_fits (hl : IntEnds r.cache.entries)
    (hw : max r.bytesPushed firstIndex ≤ r.lastIndex firstIndex data.length) :
    ∃ m, r.store firstIndex data = .ok m ∧ IntEnds m.entries := by
  have hL := r.lastIndex_lt firstIndex data.length
  have hfits := view_fits hw
  unfold store
  dsimp only
  split
  · rw [(hfits r.cache).inside.string]
    exact appendTail_fits hL (hl.set hL) (hfits _)
  · obtain ⟨c, ho, hm, hc⟩ := overlay_fits hL hl hl (hfits r.cache)
    rw [ho]
    exact appendTail_fits hL hm hc

/-! ## Behind the last index -/

/-- A view that starts behind the last index: the statement after the loop reads it whole, or not
at all. -/
theorem appendTail_behind (hL : L < c.writeIndex)
    (hlen : c.trimmedData.length ≤ add64 (sub64 L c.writeIndex) 1) {y : Segment}
    (hy : c.cache.last? = some y) :
    appendTail L c =
      if y.2.1 < L ∧ c.trimmedData.length ≠ 0 then
        c.trimmedData.string.map fun t => c.cache.set c.writeIndex (L, t)
      else .ok c.cache := by
  obtain ⟨k, e, bytes⟩ := y
  unfold appendTail
  rw [hy]
  dsimp only
  by_cases he : e < L ∧ c.trimmedData.length ≠ 0
  · have hnext : max c.writeIndex (add64 e 1) = c.writeIndex := by
      have hmod : add64 e 1 ≤ e + 1 := Nat.mod_le _ _
      omega
    have hcond : (decide (L > e) && !c.trimmedData.isEmpty) = true := by
      simp [StringView.isEmpty, he]
    rw [if_pos hcond, if_pos he, hnext, sub64_self, StringView.substr_eq (Nat.zero_le _),
      StringView.drop_zero, StringView.take_of_length_le hlen, ok_bind]
    cases c.trimmedData.string <;> rfl
  · have hcond : (decide (L > e) && !c.trimmedData.isEmpty) = false := by
      rw [Bool.eq_false_iff]
      simpa [StringView.isEmpty] using he
    rw [if_neg (Bool.eq_false_iff.mp hcond), if_neg he]

/-- A view that is stored in front of the first segment already is at most stored once more. -/
theorem appendTail_stored {w : Nat} {v : StringView UInt8} {t : Bytes} {y : Segment} (hL : L < w)
    (hlen : v.length ≤ add64 (sub64 L w) 1) (ht : v.string = .ok t) (hy : m.last? = some y)
    (hfirst : ∀ x ∈ m.entries, w < x.1) :
    appendTail L ⟨m.set w (L, t), w, v⟩ = .ok (m.set w (L, t)) := by
  rw [appendTail_behind hL hlen (OrdMap.last?_set_of_lt hy hfirst)]
  simp only [ht]
  split
  · exact congrArg Except.ok (OrdMap.set_set _ _ _ _)
  · rfl

/-- The loop ends with its first round: it stores the view in front of the first segment, or leaves
it to the statement after the loop, cut if the segment does not reach the last index. -/
theorem overlay_behind {s e w : Nat} {bytes : Bytes} {v : StringView UInt8} (hL : L < w) :
    overlay L ((s, e, bytes) :: l) ⟨m, w, v⟩ =
      if w < s then v.string.map fun t => ⟨m.set w (L, t), w, v⟩
      else .ok ⟨m, w, if e < L then v.take (add64 (sub64 L s) 1) else v⟩ := by
  unfold overlay
  by_cases hws : w < s
  · rw [if_pos hws, if_pos hws, if_pos (Nat.lt_trans hL hws)]
    cases v.string <;> rfl
  · rw [if_neg hws, if_neg hws]
    by_cases hLe : L ≤ e
    · rw [if_pos hLe, if_neg (Nat.not_lt.mpr hLe)]
    · have hnext : max (add64 e 1) w = w := by
        have hmod : add64 e 1 ≤ e + 1 := Nat.mod_le _ _
        omega
      rw [if_neg hLe, if_pos (Nat.lt_of_not_le hLe)]
      dsimp only
      rw [hnext, sub64_self, StringView.substr_eq (Nat.zero_le _), StringView.drop_zero, ok_bind,
        if_pos hL]

theorem lengthRead_le (m : Cache) (L w len : Nat) : lengthRead m L w len ≤ len := by
  unfold lengthRead
  split
  · split_ifs <;> omega
  · exact Nat.zero_le _

theorem lengthRead_cons {s e w : Nat} {bytes : Bytes} {y : Segment}
    (hm : m.entries = (s, e, bytes) :: l) (hy : m.last? = some y) (len : Nat) :
    lengthRead m L w len = if w < s then len
      else if y.2.1 < L then if e < L then min (add64 (sub64 L s) 1) len else len else 0 := by
  unfold lengthRead
  rw [hm, hy]

/-- Data whose last index lies below the index that its new part starts at: nothing is stored, or
the first bytes of the view are, under that index. -/
theorem store_behind (hL : r.lastIndex firstIndex data.length < max r.bytesPushed firstIndex) :
    let w := max r.bytesPushed firstIndex
    let L := r.lastIndex firstIndex data.length
    let len := min (add64 (sub64 L w) 1) data.length
    r.store firstIndex data = .ok r.cache ∧ lengthRead r.cache L w len = 0 ∨
      r.store firstIndex data =
        ((view data (sub64 w firstIndex) len).take (lengthRead r.cache L w len)).string.map
          fun t => r.cache.set w (L, t) := by
  unfold store
  dsimp only
  generalize r.lastIndex firstIndex data.length = L at *
  generalize max r.bytesPushed firstIndex = w at *
  have hle : min (add64 (sub64 L w) 1) data.length ≤ add64 (sub64 L w) 1 := Nat.min_le_left _ _
  generalize min (add64 (sub64 L w) 1) data.length = len at *
  have hlen : (view data (sub64 w firstIndex) len).length = len := rfl
  generalize view data (sub64 w firstIndex) len = v at *
  rw [if_neg (by simp; omega)]
  cases hc : r.cache.entries with
  | nil =>
    left
    unfold lengthRead appendTail overlay OrdMap.last?
    simp [hc]
  | cons x rest =>
    obtain ⟨s, e, bytes⟩ := x
    obtain ⟨y, hy⟩ := OrdMap.last?_isSome (m := r.cache) (by rw [hc]; simp)
    rw [overlay_behind hL, lengthRead_cons hc hy]
    by_cases hws : w < s
    · -- the view is stored in front of the first segment, and perhaps once more
      right
      rw [if_pos hws, if_pos hws, StringView.take_of_length_le (Nat.le_of_eq hlen)]
      cases ht : v.string with
      | error => rfl
      | ok t =>
        exact appendTail_stored hL (hlen ▸ hle) ht hy fun x hx =>
          Nat.lt_of_lt_of_le hws (OrdMap.first_le hc hx)
    · -- only the statement after the loop reads, if it reads at all
      rw [if_neg hws, if_neg hws]
      obtain ⟨u, hu⟩ : ∃ u, (if e < L then v.take (add64 (sub64 L s) 1) else v) = u := ⟨_, rfl⟩
      have hread : (if e < L then min (add64 (sub64 L s) 1) len else len) = u.length := by
        rw [← hu, ← hlen]
        split <;> rfl
      have htake : v.take u.length = u := by
        rw [← hu]
        split
        · exact StringView.take_length_take _ _
        · exact StringView.take_of_length_le (Nat.le_refl _)
      have hule : u.length ≤ add64 (sub64 L w) 1 := by
        rw [← hread]
        split <;> omega
      rw [hu, hread]
      show appendTail L ⟨r.cache, w, u⟩ = _ ∧ _ ∨ appendTail L ⟨r.cache, w, u⟩ = _
      rw [appendTail_behind hL hule hy]
      by_cases hend : y.2.1 < L
      · by_cases h0 : u.length = 0
        · exact .inl ⟨if_neg fun h => h.2 h0, (if_pos hend).trans h0⟩
        · right
          rw [if_pos ⟨hend, h0⟩, if_pos hend, htake]
      · exact .inl ⟨if_neg fun h => hend h.1, if_neg hend⟩

/-- Nothing is read outside the data as long as no segment is cached. -/
theorem ReadsOutside.cached (h : r.ReadsOutside firstIndex data) : r.cache.entries ≠ [] := by
  intro hnil
  have hread := h.2.2
  unfold lengthRead at hread
  rw [hnil] at hread
  exact absurd hread (Nat.not_lt_zero _)

/-- Storing returns exactly if it does not read outside the data. -/
theorem store_returns (hl : IntEnds r.cache.entries)
    (ho : r.outsideWindow firstIndex data.length = false) :
    (∃ m, r.store firstIndex data = .ok m) ↔ ¬ r.ReadsOutside firstIndex data := by
  rcases Nat.lt_or_ge (r.lastIndex firstIndex data.length) (max r.bytesPushed firstIndex) with
    hL | hw
  · unfold ReadsOutside
    dsimp only
    have hle := lengthRead_le r.cache (r.lastIndex firstIndex data.length)
      (max r.bytesPushed firstIndex)
      (min (add64 (sub64 (r.lastIndex firstIndex data.length) (max r.bytesPushed firstIndex)) 1)
        data.length)
    rcases store_behind hL with ⟨hs, h0⟩ | hs
    · exact iff_of_true ⟨_, hs⟩ fun h => by rw [h0] at h; omega
    · rw [hs]
      generalize lengthRead r.cache _ _ _ = k at hle ⊢
      generalize min (add64 _ 1) data.length = len at hle ⊢
      have hinside : ((view data (sub64 (max r.bytesPushed firstIndex) firstIndex) len).take
          k).Inside ↔ k ≤ data.length + 1 - sub64 (max r.bytesPushed firstIndex) firstIndex := by
        show min k len ≤ ((data ++ [0]).drop _).length ↔ _
        rw [Nat.min_eq_left hle, List.length_drop, List.length_append, List.length_singleton]
      rw [ho, eq_self, true_and, and_iff_right hL, Nat.not_lt, ← hinside,
        ← StringView.string_returns]
      refine ⟨fun ⟨m, hm⟩ => ?_, fun ⟨t, ht⟩ => ⟨_, congrArg (Except.map _) ht⟩⟩
      obtain ⟨t, ht, -⟩ := map_ok hm
      exact ⟨t, ht⟩
  · obtain ⟨m, hm, -⟩ := store_fits hl hw
    exact iff_of_true ⟨m, hm⟩ fun h => absurd h.2.1 (Nat.not_lt.mpr hw)

theorem store_intEnds (hl : IntEnds r.cache.entries) (h : r.store firstIndex data = .ok m) :
    IntEnds m.entries := by
  rcases Nat.lt_or_ge (r.lastIndex firstIndex data.length) (max r.bytesPushed firstIndex) with
    hL | hw
  · rcases store_behind hL with ⟨hs, -⟩ | hs
    · obtain rfl := Except.ok.inj (hs.symm.trans h)
      exact hl
    · obtain ⟨t, -, rfl⟩ := map_ok (hs.symm.trans h)
      exact hl.set (r.lastIndex_lt _ _)
  · obtain ⟨m', hm', hends⟩ := store_fits hl hw
    obtain rfl := Except.ok.inj (h.symm.trans hm')
    exact hends

/-- An insert returns exactly if it does not read outside its data. -/
theorem insert_returns (hl : IntEnds r.cache.entries) (firstIndex : Nat) (data : Bytes)
    (isLast : Bool) :
    (∃ r', r.insert firstIndex data isLast = .ok r') ↔ ¬ r.ReadsOutside firstIndex data := by
  rw [insert_eq]
  cases ho : r.outsideWindow firstIndex data.length with
  | true => exact iff_of_true ⟨_, rfl⟩ fun h => Bool.noConfusion (ho.symm.trans h.1)
  | false =>
    rw [if_neg Bool.false_ne_true, ← store_returns hl ho]
    refine ⟨fun ⟨r', hr⟩ => ?_, fun ⟨m, hm⟩ => ⟨_, congrArg (Except.map _) hm⟩⟩
    obtain ⟨m, hm, -⟩ := map_ok hr
    exact ⟨m, hm⟩

theorem flush_cache (r : Reassembler) :
    r.flush.cache = r.cache.drop (popReady r.cache.entries r.bytesPushed).1 := by
  unfold flush
  dsimp only
  rw [(closeIfDone_fields _ _).1, pushReady_cache]

theorem IntEnds.insert (hl : IntEnds r.cache.entries)
    (h : r.insert firstIndex data isLast = .ok r') : IntEnds r'.cache.entries := by
  rcases insert_cases h with ⟨-, rfl⟩ | ⟨-, m, hs, rfl⟩
  · rw [markEnd_cache]
    exact hl
  · rw [flush_cache]
    exact fun x hx => store_intEnds hl hs x (List.mem_of_mem_drop hx)

/-- For sizes below `2 ^ 63`: the last index that an `int` leaves is at least two below the next
expected index, so that the view gets the length of the data, and what is read of it goes beyond
the terminator. -/
theorem readsOutside_iff (hp : r.bytesPushed < 2 ^ 63) (hn : data.length < 2 ^ 63) :
    r.ReadsOutside firstIndex data ↔ r.outsideWindow firstIndex data.length = false ∧
      r.lastIndex firstIndex data.length + 2 ≤ r.bytesPushed ∧
      data.length + 1 + firstIndex < r.bytesPushed +
        lengthRead r.cache (r.lastIndex firstIndex data.length) r.bytesPushed data.length := by
  unfold ReadsOutside
  dsimp only
  refine and_congr_right fun ho => ?_
  have hle := lengthRead_le r.cache (r.lastIndex firstIndex data.length)
  generalize r.lastIndex firstIndex data.length = L at *
  unfold outsideWindow at ho
  simp only [Bool.or_eq_false_iff, decide_eq_false_iff_not, Nat.not_lt] at ho
  by_cases hf : r.bytesPushed ≤ firstIndex
  · -- the view starts with the data, and is not longer
    have h₁ := hle firstIndex (min (add64 (sub64 L firstIndex) 1) data.length)
    have h₂ := hle r.bytesPushed data.length
    rw [Nat.max_eq_right hf, sub64_self]
    omega
  · rw [add64_of_lt (show data.length + firstIndex < 2 ^ 64 by omega)] at ho
    rw [Nat.max_eq_left (by omega), sub64_of_le (by omega) (by omega)]
    have h₁ := hle r.bytesPushed (min (add64 (sub64 L r.bytesPushed) 1) data.length)
    by_cases hL : L + 2 ≤ r.bytesPushed
    · have hlen : min (add64 (sub64 L r.bytesPushed) 1) data.length = data.length := by
        unfold sub64 add64
        omega
      rw [hlen]
      omega
    · have hlen : L < r.bytesPushed → add64 (sub64 L r.bytesPushed) 1 = 0 := fun hlt => by
        unfold sub64 add64
        omega
      omega

end

end Reassembler

end Minnow
