import Minnow.Reassembler.ByteSet

/-!
# When the reassembled stream closes

The stream should close when all its bytes are pushed and its end was marked in the window. It
does so unless the run meets `ClosesEarly`: an empty substring at index `0`, before the first
byte, while all the other bytes are pending and the end is marked. That insert is taken for the
missing byte (`insert_phantom_spec`): it releases the other bytes, one position early, and closes
the stream.

`Ending` is the invariant. It is about lengths only, since other empty substrings at index `0` may
push bytes early too; those leave the stream open. `Ending.closed_early` is the step that goes
wrong.
-/

namespace Minnow

namespace Reassembler

structure Ending (stream : Bytes) (s : Session) : Prop where
  inv : s.reassembler.Inv
  window : 1 ≤ s.reassembler.windowEnd
  stop_le : ∀ x ∈ s.reassembler.cache.entries, stop x ≤ stream.length
  pushed_le : s.reassembler.bytesPushed ≤ stream.length
  ended : s.ended = s.reassembler.finish
  finishSet : s.reassembler.finish = true → s.reassembler.finishSet = stream.length
  full : 0 < stream.length → s.reassembler.bytesPushed = stream.length →
    s.reassembler.finish = true
  last : ∀ b, Stored s.reassembler.cache.entries (stream.length - 1) b →
    s.reassembler.finish = true
  closed : s.reassembler.output.closed = true ↔
    s.reassembler.bytesPushed = stream.length ∧ s.reassembler.finish = true

/-- The insert that closes the stream one byte early. -/
def ClosesEarly (stream : Bytes) (s : Session) : Op → Prop
  | .insert firstIndex data _ => s.reassembler.Phantom firstIndex data ∧ stream ≠ [] ∧
      s.reassembler.finish = true ∧ s.reassembler.countBytesPending + 1 = stream.length
  | .pop _ => False

instance (stream : Bytes) (s : Session) : ∀ op, Decidable (ClosesEarly stream s op)
  | .insert .. => inferInstanceAs (Decidable (_ ∧ _))
  | .pop _ => .isFalse id

/-- Inserts of pieces of the stream, but for the one that closes it early. -/
def FromStreamSound (stream : Bytes) (s : Session) (op : Op) : Prop :=
  FromStream stream s op ∧ ¬ ClosesEarly stream s op

instance (stream : Bytes) (s : Session) (op : Op) : Decidable (FromStreamSound stream s op) :=
  inferInstanceAs (Decidable (_ ∧ _))

section

variable {stream data : Bytes} {firstIndex capacity : Nat} {isLast : Bool} {s : Session}

theorem Ending.new (hcap : 1 ≤ capacity) (hlt : capacity < 2 ^ 64) :
    Ending stream (.new capacity) where
  inv := .new hlt
  window := by
    show 1 ≤ 0 + capacity
    omega
  stop_le x hx := absurd hx List.not_mem_nil
  pushed_le := Nat.zero_le _
  ended := rfl
  finishSet h := absurd h Bool.false_ne_true
  full hpos h := absurd (show 0 = stream.length from h) (by omega)
  last := by
    rintro b ⟨x, hx, -⟩
    exact absurd hx List.not_mem_nil
  closed := iff_of_false Bool.false_ne_true fun h => Bool.false_ne_true h.2

theorem Ending.pop (h : Ending stream s) (len : Nat) : Ending stream (s.afterPop len) where
  inv := h.inv.pop len
  window := Nat.le_trans h.window (afterPop_windowEnd_le s len)
  stop_le := h.stop_le
  pushed_le := h.pushed_le
  ended := h.ended
  finishSet := h.finishSet
  full := h.full
  last := h.last
  closed := h.closed

/-- Once every byte is pushed, no segment is left, not even an empty one. -/
theorem cache_empty {r : Reassembler} {n : Nat} (h : r.Inv)
    (hstop : ∀ x ∈ r.cache.entries, stop x ≤ n) (hn : n ≤ r.bytesPushed) :
    r.cache.entries = [] := by
  refine List.eq_nil_iff_forall_not_mem.mpr fun x hx => ?_
  have := h.tiled.lo_le x hx
  have := hstop x hx
  have := le_stop x
  omega

/-- The end is recorded exactly when it lies in the window. -/
theorem Ending.finish_insert (h : Ending stream s) (hhi : s.reassembler.windowEnd ≤ 2 ^ 31)
    (hs : firstIndex + data.length ≤ 2 ^ 31) {d : Bytes} {r' : Reassembler}
    (hr : Inserted s.reassembler firstIndex data isLast d r') :
    r'.finish = (s.reassembler.finish ||
      isLast && decide (firstIndex + data.length ≤ s.reassembler.windowEnd)) := by
  rw [hr.finish, marksEnd_of_le h.inv h.window hhi hs]

/-- A byte that has arrived is a position of the stream, and the last one marks the end. -/
theorem Ending.arrived (h : Ending stream s) (hd : Piece stream firstIndex data isLast)
    (hhi : s.reassembler.windowEnd ≤ 2 ^ 31) (hs : firstIndex + data.length ≤ 2 ^ 31) {d : Bytes}
    {r' : Reassembler} (hr : Inserted s.reassembler firstIndex data isLast d r') {p : Nat}
    {b : UInt8}
    (hb : s.reassembler.Arrived firstIndex data p b) :
    p < stream.length ∧ (p = stream.length - 1 → r'.finish = true) := by
  have hfin := h.finish_insert hhi hs hr
  rcases hb with hb | ⟨-, hp, hw, hb⟩
  · obtain ⟨x, hx, -, hlt⟩ := hb.covers
    have := h.stop_le x hx
    refine ⟨by omega, ?_⟩
    rintro rfl
    rw [hfin, h.last b hb, Bool.true_or]
  · obtain ⟨hlt, -⟩ := (hd.getElem? (by omega)).mp hb
    have hle := hd.le
    refine ⟨by omega, ?_⟩
    rintro rfl
    rw [hfin, hd.last.mpr (by omega), decide_eq_true (by omega), Bool.and_self, Bool.or_true]

/-- An insert that is not taken for a byte of its own. -/
theorem Ending.insert (h : Ending stream s) (hd : Piece stream firstIndex data isLast)
    (hhi : s.reassembler.windowEnd ≤ 2 ^ 31) (hs : firstIndex + data.length ≤ 2 ^ 31) {d : Bytes}
    {r' : Reassembler} (hr : Inserted s.reassembler firstIndex data isLast d r') :
    Ending stream (s.afterInsert firstIndex data isLast r') := by
  have hle := hd.le
  have hlast := hd.last
  have hfin := h.finish_insert hhi hs hr
  have hstop := hr.stop_le _ h.stop_le hd.le
  have harr : ∀ p b, s.reassembler.Arrived firstIndex data p b → p < stream.length ∧
      (p = stream.length - 1 → r'.finish = true) := fun p b => h.arrived hd hhi hs hr
  have hpushed : r'.bytesPushed = s.reassembler.bytesPushed + d.length := hr.pushed
  have hpushed_le : r'.bytesPushed ≤ stream.length := by
    rw [hpushed]
    rcases Nat.eq_zero_or_pos d.length with h0 | hpos
    · have := h.pushed_le
      omega
    · have := (harr _ _ (hr.bytes (d.length - 1) _
        (List.getElem?_eq_getElem (show d.length - 1 < d.length by omega)))).1
      omega
  have hset : r'.finish = true → r'.finishSet = stream.length := by
    intro hf
    rw [hr.finishSet, marksEnd_of_le h.inv h.window hhi hs]
    split
    · rename_i hc
      rw [Bool.and_eq_true] at hc
      rw [add64_of_lt (by omega)]
      exact hlast.mp hc.1
    · rename_i hc
      rw [hfin, Bool.eq_false_iff.mpr hc, Bool.or_false] at hf
      exact h.finishSet hf
  have hfull : 0 < stream.length → r'.bytesPushed = stream.length → r'.finish = true := by
    intro hpos hall
    rcases Nat.eq_zero_or_pos d.length with h0 | hd0
    · rw [hfin, h.full hpos (by omega), Bool.true_or]
    · exact (harr _ _ (hr.bytes (d.length - 1) _
        (List.getElem?_eq_getElem (show d.length - 1 < d.length by omega)))).2 (by omega)
  refine ⟨hr.inv, ?_, hstop, hpushed_le, ?_, hset, hfull, ?_, ?_⟩
  · show 1 ≤ r'.windowEnd
    rw [hr.toPushed.windowEnd]
    exact h.window
  · show (s.ended || _) = r'.finish
    rw [hfin, h.ended]
  · intro b hb
    exact (harr _ b ((hr.stored _ b).mp hb).1).2 rfl
  · show r'.output.closed = true ↔ r'.bytesPushed = _ ∧ r'.finish = true
    rw [hr.closed]
    constructor
    · intro hc
      rw [Bool.or_eq_true] at hc
      rcases hc with hc | hc
      · obtain ⟨hall, hf⟩ := h.closed.mp hc
        exact ⟨by omega, by rw [hfin, hf, Bool.true_or]⟩
      · simp only [Bool.and_eq_true, decide_eq_true_eq] at hc
        obtain ⟨⟨⟨-, hf⟩, -⟩, hge⟩ := hc
        rw [hset hf] at hge
        exact ⟨by omega, hf⟩
    · rintro ⟨hall, hf⟩
      rw [hf, cache_empty hr.inv hstop (by omega), hset hf]
      simp only [List.isEmpty_nil, Bool.and_true, hall, Nat.le_refl, decide_true, Bool.or_eq_true,
        Bool.not_eq_true']
      -- an early return leaves the stream as it was: closed, if all its bytes are pushed
      rcases Bool.eq_false_or_eq_true
        (s.reassembler.outsideWindow firstIndex data.length) with ho | ho
      · refine .inl (h.closed.mpr ?_)
        have hout := (outsideWindow_iff h.inv h.window (by omega) (by omega)).mp ho
        have h0 : d.length = 0 := by
          by_contra h0
          rcases hr.bytes 0 _ (List.getElem?_eq_getElem (show 0 < d.length by omega)) with hb | hb
          · exact h.inv.free_next _ hb
          · exact not_offered_of_outside hout _ _ hb.2
        have hold : s.reassembler.bytesPushed = stream.length := by omega
        refine ⟨hold, h.full ?_ hold⟩
        have := h.window
        have := h.pushed_le
        omega
      · exact .inr ho

/-- The run behind a missing first byte ends where the stream does only if all of it is pending. -/
theorem Ending.run_eq_iff (h : Ending stream s) (h0 : s.reassembler.bytesPushed = 0) {d : Bytes}
    (hd : ∀ i b, d[i]? = some b → Stored s.reassembler.cache.entries (1 + i) b)
    (hgap : Free s.reassembler.cache.entries (1 + d.length)) (hne : stream ≠ []) :
    1 + d.length ≤ stream.length ∧ (1 + d.length = stream.length ↔
      s.reassembler.countBytesPending + 1 = stream.length) := by
  classical
  have hpos := List.length_pos_iff.mpr hne
  have hbounds : ∀ p b, Stored s.reassembler.cache.entries p b → 1 ≤ p ∧ p < stream.length := by
    intro p b hb
    have hlo := (h.inv.tiled.stored_bounds hb).1
    obtain ⟨x, hx, -, hlt⟩ := hb.covers
    have := h.stop_le x hx
    omega
  let F := (Finset.Ico 1 stream.length).filter fun p =>
    ∃ b, Stored s.reassembler.cache.entries p b
  have hF : ∀ p, p ∈ F ↔ ∃ b, Stored s.reassembler.cache.entries p b := fun p => by
    rw [Finset.mem_filter, Finset.mem_Ico]
    exact ⟨And.right, fun ⟨b, hb⟩ => ⟨hbounds p b hb, b, hb⟩⟩
  have hpending : s.reassembler.countBytesPending = F.card :=
    sum_length_eq_card h.inv.tiled s.reassembler.cache.sorted hF
  have hle : 1 + d.length ≤ stream.length := by
    rcases Nat.eq_zero_or_pos d.length with h0 | hd0
    · omega
    · have := hbounds _ _ (hd (d.length - 1) _
        (List.getElem?_eq_getElem (show d.length - 1 < d.length by omega)))
      omega
  have hsub : F ⊆ Finset.Ico 1 stream.length := Finset.filter_subset _ _
  have hcard := Nat.card_Ico 1 stream.length
  refine ⟨hle, ⟨fun hall => ?_, fun hall => ?_⟩⟩
  · have hfull : Finset.Ico 1 stream.length ⊆ F := fun p hp => by
      have := Finset.mem_Ico.mp hp
      have hb := hd (p - 1) _ (List.getElem?_eq_getElem (show p - 1 < d.length by omega))
      rw [show 1 + (p - 1) = p by omega] at hb
      exact (hF p).mpr ⟨_, hb⟩
    rw [hpending, Finset.Subset.antisymm hsub hfull]
    omega
  · have hfull : F = Finset.Ico 1 stream.length :=
      Finset.eq_of_subset_of_card_le hsub (by omega)
    by_contra hlt
    have hmem : 1 + d.length ∈ F := by
      rw [hfull, Finset.mem_Ico]
      omega
    obtain ⟨b, hb⟩ := (hF _).mp hmem
    exact hgap b hb

/-- What `insert( 0, "", … )` on a stream without bytes leaves closed. -/
theorem Ending.phantom_closed_iff (h : Ending stream s) (h0 : s.reassembler.bytesPushed = 0)
    (hd : Piece stream 0 [] isLast) {d : Bytes} {r' : Reassembler}
    (hr : PhantomInserted s.reassembler isLast d r') :
    r'.output.closed = true ↔ stream = [] ∨ stream ≠ [] ∧ s.reassembler.finish = true ∧
      s.reassembler.countBytesPending + 1 = stream.length := by
  have hlast : isLast = true ↔ stream = [] := by
    rw [hd.last, List.length_nil, eq_comm, Nat.add_zero, List.length_eq_zero_iff]
  have hmem : ∀ x ∈ r'.cache.entries, 1 + d.length < stream.length := fun x hx => by
    obtain ⟨hx, hlt⟩ := hr.mem x hx
    have := h.stop_le x hx
    have := le_stop x
    omega
  by_cases hne : stream = []
  · -- the empty substring is the whole stream
    have hl := hlast.mpr hne
    have hempty : r'.cache.entries = [] := List.eq_nil_iff_forall_not_mem.mpr fun x hx => by
      have := hmem x hx
      simp [hne] at this
    refine iff_of_true ?_ (.inl hne)
    rw [hr.closed, hr.finish, hr.finishSet, hl, hempty]
    simp
  · have hl : isLast = false := Bool.eq_false_iff.mpr fun hl => hne (hlast.mp hl)
    have hc : s.reassembler.output.closed = false := Bool.eq_false_iff.mpr fun hc => by
      have := (h.closed.mp hc).1
      have := List.length_pos_iff.mpr hne
      omega
    obtain ⟨hle, hrun⟩ := h.run_eq_iff h0 hr.bytes hr.gap hne
    rw [hr.closed, hr.finish, hr.finishSet, hl, hc, ← hrun]
    simp only [Bool.or_false, Bool.false_or, Bool.false_eq_true, if_false, Bool.and_eq_true,
      decide_eq_true_eq, hne, false_or]
    constructor
    · rintro ⟨⟨hf, -⟩, hge⟩
      rw [h.finishSet hf] at hge
      exact ⟨hne, hf, by omega⟩
    · rintro ⟨-, hf, hall⟩
      refine ⟨⟨hf, ?_⟩, by rw [h.finishSet hf]; omega⟩
      refine List.isEmpty_iff.mpr (List.eq_nil_iff_forall_not_mem.mpr fun x hx => ?_)
      have := hmem x hx
      omega

/-- The other inserts of no byte at index `0`. -/
theorem Ending.phantom (h : Ending stream s) (h0 : s.reassembler.bytesPushed = 0)
    (hd : Piece stream 0 [] isLast) {d : Bytes} {r' : Reassembler}
    (hr : PhantomInserted s.reassembler isLast d r')
    (hok : ¬ ClosesEarly stream s (.insert 0 [] isLast)) :
    Ending stream (s.afterInsert 0 [] isLast r') := by
  have hw := h.window
  have hlast : isLast = true ↔ stream = [] := by
    rw [hd.last, List.length_nil, eq_comm, Nat.add_zero, List.length_eq_zero_iff]
  have hpushed : r'.bytesPushed = d.length := by
    rw [hr.pushed, h0, Nat.zero_add]
  have hstop : ∀ x ∈ r'.cache.entries, stop x ≤ stream.length := fun x hx =>
    h.stop_le x (hr.mem x hx).1
  have hlt : stream ≠ [] → d.length < stream.length := fun hne => by
    have := (h.run_eq_iff h0 hr.bytes hr.gap hne).1
    omega
  have hnil : stream = [] → d.length = 0 := fun hne => by
    by_contra hpos
    obtain ⟨x, hx, -, hlt⟩ :=
      (hr.bytes 0 _ (List.getElem?_eq_getElem (show 0 < d.length by omega))).covers
    have := h.stop_le x hx
    simp only [hne, List.length_nil] at this
    omega
  refine ⟨hr.inv, ?_, hstop, ?_, ?_, ?_, ?_, ?_, ?_⟩
  · show 1 ≤ r'.windowEnd
    rw [hr.toPushed.windowEnd]
    exact hw
  · show r'.bytesPushed ≤ stream.length
    by_cases hne : stream = []
    · have := hnil hne
      omega
    · have := hlt hne
      omega
  · show (s.ended || isLast && decide (0 + 0 ≤ _)) = r'.finish
    rw [hr.finish, h.ended, decide_eq_true (Nat.zero_le _), Bool.and_true]
  · intro hf
    replace hf : r'.finish = true := hf
    show r'.finishSet = _
    rw [hr.finishSet]
    split
    · rename_i hl
      rw [hlast.mp hl]
      rfl
    · rename_i hl
      rw [hr.finish, Bool.eq_false_iff.mpr hl, Bool.or_false] at hf
      exact h.finishSet hf
  · intro hpos hall
    replace hall : r'.bytesPushed = stream.length := hall
    have := hlt (List.length_pos_iff.mp hpos)
    omega
  · intro b hb
    show r'.finish = true
    rw [hr.finish, h.last b ((hr.stored _ b).mp hb).1, Bool.true_or]
  · show r'.output.closed = true ↔ r'.bytesPushed = _ ∧ r'.finish = true
    rw [h.phantom_closed_iff h0 hd hr, hpushed]
    constructor
    · rintro (hne | hbad)
      · rw [hr.finish, hlast.mpr hne, hnil hne, hne, Bool.or_true]
        exact ⟨rfl, rfl⟩
      · exact absurd ⟨⟨rfl, rfl, h0⟩, hbad⟩ hok
    · rintro ⟨hall, -⟩
      by_contra hne
      have := hlt fun h => hne (.inl h)
      omega

theorem Ending.step {s s' : Session} {op : Op} (h : Ending stream s)
    (hok : FromStreamSound stream s op) (hst : s.step op = .ok s') :
    Ending stream s' := by
  cases op with
  | insert firstIndex data isLast =>
    obtain ⟨r', hr', rfl⟩ := Session.step_insert hst
    obtain ⟨⟨hd, hs, hhi⟩, hearly⟩ := hok
    by_cases hph : s.reassembler.Phantom firstIndex data
    · obtain ⟨rfl, rfl, h0⟩ := hph
      obtain ⟨d, r'', hr'', hins⟩ := insert_phantom_spec isLast h.inv h.window
        (by omega) h0
      obtain rfl : r' = r'' := Except.ok.inj (hr'.symm.trans hr'')
      exact h.phantom h0 hd hins hearly
    · obtain ⟨d, r'', hr'', hins⟩ := insert_spec isLast h.inv h.window (by omega)
        (by omega) hph fun _ => endExact_of_le h.inv h.window hhi hs
      obtain rfl : r' = r'' := Except.ok.inj (hr'.symm.trans hr'')
      exact h.insert hd hhi hs hins
  | pop len =>
    obtain rfl : s.afterPop len = s' := Except.ok.inj hst
    exact h.pop len

/-- No insert of a piece of the stream fails. -/
theorem Ending.returns (h : Ending stream s) (hd : FromStream stream s
    (.insert firstIndex data isLast)) :
    ∃ r', s.reassembler.insert firstIndex data isLast = .ok r' := by
  obtain ⟨-, hs, hhi⟩ := hd
  by_cases hph : s.reassembler.Phantom firstIndex data
  · obtain ⟨rfl, rfl, h0⟩ := hph
    obtain ⟨d, r', hr', -⟩ := insert_phantom_spec isLast h.inv h.window (by omega) h0
    exact ⟨r', hr'⟩
  · obtain ⟨d, r', hr', -⟩ := insert_spec isLast h.inv h.window (by omega) (by omega)
      hph fun _ => endExact_of_le h.inv h.window hhi hs
    exact ⟨r', hr'⟩

/-- The step that goes wrong: it closes the stream with a byte missing. -/
theorem Ending.closed_early {s s' : Session} {op : Op} (h : Ending stream s)
    (hok : FromStream stream s op) (hearly : ClosesEarly stream s op)
    (hst : s.step op = .ok s') :
    s'.reassembler.output.closed = true ∧
      s'.reassembler.bytesPushed + 1 = stream.length := by
  cases op with
  | insert firstIndex data isLast =>
    obtain ⟨r', hr', rfl⟩ := Session.step_insert hst
    obtain ⟨⟨rfl, rfl, h0⟩, hbad⟩ := hearly
    obtain ⟨d, r'', hr'', hins⟩ := insert_phantom_spec isLast h.inv h.window
      (by have := hok.2.2; omega) h0
    obtain rfl : r' = r'' := Except.ok.inj (hr'.symm.trans hr'')
    refine ⟨(h.phantom_closed_iff h0 hok.1 hins).mpr (.inr hbad), ?_⟩
    have := (h.run_eq_iff h0 hins.bytes hins.gap hbad.1).2.mpr hbad.2.2
    show r'.bytesPushed + 1 = _
    rw [hins.pushed]
    omega
  | pop len => exact hearly.elim

/-- In every run of inserts of pieces of a stream and of pops without a step that meets
`ClosesEarly`, the stream is closed exactly when all its bytes are pushed and its end was marked
inside the window; and the next insert of a piece returns. -/
theorem closed_iff (stream : Bytes) (capacity : Nat) (hcap : 1 ≤ capacity)
    (hhi : capacity ≤ 2 ^ 31) (s : Session)
    (h : (machine capacity).Reaches (FromStreamSound stream) s) :
    (s.reassembler.output.isClosed = true ↔
      s.reassembler.bytesPushed = stream.length ∧ s.ended = true) ∧
    ∀ firstIndex data isLast, FromStream stream s (.insert firstIndex data isLast) →
      ∃ r', s.reassembler.insert firstIndex data isLast = .ok r' := by
  have hend : Ending stream s :=
    h.invariant_det (.new hcap (by omega)) fun _ _ _ hs hok hst => hs.step hok hst
  rw [hend.ended]
  exact ⟨hend.closed, fun _ _ _ => hend.returns⟩

/-- The end of the stream comes first, and the reader pops in between. -/
theorem closed_iff_marked_first : ∃ s, (machine 2).Reaches (FromStreamSound [10, 11]) s ∧
    s.reassembler.output.isClosed = true ∧ s.reassembler.bytesPushed = 2 := by
  obtain ⟨s, h, hpushed, hended⟩ := Machine.exists_reaches Session.step (.new 2)
    (FromStreamSound [10, 11]) (fun s => s.reassembler.bytesPushed = 2 ∧ s.ended = true)
    [.insert 2 [] true, .insert 0 [10] false, .pop 1, .insert 1 [11] true]
    (by decide +kernel) (by decide +kernel)
  exact ⟨s, h, (closed_iff [10, 11] 2 (by decide) (by decide) s h).1.mpr ⟨hpushed, hended⟩,
    hpushed⟩

/-- The end of a one-byte stream, then an empty substring at index `0`: the stream is closed
without its byte. -/
theorem closed_without_byte : ∃ s, (machine 2).Reaches (FromStream [97]) s ∧
    ¬ (s.reassembler.output.isClosed = true ↔
      s.reassembler.bytesPushed = ([97] : Bytes).length ∧ s.ended = true) := by
  obtain ⟨s, h, hclosed, hpushed⟩ := Machine.exists_reaches Session.step (.new 2) (FromStream [97])
    (fun s => s.reassembler.output.isClosed = true ∧ s.reassembler.bytesPushed = 0)
    [.insert 1 [] true, .insert 0 [] false] (by decide +kernel) (by decide +kernel)
  refine ⟨s, h, fun hiff => ?_⟩
  have := (hiff.mp hclosed).1
  simp only [List.length_singleton] at this
  omega

end

end Reassembler

end Minnow
