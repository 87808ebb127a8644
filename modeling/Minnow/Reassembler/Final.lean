import Minnow.Reassembler.Reads
import Minnow.Reassembler.Runs

/-!
# Nothing is pushed after the close

No statement of `insert` or of `Writer::push` looks at the closed flag, so a closed stream stays as
it is only as long as no insert brings the next byte. `LateData` are the inserts that do: one that
covers the next expected index while there is room, an empty one at index `0` of a stream without
bytes that releases what is cached at index `1`, and one that ends at the next expected index and
takes what lies behind its string for the next bytes. Without them, and without inserts that read
outside their data elsewhere, the number of bytes pushed is final (`closed_final`).

The substrings are arbitrary here, and so are the indices: the conversions through `int` may have
spoilt the map before the close. The close itself empties it, and from then on every cached
segment starts behind the next expected index (`Sealed`).
-/

namespace Minnow

namespace Reassembler

/-- Data that was pushed last comes again, and the conversions through `int` put its last index more
than one below its end. The view of what is new in it has the length of the data, and starts at the
terminator of the string. -/
def Overread (r : Reassembler) (firstIndex : Nat) (data : Bytes) : Prop :=
  0 < data.length ∧ firstIndex + data.length = r.bytesPushed ∧
    r.lastIndex firstIndex data.length + 1 < r.bytesPushed

/-- The insert brings the next byte. -/
def BringsByte (r : Reassembler) (firstIndex : Nat) (data : Bytes) : Prop :=
  (firstIndex ≤ r.bytesPushed ∧ r.bytesPushed < firstIndex + data.length ∧
      0 < r.output.availableCapacity) ∨
    (r.Phantom firstIndex data ∧ ∃ x ∈ r.cache.entries, x.1 = 1) ∨
    (r.Overread firstIndex data ∧ 0 < r.output.availableCapacity ∧ r.cache.entries ≠ [])

/-- The insert brings a byte after the close. -/
def LateData (s : Session) : Op → Prop
  | .insert firstIndex data _ => s.reassembler.output.isClosed = true ∧
      s.reassembler.BringsByte firstIndex data
  | .pop _ => False

/-- The insert reads outside its data. -/
def Misreads (s : Session) : Op → Prop
  | .insert firstIndex data _ => s.reassembler.ReadsOutside firstIndex data
  | .pop _ => False

/-- No byte is brought after the close, nothing outside the data is read, and the count of the
bytes fits its 64 bits. -/
def NoLateData (s : Session) (op : Op) : Prop :=
  ¬ LateData s op ∧ ¬ Misreads s op ∧ s.reassembler.bytesPushed < 2 ^ 64

instance (s : Session) : ∀ op, Decidable (NoLateData s op)
  | .insert .. => by
    unfold NoLateData LateData Misreads BringsByte Overread
    infer_instance
  | .pop _ => by
    unfold NoLateData LateData Misreads
    infer_instance

/-- Every cached segment starts behind the next expected index. -/
def Sealed (r : Reassembler) : Prop :=
  ∀ x ∈ r.cache.entries, r.bytesPushed < x.1 ∧ x.1 < 2 ^ 64

section

variable {data : Bytes} {firstIndex capacity L : Nat} {isLast : Bool} {r r' : Reassembler}
  {l : List Segment} {c c' : Cursor} {m : Cache}

/-! ## Where a substring is stored -/

theorem add64_lt (a b : Nat) : add64 a b < 2 ^ 64 := Nat.mod_lt _ (by decide)

theorem Overlaid.keys {s e : Nat} (h : Overlaid L s e c c') (hs : s < 2 ^ 64)
    (hw : c.writeIndex < 2 ^ 64) :
    c.writeIndex ≤ c'.writeIndex ∧ c'.writeIndex < 2 ^ 64 ∧ ∀ x ∈ c'.cache.entries,
      x ∈ c.cache.entries ∨ c.writeIndex ≤ x.1 ∧ x.1 < 2 ^ 64 := by
  have he := add64_lt e 1
  have hset : ∀ v x, x ∈ (c.cache.set c.writeIndex v).entries →
      x ∈ c.cache.entries ∨ c.writeIndex ≤ x.1 ∧ x.1 < 2 ^ 64 := by
    intro v x hx
    rcases (OrdMap.mem_set _ _ _ _).mp hx with rfl | ⟨hx, -⟩
    · exact .inr ⟨Nat.le_refl _, hw⟩
    · exact .inl hx
  cases h with
  | gap => exact ⟨Nat.le_refl _, hw, hset _⟩
  | fill => exact ⟨Nat.le_refl _, hw, hset _⟩
  | fillOn => exact ⟨by simp only; omega, by simp only; omega, hset _⟩
  | covered => exact ⟨Nat.le_refl _, hw, fun x hx => .inl hx⟩
  | behind => exact ⟨by simp only; omega, by simp only; omega, fun x hx => .inl hx⟩

/-- `write_index` only grows, and new segments start at or after it. -/
theorem overlay_keys (h : overlay L l c = .ok c') (hl : ∀ x ∈ l, x.1 < 2 ^ 64)
    (hw : c.writeIndex < 2 ^ 64) :
    c.writeIndex ≤ c'.writeIndex ∧ c'.writeIndex < 2 ^ 64 ∧ ∀ x ∈ c'.cache.entries,
      x ∈ c.cache.entries ∨ c.writeIndex ≤ x.1 ∧ x.1 < 2 ^ 64 := by
  induction l generalizing c with
  | nil =>
    obtain rfl : c = c' := Except.ok.inj h
    exact ⟨Nat.le_refl _, hw, fun x hx => .inl hx⟩
  | cons y rest ih =>
    have hs : y.1 < 2 ^ 64 := hl _ List.mem_cons_self
    obtain ⟨c₁, hround, hrest⟩ := overlay_cons_ok hs h
    obtain ⟨hle, hlt, hmem⟩ := hround.keys hs hw
    rcases hrest with rfl | hrest
    · exact ⟨hle, hlt, hmem⟩
    · obtain ⟨hle', hlt', hmem'⟩ := ih hrest (fun x hx => hl x (List.mem_cons_of_mem _ hx)) hlt
      refine ⟨Nat.le_trans hle hle', hlt', fun x hx => ?_⟩
      rcases hmem' x hx with hx | hx
      · exact hmem x hx
      · exact .inr ⟨Nat.le_trans hle hx.1, hx.2⟩

theorem appendTail_keys (h : appendTail L c = .ok m) (hw : c.writeIndex < 2 ^ 64) :
    ∀ x ∈ m.entries, x ∈ c.cache.entries ∨ c.writeIndex ≤ x.1 ∧ x.1 < 2 ^ 64 := by
  rcases appendTail_ok h with rfl | ⟨y, tail, -, -, -, rfl⟩
  · exact fun x hx => .inl hx
  · have he := add64_lt y.2.1 1
    intro x hx
    rcases (OrdMap.mem_set _ _ _ _).mp hx with rfl | ⟨hx, -⟩
    · exact .inr ⟨Nat.le_max_left _ _, by simp only; omega⟩
    · exact .inl hx

/-- A stored segment is an old one, or starts at `write_index` or later. -/
theorem store_keys (h : r.store firstIndex data = .ok m)
    (hl : ∀ x ∈ r.cache.entries, x.1 < 2 ^ 64) (hf : firstIndex < 2 ^ 64)
    (hp : r.bytesPushed < 2 ^ 64) :
    ∀ x ∈ m.entries, x ∈ r.cache.entries ∨ max r.bytesPushed firstIndex ≤ x.1 ∧ x.1 < 2 ^ 64 := by
  have hw : max r.bytesPushed firstIndex < 2 ^ 64 := by omega
  unfold store at h
  dsimp only at h
  split at h
  · obtain ⟨t, -, h⟩ := bind_ok h
    intro x hx
    rcases appendTail_keys h hw x hx with hx | hx
    · rcases (OrdMap.mem_set _ _ _ _).mp hx with rfl | ⟨hx, -⟩
      · exact .inr ⟨Nat.le_refl _, hw⟩
      · exact .inl hx
    · exact .inr hx
  · obtain ⟨c, ho, h⟩ := bind_ok h
    obtain ⟨hle, hlt, hmem⟩ := overlay_keys ho hl hw
    intro x hx
    rcases appendTail_keys h hlt x hx with hx | hx
    · exact hmem x hx
    · exact .inr ⟨Nat.le_trans hle hx.1, hx.2⟩

/-! ## What is pushed -/

theorem popReady_of_ne {n : Nat} (h : ∀ x ∈ l, x.1 ≠ n) : popReady l n = (0, n, []) := by
  cases l with
  | nil => rfl
  | cons x rest =>
    obtain ⟨s, e, bytes⟩ := x
    exact if_neg (h _ List.mem_cons_self)

/-- A segment at the next expected index is always popped. -/
theorem lt_of_mem_drop_popReady {n : Nat} (hs : Sorted l) (hle : ∀ x ∈ l, n ≤ x.1) :
    ∀ x ∈ l.drop (popReady l n).1, n < x.1 := by
  cases l with
  | nil => exact fun x hx => absurd hx List.not_mem_nil
  | cons y rest =>
    obtain ⟨s, e, bytes⟩ := y
    have hlt : ∀ x ∈ rest, n < x.1 := fun x hx =>
      Nat.lt_of_le_of_lt (hle _ List.mem_cons_self) ((List.pairwise_cons.mp hs).1 x hx)
    unfold popReady
    split
    · intro x hx
      exact hlt x (List.mem_of_mem_drop (List.drop_succ_cons ▸ hx))
    · rename_i hne
      intro x hx
      rcases List.mem_cons.mp hx with rfl | hx
      · exact Nat.lt_of_le_of_ne (hle _ List.mem_cons_self) (Ne.symm hne)
      · exact hlt x hx

/-- The bytes of the ready segments go to the output, as far as there is room. A stream that is
closed stays so, and one that gets closed has no segment left. -/
structure Flushed (r r' : Reassembler) (d : Bytes) : Prop where
  output : r'.output.WF
  peek : r'.output.peek = r.output.peek ++ d.take r.output.availableCapacity
  pushed : r'.bytesPushed = r.bytesPushed + min r.output.availableCapacity d.length
  closed : r.output.closed = true → r'.output.closed = true
  empty : r'.output.closed = true → r.output.closed = true ∨ r'.cache.entries = []

theorem flush_output (hw : r.output.WF) :
    Flushed r r.flush (popReady r.cache.entries r.bytesPushed).2.2 ∧
      r.flush.cache = r.cache.drop (popReady r.cache.entries r.bytesPushed).1 := by
  unfold flush
  generalize popReady r.cache.entries r.bytesPushed = q
  obtain ⟨n, next, d⟩ := q
  have hpush : ∃ r₁, r₁ = { r with cache := r.cache.drop n }.pushReady d ∧ r₁.output.WF ∧
      r₁.output.peek = r.output.peek ++ d.take r.output.availableCapacity ∧
      r₁.bytesPushed = r.bytesPushed + min r.output.availableCapacity d.length := by
    refine ⟨_, rfl, ?_⟩
    unfold pushReady
    cases d with
    | nil =>
      rw [List.isEmpty_nil, if_pos rfl, List.take_nil, List.append_nil, List.length_nil,
        Nat.min_zero]
      exact ⟨hw, rfl, rfl⟩
    | cons b d => exact ⟨hw.push _, ByteStream.push_peek hw _, ByteStream.push_bytesPushed _ _⟩
  obtain ⟨r₁, he, hwf, hpk, hpu⟩ := hpush
  have hclosed : r₁.output.closed = r.output.closed := by rw [he, pushReady_closed]
  dsimp only
  rw [← he]
  refine ⟨?_, by rw [(closeIfDone_fields _ _).1, he, pushReady_cache]⟩
  unfold closeIfDone
  split
  · rename_i hc
    simp only [Bool.and_eq_true, List.isEmpty_iff] at hc
    exact ⟨hwf.close, hpk, hpu, fun _ => rfl, fun _ => .inr hc.1.2⟩
  · exact ⟨hwf, hpk, hpu, fun h => hclosed ▸ h, fun h => .inl (hclosed ▸ h)⟩

/-- What any insert does to the output. -/
theorem insert_output (hw : r.output.WF) (hr : r.insert firstIndex data isLast = .ok r') :
    (r'.output = r.output ∧ r'.cache = r.cache) ∨
      r.outsideWindow firstIndex data.length = false ∧ ∃ m, r.store firstIndex data = .ok m ∧
        Flushed r r' (popReady m.entries r.bytesPushed).2.2 ∧
        r'.cache = m.drop (popReady m.entries r.bytesPushed).1 := by
  have hout := markEnd_output r firstIndex data.length isLast
  have hcache := markEnd_cache r firstIndex data.length isLast
  have hcases := insert_cases hr
  generalize r.markEnd firstIndex data.length isLast = r₁ at *
  have hpush₁ : r₁.bytesPushed = r.bytesPushed := by unfold bytesPushed; rw [hout]
  rcases hcases with ⟨-, rfl⟩ | ⟨ho, m, hs, rfl⟩
  · exact .inl ⟨hout, hcache⟩
  · obtain ⟨hf, hc⟩ := flush_output (r := { r₁ with cache := m }) (hout ▸ hw)
    replace hc : _ = m.drop (popReady m.entries r₁.bytesPushed).1 := hc
    replace hf : Flushed _ _ (popReady m.entries r₁.bytesPushed).2.2 := hf
    rw [hpush₁] at hc hf
    refine .inr ⟨ho, m, hs, ⟨hf.output, ?_, ?_, ?_, ?_⟩, hc⟩
    · rw [hf.peek, hout]
    · rw [hf.pushed]
      show r₁.output.bytesPushed + min r₁.output.availableCapacity _ = _
      rw [hout]
      rfl
    · exact fun h => hf.closed (hout ▸ h)
    · exact fun h => (hf.empty h).imp_left fun h => hout ▸ h

/-- An insert that ends at the next expected index stores at most an empty segment. -/
theorem store_old (h : r.store firstIndex data = .ok m)
    (hle : firstIndex + data.length = r.bytesPushed) (hp : r.bytesPushed < 2 ^ 64)
    (hlt : ∀ x ∈ r.cache.entries, r.bytesPushed < x.1)
    (hread : r.Overread firstIndex data → r.cache.entries = []) :
    m = r.cache ∨ ∃ L, (L < r.bytesPushed ∨ r.bytesPushed = 0 ∧ L = 0) ∧
      m.entries = (r.bytesPushed, L, []) :: r.cache.entries := by
  by_cases h0 : r.bytesPushed = 0
  · obtain rfl : firstIndex = 0 := by omega
    obtain rfl : data = [] := List.eq_nil_of_length_eq_zero (by omega)
    obtain ⟨m', hm', he⟩ := store_phantom h0 (h0 ▸ hlt)
    obtain rfl := Except.ok.inj (h.symm.trans hm')
    exact .inr ⟨0, .inr ⟨h0, rfl⟩, by rw [he, h0]⟩
  · have hw : max r.bytesPushed firstIndex = r.bytesPushed := Nat.max_eq_left (by omega)
    have hL : r.lastIndex firstIndex data.length < r.bytesPushed := by
      unfold lastIndex lastDataIndex
      rw [add64_of_lt (by omega), hle, sub64_of_le (by omega) hp]
      have := clampInt_le (r.bytesPushed - 1)
      omega
    have hL' : r.lastIndex firstIndex data.length < max r.bytesPushed firstIndex := by
      rw [hw]
      exact hL
    have hbehind := store_behind hL'
    dsimp only at hbehind
    rw [hw] at hbehind
    -- nothing is read: the view is empty, or no segment is cached
    have hnone : lengthRead r.cache (r.lastIndex firstIndex data.length) r.bytesPushed
        (min (add64 (sub64 (r.lastIndex firstIndex data.length) r.bytesPushed) 1) data.length) =
        0 := by
      by_cases hov : r.Overread firstIndex data
      · unfold lengthRead
        rw [hread hov]
      · refine Nat.eq_zero_of_le_zero (Nat.le_trans (lengthRead_le ..) ?_)
        unfold Overread at hov
        unfold add64 sub64
        omega
    rw [hnone] at hbehind
    rcases hbehind with ⟨hs, -⟩ | hs
    · exact .inl (Except.ok.inj (h.symm.trans hs))
    · obtain ⟨t, ht, rfl⟩ := map_ok (hs.symm.trans h)
      rw [StringView.string_take_zero] at ht
      obtain rfl := Except.ok.inj ht
      exact .inr ⟨_, .inl hL, OrdMap.set_entries_of_lt hlt⟩

/-- The empty segment is popped, and nothing behind it is ready. -/
theorem popReady_old {n : Nat} {rest : List Segment} (hn : n < 2 ^ 64)
    (hL : L < n ∨ n = 0 ∧ L = 0) (hlt : ∀ x ∈ rest, n < x.1) (h1 : n = 0 → ∀ x ∈ rest, x.1 ≠ 1) :
    (popReady ((n, L, []) :: rest) n).2.2 = [] := by
  have hnext : add64 n (add64 (sub64 L n) 1) = L + 1 := by
    unfold add64 sub64
    omega
  unfold popReady
  rw [if_pos rfl, hnext, popReady_of_ne fun x hx => ?_]
  · rfl
  · have := hlt x hx
    rcases hL with hL | ⟨rfl, rfl⟩
    · omega
    · exact h1 rfl x hx

/-- An insert that brings no byte changes nothing that the reader can see. -/
theorem Sealed.insert (h : Sealed r) (hw : r.output.WF) (hp : r.bytesPushed < 2 ^ 64)
    (hlate : ¬ r.BringsByte firstIndex data)
    (hr : r.insert firstIndex data isLast = .ok r') :
    r'.bytesPushed = r.bytesPushed ∧ r'.output.peek = r.output.peek ∧ Sealed r' := by
  rcases insert_output hw hr with ⟨hout, hcache⟩ | ⟨ho, m, hm, hf, hc⟩
  · have hpushed : r'.bytesPushed = r.bytesPushed := by unfold bytesPushed; rw [hout]
    refine ⟨hpushed, by rw [hout], ?_⟩
    unfold Sealed
    rw [hcache, hpushed]
    exact h
  · unfold outsideWindow at ho
    simp only [Bool.or_eq_false_iff, decide_eq_false_iff_not, Nat.not_lt] at ho
    have hlt64 : sub64 (add64 r.bytesPushed r.output.availableCapacity) 1 < 2 ^ 64 :=
      Nat.mod_lt _ (by decide)
    have hkeys := store_keys hm (fun x hx => (h x hx).2) (by omega) hp
    -- no byte is ready, or there is no room for one
    have hnone : (popReady m.entries r.bytesPushed).2.2.take r.output.availableCapacity = [] := by
      have hready : (∀ x ∈ m.entries, x.1 ≠ r.bytesPushed) →
          (popReady m.entries r.bytesPushed).2.2.take r.output.availableCapacity = [] :=
        fun hne => by rw [popReady_of_ne hne, List.take_nil]
      by_cases hlt : r.bytesPushed < firstIndex
      · refine hready fun x hx => ?_
        rcases hkeys x hx with hx | hx
        · exact ne_of_gt (h x hx).1
        · omega
      · by_cases hroom : 0 < r.output.availableCapacity
        · have hend : ¬ r.bytesPushed < firstIndex + data.length := fun hlt' =>
            hlate (.inl ⟨by omega, hlt', hroom⟩)
          have hold : firstIndex + data.length = r.bytesPushed := by
            have := ho.2
            rw [add64_of_lt (by omega)] at this
            omega
          have hread : r.Overread firstIndex data → r.cache.entries = [] := fun hov => by
            by_contra hne
            exact hlate (.inr (.inr ⟨hov, hroom, hne⟩))
          rcases store_old hm hold hp (fun x hx => (h x hx).1) hread with rfl | ⟨L, hL, he⟩
          · exact hready fun x hx => ne_of_gt (h x hx).1
          · rw [he, popReady_old hp hL (fun x hx => (h x hx).1), List.take_nil]
            intro h0 x hx hx1
            exact hlate (.inr (.inl ⟨⟨by omega, List.eq_nil_of_length_eq_zero (by omega), h0⟩,
              x, hx, hx1⟩))
        · rw [show r.output.availableCapacity = 0 by omega, List.take_zero]
    have hpushed : r'.bytesPushed = r.bytesPushed := by
      rw [hf.pushed, ← List.length_take, hnone]
      rfl
    refine ⟨hpushed, by rw [hf.peek, hnone, List.append_nil], fun x hx => ?_⟩
    rw [hc] at hx
    rw [hpushed]
    refine ⟨lt_of_mem_drop_popReady m.sorted (fun y hy => ?_) x hx, ?_⟩
    · rcases hkeys y hy with hy | hy
      · exact Nat.le_of_lt (h y hy).1
      · omega
    · rcases hkeys x (List.mem_of_mem_drop hx) with hx | hx
      · exact (h x hx).2
      · exact hx.2

/-! ## Runs -/

/-- The output is a stream, and a closed one has nothing more to come. -/
structure Closed (s : Session) : Prop where
  output : s.reassembler.output.WF
  ends : IntEnds s.reassembler.cache.entries
  isSealed : s.reassembler.output.isClosed = true → Sealed s.reassembler

theorem Closed.step {s s' : Session} {op : Op} (h : Closed s) (hok : NoLateData s op)
    (hst : s.step op = .ok s') : Closed s' := by
  cases op with
  | insert firstIndex data isLast =>
    obtain ⟨r', hr', rfl⟩ := Session.step_insert hst
    have hkeep : s.reassembler.output.isClosed = true → Sealed r' := fun hc =>
      ((h.isSealed hc).insert h.output hok.2.2 (fun hl => hok.1 ⟨hc, hl⟩) hr').2.2
    rcases insert_output h.output hr' with ⟨hout, -⟩ | ⟨-, m, -, hf, -⟩
    · exact ⟨hout ▸ h.output, h.ends.insert hr', fun hc => hkeep (hout ▸ hc)⟩
    · refine ⟨hf.output, h.ends.insert hr', fun hc => ?_⟩
      rcases hf.empty hc with hc | he
      · exact hkeep hc
      · -- the insert that closes the stream leaves no segment
        intro x hx
        rw [show (s.afterInsert _ _ _ r').reassembler.cache.entries = [] from he] at hx
        simp at hx
  | pop len =>
    obtain rfl : s.afterPop len = s' := Except.ok.inj hst
    exact ⟨h.output.pop len, h.ends, h.isSealed⟩

/-- An operation that reads nothing outside its data returns. -/
theorem Closed.returns {s : Session} {op : Op} (h : Closed s) (hok : NoLateData s op) :
    ∃ s', s.step op = .ok s' := by
  cases op with
  | insert firstIndex data isLast =>
    obtain ⟨r', hr'⟩ := (insert_returns h.ends firstIndex data isLast).mpr hok.2.1
    exact ⟨_, by rw [Session.step, hr']; rfl⟩
  | pop len => exact ⟨_, rfl⟩

/-- `t` has the same bytes as the closed `s`, and shows the reader no new one. -/
structure Unchanged (s t : Session) : Prop where
  closed : t.reassembler.output.isClosed = true
  pushed : t.reassembler.bytesPushed = s.reassembler.bytesPushed
  bytes : t.pushedBytes = s.pushedBytes
  finished : s.reassembler.output.isFinished = true → t.reassembler.output.isFinished = true

theorem Closed.unchanged {s s' : Session} {op : Op} (h : Closed s) (hok : NoLateData s op)
    (hst : s.step op = .ok s') (hc : s.reassembler.output.isClosed = true) :
    Unchanged s s' := by
  have hw' := (h.step hok hst).output
  cases op with
  | insert firstIndex data isLast =>
    obtain ⟨r', hr', rfl⟩ := Session.step_insert hst
    obtain ⟨hpushed, hpeek, -⟩ := (h.isSealed hc).insert h.output hok.2.2
      (fun hl => hok.1 ⟨hc, hl⟩) hr'
    have hc' : r'.output.isClosed = true := by
      rcases insert_output h.output hr' with ⟨hout, -⟩ | ⟨-, m, -, hf, -⟩
      · rw [hout]
        exact hc
      · exact hf.closed hc
    refine ⟨hc', hpushed, ?_, fun hfin => ?_⟩
    · show s.read ++ r'.output.peek = _
      rw [hpeek]
      rfl
    · have hpk := (h.output.isFinished_iff.mp hfin).2
      exact hw'.isFinished_iff.mpr ⟨hc', hpeek.trans hpk⟩
  | pop len =>
    obtain rfl : s.afterPop len = s' := Except.ok.inj hst
    have hpeek : (s.afterPop len).reassembler.output.peek = s.reassembler.output.peek.drop len :=
      ByteStream.pop_peek h.output len
    refine ⟨hc, rfl, ?_, fun hfin => ?_⟩
    · unfold Session.pushedBytes
      rw [hpeek]
      show (s.read ++ s.reassembler.output.peek.take len) ++ _ = _
      rw [List.append_assoc, List.take_append_drop]
    · refine hw'.isFinished_iff.mpr ⟨hc, ?_⟩
      rw [hpeek, (h.output.isFinished_iff.mp hfin).2, List.drop_nil]

/-- From a closed state on, a run that brings no late data pushes nothing: the count and the bytes
stay, and a reader that has seen the end sees no new byte. No operation of such a run fails. -/
theorem closed_final (capacity : Nat) (hcap : capacity < 2 ^ 64) (s t : Session)
    (hs : (machine capacity).Reaches NoLateData s)
    (hc : s.reassembler.output.isClosed = true) (ht : (machine capacity).Runs NoLateData s t) :
    Unchanged s t ∧ ∀ op, NoLateData t op → ∃ t', t.step op = .ok t' := by
  have hinv : ∀ {s}, (machine capacity).Reaches NoLateData s → Closed s := fun hs =>
    hs.invariant_det ⟨.new hcap, fun _ h => absurd h List.not_mem_nil,
      fun h => absurd h Bool.false_ne_true⟩ fun _ _ _ h hok hst => h.step hok hst
  refine ⟨?_, fun op hok => (hinv (ht.reaches hs)).returns hok⟩
  refine ht.rel (R := fun s t => s.reassembler.output.isClosed = true → Unchanged s t) hs
    (fun s hc => ⟨hc, rfl, rfl, id⟩) (fun s t u hst htu hc => ?_)
    (fun s op s' hs hok hst => (hinv hs).unchanged hok hst) hc
  have h₁ := hst hc
  have h₂ := htu h₁.closed
  exact ⟨h₂.closed, h₂.pushed.trans h₁.pushed, h₂.bytes.trans h₁.bytes,
    fun hf => h₂.finished (h₁.finished hf)⟩

/-- Data from beyond the end, old data and a pop after the close. -/
theorem closed_final_beyond : ∃ s t, s.reassembler.output.isClosed = true ∧
    s.pushedBytes = [97, 98] ∧ (machine 4).Runs NoLateData s t ∧ Unchanged s t := by
  obtain ⟨s, hs, hc, hb, hok, hends⟩ := Machine.exists_reaches Session.step (.new 4) NoLateData
    (fun s => s.reassembler.output.isClosed = true ∧ s.pushedBytes = [97, 98] ∧
      Machine.Allowed NoLateData Session.step s
        [.insert 3 [100] false, .insert 0 [120] true, .pop 1] ∧
      Machine.Ends (fun _ => True) Session.step s
        [.insert 3 [100] false, .insert 0 [120] true, .pop 1])
    [.insert 0 [97, 98] true] (by decide +kernel) (by decide +kernel)
  obtain ⟨t, ht, -⟩ := Machine.exists_runs (.new 4) hends hok
  exact ⟨s, t, hc, hb, ht, (closed_final 4 (by decide) s t hs hc ht).1⟩

/-- A byte behind the end of a closed stream is pushed. -/
theorem pushed_after_close : ∃ s t, (machine 4).Reaches (fun _ _ => True) s ∧
    s.reassembler.output.isClosed = true ∧ (machine 4).Runs (fun _ _ => True) s t ∧
    t.reassembler.bytesPushed ≠ s.reassembler.bytesPushed := by
  obtain ⟨s, hs, hc, h1, hok, hends⟩ := Machine.exists_reaches Session.step (.new 4)
    (fun _ _ => True)
    (fun s => s.reassembler.output.isClosed = true ∧ s.reassembler.bytesPushed = 1 ∧
      Machine.Allowed (fun _ _ => True) Session.step s [.insert 1 [98] false] ∧
      Machine.Ends (fun t => t.reassembler.bytesPushed = 2) Session.step s [.insert 1 [98] false])
    [.insert 0 [97] true] (by decide +kernel) (by decide +kernel)
  obtain ⟨t, ht, h2⟩ := Machine.exists_runs (.new 4) hends hok
  exact ⟨s, t, hs, hc, ht, by omega⟩

/-- So is the terminator of a byte that comes again, where the window end has left `int`. -/
example : Machine.Ends (fun s => s.pushedBytes = [97, 98, 0]) Session.step (.new (2 ^ 31 - 1))
    [.insert 0 [97, 98] true, .insert 5 [120] false, .pop 2, .insert 1 [98] false] := by
  decide +kernel

end

end Reassembler

end Minnow
