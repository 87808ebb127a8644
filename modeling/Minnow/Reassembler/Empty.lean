import Minnow.Reassembler.Accept
import Minnow.Reassembler.ByteSet

/-!
# Empty substrings

An empty substring should carry no data. Two reassemblers are `Alike` if they have pushed the same
bytes and store the same ones, however these are cut into segments; from there on the same inserts
push the same bytes (`Alike.run`). An empty insert leads to such a reassembler, except
`insert( 0, "", … )` into a stream without bytes that has one stored for index `1`: its last index
is clamped to `0`, and the run from index `1` is pushed (`empty_inert_iff`).
-/

namespace Minnow

/-- The longest run from `0` on of what holds of at most one value at each place. -/
theorem eq_of_maximal_run {β : Type} {A : Nat → β → Prop} {d d' : List β}
    (hone : ∀ i b b', A i b → A i b' → b = b') (hd : ∀ i b, d[i]? = some b → A i b)
    (hgap : ∀ b, ¬A d.length b) (hd' : ∀ i b, d'[i]? = some b → A i b)
    (hgap' : ∀ b, ¬A d'.length b) : d = d' := by
  have hlen : d.length = d'.length := by
    rcases Nat.lt_trichotomy d.length d'.length with hlt | heq | hgt
    · exact absurd (hd' _ _ (List.getElem?_eq_getElem hlt)) (hgap _)
    · exact heq
    · exact absurd (hd _ _ (List.getElem?_eq_getElem hgt)) (hgap' _)
  refine List.ext_getElem hlen fun i hi hi' => ?_
  exact hone i _ _ (hd i _ (List.getElem?_eq_getElem hi)) (hd' i _ (List.getElem?_eq_getElem hi'))

namespace Reassembler

/-- The same bytes are pushed, and the same bytes are stored. -/
structure Alike (r r' : Reassembler) : Prop where
  inv : r.Inv
  inv' : r'.Inv
  window : 1 ≤ r.windowEnd
  peek : r'.output.peek = r.output.peek
  popped : r'.output.bytesPopped = r.output.bytesPopped
  capacity : r'.output.capacity = r.output.capacity
  stored : ∀ p b, Stored r'.cache.entries p b ↔ Stored r.cache.entries p b

variable {r r' r₁ r₁' : Reassembler} {firstIndex capacity : Nat} {data d d' : Bytes}
  {isLast isLast' : Bool}

theorem Alike.bytesPushed (h : Alike r r') : r'.bytesPushed = r.bytesPushed := by
  show r'.output.bytesPushed = r.output.bytesPushed
  rw [h.inv'.output.bytesPushed_eq, h.inv.output.bytesPushed_eq, h.popped, h.peek]

theorem Alike.windowEnd (h : Alike r r') : r'.windowEnd = r.windowEnd := by
  unfold Reassembler.windowEnd
  rw [h.popped, h.capacity]

open Classical in
theorem Alike.countBytesPending (h : Alike r r') :
    r'.countBytesPending = r.countBytesPending := by
  have hpositions : ∀ p, p ∈ (Finset.range r.windowEnd).filter
      (fun p => ∃ b, Stored r.cache.entries p b) ↔ ∃ b, Stored r.cache.entries p b := by
    intro p
    rw [Finset.mem_filter, Finset.mem_range]
    exact and_iff_right_of_imp fun ⟨b, hb⟩ => (h.inv.tiled.stored_bounds hb).2
  unfold Reassembler.countBytesPending
  rw [sum_length_eq_card h.inv.tiled r.cache.sorted hpositions,
    sum_length_eq_card h.inv'.tiled r'.cache.sorted fun p =>
      (hpositions p).trans (exists_congr fun b => (h.stored p b).symm)]

theorem Alike.arrived (h : Alike r r') (p : Nat) (b : UInt8) :
    r'.Arrived firstIndex data p b ↔ r.Arrived firstIndex data p b := by
  unfold Arrived Offered Free
  simp only [h.stored, h.bytesPushed, h.windowEnd]

/-- One byte at most arrives for an index. -/
theorem Inv.arrived_inj (h : r.Inv) {p : Nat} {b b' : UInt8} (hb : r.Arrived firstIndex data p b)
    (hb' : r.Arrived firstIndex data p b') : b = b' := by
  rcases hb with hb | ⟨hfree, -, -, hb⟩ <;> rcases hb' with hb' | ⟨hfree', -, -, hb'⟩
  · exact h.tiled.stored_inj r.cache.sorted hb hb'
  · exact absurd hb (hfree' b)
  · exact absurd hb' (hfree b')
  · exact Option.some.inj (hb.symm.trans hb')

/-- The same insert has the same effect. -/
theorem Alike.inserted (h : Alike r r') (hr : Inserted r firstIndex data isLast d r₁)
    (hr' : Inserted r' firstIndex data isLast' d' r₁') : Alike r₁ r₁' := by
  have hpushed := h.bytesPushed
  obtain rfl : d = d' := by
    refine eq_of_maximal_run (A := fun i => r.Arrived firstIndex data (r.bytesPushed + i))
      (fun i b b' => h.inv.arrived_inj) hr.bytes hr.gap (fun i b hb => ?_) fun b hb => ?_
    · rw [← h.arrived, ← hpushed]
      exact hr'.bytes i b hb
    · refine hr'.gap b ?_
      rwa [h.arrived, hpushed]
  exact ⟨hr.inv, hr'.inv, hr.toPushed.windowEnd ▸ h.window, by rw [hr'.peek, hr.peek, h.peek],
    by rw [hr'.popped, hr.popped, h.popped], by rw [hr'.capacity, hr.capacity, h.capacity],
    fun p b => by rw [hr'.stored, hr.stored, h.arrived, hpushed]⟩

theorem Alike.pop (h : Alike r r') (len : Nat) : Alike (r.pop len) (r'.pop len) where
  inv := h.inv.pop len
  inv' := h.inv'.pop len
  window := Nat.le_trans h.window (r.windowEnd_le_pop len)
  peek := by
    simp only [Reassembler.pop]
    rw [ByteStream.pop_peek h.inv.output, ByteStream.pop_peek h.inv'.output, h.peek]
  popped := by
    simp only [Reassembler.pop]
    rw [ByteStream.pop_bytesPopped, ByteStream.pop_bytesPopped, h.popped]
    unfold ByteStream.bytesBuffered
    rw [← h.inv.output.peek_length, ← h.inv'.output.peek_length, h.peek]
  capacity := h.capacity
  stored := h.stored

/-! ## Sessions -/

/-- The stream positions keep below `2 ^ 31`, but for inserts beyond the window. -/
def Low (s : Session) : Op → Prop
  | .insert firstIndex data _ => data.length < 2 ^ 63 ∧ s.reassembler.windowEnd ≤ 2 ^ 31 ∧
      (s.reassembler.windowEnd ≤ firstIndex ∨ firstIndex + data.length ≤ 2 ^ 31)
  | .pop _ => True

instance (s : Session) : ∀ op, Decidable (Low s op)
  | .insert .. => inferInstanceAs (Decidable (_ ∧ _ ∧ (_ ∨ _)))
  | .pop _ => .isTrue trivial

/-- The same, and the inserts are not empty. -/
def LowNonEmpty (s : Session) : Op → Prop
  | .insert firstIndex data isLast => Low s (.insert firstIndex data isLast) ∧ data ≠ []
  | .pop _ => True

/-- Nothing was pushed, nothing is pending that was not, and later inserts push the same. -/
def Inert (s s' : Session) : Prop :=
  s'.reassembler.bytesPushed = s.reassembler.bytesPushed ∧ s'.pushedBytes = s.pushedBytes ∧
    s'.reassembler.countBytesPending = s.reassembler.countBytesPending ∧
    ∀ ops, Machine.Allowed LowNonEmpty Session.step s ops → ∃ t t',
      Machine.exec Session.step s ops = .ok t ∧ Machine.exec Session.step s' ops = .ok t' ∧
      t'.reassembler.bytesPushed = t.reassembler.bytesPushed ∧ t'.pushedBytes = t.pushedBytes

variable {s s' t t' : Session} {op : Op}

theorem Low.exactEnds (h : Low s op) : ExactEnds s op := by
  cases op with
  | insert firstIndex data isLast =>
    obtain ⟨hn, hw, hbound⟩ := h
    exact ⟨hn, hbound.imp_right fun hle => .inr (intExact_of_le hw hle)⟩
  | pop len => trivial

/-- The states of such a run are in order. -/
theorem inv_of_low (hcap : 1 ≤ capacity) (h : (machine capacity).Reaches Low s)
    (hhi : s.reassembler.windowEnd ≤ 2 ^ 31) :
    s.reassembler.Inv ∧ 1 ≤ s.reassembler.windowEnd := by
  obtain ⟨hw, hinv⟩ := inv_of_exactEnds hcap (h.mono fun _ _ => Low.exactEnds)
  exact ⟨hinv (by omega), hw⟩

/-- An insert of such a run is the one specified. -/
theorem Inv.insert_low (h : r.Inv) (hw : 1 ≤ r.windowEnd) (hhi : r.windowEnd ≤ 2 ^ 31)
    (isLast : Bool) (hn : data.length < 2 ^ 63) (hph : ¬r.Phantom firstIndex data)
    (hbound : r.windowEnd ≤ firstIndex ∨ firstIndex + data.length ≤ 2 ^ 31) :
    ∃ d r', r.insert firstIndex data isLast = .ok r' ∧ Inserted r firstIndex data isLast d r' := by
  refine insert_spec isLast h hw (by omega) hn hph fun ho => endExact_of_le h hw hhi ?_
  have hin := mt (outsideWindow_iff h hw (by omega) hn).mpr (by rw [ho]; simp)
  omega

theorem Alike.step (h : Alike s.reassembler s'.reassembler) (hread : s'.read = s.read)
    (hop : LowNonEmpty s op) : ∃ t t', s.step op = .ok t ∧ s'.step op = .ok t' ∧
      Alike t.reassembler t'.reassembler ∧ t'.read = t.read := by
  cases op with
  | insert firstIndex data isLast =>
    obtain ⟨⟨hn, hhi, hbound⟩, hne⟩ := hop
    obtain ⟨d, r₁, hr₁, hins⟩ := h.inv.insert_low h.window hhi isLast hn (fun hph => hne hph.2.1)
      hbound
    rw [← h.windowEnd] at hbound hhi
    obtain ⟨d', r₁', hr₁', hins'⟩ := h.inv'.insert_low (h.windowEnd ▸ h.window) hhi isLast hn
      (fun hph => hne hph.2.1) hbound
    refine ⟨s.afterInsert firstIndex data isLast r₁, s'.afterInsert firstIndex data isLast r₁',
      ?_, ?_, h.inserted hins hins', hread⟩
    · simp [Session.step, hr₁]
    · simp [Session.step, hr₁']
  | pop len =>
    refine ⟨s.afterPop len, s'.afterPop len, rfl, rfl, h.pop len, ?_⟩
    unfold Session.afterPop
    simp only [hread, h.peek]

theorem Alike.pushedBytes (h : Alike s.reassembler s'.reassembler) (hread : s'.read = s.read) :
    s'.pushedBytes = s.pushedBytes := by
  unfold Session.pushedBytes
  rw [hread, h.peek]

theorem Alike.run (h : Alike s.reassembler s'.reassembler) (hread : s'.read = s.read)
    {ops : List Op} (hops : Machine.Allowed LowNonEmpty Session.step s ops) : ∃ t t',
      Machine.exec Session.step s ops = .ok t ∧ Machine.exec Session.step s' ops = .ok t' ∧
      Alike t.reassembler t'.reassembler ∧ t'.read = t.read := by
  induction ops generalizing s s' with
  | nil => exact ⟨s, s', rfl, rfl, h, hread⟩
  | cons op ops ih =>
    rw [Machine.Allowed] at hops
    obtain ⟨t, t', ht, ht', halike, hread'⟩ := h.step hread hops.1
    rw [ht] at hops
    obtain ⟨u, u', hu, hu', hlast⟩ := ih halike hread' hops.2
    refine ⟨u, u', ?_, ?_, hlast⟩
    · rw [Machine.exec, List.foldlM_cons, ht]
      exact hu
    · rw [Machine.exec, List.foldlM_cons, ht']
      exact hu'

theorem Alike.inert (h : Alike s.reassembler s'.reassembler) (hread : s'.read = s.read) :
    Inert s s' := by
  refine ⟨h.bytesPushed, h.pushedBytes hread, h.countBytesPending, fun ops hops => ?_⟩
  obtain ⟨t, t', ht, ht', halike, hread'⟩ := h.run hread hops
  exact ⟨t, t', ht, ht', halike.bytesPushed, halike.pushedBytes hread'⟩

/-! ## The empty insert -/

/-- The call that pushes what is stored from index `1` on. -/
def PushesPhantom (r : Reassembler) (firstIndex : Nat) : Prop :=
  firstIndex = 0 ∧ r.bytesPushed = 0 ∧ ∃ b, Stored r.cache.entries 1 b

theorem Inv.insert_empty (h : r.Inv) (hw : 1 ≤ r.windowEnd) (hhi : r.windowEnd ≤ 2 ^ 31)
    (isLast : Bool) (hno : ¬r.PushesPhantom firstIndex) :
    ∃ r', r.insert firstIndex [] isLast = .ok r' ∧ Alike r r' := by
  by_cases hph : r.Phantom firstIndex []
  · obtain ⟨rfl, -, h0⟩ := hph
    obtain ⟨d, r', hr', hins⟩ := insert_phantom_spec isLast h hw (by omega) h0
    have hd : d = [] := by
      cases d with
      | nil => rfl
      | cons b d => exact absurd ⟨rfl, h0, b, hins.bytes 0 b rfl⟩ hno
    subst hd
    refine ⟨r', hr', h, hins.inv, hw, by rw [hins.peek, List.append_nil], hins.popped,
      hins.capacity, fun p b => (hins.stored p b).trans (and_iff_left_of_imp fun hb => ?_)⟩
    have := (h.tiled.stored_bounds hb).1
    simp only [List.length_nil]
    omega
  · obtain ⟨d, r', hr', hins⟩ := h.insert_low hw hhi isLast (by simp) hph (by simp; omega)
    have harrived : ∀ p b, r.Arrived firstIndex [] p b ↔ Stored r.cache.entries p b := by
      intro p b
      refine or_iff_left ?_
      rintro ⟨-, -, -, hb⟩
      simp at hb
    have hd : d = [] := by
      cases d with
      | nil => rfl
      | cons b d => exact absurd ((harrived _ b).mp (hins.bytes 0 b rfl)) (h.free_next b)
    subst hd
    refine ⟨r', hr', h, hins.inv, hw, by rw [hins.peek, List.append_nil], hins.popped,
      hins.capacity, fun p b => ?_⟩
    rw [hins.stored, harrived]
    refine and_iff_left_of_imp fun hb => ?_
    have := (h.tiled.stored_bounds hb).1
    simp only [List.length_nil]
    omega

theorem Inv.insert_pushesPhantom (h : r.Inv) (hw : 1 ≤ r.windowEnd) (hhi : r.windowEnd ≤ 2 ^ 31)
    (hph : r.PushesPhantom firstIndex) (hr' : r.insert firstIndex [] isLast = .ok r') :
    r'.bytesPushed ≠ r.bytesPushed := by
  obtain ⟨rfl, h0, b, hb⟩ := hph
  obtain ⟨d, r'', hr'', hins⟩ := insert_phantom_spec isLast h hw (by omega) h0
  obtain rfl : r' = r'' := Except.ok.inj (hr'.symm.trans hr'')
  intro heq
  have hpushed := hins.pushed
  have hd : d.length = 0 := by omega
  have hgap := hins.gap
  rw [hd] at hgap
  exact hgap b hb

/-- In every state of a run below `2 ^ 31`, an empty insert is inert, unless it is at index `0` of
a stream without bytes that has one stored for index `1`. -/
theorem empty_inert_iff (hcap : 1 ≤ capacity) (h : (machine capacity).Reaches Low s)
    (hhi : s.reassembler.windowEnd ≤ 2 ^ 31) (firstIndex : Nat) (isLast : Bool) :
    (∃ s', s.step (.insert firstIndex [] isLast) = .ok s' ∧ Inert s s') ↔
      ¬s.reassembler.PushesPhantom firstIndex := by
  obtain ⟨hinv, hw⟩ := inv_of_low hcap h hhi
  constructor
  · rintro ⟨s', hstep, hinert⟩ hph
    obtain ⟨r', hr', rfl⟩ := Session.step_insert hstep
    exact hinv.insert_pushesPhantom hw hhi hph hr' hinert.1
  · intro hno
    obtain ⟨r', hr', halike⟩ := hinv.insert_empty hw hhi isLast hno
    refine ⟨s.afterInsert firstIndex [] isLast r', ?_, Alike.inert halike rfl⟩
    simp [Session.step, hr']

/-- A byte is stored for index `1`, and an empty substring comes at index `1` too. -/
theorem empty_inert_of_run : ∃ s s', (machine 4).Reaches Low s ∧
    s.step (.insert 1 [] true) = .ok s' ∧ Inert s s' := by
  obtain ⟨s, h, hw⟩ := Machine.exists_reaches Session.step (.new 4) Low
    (fun s => s.reassembler.windowEnd = 4) [.insert 1 [7] false] (by decide +kernel)
    (by decide +kernel)
  obtain ⟨s', hs', hinert⟩ := (empty_inert_iff (by decide) h (by rw [hw]; decide) 1 true).mpr
    fun hph => absurd hph.1 (by decide)
  exact ⟨s, s', h, hs', hinert⟩

/-- A byte is stored for index `1`, and an empty substring comes at index `0`: the byte is pushed
as the first one. -/
theorem empty_pushes : ∃ s s', (machine 4).Reaches Low s ∧ s.reassembler.windowEnd ≤ 2 ^ 31 ∧
    s.step (.insert 0 [] false) = .ok s' ∧ s.pushedBytes = [] ∧ s'.pushedBytes = [7] ∧
    ¬Inert s s' := by
  obtain ⟨s, h, hw, hpushed, hstep⟩ := Machine.exists_reaches Session.step (.new 4) Low
    (fun s => s.reassembler.windowEnd = 4 ∧ s.pushedBytes = [] ∧
      (s.step (.insert 0 [] false)).map Session.pushedBytes = .ok [7])
    [.insert 1 [7] false] (by decide +kernel) (by decide +kernel)
  obtain ⟨s', hs', hpushed'⟩ := map_ok hstep
  refine ⟨s, s', h, by rw [hw]; decide, hs', hpushed, hpushed', fun hinert => ?_⟩
  have hsame := hinert.2.1
  rw [hpushed, hpushed'] at hsame
  cases hsame

end Reassembler

end Minnow
