import Minnow.Reassembler.Runs

/-!
# The reassembler refines a set of positions

What a reassembler is for, said without its map: of the set `K` of positions that have arrived,
it has pushed the longest initial run, and it holds the others. `initialRun K` is that run's
length.

`Agrees` is the relation between a session and its stream: the bytes stored are those of the
stream at the covered positions that are not pushed yet. An insert of a piece of the stream keeps
it (`Agrees.insert`), so it holds along every run, and the three quantities of the source can be
read off the set (`refines_byteSet`).
-/

namespace Minnow

/-- The length of the longest initial run `[0, m)` that lies in `K`. -/
def initialRun (K : Finset Nat) : Nat := Nat.find (Infinite.exists_notMem_finset K)

theorem initialRun_eq {K : Finset Nat} {m : Nat} (hlt : ∀ p < m, p ∈ K) (hm : m ∉ K) :
    initialRun K = m :=
  (Nat.find_eq_iff _).mpr ⟨hm, fun p hp => not_not_intro (hlt p hp)⟩

namespace Reassembler

/-- The lengths of the segments of a list without overlaps count the positions it stores. -/
theorem sum_length_eq_card {lo hi : Nat} {l : List Segment} (ht : Tiled lo hi l) (hs : Sorted l)
    {F : Finset Nat} (hF : ∀ p, p ∈ F ↔ ∃ b, Stored l p b) :
    (l.map fun x => x.2.2.length).sum = F.card := by
  induction l generalizing F with
  | nil =>
    obtain rfl : F = ∅ := Finset.eq_empty_of_forall_notMem fun p hp => by
      obtain ⟨b, x, hx, -⟩ := (hF p).mp hp
      simp at hx
    rfl
  | cons x xs ih =>
    obtain ⟨hfirst, hsx⟩ := List.pairwise_cons.mp hs
    have hbehind : ∀ p, (∃ b, Stored xs p b) → stop x ≤ p := by
      rintro p ⟨b, hb⟩
      obtain ⟨y, hy, hle, -⟩ := hb.covers
      exact Nat.le_trans
        (ht.apart x List.mem_cons_self y (List.mem_cons_of_mem _ hy) (hfirst y hy)) hle
    have hcons : ∀ p, (∃ b, Stored (x :: xs) p b) ↔
        (x.1 ≤ p ∧ p < stop x) ∨ ∃ b, Stored xs p b := by
      intro p
      constructor
      · rintro ⟨b, y, hy, hle, hb⟩
        rcases List.mem_cons.mp hy with rfl | hy
        · have := (List.getElem?_eq_some_iff.mp hb).1
          exact .inl ⟨hle, by unfold stop; omega⟩
        · exact .inr ⟨b, y, hy, hle, hb⟩
      · rintro (⟨hle, hlt⟩ | ⟨b, y, hy, hle, hb⟩)
        · exact stored_of_covers List.mem_cons_self hle hlt
        · exact ⟨b, y, List.mem_cons_of_mem _ hy, hle, hb⟩
    -- the positions of the first segment, and those of the others
    have hxs := ih (ht.subset fun _ => List.mem_cons_of_mem _) hsx (F := F.filter (stop x ≤ ·))
      fun p => by
        rw [Finset.mem_filter, hF, hcons]
        refine ⟨fun ⟨hp, hle⟩ => hp.resolve_left fun h => by omega, fun hp =>
          ⟨.inr hp, hbehind p hp⟩⟩
    have hx : F.filter (¬ stop x ≤ ·) = Finset.Ico x.1 (stop x) := by
      ext p
      rw [Finset.mem_filter, hF, hcons, Finset.mem_Ico, Nat.not_le]
      refine ⟨fun ⟨hp, hlt⟩ => hp.resolve_right fun h => ?_, fun hp => ⟨.inl hp, hp.2⟩⟩
      exact absurd (hbehind p h) (by omega)
    rw [List.map_cons, List.sum_cons, hxs, ← Finset.card_filter_add_card_filter_not
      (s := F) (fun p => stop x ≤ p), hx, Nat.card_Ico]
    unfold stop
    omega

/-- The session has the bytes of `stream` at the covered positions, and pushed the first ones. -/
structure Agrees (stream : Bytes) (s : Session) : Prop where
  inv : s.reassembler.Inv
  window : 1 ≤ s.reassembler.windowEnd
  covered_lt : ∀ p ∈ s.covered, p < stream.length
  prefix_covered : ∀ p < s.reassembler.bytesPushed, p ∈ s.covered
  stored : ∀ p b, Stored s.reassembler.cache.entries p b ↔
    p ∈ s.covered ∧ s.reassembler.bytesPushed ≤ p ∧ stream[p]? = some b
  pushed : s.pushedBytes = stream.take s.reassembler.bytesPushed

section

variable {stream data : Bytes} {firstIndex capacity : Nat} {isLast : Bool} {s : Session}

theorem Agrees.new (hcap : 1 ≤ capacity) (hlt : capacity < 2 ^ 64) :
    Agrees stream (.new capacity) where
  inv := .new hlt
  window := by
    show 1 ≤ 0 + capacity
    omega
  covered_lt p hp := absurd hp (Finset.notMem_empty p)
  prefix_covered p hp := absurd hp (Nat.not_lt_zero p)
  stored p b := by
    refine ⟨?_, fun h => absurd h.1 (Finset.notMem_empty p)⟩
    rintro ⟨x, hx, -⟩
    exact absurd hx List.not_mem_nil
  pushed := rfl

theorem Agrees.pop (h : Agrees stream s) (len : Nat) : Agrees stream (s.afterPop len) where
  inv := h.inv.pop len
  window := Nat.le_trans h.window (afterPop_windowEnd_le s len)
  covered_lt := h.covered_lt
  prefix_covered := h.prefix_covered
  stored := h.stored
  pushed := (afterPop_pushedBytes h.inv len).trans h.pushed

/-- What has arrived at the end of an insert: the bytes of the stream at the covered positions. -/
theorem Agrees.arrived_iff (h : Agrees stream s) (hd : Piece stream firstIndex data isLast)
    (p : Nat) (b : UInt8) :
    s.reassembler.Arrived firstIndex data p b ↔
      p ∈ s.covered ∪
          Finset.Ico firstIndex (min (firstIndex + data.length) s.reassembler.windowEnd) ∧
        s.reassembler.bytesPushed ≤ p ∧ stream[p]? = some b := by
  rw [Finset.mem_union, Finset.mem_Ico]
  constructor
  · rintro (hb | ⟨-, hle, hlt, hb⟩)
    · obtain ⟨hk, hp, hb⟩ := (h.stored p b).mp hb
      exact ⟨.inl hk, hp, hb⟩
    · obtain ⟨hn, hb⟩ := (hd.getElem? (by omega)).mp hb
      exact ⟨.inr (by omega), by omega, hb⟩
  · rintro ⟨hk, hp, hb⟩
    by_cases hf : Free s.reassembler.cache.entries p
    · rcases hk with hk | hk
      · exact absurd ((h.stored p b).mpr ⟨hk, hp, hb⟩) (hf b)
      · exact .inr ⟨hf, by omega, by omega, (hd.getElem? hk.1).mpr ⟨by omega, hb⟩⟩
    · -- what is stored already is the stream's byte too
      obtain ⟨b', hb'⟩ := not_forall_not.mp hf
      have he := ((h.stored p b').mp hb').2.2
      rw [hb] at he
      exact .inl (Option.some.inj he ▸ hb')

/-- An insert of a piece of the stream keeps the agreement. -/
theorem Agrees.insert (h : Agrees stream s) (hd : Piece stream firstIndex data isLast) {d : Bytes}
    {r' : Reassembler} (hr : Inserted s.reassembler firstIndex data isLast d r') :
    Agrees stream (s.afterInsert firstIndex data isLast r') := by
  have harr := h.arrived_iff hd
  have hpushed : r'.bytesPushed = s.reassembler.bytesPushed + d.length := hr.pushed
  refine ⟨hr.inv, ?_, ?_, ?_, ?_, ?_⟩
  · show 1 ≤ r'.windowEnd
    rw [hr.toPushed.windowEnd]
    exact h.window
  · intro p hp
    have := hd.le
    rcases Finset.mem_union.mp hp with hp | hp
    · exact h.covered_lt p hp
    · have := Finset.mem_Ico.mp hp
      omega
  · intro p hp
    replace hp : p < s.reassembler.bytesPushed + d.length := hpushed ▸ hp
    by_cases hlt : p < s.reassembler.bytesPushed
    · exact Finset.mem_union_left _ (h.prefix_covered p hlt)
    · have hb := hr.bytes (p - s.reassembler.bytesPushed) _
        (List.getElem?_eq_getElem (show _ < d.length by omega))
      rw [show s.reassembler.bytesPushed + (p - s.reassembler.bytesPushed) = p by omega] at hb
      exact ((harr p _).mp hb).1
  · intro p b
    show Stored r'.cache.entries p b ↔ _ ∧ r'.bytesPushed ≤ p ∧ _
    rw [hr.stored, harr, hpushed]
    exact ⟨fun ⟨⟨hk, _, hb⟩, hp⟩ => ⟨hk, hp, hb⟩, fun ⟨hk, hp, hb⟩ => ⟨⟨hk, by omega, hb⟩, hp⟩⟩
  · show s.read ++ r'.output.peek = _
    have hold : s.read ++ s.reassembler.output.peek = _ := h.pushed
    rw [hr.peek, ← List.append_assoc, hold, show (s.afterInsert firstIndex data isLast
      r').reassembler.bytesPushed = _ from hpushed]
    exact take_append_eq fun i b hb => ((harr _ _).mp (hr.bytes i b hb)).2.2

/-- The window and the piece end at or below `2 ^ 31`, so the insert is the one specified. -/
theorem Agrees.insert_ok (isLast : Bool) (h : Agrees stream s)
    (hhi : s.reassembler.windowEnd ≤ 2 ^ 31) (hs : firstIndex + data.length ≤ 2 ^ 31)
    (hph : ¬ s.reassembler.Phantom firstIndex data) :
    ∃ d r', s.reassembler.insert firstIndex data isLast = .ok r' ∧
      Inserted s.reassembler firstIndex data isLast d r' :=
  insert_spec isLast h.inv h.window (by omega) (by omega) hph fun _ =>
    endExact_of_le h.inv h.window hhi hs

/-- The inserts are non-empty pieces of `stream`. -/
def FromStreamNonEmpty (stream : Bytes) (s : Session) : Op → Prop
  | .insert firstIndex data isLast =>
    FromStream stream s (.insert firstIndex data isLast) ∧ data ≠ []
  | .pop _ => True

instance (stream : Bytes) (s : Session) : ∀ op, Decidable (FromStreamNonEmpty stream s op)
  | .insert .. => inferInstanceAs (Decidable (_ ∧ _))
  | .pop _ => .isTrue trivial

theorem Agrees.step {s s' : Session} {op : Op} (h : Agrees stream s)
    (hok : FromStreamNonEmpty stream s op) (hst : s.step op = .ok s') :
    Agrees stream s' := by
  cases op with
  | insert firstIndex data isLast =>
    obtain ⟨r', hr', rfl⟩ := Session.step_insert hst
    obtain ⟨⟨hd, hs, hhi⟩, hne⟩ := hok
    obtain ⟨d, r'', hr'', hins⟩ := h.insert_ok isLast hhi hs fun hph => hne hph.2.1
    obtain rfl : r' = r'' := Except.ok.inj (hr'.symm.trans hr'')
    exact h.insert hd hins
  | pop len =>
    obtain rfl : s.afterPop len = s' := Except.ok.inj hst
    exact h.pop len

/-- The three quantities of the source, read off the set of covered positions. -/
theorem Agrees.counts (h : Agrees stream s) :
    s.reassembler.bytesPushed = initialRun s.covered ∧
      s.pushedBytes = stream.take (initialRun s.covered) ∧
      s.reassembler.countBytesPending =
        (s.covered.filter (initialRun s.covered ≤ ·)).card := by
  have hrun : initialRun s.covered = s.reassembler.bytesPushed := by
    refine initialRun_eq h.prefix_covered fun hm => ?_
    have hlt := h.covered_lt _ hm
    exact h.inv.free_next _
      ((h.stored _ _).mpr ⟨hm, Nat.le_refl _, List.getElem?_eq_getElem hlt⟩)
  rw [hrun]
  refine ⟨rfl, h.pushed, sum_length_eq_card h.inv.tiled s.reassembler.cache.sorted fun p => ?_⟩
  rw [Finset.mem_filter]
  constructor
  · rintro ⟨hk, hp⟩
    exact ⟨_, (h.stored p _).mpr ⟨hk, hp, List.getElem?_eq_getElem (h.covered_lt p hk)⟩⟩
  · rintro ⟨b, hb⟩
    obtain ⟨hk, hp, -⟩ := (h.stored p b).mp hb
    exact ⟨hk, hp⟩

/-- In every run of inserts of non-empty pieces of a stream and of pops: the bytes pushed are the
longest initial run of the covered positions, with the stream's bytes; the bytes pending are the
other covered positions; and the next such insert returns. -/
theorem refines_byteSet (stream : Bytes) (capacity : Nat) (hcap : 1 ≤ capacity)
    (hhi : capacity ≤ 2 ^ 31) (s : Session)
    (h : (machine capacity).Reaches (FromStreamNonEmpty stream) s) :
    s.reassembler.bytesPushed = initialRun s.covered ∧
      s.pushedBytes = stream.take (initialRun s.covered) ∧
      s.reassembler.countBytesPending =
        (s.covered.filter (initialRun s.covered ≤ ·)).card ∧
      ∀ firstIndex data isLast,
        FromStreamNonEmpty stream s (.insert firstIndex data isLast) →
        ∃ r', s.reassembler.insert firstIndex data isLast = .ok r' := by
  have hag : Agrees stream s :=
    h.invariant_det (.new hcap (by omega)) fun _ _ _ hs hok hst => hs.step hok hst
  obtain ⟨hpushed, hbytes, hpending⟩ := hag.counts
  refine ⟨hpushed, hbytes, hpending, fun firstIndex data isLast hok => ?_⟩
  obtain ⟨⟨-, hs, hw⟩, hne⟩ := hok
  obtain ⟨d, r', hr', -⟩ := hag.insert_ok isLast hw hs fun hph => hne hph.2.1
  exact ⟨r', hr'⟩

/-- Overlapping pieces of a stream of four bytes, the first of them cut by the window. -/
theorem refines_byteSet_overlap : ∃ s,
    (machine 3).Reaches (FromStreamNonEmpty [10, 11, 12, 13]) s ∧ s.covered = {0, 1, 2, 3} ∧
      s.pushedBytes = [10, 11, 12, 13] := by
  obtain ⟨s, h, hs⟩ := Machine.exists_reaches Session.step (.new 3)
    (FromStreamNonEmpty [10, 11, 12, 13]) (fun s => s.covered = {0, 1, 2, 3})
    [.insert 1 [11, 12, 13] true, .insert 0 [10, 11] false, .pop 1, .insert 2 [12, 13] true]
    (by decide +kernel) (by decide +kernel)
  obtain ⟨-, hbytes, -⟩ := refines_byteSet [10, 11, 12, 13] 3 (by decide) (by decide) s h
  have hrun : initialRun s.covered = 4 := by
    rw [hs]
    exact initialRun_eq (by decide) (by decide)
  exact ⟨s, h, hs, by rw [hbytes, hrun]; rfl⟩

end

end Reassembler

end Minnow
