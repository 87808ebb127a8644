import Minnow.Reassembler.Insert

/-!
# Bytes in their place

`Placed` relates a reassembler to a stream that is still being written (`complete` says whether it
is finished): what is cached and what is pushed are the bytes that the stream has there, and only
the end of the complete stream is marked.

Inserts of bytes of the stream keep it (`Placed.insert_ok`), whatever their order, their overlaps
and their ends are. The one exception is the empty substring at index `0`, which may push bytes
that are not the first ones; it does no harm if nothing lies `Behind` it.
-/

namespace Minnow

namespace Reassembler

/-- The data is what the stream has at the index, and only the end of all of it is marked last. -/
structure Carries (stream : Bytes) (complete : Bool) (firstIndex : Nat) (data : Bytes)
    (isLast : Bool) : Prop where
  bytes : ∀ k b, data[k]? = some b → stream[firstIndex + k]? = some b
  stop_le : firstIndex + data.length ≤ stream.length
  last : isLast = true → complete = true ∧ firstIndex + data.length = stream.length

/-- The reassembler holds and has pushed bytes of the stream; `read` are those the reader has. -/
structure Placed (stream : Bytes) (complete : Bool) (r : Reassembler) (read : Bytes) : Prop where
  inv : r.Inv
  stored : ∀ p b, Stored r.cache.entries p b → stream[p]? = some b
  pushed : read ++ r.output.peek = stream.take r.bytesPushed
  pushed_le : r.bytesPushed ≤ stream.length
  finish : r.finish = true → complete = true ∧ r.finishSet = stream.length
  closed : r.output.closed = true → complete = true ∧ r.bytesPushed = stream.length

/-- An empty substring at index `0`, before the first byte, finds neither a byte cached at index `1`
nor the end marked there. -/
def Behind (r : Reassembler) : Prop :=
  (∀ x ∈ r.cache.entries, x.1 = 1 → x.2.2 = []) ∧ ¬(r.finish = true ∧ r.finishSet = 1)

instance (r : Reassembler) : Decidable r.Behind := by
  unfold Behind
  infer_instance

section

variable {stream stream' data read : Bytes} {complete complete' isLast : Bool}
  {r r' : Reassembler} {firstIndex : Nat} {d : Bytes}

theorem Placed.new {capacity : Nat} (h : capacity < 2 ^ 64) (stream : Bytes) (complete : Bool) :
    Placed stream complete { output := { capacity } } [] where
  inv := .new h
  stored := by
    rintro p b ⟨x, hx, -⟩
    simp [OrdMap.empty] at hx
  pushed := rfl
  pushed_le := Nat.zero_le _
  finish h := Bool.noConfusion h
  closed h := Bool.noConfusion h

theorem Placed.windowEnd_le (h : Placed stream complete r read) :
    r.windowEnd ≤ stream.length + r.output.capacity := by
  have hle := h.pushed_le
  have hpushed := h.inv.output.bytesPushed_eq
  unfold bytesPushed at hle
  unfold windowEnd
  omega

/-- The stream grows until it is complete. -/
theorem Placed.extend (h : Placed stream complete r read) (hs : stream <+: stream')
    (hc : complete = true → complete' = true ∧ stream' = stream) :
    Placed stream' complete' r read := by
  refine ⟨h.inv, fun p b hb => ?_, ?_, Nat.le_trans h.pushed_le hs.length_le, fun hf => ?_,
    fun hcl => ?_⟩
  · obtain ⟨t, rfl⟩ := hs
    have := h.stored p b hb
    rw [List.getElem?_append_left (List.getElem?_eq_some_iff.mp this).1]
    exact this
  · obtain ⟨t, rfl⟩ := hs
    rw [h.pushed, List.take_append_of_le_length h.pushed_le]
  · obtain ⟨h₁, h₂⟩ := h.finish hf
    obtain ⟨h₃, rfl⟩ := hc h₁
    exact ⟨h₃, h₂⟩
  · obtain ⟨h₁, h₂⟩ := h.closed hcl
    obtain ⟨h₃, rfl⟩ := hc h₁
    exact ⟨h₃, h₂⟩

/-- Bytes of the stream that follow what is pushed. -/
theorem Placed.append (h : Placed stream complete r read)
    (hd : ∀ i b, d[i]? = some b → stream[r.bytesPushed + i]? = some b) :
    (read ++ r.output.peek) ++ d = stream.take (r.bytesPushed + d.length) ∧
      r.bytesPushed + d.length ≤ stream.length := by
  have happ := take_append_eq hd
  have hlen := congrArg List.length happ
  have hle := h.pushed_le
  rw [List.length_append, List.length_take, List.length_take] at hlen
  rw [h.pushed]
  exact ⟨happ, by omega⟩

theorem Placed.insert (h : Placed stream complete r read)
    (hd : Carries stream complete firstIndex data isLast) (hlt : stream.length < 2 ^ 64)
    (hr : Inserted r firstIndex data isLast d r') : Placed stream complete r' read := by
  -- what has arrived is in its place
  have harr : ∀ p b, r.Arrived firstIndex data p b → stream[p]? = some b := by
    rintro p b (hb | ⟨-, hp, -, hb⟩)
    · exact h.stored p b hb
    · have := hd.bytes _ b hb
      rwa [show firstIndex + (p - firstIndex) = p by omega] at this
  obtain ⟨happ, hle⟩ := h.append fun i b hb => harr _ b (hr.bytes i b hb)
  have hpushed : r'.bytesPushed = r.bytesPushed + d.length := hr.pushed
  have hfinish : r'.finish = true → complete = true ∧ r'.finishSet = stream.length := by
    intro hf
    rw [hr.finishSet]
    split
    · rename_i hc
      obtain ⟨hcomplete, hstop⟩ := hd.last (Bool.and_eq_true_iff.mp hc).1
      rw [add64_of_lt (by omega)]
      exact ⟨hcomplete, hstop⟩
    · rename_i hc
      rw [hr.finish, Bool.eq_false_iff.mpr hc, Bool.or_false] at hf
      exact h.finish hf
  refine ⟨hr.inv, fun p b hb => harr p b ((hr.stored p b).mp hb).1, ?_, by omega, hfinish,
    fun hc => ?_⟩
  · rw [hr.peek, hpushed, ← List.append_assoc, happ]
  · rw [hr.closed, Bool.or_eq_true] at hc
    rcases hc with hc | hc
    · obtain ⟨hcomplete, hall⟩ := h.closed hc
      exact ⟨hcomplete, by omega⟩
    · simp only [Bool.and_eq_true, decide_eq_true_eq] at hc
      obtain ⟨⟨⟨-, hf⟩, -⟩, hge⟩ := hc
      obtain ⟨hcomplete, hset⟩ := hfinish hf
      exact ⟨hcomplete, by omega⟩

/-- The empty substring at index `0` pushes nothing if there is nothing behind it. -/
theorem Placed.phantom (h : Placed stream complete r read)
    (hd : Carries stream complete 0 [] isLast) (h0 : r.bytesPushed = 0) (hb : r.Behind)
    (hr : PhantomInserted r isLast d r') : Placed stream complete r' read := by
  obtain ⟨hone, hend⟩ := hb
  have hnil : d = [] := by
    by_contra hne
    obtain ⟨x, hx, hle, hbyte⟩ :=
      hr.bytes 0 _ (List.getElem?_eq_getElem (List.length_pos_iff.mpr hne))
    have := h.inv.tiled.lo_le x hx
    rw [hone x hx (by omega)] at hbyte
    simp at hbyte
  have hpushed : r'.bytesPushed = r.bytesPushed := by
    rw [hr.pushed, hnil]
    rfl
  have hfinish : r'.finish = true → complete = true ∧ r'.finishSet = stream.length := by
    intro hf
    rw [hr.finishSet]
    split
    · rename_i hl
      obtain ⟨hcomplete, hstop⟩ := hd.last hl
      exact ⟨hcomplete, hstop⟩
    · rename_i hl
      rw [hr.finish, Bool.eq_false_iff.mpr hl, Bool.or_false] at hf
      exact h.finish hf
  refine ⟨hr.inv, fun p b hb => h.stored p b ((hr.stored p b).mp hb).1, ?_, by
    rw [hpushed]; exact h.pushed_le, hfinish, fun hc => ?_⟩
  · rw [hr.peek, hpushed, hnil, List.append_nil]
    exact h.pushed
  · rw [hr.closed, Bool.or_eq_true] at hc
    rcases hc with hc | hc
    · rw [hpushed]
      exact h.closed hc
    · simp only [Bool.and_eq_true, decide_eq_true_eq, hnil, List.length_nil] at hc
      obtain ⟨⟨hf, -⟩, hge⟩ := hc
      obtain ⟨hcomplete, hset⟩ := hfinish hf
      refine ⟨hcomplete, ?_⟩
      -- the end is at `0`: at `1` it was not marked before
      rcases Nat.eq_zero_or_pos stream.length with hz | hpos
      · omega
      · have hl : isLast = false := Bool.eq_false_iff.mpr fun hl => by
          have := (hd.last hl).2
          simp only [List.length_nil] at this
          omega
        rw [hr.finish, hl, Bool.or_false] at hf
        rw [hr.finishSet, hl, if_neg Bool.false_ne_true] at hge hset
        exact absurd ⟨hf, by omega⟩ hend

theorem Placed.pop (h : Placed stream complete r read) (len : Nat) :
    Placed stream complete (r.pop len) (read ++ r.output.peek.take len) where
  inv := h.inv.pop len
  stored := h.stored
  pushed := by
    show _ ++ (r.output.pop len).peek = stream.take r.bytesPushed
    rw [ByteStream.pop_peek h.inv.output, List.append_assoc, List.take_append_drop]
    exact h.pushed
  pushed_le := h.pushed_le
  finish := h.finish
  closed := h.closed

/-- An insert of bytes of the stream returns and keeps them in their place. -/
theorem Placed.insert_ok (h : Placed stream complete r read)
    (hd : Carries stream complete firstIndex data isLast)
    (hroom : stream.length + r.output.capacity < 2 ^ 31) (hcap : 1 ≤ r.output.capacity)
    (hb : firstIndex = 0 → data = [] → r.bytesPushed = 0 → r.Behind) :
    ∃ r', r.insert firstIndex data isLast = .ok r' ∧ Placed stream complete r' read ∧
      r'.output.capacity = r.output.capacity ∧ r'.output.error = r.output.error ∧
      r.bytesPushed ≤ r'.bytesPushed ∧ (r.output.closed = true → r'.output.closed = true) := by
  have hwin := h.windowEnd_le
  have hstop := hd.stop_le
  have hpos : 1 ≤ r.windowEnd := Nat.le_trans hcap (Nat.le_add_left _ _)
  by_cases hph : r.Phantom firstIndex data
  · obtain ⟨rfl, rfl, h0⟩ := hph
    obtain ⟨d, r', hr', hins⟩ := insert_phantom_spec isLast h.inv hpos (by omega) h0
    exact ⟨r', hr', h.phantom hd h0 (hb rfl rfl h0) hins, hins.capacity, hins.error,
      (insert_kept hr').1.pushed_le, (insert_kept hr').1.closed⟩
  · obtain ⟨d, r', hr', hins⟩ := insert_spec isLast h.inv hpos (by omega) (by omega) hph fun _ =>
      endExact_of_le h.inv hpos (by omega) (by omega)
    exact ⟨r', hr', h.insert hd (by omega) hins, hins.capacity, hins.error,
      (insert_kept hr').1.pushed_le, (insert_kept hr').1.closed⟩

end

end Reassembler

end Minnow
