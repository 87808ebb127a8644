import Minnow.Reassembler.Basic

/-!
# The cached segments

`Tiled lo hi l`: the segments of `l` lie in `[lo, hi)`, each has as many bytes as its two indices
say, and none reaches into a later one. An empty segment is allowed (its last index is one below
its first): an empty substring that arrives in front of cached data leaves one.

`Stored l p b` is the abstract view of such a list: byte `b` is stored for stream index `p`. The
map of the source is only its representation, and the two loops of `insert` are specified by what
they do to it:

* `absorb_spec`: storing a substring keeps what is stored and adds the bytes of the substring at
  the indices where nothing is;
* `popReady_spec`: popping takes exactly the run of stored bytes from the next expected index to
  the first index where nothing is stored.

`Overlaid` is a round of the insertion loop in any state, also in one whose map is in disorder.
-/

namespace Minnow

namespace Reassembler

/-- The index after a segment. -/
def stop (x : Segment) : Nat := x.1 + x.2.2.length

/-- Segments with increasing first indices. -/
abbrev Sorted (l : List Segment) : Prop := l.Pairwise (fun x y => x.1 < y.1)

/-- The segments lie in `[lo, hi)` and do not overlap. -/
structure Tiled (lo hi : Nat) (l : List Segment) : Prop where
  lo_le : ∀ x ∈ l, lo ≤ x.1
  last : ∀ x ∈ l, stop x = x.2.1 + 1
  stop_le : ∀ x ∈ l, stop x ≤ hi
  apart : ∀ x ∈ l, ∀ y ∈ l, x.1 < y.1 → stop x ≤ y.1

/-- The list stores byte `b` for index `p`. -/
def Stored (l : List Segment) (p : Nat) (b : UInt8) : Prop :=
  ∃ x ∈ l, x.1 ≤ p ∧ x.2.2[p - x.1]? = some b

/-- The list stores nothing for index `p`. -/
def Free (l : List Segment) (p : Nat) : Prop := ∀ b, ¬ Stored l p b

theorem le_stop (x : Segment) : x.1 ≤ stop x := Nat.le_add_right _ _

theorem Stored.covers {l : List Segment} {p : Nat} {b : UInt8} (h : Stored l p b) :
    ∃ x ∈ l, x.1 ≤ p ∧ p < stop x := by
  obtain ⟨x, hx, hle, hb⟩ := h
  obtain ⟨hlt, -⟩ := List.getElem?_eq_some_iff.mp hb
  exact ⟨x, hx, hle, by unfold stop; omega⟩

theorem stored_of_covers {l : List Segment} {p : Nat} {x : Segment} (hx : x ∈ l) (hle : x.1 ≤ p)
    (hlt : p < stop x) : ∃ b, Stored l p b := by
  unfold stop at hlt
  exact ⟨x.2.2[p - x.1], x, hx, hle, List.getElem?_eq_getElem (by omega)⟩

theorem not_free_of_covers {l : List Segment} {p : Nat} {x : Segment} (hx : x ∈ l) (hle : x.1 ≤ p)
    (hlt : p < stop x) : ¬ Free l p := by
  obtain ⟨b, hb⟩ := stored_of_covers hx hle hlt
  exact fun hf => hf b hb

section Tiled

variable {lo hi : Nat} {l : List Segment}

theorem Tiled.nil : Tiled lo hi [] :=
  ⟨fun _ h => (List.not_mem_nil h).elim, fun _ h => (List.not_mem_nil h).elim,
    fun _ h => (List.not_mem_nil h).elim, fun _ h => (List.not_mem_nil h).elim⟩

theorem Tiled.subset {l' : List Segment} (h : Tiled lo hi l) (hs : ∀ x ∈ l', x ∈ l) :
    Tiled lo hi l' :=
  ⟨fun x hx => h.lo_le x (hs x hx), fun x hx => h.last x (hs x hx),
    fun x hx => h.stop_le x (hs x hx), fun x hx y hy => h.apart x (hs x hx) y (hs y hy)⟩

theorem Tiled.mono_lo {lo' : Nat} (h : Tiled lo hi l) (hlo : ∀ x ∈ l, lo' ≤ x.1) :
    Tiled lo' hi l :=
  ⟨hlo, h.last, h.stop_le, h.apart⟩

theorem Tiled.mono_hi {hi' : Nat} (h : Tiled lo hi l) (hle : hi ≤ hi') : Tiled lo hi' l :=
  ⟨h.lo_le, h.last, fun x hx => Nat.le_trans (h.stop_le x hx) hle, h.apart⟩

theorem Tiled.stored_bounds (h : Tiled lo hi l) {p : Nat} {b : UInt8} (hb : Stored l p b) :
    lo ≤ p ∧ p < hi := by
  obtain ⟨x, hx, hle, hlt⟩ := hb.covers
  exact ⟨Nat.le_trans (h.lo_le x hx) hle, Nat.lt_of_lt_of_le hlt (h.stop_le x hx)⟩

/-- One index is stored by one segment only. -/
theorem Tiled.covers_inj (h : Tiled lo hi l) (hs : Sorted l) {p : Nat} {x y : Segment}
    (hx : x ∈ l) (hy : y ∈ l) (hxp : x.1 ≤ p ∧ p < stop x) (hyp : y.1 ≤ p ∧ p < stop y) :
    x = y := by
  rcases Nat.lt_trichotomy x.1 y.1 with hlt | heq | hgt
  · have := h.apart x hx y hy hlt
    omega
  · exact OrdMap.eq_of_key_eq hs hx hy heq
  · have := h.apart y hy x hx hgt
    omega

/-- What is stored for an index is one byte. -/
theorem Tiled.stored_inj (h : Tiled lo hi l) (hs : Sorted l) {p : Nat} {b b' : UInt8}
    (hb : Stored l p b) (hb' : Stored l p b') : b = b' := by
  obtain ⟨x, hx, hxp, hxb⟩ := hb
  obtain ⟨y, hy, hyp, hyb⟩ := hb'
  have hxl := (List.getElem?_eq_some_iff.mp hxb).1
  have hyl := (List.getElem?_eq_some_iff.mp hyb).1
  have he := h.covers_inj hs hx hy ⟨hxp, by unfold stop; omega⟩ ⟨hyp, by unfold stop; omega⟩
  subst he
  exact Option.some.inj (hxb.symm.trans hyb)

/-- The last segment ends last. -/
theorem Tiled.last_le {m : Cache} (h : Tiled lo hi m.entries) {x y : Segment}
    (hx : x ∈ m.entries) (hy : m.last? = some y) : x.2.1 ≤ y.2.1 := by
  rcases OrdMap.key_lt_last hy hx with rfl | hlt
  · exact Nat.le_refl _
  · have hym := OrdMap.last?_mem hy
    have := h.apart x hx y hym hlt
    have := h.last x hx
    have := h.last y hym
    have := le_stop y
    omega

/-- Storing a segment at `k` in a map whose other segments end before it or start after it. An
empty segment that sits at `k` already is replaced. -/
theorem Tiled.set {m : Cache} (h : Tiled lo hi m.entries) {k e : Nat} {t : Bytes} (hlo : lo ≤ k)
    (hlen : k + t.length = e + 1) (hhi : k + t.length ≤ hi)
    (hsep : ∀ x ∈ m.entries, stop x ≤ k ∨ k < x.1 ∧ k + t.length ≤ x.1) :
    Tiled lo hi (m.set k (e, t)).entries := by
  refine ⟨?_, ?_, ?_, ?_⟩
  · intro x hx
    rcases (OrdMap.mem_set m k (e, t) x).mp hx with rfl | ⟨hx, -⟩
    · exact hlo
    · exact h.lo_le x hx
  · intro x hx
    rcases (OrdMap.mem_set m k (e, t) x).mp hx with rfl | ⟨hx, -⟩
    · exact hlen
    · exact h.last x hx
  · intro x hx
    rcases (OrdMap.mem_set m k (e, t) x).mp hx with rfl | ⟨hx, -⟩
    · exact hhi
    · exact h.stop_le x hx
  · intro x hx y hy hlt
    rcases (OrdMap.mem_set m k (e, t) x).mp hx with rfl | ⟨hx, -⟩
    · rcases (OrdMap.mem_set m k (e, t) y).mp hy with rfl | ⟨hy, -⟩
      · exact absurd hlt (Nat.lt_irrefl _)
      · have hy' := hsep y hy
        have := le_stop y
        simp only [stop] at *
        omega
    · rcases (OrdMap.mem_set m k (e, t) y).mp hy with rfl | ⟨hy, -⟩
      · have hx' := hsep x hx
        have := le_stop x
        simp only at hlt ⊢
        omega
      · exact h.apart x hx y hy hlt

theorem Tiled.stored_set {m : Cache} {k e : Nat} {t : Bytes}
    (hsep : ∀ x ∈ m.entries, stop x ≤ k ∨ k < x.1 ∧ k + t.length ≤ x.1) (p : Nat) (b : UInt8) :
    Stored (m.set k (e, t)).entries p b ↔
      Stored m.entries p b ∨ k ≤ p ∧ t[p - k]? = some b := by
  constructor
  · rintro ⟨x, hx, hle, hb⟩
    rcases (OrdMap.mem_set m k (e, t) x).mp hx with rfl | ⟨hx, -⟩
    · exact .inr ⟨hle, hb⟩
    · exact .inl ⟨x, hx, hle, hb⟩
  · rintro (⟨x, hx, hle, hb⟩ | ⟨hle, hb⟩)
    · refine ⟨x, (OrdMap.mem_set m k (e, t) x).mpr (.inr ⟨hx, fun hk => ?_⟩), hle, hb⟩
      -- a segment at `k` itself is empty, so it stores nothing
      have hlt := (List.getElem?_eq_some_iff.mp hb).1
      have hx' := hsep x hx
      simp only [stop] at hx'
      omega
    · exact ⟨(k, e, t), (OrdMap.mem_set m k (e, t) _).mpr (.inl rfl), hle, hb⟩

end Tiled

/-! ## The insertion loop -/

/-- What a round of the loop does at an entry `(s, e, _)`, when it does not throw. -/
inductive Overlaid (L s e : Nat) (c : Cursor) : Cursor → Prop where
  | gap (t : Bytes) : c.writeIndex < s → L < s → c.trimmedData.string = .ok t →
      Overlaid L s e c { c with cache := c.cache.set c.writeIndex (L, t) }
  | fill (head : Bytes) : c.writeIndex < s → s ≤ L →
      Overlaid L s e c { c with cache := c.cache.set c.writeIndex (sub64 s 1, head) }
  | fillOn (head : Bytes) (tail : StringView UInt8) : c.writeIndex < s → max s (add64 e 1) ≤ L →
      c.trimmedData.substr (sub64 (max s (add64 e 1)) c.writeIndex)
        (add64 (sub64 L (max s (add64 e 1))) 1) = .ok tail →
      Overlaid L s e c
        ⟨c.cache.set c.writeIndex (sub64 s 1, head), max s (add64 e 1), tail⟩
  | covered : s ≤ c.writeIndex → Overlaid L s e c c
  | behind (tail : StringView UInt8) : s ≤ c.writeIndex → e < L →
      c.trimmedData.substr (sub64 (max (add64 e 1) c.writeIndex) c.writeIndex)
        (add64 (sub64 L s) 1) = .ok tail →
      Overlaid L s e c ⟨c.cache, max (add64 e 1) c.writeIndex, tail⟩

/-- The loop takes a round, and stops after it or goes on. -/
theorem overlay_cons_ok {L s e : Nat} {bytes : Bytes} {rest : List Segment} {c c' : Cursor}
    (hs : s < 2 ^ 64) (h : overlay L ((s, e, bytes) :: rest) c = .ok c') :
    ∃ c₁, Overlaid L s e c c₁ ∧ (c' = c₁ ∨ overlay L rest c₁ = .ok c') := by
  unfold overlay at h
  dsimp only at h
  split at h
  · rename_i hws
    have hgap : add64 c.writeIndex (sub64 s c.writeIndex) = s := by
      rw [sub64_of_le (Nat.le_of_lt hws) hs, add64_of_lt (by omega)]
      omega
    rw [hgap] at h
    split at h
    · rename_i hL
      obtain ⟨t, ht, h⟩ := bind_ok h
      obtain rfl := Except.ok.inj h
      exact ⟨_, .gap t hws hL ht, .inl rfl⟩
    · rename_i hL
      obtain ⟨view, -, h⟩ := bind_ok h
      obtain ⟨head, -, h⟩ := bind_ok h
      split at h
      · obtain rfl := Except.ok.inj h
        exact ⟨_, .fill head hws (Nat.le_of_not_lt hL), .inl rfl⟩
      · rename_i hend
        obtain ⟨tail, htail, h⟩ := bind_ok h
        exact ⟨_, .fillOn head tail hws (Nat.le_of_not_lt hend) htail, .inr h⟩
  · rename_i hws
    split at h
    · obtain rfl := Except.ok.inj h
      exact ⟨_, .covered (Nat.le_of_not_lt hws), .inl rfl⟩
    · rename_i he
      obtain ⟨tail, htail, h⟩ := bind_ok h
      refine ⟨_, .behind tail (Nat.le_of_not_lt hws) (Nat.lt_of_not_le he) htail, ?_⟩
      split at h
      · exact .inl (Except.ok.inj h).symm
      · exact .inr h

/-- The statement after the loop stores the bytes behind the last segment, or nothing. -/
theorem appendTail_ok {L : Nat} {c : Cursor} {m : Cache} (h : appendTail L c = .ok m) :
    m = c.cache ∨ ∃ y tail, c.cache.last? = some y ∧ y.2.1 < L ∧ c.trimmedData.length ≠ 0 ∧
      m = c.cache.set (max c.writeIndex (add64 y.2.1 1)) (L, tail) := by
  unfold appendTail at h
  split at h
  · exact .inl (Except.ok.inj h).symm
  · rename_i k e bytes hlast
    split at h
    · rename_i hcond
      simp only [StringView.isEmpty, Bool.and_eq_true, decide_eq_true_eq, Bool.not_eq_true',
        beq_eq_false_iff_ne] at hcond
      obtain ⟨view, -, h⟩ := bind_ok h
      obtain ⟨tail, -, h⟩ := bind_ok h
      exact .inr ⟨_, tail, hlast, hcond.1, hcond.2, (Except.ok.inj h).symm⟩
    · exact .inl (Except.ok.inj h).symm

/-- The state of the insertion loop with the entries `rest` still to come: every other segment
ends at or before `writeIndex`, and `trimmedData` is what is left of the data up to index `L`, a
view inside its memory. -/
structure CursorOK (lo hi L : Nat) (rest : List Segment) (c : Cursor) : Prop where
  tiled : Tiled lo hi c.cache.entries
  rest_mem : ∀ x ∈ rest, x ∈ c.cache.entries
  rest_sorted : Sorted rest
  behind : ∀ x ∈ c.cache.entries, x ∈ rest ∨ stop x ≤ c.writeIndex
  lo_le : lo ≤ c.writeIndex
  inside : c.trimmedData.Inside
  length : c.writeIndex + c.trimmedData.length = L + 1
  le_last : c.writeIndex ≤ L
  last_lt : L < hi
  hi_lt : hi < 2 ^ 63

theorem CursorOK.length_toList {lo hi L : Nat} {rest : List Segment} {c : Cursor}
    (hc : CursorOK lo hi L rest c) : c.writeIndex + c.trimmedData.toList.length = L + 1 := by
  rw [hc.inside.length_toList]
  exact hc.length

/-- The new content: what was stored, and the rest of the data where nothing was. -/
def Absorbs (c : Cursor) (m : Cache) : Prop :=
  ∀ p b, Stored m.entries p b ↔ Stored c.cache.entries p b ∨
    Free c.cache.entries p ∧ c.writeIndex ≤ p ∧ c.trimmedData.toList[p - c.writeIndex]? = some b

theorem appendTail_skip {L : Nat} {c : Cursor}
    (h : ∀ y, c.cache.last? = some y → L ≤ y.2.1) : appendTail L c = .ok c.cache := by
  unfold appendTail
  cases hl : c.cache.last? with
  | none => rfl
  | some y =>
    have hle := h y hl
    simp only [show decide (L > y.2.1) = false from decide_eq_false (by omega), Bool.false_and,
      Bool.false_eq_true, ↓reduceIte]

/-- Without bytes left, nothing is appended. -/
theorem appendTail_nil (L : Nat) {c : Cursor} (h : c.trimmedData.length = 0) :
    appendTail L c = .ok c.cache := by
  unfold appendTail
  cases c.cache.last? with
  | none => rfl
  | some y => simp [StringView.isEmpty, h]

/-- If a segment of the map reaches the last index, nothing is appended behind the map. -/
theorem appendTail_of_mem {lo hi L : Nat} {c : Cursor} (ht : Tiled lo hi c.cache.entries)
    {x : Segment} (hx : x ∈ c.cache.entries) (h : L ≤ x.2.1) :
    appendTail L c = .ok c.cache :=
  appendTail_skip fun _ hy => Nat.le_trans h (ht.last_le hx hy)

section Overlay

variable {lo hi L : Nat} {rest : List Segment} {c : Cursor} {s e : Nat} {bytes : Bytes}

/-- Bytes of the data under a segment that is already there add nothing. -/
theorem Absorbs.of_covered (hc : CursorOK lo hi L rest c) {x : Segment}
    (hx : x ∈ c.cache.entries) (hle : x.1 ≤ c.writeIndex) (hL : L ≤ x.2.1) :
    Absorbs c c.cache := by
  intro p b
  refine ⟨.inl, ?_⟩
  rintro (h | ⟨hf, hp, hb⟩)
  · exact h
  · have hlt := (List.getElem?_eq_some_iff.mp hb).1
    have := hc.length_toList
    have := hc.tiled.last x hx
    exact absurd hf (not_free_of_covers hx (by omega) (by omega))

/-- The end of the loop: the data lies behind every segment. -/
theorem overlay_nil_spec (hc : CursorOK lo hi L [] c) (hne : c.cache.entries ≠ []) :
    ∃ m, appendTail L c = .ok m ∧ Tiled lo hi m.entries ∧ Absorbs c m := by
  have hlen := hc.length
  have hbytes := hc.length_toList
  have hle := hc.le_last
  have hhi := hc.hi_lt
  have hlast := hc.last_lt
  have hback : ∀ x ∈ c.cache.entries, stop x ≤ c.writeIndex := fun x hx =>
    (hc.behind x hx).resolve_left (List.not_mem_nil)
  have hsep : ∀ x ∈ c.cache.entries, stop x ≤ c.writeIndex ∨
      c.writeIndex < x.1 ∧ c.writeIndex + c.trimmedData.toList.length ≤ x.1 :=
    fun x hx => .inl (hback x hx)
  obtain ⟨y, hy⟩ := OrdMap.last?_isSome hne
  have hym := OrdMap.last?_mem hy
  have hyl := hc.tiled.last y hym
  have hyw := hback y hym
  have hnil : c.trimmedData.isEmpty = false := by
    unfold StringView.isEmpty
    rw [beq_eq_false_iff_ne]
    omega
  refine ⟨c.cache.set c.writeIndex (L, c.trimmedData.toList), ?_,
    hc.tiled.set hc.lo_le hbytes (by omega) hsep, fun p b => ?_⟩
  · unfold appendTail
    have hmax : max c.writeIndex (add64 y.2.1 1) = c.writeIndex := by
      rw [add64_of_lt (by omega)]
      omega
    simp only [hy, hnil, hmax, show L > y.2.1 by omega, decide_true, Bool.not_false, Bool.and_self,
      ↓reduceIte]
    rw [sub64_of_le (Nat.le_refl _) (by omega), sub64_of_le hle (by omega),
      add64_of_lt (by omega), StringView.substr_drop (by omega) (by omega), Nat.sub_self,
      StringView.drop_zero]
    dsimp only [bind, Except.bind]
    rw [hc.inside.string]
    rfl
  · rw [Tiled.stored_set hsep]
    refine or_congr_right ⟨fun ⟨hp, hb⟩ => ⟨?_, hp, hb⟩, fun ⟨_, hp, hb⟩ => ⟨hp, hb⟩⟩
    intro b' hb'
    obtain ⟨x, hx, -, hlt⟩ := hb'.covers
    have := hback x hx
    omega

/-- What the loop does not visit ends before the data or starts after the segment under the
iterator. -/
theorem CursorOK.outside (hc : CursorOK lo hi L ((s, e, bytes) :: rest) c) {x : Segment}
    (hx : x ∈ c.cache.entries) : stop x ≤ c.writeIndex ∨ s ≤ x.1 := by
  rcases hc.behind x hx with hx | hx
  · rcases List.mem_cons.mp hx with rfl | hx
    · exact .inr (Nat.le_refl _)
    · exact .inr (Nat.le_of_lt ((List.pairwise_cons.mp hc.rest_sorted).1 x hx))
  · exact .inl hx

/-- The indices between the data's start and the segment under the iterator are free. -/
theorem CursorOK.free_of_lt (hc : CursorOK lo hi L ((s, e, bytes) :: rest) c) {p : Nat}
    (hw : c.writeIndex ≤ p) (hp : p < s) : Free c.cache.entries p := by
  intro b hb
  obtain ⟨x, hx, hle, hlt⟩ := hb.covers
  rcases hc.outside hx with h | h <;> omega

/-- The data fits into the gap in front of the segment. -/
theorem overlay_gap_spec (hc : CursorOK lo hi L ((s, e, bytes) :: rest) c)
    (hL : L < s) : ∃ m,
    appendTail L { c with cache := c.cache.set c.writeIndex (L, c.trimmedData.toList) } = .ok m ∧
      Tiled lo hi m.entries ∧ Absorbs c m := by
  have hlen := hc.length_toList
  have hlast := hc.last_lt
  have hws := hc.le_last
  have hx := hc.rest_mem _ List.mem_cons_self
  have hxl := hc.tiled.last _ hx
  have hsep : ∀ x ∈ c.cache.entries, stop x ≤ c.writeIndex ∨
      c.writeIndex < x.1 ∧ c.writeIndex + c.trimmedData.toList.length ≤ x.1 := fun x hx =>
    (hc.outside hx).imp_right fun h => ⟨by omega, by omega⟩
  have ht := hc.tiled.set hc.lo_le hlen (by omega) hsep
  refine ⟨_, appendTail_of_mem (x := (s, e, bytes)) ht ?_ ?_, ht, fun p b => ?_⟩
  · exact (OrdMap.mem_set _ _ _ _).mpr (.inr ⟨hx, by simp only; omega⟩)
  · simp only [stop] at hxl ⊢
    omega
  · rw [Tiled.stored_set hsep]
    refine or_congr_right ⟨fun ⟨hp, hb⟩ => ⟨?_, hp, hb⟩, fun ⟨_, hp, hb⟩ => ⟨hp, hb⟩⟩
    have := (List.getElem?_eq_some_iff.mp hb).1
    exact hc.free_of_lt hp (by omega)

/-- The cursor after the gap in front of the segment is filled, with the data still to be cut. -/
theorem CursorOK.fill_gap (hc : CursorOK lo hi L ((s, e, bytes) :: rest) c)
    (hw : c.writeIndex < s) (hL : s ≤ L) :
    let m := c.cache.set c.writeIndex (s - 1, c.trimmedData.toList.take (s - c.writeIndex))
    Tiled lo hi m.entries ∧ (∀ x ∈ c.cache.entries, s ≤ x.1 → x ∈ m.entries) ∧
      (∀ x ∈ m.entries, x ∈ (s, e, bytes) :: rest ∨ stop x ≤ s) ∧
      ∀ p b, Stored m.entries p b ↔ Stored c.cache.entries p b ∨
        c.writeIndex ≤ p ∧ p < s ∧ c.trimmedData.toList[p - c.writeIndex]? = some b := by
  have hlen := hc.length_toList
  have hlast := hc.last_lt
  have hx := hc.rest_mem _ List.mem_cons_self
  have htk : (c.trimmedData.toList.take (s - c.writeIndex)).length = s - c.writeIndex := by
    rw [List.length_take]
    omega
  have hsep : ∀ x ∈ c.cache.entries, stop x ≤ c.writeIndex ∨ c.writeIndex < x.1 ∧
      c.writeIndex + (c.trimmedData.toList.take (s - c.writeIndex)).length ≤ x.1 := fun x hx =>
    (hc.outside hx).imp_right fun h => ⟨by omega, by omega⟩
  refine ⟨hc.tiled.set hc.lo_le (by omega) (by omega) hsep, ?_, ?_, ?_⟩
  · intro x hx hsx
    exact (OrdMap.mem_set _ _ _ _).mpr (.inr ⟨hx, by omega⟩)
  · intro x hx
    rcases (OrdMap.mem_set _ _ _ _).mp hx with rfl | ⟨hx, -⟩
    · exact .inr (by simp only [stop]; omega)
    · rcases hc.behind x hx with h | h
      · exact .inl h
      · exact .inr (by omega)
  · intro p b
    rw [Tiled.stored_set hsep, List.getElem?_take]
    refine or_congr_right (and_congr_right fun hp => ?_)
    split
    · exact ⟨fun h => ⟨by omega, h⟩, fun h => h.2⟩
    · exact ⟨fun h => (Option.some_ne_none b h.symm).elim, fun h => absurd h.1 (by omega)⟩

/-- The loop moves on behind the segment under the iterator. -/
theorem CursorOK.next (hc : CursorOK lo hi L ((s, e, bytes) :: rest) c) {m : Cache} {w : Nat}
    (hm : Tiled lo hi m.entries) (hrest : ∀ x ∈ rest, x ∈ m.entries)
    (hbehind : ∀ x ∈ m.entries, x ∈ (s, e, bytes) :: rest ∨ stop x ≤ w)
    (hew : e + 1 ≤ w) (hcw : c.writeIndex ≤ w) (hwL : w ≤ L) :
    CursorOK lo hi L rest ⟨m, w, c.trimmedData.drop (w - c.writeIndex)⟩ := by
  have hlen := hc.length
  have hxl := hc.tiled.last _ (hc.rest_mem _ List.mem_cons_self)
  refine ⟨hm, hrest, (List.pairwise_cons.mp hc.rest_sorted).2, fun x hx => ?_,
    Nat.le_trans hc.lo_le hcw, hc.inside.drop _, ?_, hwL, hc.last_lt, hc.hi_lt⟩
  · rcases hbehind x hx with h | h
    · rcases List.mem_cons.mp h with rfl | h
      · exact .inr (by simp only at hxl ⊢; omega)
      · exact .inl h
    · exact .inr h
  · simp only [StringView.length_drop]
    omega

/-- The content composes along the loop: the part of the data in front of `q` is stored, the part
from `q` to the new cursor is covered already, and the new cursor has the rest. -/
theorem Absorbs.next {m m' : Cache} {q w : Nat} (hcw : c.writeIndex ≤ w)
    (hfree : ∀ p, c.writeIndex ≤ p → p < q → Free c.cache.entries p)
    (hcov : ∀ p, q ≤ p → p < w → c.writeIndex ≤ p → ¬ Free c.cache.entries p)
    (hst : ∀ p b, Stored m.entries p b ↔ Stored c.cache.entries p b ∨
      c.writeIndex ≤ p ∧ p < q ∧ c.trimmedData.toList[p - c.writeIndex]? = some b)
    (h : Absorbs ⟨m, w, c.trimmedData.drop (w - c.writeIndex)⟩ m') : Absorbs c m' := by
  intro p b
  have hidx : w ≤ p → w - c.writeIndex + (p - w) = p - c.writeIndex := fun _ => by omega
  have hp := h p b
  simp only [StringView.toList_drop, List.getElem?_drop] at hp
  rw [hp]
  constructor
  · rintro (h₁ | ⟨hf, hwp, hb⟩)
    · rcases (hst p b).mp h₁ with h₁ | ⟨hp, hpq, hb⟩
      · exact .inl h₁
      · exact .inr ⟨hfree p hp hpq, hp, hb⟩
    · rw [hidx hwp] at hb
      exact .inr ⟨fun b' hb' => hf b' ((hst p b').mpr (.inl hb')), by omega, hb⟩
  · rintro (h₁ | ⟨hf, hcp, hb⟩)
    · exact .inl ((hst p b).mpr (.inl h₁))
    · by_cases hpq : p < q
      · exact .inl ((hst p b).mpr (.inr ⟨hcp, hpq, hb⟩))
      · have hwp : w ≤ p := by
          by_contra hwp
          exact hcov p (by omega) (by omega) hcp hf
        refine .inr ⟨fun b' hb' => ?_, hwp, by rwa [hidx hwp]⟩
        rcases (hst p b').mp hb' with h₁ | ⟨-, h₁, -⟩
        · exact hf b' h₁
        · exact hpq h₁

/-- With no data left, the map is what it is. -/
theorem Absorbs.refl_of_nil (h : c.trimmedData.length = 0) : Absorbs c c.cache := by
  intro p b
  simp [StringView.toList, h]

/-- The data starts in front of the segment and reaches it. -/
theorem overlay_split_spec (hc : CursorOK lo hi L ((s, e, bytes) :: rest) c)
    (hws : c.writeIndex < s) (hLs : s ≤ L)
    (ih : ∀ {c : Cursor}, CursorOK lo hi L rest c → c.cache.entries ≠ [] →
      ∃ m, (overlay L rest c >>= appendTail L) = .ok m ∧ Tiled lo hi m.entries ∧ Absorbs c m) :
    ∃ m, (overlay L ((s, e, bytes) :: rest) c >>= appendTail L) = .ok m ∧
      Tiled lo hi m.entries ∧ Absorbs c m := by
  have hx := hc.rest_mem _ List.mem_cons_self
  have hxs := hc.tiled.last _ hx
  have hsl := le_stop (s, e, bytes)
  have hxh := hc.tiled.stop_le _ hx
  have hlen := hc.length
  have hlast := hc.last_lt
  have hhi := hc.hi_lt
  simp only at hxs hsl
  obtain ⟨hm, hmem, hbehind, hst⟩ := hc.fill_gap hws hLs
  have hxm := hmem _ hx (Nat.le_refl _)
  have hcov : ∀ p, s ≤ p → p < e + 1 → c.writeIndex ≤ p → ¬ Free c.cache.entries p :=
    fun p hsp hpe _ => not_free_of_covers hx hsp (by omega)
  have hnext : max (add64 c.writeIndex (s - c.writeIndex)) (add64 e 1) = e + 1 := by
    rw [add64_of_lt (by omega), add64_of_lt (by omega)]
    omega
  unfold overlay
  dsimp only
  rw [if_pos hws, if_neg (by omega), sub64_of_le (Nat.le_of_lt hws) (by omega),
    sub64_of_le (show 1 ≤ s by omega) (by omega), StringView.substr_eq (Nat.zero_le _), hnext]
  simp only [bind, Except.bind, StringView.drop_zero, (hc.inside.take _).string,
    StringView.toList_take]
  generalize c.cache.set c.writeIndex (s - 1, c.trimmedData.toList.take (s - c.writeIndex)) = m at *
  by_cases hLe : L < e + 1
  · rw [if_pos hLe]
    refine ⟨m, appendTail_of_mem (x := (s, e, bytes)) hm hxm (by simp only; omega), hm,
      Absorbs.next (q := s) (w := L + 1) (by omega) (fun p => hc.free_of_lt)
        (fun p hsp hpL => hcov p hsp (by omega)) hst (.refl_of_nil ?_)⟩
    rw [StringView.length_drop]
    omega
  · rw [if_neg hLe, sub64_of_le (by omega) (by omega), sub64_of_le (by omega) (by omega),
      add64_of_lt (by omega), StringView.substr_drop (by omega) (by omega)]
    simp only [show ¬ e + 1 > L by omega, if_false]
    have hc' := hc.next (w := e + 1) hm
      (fun y hy => hmem y (hc.rest_mem y (List.mem_cons_of_mem _ hy))
        (Nat.le_of_lt ((List.pairwise_cons.mp hc.rest_sorted).1 y hy)))
      (fun y hy => (hbehind y hy).imp_right fun h => by omega) (Nat.le_refl _) (by omega)
      (by omega)
    obtain ⟨m', hrun, ht', habs⟩ := ih hc' (List.ne_nil_of_mem hxm)
    exact ⟨m', hrun, ht',
      habs.next (by omega) (fun p => hc.free_of_lt) hcov hst⟩

/-- The data starts in the segment or behind it. -/
theorem overlay_skip_spec (hc : CursorOK lo hi L ((s, e, bytes) :: rest) c)
    (hws : s ≤ c.writeIndex)
    (ih : ∀ {c : Cursor}, CursorOK lo hi L rest c → c.cache.entries ≠ [] →
      ∃ m, (overlay L rest c >>= appendTail L) = .ok m ∧ Tiled lo hi m.entries ∧ Absorbs c m) :
    ∃ m, (overlay L ((s, e, bytes) :: rest) c >>= appendTail L) = .ok m ∧
      Tiled lo hi m.entries ∧ Absorbs c m := by
  have hx := hc.rest_mem _ List.mem_cons_self
  have hxs := hc.tiled.last _ hx
  have hxh := hc.tiled.stop_le _ hx
  have hlen := hc.length
  have hle := hc.le_last
  have hlast := hc.last_lt
  have hhi := hc.hi_lt
  simp only at hxs
  unfold overlay
  dsimp only
  rw [if_neg (by omega)]
  by_cases hLe : L ≤ e
  · rw [if_pos hLe]
    exact ⟨c.cache, appendTail_of_mem hc.tiled hx hLe, hc.tiled, .of_covered hc hx hws hLe⟩
  · have hnext : max (add64 e 1) c.writeIndex = max (e + 1) c.writeIndex := by
      rw [add64_of_lt (by omega)]
    rw [if_neg hLe, hnext, sub64_of_le (Nat.le_max_right _ _) (by omega),
      sub64_of_le (show s ≤ L by omega) (by omega), add64_of_lt (by omega),
      StringView.substr_drop (by omega) (by omega)]
    simp only [bind, Except.bind, show ¬ max (e + 1) c.writeIndex > L by omega, if_false]
    have hc' := hc.next (w := max (e + 1) c.writeIndex) hc.tiled
      (fun y hy => hc.rest_mem y (List.mem_cons_of_mem _ hy))
      (fun y hy => (hc.behind y hy).imp_right fun h => by omega) (Nat.le_max_left _ _)
      (Nat.le_max_right _ _) (by omega)
    obtain ⟨m', hrun, ht', habs⟩ := ih hc' (List.ne_nil_of_mem hx)
    exact ⟨m', hrun, ht', habs.next (q := c.writeIndex) (Nat.le_max_right _ _)
      (fun p h₁ h₂ => absurd h₁ (by omega))
      (fun p _ hpw hcp => not_free_of_covers hx (by simp only; omega) (by omega))
      (fun p b => ⟨.inl, fun h => h.elim id fun h => absurd h.1 (by omega)⟩)⟩

/-- The loop and the statement after it, over a map that is not empty. -/
theorem overlay_spec (hc : CursorOK lo hi L rest c) (hne : c.cache.entries ≠ []) :
    ∃ m, (overlay L rest c >>= appendTail L) = .ok m ∧ Tiled lo hi m.entries ∧ Absorbs c m := by
  induction rest generalizing c with
  | nil => exact overlay_nil_spec hc hne
  | cons x rest ih =>
    obtain ⟨s, e, bytes⟩ := x
    by_cases hws : c.writeIndex < s
    · by_cases hLs : L < s
      · unfold overlay
        rw [if_pos hws, if_pos hLs, hc.inside.string]
        exact overlay_gap_spec hc hLs
      · exact overlay_split_spec hc hws (by omega) ih
    · exact overlay_skip_spec hc (by omega) ih

/-- An empty substring leaves at most an empty segment, in front of every other one. -/
theorem overlay_empty_spec (ht : Tiled lo hi c.cache.entries) (hlo : lo ≤ c.writeIndex)
    (hL : L + 1 = c.writeIndex) (hhi : c.writeIndex ≤ hi) (hlt : hi < 2 ^ 63)
    (hnil : c.trimmedData.length = 0) :
    ∃ m, (overlay L c.cache.entries c >>= appendTail L) = .ok m ∧ Tiled lo hi m.entries ∧
      Absorbs c m := by
  have hsame : ∃ m, appendTail L c = .ok m ∧ Tiled lo hi m.entries ∧ Absorbs c m :=
    ⟨c.cache, appendTail_nil L hnil, ht, .refl_of_nil hnil⟩
  cases hl : c.cache.entries with
  | nil => exact hsame
  | cons x rest =>
    obtain ⟨s, e, bytes⟩ := x
    unfold overlay
    dsimp only
    by_cases hws : c.writeIndex < s
    · have hstring : c.trimmedData.string = .ok [] := by simp [StringView.string, hnil]
      rw [if_pos hws, if_pos (by omega), hstring]
      have hfirst : ∀ x ∈ c.cache.entries, s ≤ x.1 := fun x hx => OrdMap.first_le hl hx
      have hsep : ∀ x ∈ c.cache.entries, stop x ≤ c.writeIndex ∨
          c.writeIndex < x.1 ∧ c.writeIndex + ([] : Bytes).length ≤ x.1 := fun x hx => by
        have := hfirst x hx
        exact .inr ⟨by omega, by simp only [List.length_nil]; omega⟩
      refine ⟨_, appendTail_nil L hnil, ht.set hlo ?_ ?_ hsep, fun p b => ?_⟩
      · simp only [List.length_nil]; omega
      · simp only [List.length_nil]; omega
      · rw [Tiled.stored_set hsep]
        simp [StringView.toList, hnil]
    · rw [if_neg hws]
      by_cases hLe : L ≤ e
      · rw [if_pos hLe]
        exact hsame
      · have hnext : max (add64 e 1) c.writeIndex = c.writeIndex := by
          rw [add64_of_lt (by omega)]
          omega
        rw [if_neg hLe, hnext, sub64_of_le (Nat.le_refl _) (by omega),
          StringView.substr_eq (by omega)]
        simp only [bind, Except.bind, show c.writeIndex > L by omega, if_true]
        exact ⟨c.cache, appendTail_nil L (by simp [hnil]), ht, .refl_of_nil hnil⟩

end Overlay

/-! ## The ready segments -/

/-- What `popReady` does to a list of segments that all start at or after `ne`. -/
structure Ready (l : List Segment) (ne n next : Nat) (d : Bytes) : Prop where
  next_eq : next = ne + d.length
  stored : ∀ i b, d[i]? = some b → Stored l (ne + i) b
  free : Free l next
  popped : ∀ x ∈ l.take n, stop x ≤ next
  left : ∀ x ∈ l.drop n, next < x.1

theorem popReady_spec {ne hi : Nat} {l : List Segment} (ht : Tiled ne hi l) (hs : Sorted l)
    (hhi : hi < 2 ^ 63) :
    Ready l ne (popReady l ne).1 (popReady l ne).2.1 (popReady l ne).2.2 := by
  induction l generalizing ne with
  | nil =>
    exact ⟨rfl, fun _ _ h => by simp [popReady] at h,
      fun _ ⟨_, hx, _⟩ => (List.not_mem_nil hx).elim, fun _ h => (List.not_mem_nil h).elim,
      fun _ h => (List.not_mem_nil h).elim⟩
  | cons x rest ih =>
    obtain ⟨s, e, bytes⟩ := x
    obtain ⟨hfirst, hsr⟩ := List.pairwise_cons.mp hs
    have hxs := ht.last _ List.mem_cons_self
    have hxh := ht.stop_le _ List.mem_cons_self
    have hle := ht.lo_le _ List.mem_cons_self
    simp only [stop] at hxs hxh hle
    unfold popReady
    by_cases hne : s = ne
    · subst hne
      have hnext : add64 s (add64 (sub64 e s) 1) = s + bytes.length := by
        rw [add64_sub64_one (by omega) (by omega), add64_of_lt (by omega)]
        omega
      rw [if_pos rfl, hnext]
      have htr : Tiled (s + bytes.length) hi rest :=
        (ht.subset fun _ => List.mem_cons_of_mem _).mono_lo fun x hx =>
          ht.apart _ List.mem_cons_self x (List.mem_cons_of_mem _ hx) (hfirst x hx)
      have hr := ih htr hsr
      generalize popReady rest (s + bytes.length) = q at hr
      obtain ⟨n, next, d⟩ := q
      have hn := hr.next_eq
      simp only at hn hr ⊢
      refine ⟨by rw [List.length_append]; omega, fun i b hb => ?_, fun b hb => ?_, ?_, ?_⟩
      · rw [List.getElem?_append] at hb
        split at hb
        · exact ⟨(s, e, bytes), List.mem_cons_self, Nat.le_add_right _ _,
            by rwa [Nat.add_sub_cancel_left]⟩
        · obtain ⟨x, hx, hxp, hxb⟩ := hr.stored _ _ hb
          refine ⟨x, List.mem_cons_of_mem _ hx, by omega, ?_⟩
          rwa [show s + i - x.1 = s + bytes.length + (i - bytes.length) - x.1 by omega]
      · obtain ⟨x, hx, hxp, hxb⟩ := hb
        rcases List.mem_cons.mp hx with rfl | hx
        · have := (List.getElem?_eq_some_iff.mp hxb).1
          simp only at this
          omega
        · exact hr.free b ⟨x, hx, hxp, hxb⟩
      · intro x hx
        rcases List.mem_cons.mp (List.take_succ_cons ▸ hx) with rfl | hx
        · simp only [stop]; omega
        · exact hr.popped x hx
      · exact hr.left
    · rw [if_neg hne]
      have hall : ∀ x ∈ (s, e, bytes) :: rest, ne < x.1 := by
        intro x hx
        rcases List.mem_cons.mp hx with rfl | hx
        · simp only; omega
        · have := hfirst x hx
          simp only at this
          omega
      refine ⟨rfl, fun _ _ h => by simp at h, fun b hb => ?_, fun _ h => by simp at h, hall⟩
      obtain ⟨x, hx, hxp, -⟩ := hb
      have := hall x hx
      simp only at hxp
      omega

/-- What is stored after the pop is what was stored from the next expected index on. -/
theorem Ready.stored_drop {l : List Segment} {ne n next : Nat} {d : Bytes}
    (h : Ready l ne n next d) (p : Nat) (b : UInt8) :
    Stored (l.drop n) p b ↔ Stored l p b ∧ next ≤ p := by
  constructor
  · rintro ⟨x, hx, hxp, hxb⟩
    have := h.left x hx
    exact ⟨⟨x, List.mem_of_mem_drop hx, hxp, hxb⟩, by omega⟩
  · rintro ⟨⟨x, hx, hxp, hxb⟩, hp⟩
    rw [← List.take_append_drop n l] at hx
    rcases List.mem_append.mp hx with hx | hx
    · have := h.popped x hx
      have := (List.getElem?_eq_some_iff.mp hxb).1
      unfold stop at *
      omega
    · exact ⟨x, hx, hxp, hxb⟩

theorem Ready.tiled_drop {l : List Segment} {ne n next hi : Nat} {d : Bytes}
    (h : Ready l ne n next d) (ht : Tiled ne hi l) : Tiled (next + 1) hi (l.drop n) :=
  (ht.subset fun _ => List.mem_of_mem_drop).mono_lo h.left

end Reassembler

end Minnow
