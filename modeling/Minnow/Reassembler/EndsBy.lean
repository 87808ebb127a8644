import Minnow.Reassembler.Placed
import Minnow.Reassembler.Reads

/-!
# Where the cache ends

`EndsBy n` says that nothing is cached behind `n`. Bytes up to `n` keep it, and so does an empty
substring behind `n` (`EndsBy.insert`): the loop over the cache stores nothing of it. So a
reassembler that has pushed all bytes up to `n` has an empty cache, and the last of them inserted
once more closes the stream if they are marked as its end (`insert_pushed`).
-/

namespace Minnow

namespace Reassembler

/-- What is cached ends at `n` at the latest. -/
def EndsBy (r : Reassembler) (n : Nat) : Prop := ∀ x ∈ r.cache.entries, stop x ≤ n

section

variable {r r' : Reassembler} {n firstIndex : Nat} {data stream read : Bytes}
  {isLast complete : Bool} {m : Cache} {c c' : Cursor} {l : List Segment}

theorem EndsBy.mono {n' : Nat} (h : r.EndsBy n) (hle : n ≤ n') : r.EndsBy n' := fun x hx =>
  Nat.le_trans (h x hx) hle

/-- With all of it pushed, nothing is cached. -/
theorem EndsBy.empty (h : r.EndsBy n) (hinv : r.Inv) (hn : n ≤ r.bytesPushed) :
    r.cache.entries = [] := by
  refine List.eq_nil_iff_forall_not_mem.mpr fun x hx => ?_
  have hlo := hinv.tiled.lo_le x hx
  have hstop := h x hx
  have hle := le_stop x
  omega

/-- No bytes behind the start of each segment: the loop stores nothing. -/
theorem overlay_nil_behind {L : Nat} (hl : ∀ x ∈ l, x.1 < 2 ^ 64 ∧ x.1 ≤ c.writeIndex)
    (hdata : c.trimmedData.length = 0) (h : overlay L l c = .ok c') :
    c'.cache = c.cache ∧ c'.trimmedData.length = 0 := by
  induction l generalizing c with
  | nil =>
    obtain rfl := Except.ok.inj h
    exact ⟨rfl, hdata⟩
  | cons x l ih =>
    obtain ⟨⟨hx, hle⟩, hrest⟩ := List.forall_mem_cons.mp hl
    obtain ⟨s, e, bytes⟩ := x
    obtain ⟨c₁, hround, hgoes⟩ := overlay_cons_ok hx h
    have hkept : c₁.cache = c.cache ∧ c₁.trimmedData.length = 0 ∧
        c.writeIndex ≤ c₁.writeIndex := by
      cases hround with
      | gap _ hlt | fill _ hlt | fillOn _ _ hlt => exact absurd hlt (Nat.not_lt.mpr hle)
      | covered => exact ⟨rfl, hdata, Nat.le_refl _⟩
      | behind tail _ _ htail =>
        obtain ⟨-, rfl⟩ := StringView.substr_ok htail
        exact ⟨rfl, by simp [hdata], Nat.le_max_right _ _⟩
    obtain ⟨hcache, hnil, hindex⟩ := hkept
    rcases hgoes with rfl | hgoes
    · exact ⟨hcache, hnil⟩
    · obtain ⟨hcache', hnil'⟩ := ih (fun y hy =>
        ⟨(hrest y hy).1, Nat.le_trans (hrest y hy).2 hindex⟩) hnil hgoes
      exact ⟨hcache'.trans hcache, hnil'⟩

theorem store_nil_behind (hpos : 0 < firstIndex)
    (hl : ∀ x ∈ r.cache.entries, x.1 < 2 ^ 64 ∧ x.1 ≤ firstIndex)
    (h : r.store firstIndex [] = .ok m) : m = r.cache := by
  unfold store at h
  dsimp only at h
  split at h
  · -- the last index of no bytes lies before them
    rename_i hcond
    have hlast : r.lastIndex firstIndex ([] : Bytes).length < firstIndex := by
      refine Nat.lt_of_le_of_lt (Nat.min_le_right _ _) ?_
      rcases lastDataIndex_le firstIndex ([] : Bytes).length with hz | hlt
      · rw [hz]
        exact hpos
      · exact hlt
    simp only [Bool.and_eq_true, decide_eq_true_eq] at hcond
    omega
  · obtain ⟨c, hc, h⟩ := bind_ok h
    obtain ⟨hcache, hnil⟩ := overlay_nil_behind (fun x hx =>
      ⟨(hl x hx).1, Nat.le_trans (hl x hx).2 (Nat.le_max_right _ _)⟩) (Nat.min_zero _) hc
    rw [appendTail_nil _ hnil] at h
    exact (Except.ok.inj h).symm.trans hcache

/-- What is pushed was stored, or is offered. -/
theorem Inserted.pushed_le {d : Bytes} (hins : Inserted r firstIndex data isLast d r')
    (h : r.EndsBy n) (hle : r.bytesPushed ≤ n)
    (hin : firstIndex + data.length ≤ n ∨ data = []) : r'.bytesPushed ≤ n := by
  rw [hins.pushed]
  by_cases hd : d = []
  · rw [hd]
    exact hle
  · have hpos := List.length_pos_iff.mpr hd
    have hlast : d.length - 1 < d.length := by omega
    rcases hins.bytes _ _ (List.getElem?_eq_getElem hlast) with hb | ⟨-, -, -, hb⟩
    · obtain ⟨x, hx, -, hlt⟩ := hb.covers
      have hstop := h x hx
      omega
    · have hlt := (List.getElem?_eq_some_iff.mp hb).1
      rcases hin with hin | rfl
      · omega
      · rw [List.length_nil] at hlt
        omega

/-- An insert of bytes up to `n`, or of none behind it. -/
theorem EndsBy.insert (h : r.EndsBy n) (hle : r.bytesPushed ≤ n)
    (hp : Placed stream complete r read) (hroom : stream.length + r.output.capacity < 2 ^ 31)
    (hcap : 1 ≤ r.output.capacity) (hn : n ≤ stream.length)
    (hin : firstIndex + data.length ≤ n ∨ data = [] ∧ n < firstIndex ∧ firstIndex ≤ stream.length + 1)
    (hb : r.Phantom firstIndex data → r.Behind)
    (hr : r.insert firstIndex data isLast = .ok r') : r'.EndsBy n ∧ r'.bytesPushed ≤ n := by
  have hwin := hp.windowEnd_le
  have hpos : 1 ≤ r.windowEnd := Nat.le_trans hcap (Nat.le_add_left _ _)
  by_cases hph : r.Phantom firstIndex data
  · obtain ⟨hone, -⟩ := hb hph
    obtain ⟨rfl, rfl, h0⟩ := hph
    obtain ⟨d, r'', hr'', hins⟩ := insert_phantom_spec isLast hp.inv hpos (by omega) h0
    obtain rfl := Except.ok.inj (hr.symm.trans hr'')
    refine ⟨fun x hx => h x (hins.mem x hx).1, ?_⟩
    rw [hins.pushed, h0, Nat.zero_add]
    by_cases hd : d = []
    · rw [hd]
      exact Nat.zero_le _
    · have hlast : d.length - 1 < d.length := by
        have := List.length_pos_iff.mpr hd
        omega
      obtain ⟨x, hx, -, hlt⟩ := (hins.bytes _ _ (List.getElem?_eq_getElem hlast)).covers
      have hstop := h x hx
      omega
  · have hlen : data.length < 2 ^ 63 ∧ firstIndex + data.length ≤ 2 ^ 31 := by
      rcases hin with hin | ⟨rfl, -, hin⟩
      · constructor <;> omega
      · rw [List.length_nil]
        constructor <;> omega
    obtain ⟨d, r'', hr'', hins⟩ := insert_spec isLast hp.inv hpos (by omega) hlen.1 hph
      fun _ => endExact_of_le hp.inv hpos (by omega) hlen.2
    obtain rfl := Except.ok.inj (hr.symm.trans hr'')
    refine ⟨?_, hins.pushed_le h hle (hin.imp_right And.left)⟩
    rcases hin with hin | ⟨rfl, hlt, -⟩
    · exact hins.stop_le n h hin
    · have hl : ∀ x ∈ r.cache.entries, x.1 < 2 ^ 64 ∧ x.1 ≤ firstIndex := fun x hx => by
        have hstop := h x hx
        have hstart := le_stop x
        constructor <;> omega
      rcases insert_cases hr with ⟨-, rfl⟩ | ⟨-, m, hs, rfl⟩
      · intro x hx
        rw [markEnd_cache] at hx
        exact h x hx
      · obtain rfl := store_nil_behind (Nat.zero_lt_of_lt hlt) hl hs
        rw [EndsBy, flush_cache]
        exact fun x hx => h x (List.mem_of_mem_drop hx)

/-- With nothing buffered the window begins at the next byte. -/
theorem Inv.room (h : r.Inv) (hcap : 1 ≤ r.output.capacity) (hread : r.output.peek = []) :
    r.bytesPushed < r.windowEnd := by
  have hpushed : r.bytesPushed = _ := h.output.bytesPushed_eq
  rw [hread, List.length_nil] at hpushed
  unfold windowEnd
  omega

/-- Bytes that are all pushed, with nothing cached: only the end is new. -/
theorem insert_pushed (hp : Placed stream complete r read) (hempty : r.cache.entries = [])
    (hread : r.output.peek = []) (hroom : stream.length + r.output.capacity < 2 ^ 31)
    (hcap : 1 ≤ r.output.capacity) (hpushed : r.bytesPushed = firstIndex + data.length)
    (hr : r.insert firstIndex data isLast = .ok r') :
    r'.bytesPushed = r.bytesPushed ∧ (isLast = true → r'.output.closed = true) := by
  have hinv := hp.inv
  have hle := hp.pushed_le
  have hwindow := hp.windowEnd_le
  have hnext := hinv.room hcap hread
  have hnone : ∀ p b, ¬Stored r.cache.entries p b := fun p b ⟨x, hx, _⟩ => by
    rw [hempty] at hx
    cases hx
  by_cases hph : r.Phantom firstIndex data
  · obtain ⟨rfl, rfl, h0⟩ := hph
    obtain ⟨d, r'', hr'', hins⟩ := insert_phantom_spec isLast hinv (by omega) (by omega) h0
    obtain rfl := Except.ok.inj (hr.symm.trans hr'')
    obtain rfl : d = [] := by
      by_contra hne
      have hpos := List.length_pos_iff.mpr hne
      exact hnone _ _ (hins.bytes 0 _ (List.getElem?_eq_getElem hpos))
    have hempty' : r'.cache.entries = [] := List.eq_nil_iff_forall_not_mem.mpr fun x hx => by
      have hx := (hins.mem x hx).1
      rw [hempty] at hx
      cases hx
    refine ⟨hins.pushed, fun hlast => ?_⟩
    rw [hins.closed, hins.finish, hins.finishSet, hempty', hlast]
    simp
  · obtain ⟨d, r'', hr'', hins⟩ := insert_spec isLast hinv (by omega) (by omega) (by omega) hph
      fun _ => endExact_of_le hinv (by omega) (by omega) (by omega)
    obtain rfl := Except.ok.inj (hr.symm.trans hr'')
    obtain rfl : d = [] := by
      by_contra hne
      have hpos := List.length_pos_iff.mpr hne
      rcases hins.bytes 0 _ (List.getElem?_eq_getElem hpos) with hb | ⟨-, -, -, hb⟩
      · exact hnone _ _ hb
      · have := (List.getElem?_eq_some_iff.mp hb).1
        omega
    have hsame : r'.bytesPushed = r.bytesPushed := hins.pushed
    have hends : r'.EndsBy (firstIndex + data.length) := hins.stop_le _ (fun x hx => by
      rw [hempty] at hx
      cases hx) (Nat.le_refl _)
    have hempty' := hends.empty hins.inv (by omega)
    have hin : r.outsideWindow firstIndex data.length = false := by
      rw [← Bool.not_eq_true, outsideWindow_iff hinv (by omega) (by omega) (by omega)]
      omega
    have hmarks : r.marksEnd firstIndex data.length = true := by
      rw [marksEnd_of_le hinv (by omega) (by omega) (by omega)]
      exact decide_eq_true (by omega)
    refine ⟨hsame, fun hlast => ?_⟩
    rw [hins.closed, hins.finish, hins.finishSet, hempty', hin, hmarks, hlast, hsame,
      add64_of_lt (by omega)]
    simp
    omega

end

end Reassembler

end Minnow
