import Minnow.Wire.Parser
import Minnow.Lib.Machine

/-!
# The parser and one flat string

`Flat` is what a parser is for: a byte string that is read from the front, and the error flag. The
operations of `Parser` are compared with those of `Flat`, for any deque; its strings may be empty.

`Gapless k` says that no empty string is reached before `k` bytes are read: at such a string
`integer` reads a byte that is not there, and `string` copies nothing for ever. A `truncate` that
has to resize a string drops it, and it counts what is already read of the front string.
`Careful` is what is left: an operation does on the deque what it does on the flat string just when
it is careful (`Tracks.exec`, `Tracks.careful_of_exec`), and `parser_is_flat` is about whole runs.
-/

namespace Minnow

namespace BufferList

/-- No empty string before the first `k` bytes are read. -/
def Gapless : Nat → List Bytes → Prop
  | _, [] => True
  | k, x :: rest => k = 0 ∨ x ≠ [] ∧ Gapless (k - x.length) rest

instance : ∀ k l, Decidable (Gapless k l)
  | _, [] => .isTrue trivial
  | k, x :: rest =>
    have := instDecidableGapless (k - x.length) rest
    inferInstanceAs (Decidable (k = 0 ∨ x ≠ [] ∧ Gapless (k - x.length) rest))

variable {b : BufferList} {bytes v : Bytes} {vs l : List Bytes} {k n : Nat}

theorem gapless_zero (l : List Bytes) : Gapless 0 l := by
  cases l with
  | nil => trivial
  | cons x rest => exact .inl rfl

/-- There is a front string as long as a byte is unread. -/
theorem Unread.exists_front (h : b.Unread bytes) (hk : k ≤ bytes.length) (h0 : k ≠ 0) :
    ∃ v vs, b.unread = v :: vs := by
  have hbytes := h.bytes
  cases hu : b.unread with
  | nil =>
    rw [hu] at hbytes
    rw [← hbytes, List.flatten_nil, List.length_nil] at hk
    omega
  | cons v vs => exact ⟨v, vs, rfl⟩

theorem removeLoop_zero (l : List Bytes) (size skip : Nat) :
    removeLoop l size skip 0 = .ok ⟨size, l, skip⟩ := by
  cases l <;> rfl

/-- Removing a part of the front string. -/
theorem removePrefix_front (hu : b.unread = v :: vs) (h0 : 0 < n) (hle : n ≤ v.length) :
    ∃ b', b.removePrefix n = .ok b' ∧
      b'.unread = if n = v.length then vs else v.drop n :: vs := by
  obtain ⟨size, buffer, skip⟩ := b
  cases buffer with
  | nil => simp [unread] at hu
  | cons x rest =>
    obtain ⟨rfl, rfl⟩ := List.cons.inj hu
    rw [List.length_drop] at hle ⊢
    unfold BufferList.removePrefix removeLoop
    dsimp only at hle ⊢
    rw [if_neg (by omega), if_pos (by omega), Nat.min_eq_left hle]
    by_cases hall : n = x.length - skip
    · rw [if_pos (by omega), if_pos hall, Nat.sub_self, removeLoop_zero]
      exact ⟨_, rfl, by unfold unread; cases rest <;> rfl⟩
    · rw [if_neg (by omega), if_neg hall]
      exact ⟨_, rfl, by rw [List.drop_drop]; rfl⟩

/-- A round of a reading loop. -/
theorem Unread.advance (h : b.Unread bytes) (hu : b.unread = v :: vs) (h0 : 0 < n)
    (hle : n ≤ v.length) (hk : n ≤ k) : ∃ b', b.removePrefix n = .ok b' ∧
      b'.Unread (bytes.drop n) ∧ (Gapless (k - n) b'.unread ↔ Gapless k (v :: vs)) := by
  obtain ⟨b', hb', hunread'⟩ := removePrefix_front hu h0 hle
  obtain ⟨b'', hb'', hbytes⟩ := h.removePrefix n
  obtain rfl : b' = b'' := Except.ok.inj (hb'.symm.trans hb'')
  have hv : v ≠ [] := List.ne_nil_of_length_pos (by omega)
  have hgap : Gapless k (v :: vs) ↔ Gapless (k - v.length) vs := by
    rw [Gapless]
    exact ⟨fun h => (h.resolve_left (by omega)).2, fun h => .inr ⟨hv, h⟩⟩
  refine ⟨b', hb', hbytes, ?_⟩
  rw [hunread', hgap]
  by_cases hall : n = v.length
  · rw [if_pos hall, hall]
  · rw [if_neg hall, Gapless, List.length_drop, show k - n - (v.length - n) = k - v.length by omega]
    constructor
    · rintro (hend | ⟨-, hrest⟩)
      · rw [show k - v.length = 0 by omega]
        exact gapless_zero vs
      · exact hrest
    · intro hrest
      refine .inr ⟨fun hnil => hall ?_, hrest⟩
      rw [List.drop_eq_nil_iff] at hnil
      omega

theorem unread_of_skip (h : b.skip = 0) : b.unread = b.buffer := by
  unfold unread
  rw [h]
  cases b.buffer <;> rfl

/-! ## Truncation -/

theorem truncateLoop_eq_take (len : Nat) (l : List Bytes) (sizeSoFar : Nat) :
    ∃ i ≤ l.length, truncateLoop len l sizeSoFar = l.take i := by
  induction l generalizing sizeSoFar with
  | nil => exact ⟨0, Nat.le_refl 0, rfl⟩
  | cons x rest ih =>
    rw [truncateLoop, List.length_cons]
    split_ifs
    · obtain ⟨i, hi, hloop⟩ := ih (sizeSoFar + x.length)
      exact ⟨i + 1, by omega, by rw [hloop, List.take_succ_cons]⟩
    · exact ⟨1, by omega, rfl⟩
    · exact ⟨0, by omega, rfl⟩

theorem truncateLoop_length_le {len sizeSoFar : Nat} (h : sizeSoFar ≤ len) (l : List Bytes) :
    sizeSoFar + (truncateLoop len l sizeSoFar).flatten.length ≤ len := by
  induction l generalizing sizeSoFar with
  | nil => exact h
  | cons x rest ih =>
    rw [truncateLoop]
    split_ifs with hlt heq
    · have := ih (Nat.le_of_lt hlt)
      rw [List.flatten_cons, List.length_append]
      omega
    · simp [heq]
    · simpa using h

/-- The strings that are kept have the length asked for, if some strings from the front have it. -/
theorem truncateLoop_length {len sizeSoFar i : Nat} {l : List Bytes} (h : sizeSoFar < len)
    (hi : sizeSoFar + (l.take i).flatten.length = len) :
    sizeSoFar + (truncateLoop len l sizeSoFar).flatten.length = len := by
  induction l generalizing sizeSoFar i with
  | nil => simpa [truncateLoop] using hi
  | cons x rest ih =>
    cases i with
    | zero =>
      rw [List.take_zero, List.flatten_nil, List.length_nil] at hi
      omega
    | succ i =>
      rw [List.take_succ_cons, List.flatten_cons, List.length_append] at hi
      rw [truncateLoop]
      split_ifs with hlt heq
      · have := ih hlt (i := i) (by omega)
        rw [List.flatten_cons, List.length_append]
        omega
      · simp [heq]
      · omega

/-- `truncate` has not to resize a string, and no byte of the front string is read. -/
def CutsBetween (b : BufferList) (len : Nat) : Prop :=
  b.size ≤ len ∨ len = 0 ∨
    b.skip = 0 ∧ ∃ i ≤ b.buffer.length, (b.buffer.take i).flatten.length = len

instance (b : BufferList) (len : Nat) : Decidable (b.CutsBetween len) :=
  inferInstanceAs (Decidable (_ ∨ _ ∨ _ ∧ ∃ i, i ≤ b.buffer.length ∧ _))

/-- What is dumped is no longer than the strings are, and shorter by what is read. -/
theorem length_of_dumpAll (h : b.dumpAll = .ok l) (h0 : b.size ≠ 0) :
    l.flatten.length + b.skip = b.buffer.flatten.length := by
  unfold BufferList.dumpAll at h
  rw [if_neg h0] at h
  cases hb : b.buffer with
  | nil => simp [hb] at h
  | cons x rest =>
    simp only [hb] at h
    split at h
    · obtain rfl := Except.ok.inj h
      simp only [List.flatten_cons, List.length_append, List.length_drop]
      omega
    · simp at h

theorem dumpAll_truncate {len : Nat} (hle : ¬b.size ≤ len) (h0 : len ≠ 0)
    (hd : (b.truncate len).dumpAll = .ok l) :
    l.flatten.length + b.skip = (truncateLoop len b.buffer 0).flatten.length ∧
      (truncateLoop len b.buffer 0).flatten.length ≤ len := by
  have htrunc : b.truncate len = { b with buffer := truncateLoop len b.buffer 0, size := len } := by
    rw [BufferList.truncate, if_neg hle, if_neg h0]
  have hlen := truncateLoop_length_le (Nat.zero_le len) b.buffer
  rw [Nat.zero_add] at hlen
  rw [htrunc] at hd
  exact ⟨length_of_dumpAll hd h0, hlen⟩

/-- No more is left than was asked for. -/
theorem Unread.length_of_truncate (h : b.Unread bytes) {len : Nat}
    (hd : (b.truncate len).dumpAll = .ok l) : l.flatten.length ≤ len := by
  by_cases hle : b.size ≤ len
  · rw [BufferList.truncate, if_pos hle] at hd
    obtain ⟨l', hl', hbytes⟩ := h.dumpAll
    obtain rfl := Except.ok.inj (hd.symm.trans hl')
    rw [hbytes, ← h.size]
    exact hle
  · by_cases h0 : len = 0
    · rw [BufferList.truncate, if_neg hle, if_pos h0] at hd
      obtain rfl : [] = l := Except.ok.inj hd
      exact Nat.zero_le _
    · obtain ⟨hlen, hle⟩ := dumpAll_truncate hle h0 hd
      omega

theorem Unread.truncate (h : b.Unread bytes) {len : Nat} (hcut : b.CutsBetween len) :
    (b.truncate len).Unread (bytes.take len) := by
  by_cases hle : b.size ≤ len
  · rw [BufferList.truncate, if_pos hle, List.take_of_length_le (h.size ▸ hle)]
    exact h
  · rw [BufferList.truncate, if_neg hle]
    by_cases h0 : len = 0
    · rw [if_pos h0, h0]
      exact ⟨rfl, rfl, fun x hx => by simp at hx⟩
    · obtain ⟨hskip, i, -, hi⟩ := (hcut.resolve_left hle).resolve_left h0
      rw [if_neg h0]
      have hlen := truncateLoop_length (Nat.pos_of_ne_zero h0) ((Nat.zero_add _).trans hi)
      rw [Nat.zero_add] at hlen
      obtain ⟨j, -, hj⟩ := truncateLoop_eq_take len b.buffer 0
      have hsplit : b.buffer.flatten =
          (truncateLoop len b.buffer 0).flatten ++ (b.buffer.drop j).flatten := by
        rw [hj, ← List.flatten_append, List.take_append_drop]
      refine ⟨?_, ?_, fun _ _ => .inl hskip⟩
      · rw [List.length_take, ← h.size]
        simp only
        omega
      · have hkept : unread ⟨len, truncateLoop len b.buffer 0, b.skip⟩ = _ := unread_of_skip hskip
        rw [hkept, ← h.bytes, unread_of_skip hskip, hsplit]
        exact (List.take_left' hlen).symm

/-- What is dumped after a truncation are the first bytes only if no string was resized. -/
theorem Unread.dumpAll_truncate_iff (h : b.Unread bytes) {len : Nat}
    (hd : (b.truncate len).dumpAll = .ok l) : l.flatten = bytes.take len ↔ b.CutsBetween len := by
  constructor
  · intro hflat
    by_contra hcut
    unfold CutsBetween at hcut
    push Not at hcut
    obtain ⟨hsize, h0, hcut⟩ := hcut
    obtain ⟨hlen, hle⟩ := dumpAll_truncate (by omega) h0 hd
    obtain ⟨i, hi, hloop⟩ := truncateLoop_eq_take len b.buffer 0
    have hall : l.flatten.length = len := by
      rw [hflat, List.length_take, ← h.size]
      omega
    exact hcut (by omega) i hi (by rw [← hloop]; omega)
  · intro hcut
    obtain ⟨l', hl', hbytes⟩ := (h.truncate hcut).dumpAll
    obtain rfl := Except.ok.inj (hd.symm.trans hl')
    exact hbytes

end BufferList

/-! ## The reading loops -/

namespace Parser

open BufferList

variable {p : Parser} {b : BufferList} {bytes v : Bytes} {vs : List Bytes} {k n : Nat}

theorem run_front_nil (h : p.input.peek = .ok []) : front.run p = .error .outOfBounds := by
  unfold front
  simp [h]
  rfl

/-- Without a gap the loop of `integer` reads the first bytes. -/
theorem integerLoop_of_gapless (h : p.input.Unread bytes) (hk : k ≤ bytes.length)
    (hgap : Gapless k p.input.unread) (out : Nat) : ∃ input : BufferList,
      (integerLoop k out).run p =
        .ok (BigEndian.decodeFrom out (bytes.take k), { p with input }) ∧
      input.Unread (bytes.drop k) := by
  induction k generalizing p bytes out with
  | zero => exact ⟨p.input, rfl, h⟩
  | succ k ih =>
    obtain ⟨v, vs, hu⟩ := h.exists_front hk (by omega)
    rw [hu] at hgap
    obtain ⟨c, v, rfl⟩ := List.exists_cons_of_ne_nil (hgap.resolve_left (by omega)).1
    obtain ⟨b, hb, hbytes, hrest⟩ := h.advance hu Nat.one_pos (by simp) (Nat.le_add_left 1 k)
    have hc : bytes = c :: bytes.drop 1 := by
      have := h.bytes
      rw [hu, List.flatten_cons, List.cons_append] at this
      rw [← this]
      rfl
    obtain ⟨input, hrun, hinput⟩ := @ih { p with input := b } _ hbytes
      (by rw [List.length_drop]; omega) (hrest.mpr hgap) (out <<< 8 ||| c.toNat)
    refine ⟨input, ?_, ?_⟩
    · rw [integerLoop, StateT.run_bind, run_front_cons (h.peek hu)]
      show ((removePrefix 1).run p >>= fun x => (integerLoop k _).run x.2) = _
      rw [run_removePrefix hb, hc, List.take_succ_cons]
      exact hrun
    · rwa [List.drop_drop, Nat.add_comm] at hinput

/-- At a gap it reads a byte that is not there. -/
theorem integerLoop_of_gap (h : p.input.Unread bytes) (hk : k ≤ bytes.length)
    (hgap : ¬Gapless k p.input.unread) (out : Nat) :
    (integerLoop k out).run p = .error .outOfBounds := by
  induction k generalizing p bytes out with
  | zero => exact absurd (gapless_zero _) hgap
  | succ k ih =>
    obtain ⟨v, vs, hu⟩ := h.exists_front hk (by omega)
    rw [integerLoop, StateT.run_bind]
    cases v with
    | nil =>
      rw [run_front_nil (h.peek hu)]
      rfl
    | cons c v =>
      obtain ⟨b, hb, hbytes, hrest⟩ := h.advance hu Nat.one_pos (by simp) (Nat.le_add_left 1 k)
      rw [run_front_cons (h.peek hu)]
      show ((removePrefix 1).run p >>= fun x => (integerLoop k _).run x.2) = _
      rw [run_removePrefix hb]
      rw [hu] at hgap
      exact @ih { p with input := b } _ hbytes (by rw [List.length_drop]; omega)
        (fun hg => hgap (hrest.mp hg)) _

/-- One round of the loop of `string`. -/
theorem run_stringLoop {left : Nat} (hpeek : p.input.peek = .ok v)
    (hb : p.input.removePrefix (v.take left).length = .ok b) (h0 : left ≠ 0) (rounds : Nat)
    (out : Bytes) : (stringLoop (rounds + 1) left out).run p =
      (stringLoop rounds (left - (v.take left).length) (out ++ v.take left)).run
        { p with input := b } := by
  rw [stringLoop, if_neg h0]
  simp [hpeek, run_removePrefix hb, -List.length_take]

/-- What the loop of `string` copies in one round, and what is left to copy. -/
theorem take_front (h : p.input.Unread bytes) (hu : p.input.unread = v :: vs) (left : Nat) :
    v.take left ++ (bytes.drop (v.take left).length).take (left - (v.take left).length) =
      bytes.take left := by
  have hbytes : bytes = v ++ vs.flatten := by rw [← h.bytes, hu, List.flatten_cons]
  have hlen : (v.take left).length = min left v.length := List.length_take ..
  have hcopied : v.take left = bytes.take (v.take left).length := by
    rw [hbytes, List.take_append_of_le_length (by omega), hlen, ← List.take_eq_take_min]
  calc v.take left ++ (bytes.drop (v.take left).length).take (left - (v.take left).length)
      = bytes.take (v.take left).length ++
          (bytes.drop (v.take left).length).take (left - (v.take left).length) := by
        rw [← hcopied]
    _ = bytes.take ((v.take left).length + (left - (v.take left).length)) := List.take_add.symm
    _ = bytes.take left := by rw [Nat.add_sub_cancel' (by omega)]

theorem stringLoop_of_gapless {left rounds : Nat} (h : p.input.Unread bytes)
    (hleft : left ≤ bytes.length) (hrounds : left ≤ rounds) (hgap : Gapless left p.input.unread)
    (out : Bytes) : ∃ input : BufferList,
      (stringLoop rounds left out).run p = .ok (out ++ bytes.take left, { p with input }) ∧
      input.Unread (bytes.drop left) := by
  induction rounds generalizing p bytes left out with
  | zero =>
    obtain rfl : left = 0 := by omega
    exact ⟨p.input, by simp [stringLoop]; rfl, h⟩
  | succ rounds ih =>
    by_cases h0 : left = 0
    · subst h0
      exact ⟨p.input, by simp [stringLoop]; rfl, h⟩
    · obtain ⟨v, vs, hu⟩ := h.exists_front hleft h0
      rw [hu] at hgap
      have hv := List.length_pos_iff.mpr (hgap.resolve_left h0).1
      have hlen : (v.take left).length = min left v.length := List.length_take ..
      obtain ⟨b, hb, hbytes, hrest⟩ := h.advance (n := (v.take left).length) (k := left) hu
        (by omega) (by omega) (by omega)
      obtain ⟨input, hrun, hinput⟩ := @ih { p with input := b } _ _ hbytes
        (by rw [List.length_drop]; omega) (by omega) (hrest.mpr hgap) (out ++ v.take left)
      refine ⟨input, ?_, ?_⟩
      · rw [run_stringLoop (h.peek hu) hb h0, ← take_front h hu, ← List.append_assoc]
        exact hrun
      · rwa [List.drop_drop, Nat.add_sub_cancel' (by omega)] at hinput

/-- At a gap nothing is copied any more. -/
theorem stringLoop_stuck {left : Nat} (hpeek : p.input.peek = .ok []) (h0 : left ≠ 0) (rounds : Nat)
    (out : Bytes) : (stringLoop rounds left out).run p = .error .endless := by
  have hb : p.input.removePrefix ([].take left : Bytes).length = .ok p.input := by
    rw [List.take_nil]
    exact removeLoop_zero ..
  induction rounds with
  | zero =>
    rw [stringLoop, if_neg h0]
    rfl
  | succ rounds ih =>
    rw [run_stringLoop hpeek hb h0, List.take_nil, List.append_nil]
    exact ih

theorem stringLoop_of_gap {left : Nat} (h : p.input.Unread bytes) (hleft : left ≤ bytes.length)
    (hgap : ¬Gapless left p.input.unread) (rounds : Nat) (out : Bytes) :
    (stringLoop rounds left out).run p = .error .endless := by
  have h0 : left ≠ 0 := by
    rintro rfl
    exact hgap (gapless_zero _)
  induction rounds generalizing p bytes left out with
  | zero =>
    rw [stringLoop, if_neg h0]
    rfl
  | succ rounds ih =>
    obtain ⟨v, vs, hu⟩ := h.exists_front hleft h0
    rw [hu] at hgap
    by_cases hv : v = []
    · subst hv
      exact stringLoop_stuck (h.peek hu) h0 _ _
    · have hpos := List.length_pos_iff.mpr hv
      have hlen : (v.take left).length = min left v.length := List.length_take ..
      obtain ⟨b, hb, hbytes, hrest⟩ := h.advance (n := (v.take left).length) (k := left) hu
        (by omega) (by omega) (by omega)
      have hgap' : ¬Gapless (left - (v.take left).length) b.unread := fun hg => hgap (hrest.mp hg)
      rw [run_stringLoop (h.peek hu) hb h0]
      refine @ih { p with input := b } _ _ hbytes (by rw [List.length_drop]; omega) hgap' _ ?_
      intro hend
      rw [hend] at hgap'
      exact hgap' (gapless_zero _)

end Parser

/-! ## The flat string -/

/-- What an operation gives back. -/
inductive ParsedValue where
  | none
  | number (value : Nat)
  | text (value : Bytes)
  deriving DecidableEq

/-- The operations, with the old value of the variable that is filled. -/
inductive ParserOp where
  | integer (size out : Nat)
  | string (out : Bytes)
  | removePrefix (len : Nat)
  | truncate (len : Nat)

/-- A byte string that is read from the front. -/
structure Flat where
  bytes : Bytes
  error : Bool := false
  deriving DecidableEq

namespace Flat

/-- Read `k` bytes, if there was no error and they are there. -/
def read (f : Flat) (k : Nat) (old : ParsedValue) (value : Bytes → ParsedValue) :
    ParsedValue × Flat :=
  if f.error ∨ f.bytes.length < k then (old, { f with error := true })
  else (value (f.bytes.take k), { f with bytes := f.bytes.drop k })

def exec (f : Flat) : ParserOp → ParsedValue × Flat
  | .integer size out =>
    f.read size (.number out) fun bytes => .number (BigEndian.decodeFrom 0 bytes)
  | .string out => f.read out.length (.text out) .text
  | .removePrefix len => (.none, { f with bytes := f.bytes.drop len })
  | .truncate len => (.none, { f with bytes := f.bytes.take len })

end Flat

namespace Parser

open BufferList

def exec : ParserOp → ParseM ParsedValue
  | .integer size out => return .number (← integer size out)
  | .string out => return .text (← string out)
  | .removePrefix len => do
    removePrefix len
    return .none
  | .truncate len => do
    truncate len
    return .none

/-- Reading `k` bytes meets no empty string, or it is not tried. -/
def CanRead (p : Parser) (k : Nat) : Prop :=
  p.error = true ∨ p.input.size < k ∨ Gapless k p.input.unread

/-- The operation keeps clear of empty strings and of strings that `truncate` would resize. -/
def Careful (p : Parser) : ParserOp → Prop
  | .integer size _ => p.CanRead size
  | .string out => p.CanRead out.length
  | .removePrefix _ => True
  | .truncate len => p.input.CutsBetween len

instance (p : Parser) : ∀ op, Decidable (p.Careful op)
  | .integer .. => inferInstanceAs (Decidable (_ ∨ _ ∨ _))
  | .string _ => inferInstanceAs (Decidable (_ ∨ _ ∨ _))
  | .removePrefix _ => .isTrue trivial
  | .truncate len => inferInstanceAs (Decidable (CutsBetween _ len))

/-- The deque is the flat string. -/
structure Tracks (p : Parser) (f : Flat) : Prop where
  error : p.error = f.error
  input : p.input.Unread f.bytes

/-- A caller that asks for the rest sees the flat string. -/
def Shows (p : Parser) (f : Flat) : Prop :=
  p.error = f.error ∧ (∃ l, allRemaining.run p = .ok (l, p) ∧ l.flatten = f.bytes) ∧
    concatenateAllRemaining.run p = .ok (f.bytes, p)

variable {p p' : Parser} {f : Flat} {k : Nat} {op : ParserOp}

theorem run_allRemaining_eq {l : List Bytes} (h : p.input.dumpAll = .ok l) :
    allRemaining.run p = .ok (l, p) := by
  unfold allRemaining
  simp [h]

theorem dumpAll_of_run {l : List Bytes} (h : allRemaining.run p = .ok (l, p')) :
    p.input.dumpAll = .ok l ∧ p' = p := by
  obtain ⟨l', hl, h⟩ := bind_ok
    (show (p.input.dumpAll >>= fun l => Except.ok (l, p)) = _ from h)
  obtain ⟨rfl, rfl⟩ := pair_ok h
  exact ⟨hl, rfl⟩

theorem Tracks.shows (h : p.Tracks f) : p.Shows f := by
  obtain ⟨l, hl, hflat⟩ := h.input.dumpAll
  refine ⟨h.error, ⟨l, run_allRemaining_eq hl, hflat⟩, ?_⟩
  unfold concatenateAllRemaining
  simp [run_allRemaining_eq hl, hflat]

/-- What `integer` and `string` have in common. -/
def guarded {α : Type} (k : Nat) (old : α) (m : ParseM α) : ParseM α := do
  checkSize k
  if ← hasError then return old else m

theorem run_guarded {α : Type} (k : Nat) (old : α) (m : ParseM α) (p : Parser) :
    (guarded k old m).run p =
      if p.error = true ∨ p.input.size < k then .ok (old, { p with error := true })
      else m.run p := by
  obtain ⟨input, error⟩ := p
  unfold guarded checkSize hasError
  by_cases hsize : input.size < k <;> cases error <;> simp [hsize] <;> rfl

/-- An operation that reads, over what its loop does. -/
theorem Tracks.guarded {α : Type} {m : ParseM α} {wrap : α → ParsedValue}
    {value : Bytes → ParsedValue} (h : p.Tracks f) (hcan : p.CanRead k) (old : α)
    (hread : k ≤ f.bytes.length → Gapless k p.input.unread → ∃ a, ∃ input : BufferList,
      m.run p = .ok (a, { p with input }) ∧ wrap a = value (f.bytes.take k) ∧
        input.Unread (f.bytes.drop k)) :
    ∃ p', (wrap <$> guarded k old m).run p = .ok ((f.read k (wrap old) value).1, p') ∧
      p'.Tracks (f.read k (wrap old) value).2 := by
  have hsize := h.input.size
  unfold CanRead at hcan
  unfold Flat.read
  rw [StateT.run_map, run_guarded, ← h.error, ← hsize]
  by_cases hshort : p.error = true ∨ p.input.size < k
  · rw [if_pos hshort, if_pos hshort]
    exact ⟨_, rfl, rfl, h.input⟩
  · rw [if_neg hshort, if_neg hshort]
    have hk : k ≤ f.bytes.length := by
      rw [← hsize]
      omega
    obtain ⟨a, input, hrun, ha, hinput⟩ := hread hk (by tauto)
    rw [hrun]
    exact ⟨_, congrArg (fun v => Except.ok (v, _)) ha, rfl, hinput⟩

theorem Tracks.guarded_fault {α : Type} {m : ParseM α} {fault : WireFault} (h : p.Tracks f)
    (hcan : ¬p.CanRead k) (old : α) (wrap : α → ParsedValue)
    (hgap : k ≤ f.bytes.length → ¬Gapless k p.input.unread → m.run p = .error fault) :
    (wrap <$> Parser.guarded k old m).run p = .error fault := by
  have hsize := h.input.size
  unfold CanRead at hcan
  rw [StateT.run_map, run_guarded, if_neg (by tauto), hgap (by omega) (by tauto)]
  rfl

theorem exec_integer (size out : Nat) : exec (.integer size out) =
    ParsedValue.number <$> guarded size out (integerLoop size 0) := rfl

theorem exec_string (out : Bytes) : exec (.string out) =
    ParsedValue.text <$> guarded out.length out (stringLoop out.length out.length []) := rfl

/-- A careful operation does on the deque what it does on the flat string. -/
theorem Tracks.exec (h : p.Tracks f) (hop : p.Careful op) :
    ∃ p', (exec op).run p = .ok ((f.exec op).1, p') ∧ p'.Tracks (f.exec op).2 := by
  cases op with
  | integer size out =>
    rw [exec_integer]
    refine h.guarded hop out fun hk hgap => ?_
    obtain ⟨input, hrun, hinput⟩ := integerLoop_of_gapless h.input hk hgap 0
    exact ⟨_, input, hrun, rfl, hinput⟩
  | string out =>
    rw [exec_string]
    refine h.guarded hop out fun hk hgap => ?_
    obtain ⟨input, hrun, hinput⟩ :=
      stringLoop_of_gapless h.input hk (Nat.le_refl out.length) hgap []
    exact ⟨_, input, hrun, rfl, hinput⟩
  | removePrefix len =>
    obtain ⟨input, hi, hinput⟩ := h.input.removePrefix len
    refine ⟨{ p with input }, ?_, h.error, hinput⟩
    unfold Parser.exec
    simp [run_removePrefix hi]
    rfl
  | truncate len => exact ⟨_, rfl, h.error, h.input.truncate hop⟩

/-- An operation that is not careful faults, or it leaves other bytes. -/
theorem Tracks.careful_of_exec {v : ParsedValue} (h : p.Tracks f)
    (hrun : (Parser.exec op).run p = .ok (v, p')) (hp' : p'.Shows (f.exec op).2) :
    p.Careful op := by
  by_contra hop
  cases op with
  | integer size out =>
    rw [exec_integer, h.guarded_fault hop out .number fun hk hgap =>
      integerLoop_of_gap h.input hk hgap 0] at hrun
    cases hrun
  | string out =>
    rw [exec_string, h.guarded_fault hop out .text fun hk hgap =>
      stringLoop_of_gap h.input hk hgap _ []] at hrun
    cases hrun
  | removePrefix len => exact hop trivial
  | truncate len =>
    obtain ⟨-, rfl⟩ := pair_ok hrun
    obtain ⟨-, ⟨l, hl, hflat⟩, -⟩ := hp'
    exact hop ((h.input.dumpAll_truncate_iff (dumpAll_of_run hl).1).mp hflat)

end Parser

/-! ## Runs -/

/-- A parser beside the flat string, with what both have given back. -/
structure Comparison where
  parser : Parser
  flat : Flat
  read : List ParsedValue := []
  expected : List ParsedValue := []
  deriving DecidableEq

namespace Comparison

def start (strs : List Bytes) : Comparison where
  parser := .new strs
  flat := { bytes := strs.flatten }

def step (c : Comparison) (op : ParserOp) : Except WireFault Comparison := do
  let (value, parser) ← (Parser.exec op).run c.parser
  let (value', flat) := c.flat.exec op
  return { parser, flat, read := c.read ++ [value], expected := c.expected ++ [value'] }

/-- The operations on a deque of the given strings, in any order. -/
def machine (strs : List Bytes) : Machine Comparison ParserOp := .det (start strs) step

def Careful (c : Comparison) (op : ParserOp) : Prop := c.parser.Careful op

instance (c : Comparison) (op : ParserOp) : Decidable (c.Careful op) :=
  inferInstanceAs (Decidable (c.parser.Careful op))

/-- What a caller sees is the same: the values, the error flag and the remaining bytes. -/
def Same (c : Comparison) : Prop := c.read = c.expected ∧ c.parser.Shows c.flat

structure Inv (c : Comparison) : Prop where
  read : c.read = c.expected
  tracks : c.parser.Tracks c.flat

variable {c c' : Comparison} {op : ParserOp} {strs : List Bytes}

theorem Inv.start (strs : List Bytes) : (Comparison.start strs).Inv :=
  ⟨rfl, rfl, .ofBuffers strs⟩

theorem Inv.same (h : c.Inv) : c.Same := ⟨h.read, h.tracks.shows⟩

theorem Inv.step (h : c.Inv) (hop : c.Careful op) : ∃ c', c.step op = .ok c' ∧ c'.Inv := by
  obtain ⟨parser, hrun, htracks⟩ := h.tracks.exec hop
  refine ⟨⟨parser, (c.flat.exec op).2, _, _⟩, ?_, congrArg (· ++ [(c.flat.exec op).1]) h.read,
    htracks⟩
  unfold Comparison.step
  rw [hrun]
  rfl

theorem Inv.of_reaches (hr : (machine strs).Reaches Careful c) : c.Inv :=
  hr.invariant_det (.start strs) fun c op c' h hop hs => by
    obtain ⟨c'', hs', hinv⟩ := h.step hop
    obtain rfl : c' = c'' := Except.ok.inj (hs.symm.trans hs')
    exact hinv

theorem Inv.careful_of_step (h : c.Inv) (hs : c.step op = .ok c') (hsame : c'.Same) :
    c.Careful op := by
  obtain ⟨⟨value, parser⟩, hrun, hs⟩ := bind_ok hs
  obtain rfl := Except.ok.inj hs
  exact h.tracks.careful_of_exec hrun hsame.2

/-- In a run of careful operations the parser is the flat string, and the next operation does
without a fault what it does there just when it is careful too. -/
theorem parser_is_flat (hr : (machine strs).Reaches Careful c) :
    c.Same ∧ ∀ op, c.Careful op ↔ ∃ c', c.step op = .ok c' ∧ c'.Same := by
  have hinv : c.Inv := .of_reaches hr
  refine ⟨hinv.same, fun op => ⟨fun hop => ?_, fun ⟨c', hs, hsame⟩ =>
    hinv.careful_of_step hs hsame⟩⟩
  obtain ⟨c', hs, hinv'⟩ := hinv.step hop
  exact ⟨c', hs, hinv'.same⟩

/-- A header is read, the packet is cut behind its payload, and the payload is read. -/
theorem parser_is_flat_of_run : ∃ c : Comparison,
    (machine [[1, 2], [3, 4, 5], [], [6]]).Reaches Careful c ∧
      c.read = [.number 0x102, .none, .text [3, 4]] ∧ c.Same := by
  obtain ⟨c, hr, hread⟩ := Machine.exists_reaches step (start [[1, 2], [3, 4, 5], [], [6]]) Careful
    (fun c => c.read = [.number 0x102, .none, .text [3, 4]])
    [.integer 2 0, .truncate 3, .string [0, 0]] (by decide +kernel) (by decide +kernel)
  exact ⟨c, hr, hread, (parser_is_flat hr).1⟩

/-- Two bytes of a string of four: the resized string is erased, and to ask for the rest reads the
front of an empty deque. -/
theorem truncate_resized : ∃ c : Comparison,
    (machine [[1, 2, 3, 4]]).Reaches (fun _ _ => True) c ∧ c.flat.bytes = [1, 2] ∧
      Parser.allRemaining.run c.parser = .error .outOfBounds ∧ ¬c.Same := by
  obtain ⟨c, hr, hparser, hflat⟩ := Machine.exists_reaches step (start [[1, 2, 3, 4]])
    (fun _ _ => True) (fun c => c.parser = ⟨⟨2, [], 0⟩, false⟩ ∧ c.flat = ⟨[1, 2], false⟩)
    [.truncate 2] (by decide +kernel) (by decide +kernel)
  have hrest : Parser.allRemaining.run c.parser = .error .outOfBounds := by
    rw [hparser]
    rfl
  refine ⟨c, hr, by rw [hflat], hrest, fun hsame => ?_⟩
  obtain ⟨-, -, ⟨l, hl, -⟩, -⟩ := hsame
  rw [hrest] at hl
  cases hl

end Comparison

end Minnow
