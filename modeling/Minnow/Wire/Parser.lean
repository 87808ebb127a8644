import Minnow.ByteStream
import Minnow.Lib.BigEndian
import Minnow.Lib.Except

/-!
# The parser (`util/parser.hh`, `util/parser.cc`)

A `BufferList` is a deque of strings of which the front one is read up to `skip`. Its operations can
throw, and they read a string or the deque where there is nothing; both are a `WireFault`.

`ParseM` is a computation on a parser: it carries the error flag along, and only a fault ends it.
The C++ functions fill variables by reference and leave them as they are after an error, so
`integer` takes the old value.

`BufferList.Unread` relates a deque to the bytes that are unread, and `BufferList.Holds` says
besides that its strings are nonempty (the last one may be empty). `Reads m bytes a` is the
specification of a parser that succeeds: wherever `bytes` come first it reads them and returns `a`.
It is composed along the binds (`Reads.bind`).
-/

namespace Minnow

/-- What can stop the code that handles packets. -/
inductive WireFault where
  /-- `runtime_error`, thrown by `peek` on an empty list. -/
  | emptyBufferList
  /-- The first element of an empty view or deque. -/
  | outOfBounds
  /-- `std::out_of_range`, thrown by `substr` and `at`. -/
  | outOfRange
  /-- A shift by more bits than there are. -/
  | undefinedShift
  /-- `runtime_error`, thrown by the consistency check of an IP header. -/
  | wrongVersion
  /-- `runtime_error`, thrown by an ARP message that is not supported. -/
  | unsupportedArp
  /-- A loop that does not end. -/
  | endless
  deriving DecidableEq

/-- The fault is an exception. The others have no defined behaviour, or no end. -/
def WireFault.isException : WireFault → Bool
  | emptyBufferList | outOfRange | wrongVersion | unsupportedArp => true
  | outOfBounds | undefinedShift | endless => false

/-! ## Buffer lists -/

/-- The strings are owned. -/
structure BufferList where
  size : Nat := 0
  buffer : List Bytes := []
  skip : Nat := 0
  deriving DecidableEq

namespace BufferList

def ofBuffers (buffers : List Bytes) : BufferList where
  size := (buffers.map List.length).sum
  buffer := buffers

def peek (b : BufferList) : Except WireFault Bytes :=
  match b.buffer with
  | [] => .error .emptyBufferList
  | x :: _ => if b.skip ≤ x.length then .ok (x.drop b.skip) else .error .outOfRange

/-- The loop of `remove_prefix`, on the deque from its front on. When the front string is not used
up, nothing is left to remove. -/
def removeLoop : List Bytes → Nat → Nat → Nat → Except WireFault BufferList
  | [], size, skip, _ => .ok ⟨size, [], skip⟩
  | x :: rest, size, skip, len =>
    if len = 0 then .ok ⟨size, x :: rest, skip⟩
    else if skip ≤ x.length then
      let toPopNow := min len (x.length - skip)
      if skip + toPopNow = x.length then removeLoop rest (size - toPopNow) 0 (len - toPopNow)
      else .ok ⟨size - toPopNow, x :: rest, skip + toPopNow⟩
    else .error .outOfRange

def removePrefix (b : BufferList) (len : Nat) : Except WireFault BufferList :=
  removeLoop b.buffer b.size b.skip len

/-- The loops of `truncate`: the strings before the one in which the end falls. That one is kept if
the end is its own; otherwise it is resized, and then erased with those behind it. -/
def truncateLoop (len : Nat) : List Bytes → Nat → List Bytes
  | [], _ => []
  | x :: rest, sizeSoFar =>
    if sizeSoFar + x.length < len then x :: truncateLoop len rest (sizeSoFar + x.length)
    else if sizeSoFar + x.length = len then [x]
    else []

def truncate (b : BufferList) (len : Nat) : BufferList :=
  if b.size ≤ len then b
  else if len = 0 then { b with buffer := [], size := 0 }
  else { b with buffer := truncateLoop len b.buffer 0, size := len }

/-- The strings that are left, the front one from `skip` on. -/
def dumpAll (b : BufferList) : Except WireFault (List Bytes) :=
  if b.size = 0 then .ok []
  else match b.buffer with
    | [] => .error .outOfBounds
    | x :: rest => if b.skip ≤ x.length then .ok (x.drop b.skip :: rest) else .error .outOfRange

/-- `buffer()`: the same strings as views. -/
def views (b : BufferList) : Except WireFault (List Bytes) :=
  if b.size = 0 then .ok []
  else match b.buffer with
    | [] => .ok []
    | x :: rest => if b.skip ≤ x.length then .ok (x.drop b.skip :: rest) else .error .outOfRange

end BufferList

/-! ## Parsers -/

structure Parser where
  input : BufferList
  error : Bool := false
  deriving DecidableEq

abbrev ParseM := StateT Parser (Except WireFault)

namespace Parser

def new (buffers : List Bytes) : Parser := { input := .ofBuffers buffers }

def checkSize (size : Nat) : ParseM Unit :=
  modify fun p => if size > p.input.size then { p with error := true } else p

def hasError : ParseM Bool := return (← get).error

def setError : ParseM Unit := modify fun p => { p with error := true }

def removePrefix (n : Nat) : ParseM Unit := do
  let p ← get
  let input ← p.input.removePrefix n
  set { p with input }

def truncate (len : Nat) : ParseM Unit := modify fun p => { p with input := p.input.truncate len }

def allRemaining : ParseM (List Bytes) := do
  let p ← get
  p.input.dumpAll

def buffer : ParseM (List Bytes) := do
  let p ← get
  p.input.views

def concatenateAllRemaining : ParseM Bytes := return (← allRemaining).flatten

/-- `input_.peek().front()`. -/
def front : ParseM UInt8 := do
  let p ← get
  match ← p.input.peek with
  | [] => throw .outOfBounds
  | b :: _ => return b

/-- The loop of `integer`. -/
def integerLoop : Nat → Nat → ParseM Nat
  | 0, out => return out
  | n + 1, out => do
    let b ← front
    removePrefix 1
    integerLoop n (out <<< 8 ||| b.toNat)

/-- `integer` for a type of `size` bytes. -/
def integer (size out : Nat) : ParseM Nat := do
  checkSize size
  if ← hasError then return out else integerLoop size 0

def integer8 (out : UInt8) : ParseM UInt8 := return UInt8.ofNat (← integer 1 out.toNat)

def integer16 (out : UInt16) : ParseM UInt16 := return UInt16.ofNat (← integer 2 out.toNat)

def integer32 (out : UInt32) : ParseM UInt32 := return UInt32.ofNat (← integer 4 out.toNat)

/-- The loop of `string`. A round that copies a byte brings the end nearer; one that copies none
changes nothing, and neither do those after it. -/
def stringLoop : Nat → Nat → Bytes → ParseM Bytes
  | 0, left, out => if left = 0 then return out else throw .endless
  | rounds + 1, left, out =>
    if left = 0 then return out
    else do
      let view := (← (← get).input.peek).take left
      removePrefix view.length
      stringLoop rounds (left - view.length) (out ++ view)

def string (out : Bytes) : ParseM Bytes := do
  checkSize out.length
  if ← hasError then return out else stringLoop out.length out.length []

/-- The helper `parse` (`util/helpers.hh`): what was parsed, and whether there was no error. -/
def parse {α : Type} (m : ParseM α) (buffers : List Bytes) : Except WireFault (α × Bool) := do
  let (a, p) ← m.run (new buffers)
  return (a, !p.error)

end Parser

/-! ## What a deque holds -/

namespace BufferList

/-- What is unread of each string. -/
def unread (b : BufferList) : List Bytes :=
  match b.buffer with
  | [] => []
  | x :: rest => x.drop b.skip :: rest

/-- `bytes` are unread, and the front string is not used up unless it is empty. -/
structure Unread (b : BufferList) (bytes : Bytes) : Prop where
  size : b.size = bytes.length
  bytes : b.unread.flatten = bytes
  front : ∀ x ∈ b.buffer.head?, b.skip = 0 ∨ b.skip < x.length

/-- Only the last string may be empty. -/
def Solid (l : List Bytes) : Prop := ∀ x ∈ l.dropLast, x ≠ []

/-- The unread bytes. The front string is not used up, unless it is the last one and empty. -/
structure Holds (b : BufferList) (bytes : Bytes) : Prop where
  size : b.size = bytes.length
  solid : Solid b.buffer
  bytes : bytes = b.buffer.flatten.drop b.skip
  skip : b.skip = 0 ∨ ∃ x rest, b.buffer = x :: rest ∧ b.skip < x.length

variable {b : BufferList} {bytes v x : Bytes} {l l' vs : List Bytes}

theorem Unread.ofBuffers (l : List Bytes) : (ofBuffers l).Unread l.flatten where
  size := by simp [BufferList.ofBuffers, List.length_flatten]
  bytes := by cases l <;> rfl
  front := fun _ _ => .inl rfl

theorem Unread.skip_le (h : b.Unread bytes) {x : Bytes} {rest : List Bytes}
    (hb : b.buffer = x :: rest) : b.skip ≤ x.length := by
  have := h.front x (by rw [hb]; rfl)
  omega

theorem Unread.peek (h : b.Unread bytes) (hu : b.unread = v :: vs) : b.peek = .ok v := by
  unfold unread at hu
  unfold BufferList.peek
  cases hb : b.buffer with
  | nil => simp [hb] at hu
  | cons x rest =>
    rw [hb] at hu
    obtain ⟨rfl, -⟩ := List.cons.inj hu
    exact if_pos (h.skip_le hb)

/-- Removing from the front: what is left are the bytes behind. -/
theorem removeLoop_unread {size skip len : Nat} (h : Unread ⟨size, l, skip⟩ bytes) :
    ∃ b, removeLoop l size skip len = .ok b ∧ b.Unread (bytes.drop len) := by
  induction l generalizing size skip len bytes with
  | nil =>
    have hnil : bytes = [] := h.bytes.symm
    subst hnil
    exact ⟨_, rfl, by simpa using h⟩
  | cons x rest ih =>
    have hle : skip ≤ x.length := h.skip_le rfl
    have hbytes : x.drop skip ++ rest.flatten = bytes := h.bytes
    have hsize : size = x.length - skip + rest.flatten.length := by
      rw [← List.length_drop, ← List.length_append, hbytes]
      exact h.size
    unfold removeLoop
    by_cases h0 : len = 0
    · rw [if_pos h0, h0]
      exact ⟨_, rfl, h⟩
    · rw [if_neg h0, if_pos hle]
      dsimp only
      by_cases hall : skip + min len (x.length - skip) = x.length
      · -- the front string is used up
        rw [if_pos hall]
        have hnext : Unread ⟨size - min len (x.length - skip), rest, 0⟩ rest.flatten :=
          ⟨by simp only; omega, by cases rest <;> rfl, fun _ _ => .inl rfl⟩
        obtain ⟨b, hb, hunread⟩ := @ih _ _ 0 (len - min len (x.length - skip)) hnext
        refine ⟨b, hb, ?_⟩
        rw [← hbytes, List.drop_append, List.drop_of_length_le (by rw [List.length_drop]; omega),
          List.nil_append, List.length_drop]
        rwa [show len - (x.length - skip) = len - min len (x.length - skip) by omega]
      · rw [if_neg hall]
        have hmin : min len (x.length - skip) = len := by omega
        refine ⟨_, rfl, ⟨?_, ?_, ?_⟩⟩
        · rw [List.length_drop, ← hbytes, List.length_append, List.length_drop]
          simp only
          omega
        · show x.drop (skip + min len (x.length - skip)) ++ rest.flatten = _
          rw [← hbytes, List.drop_append_of_le_length (by rw [List.length_drop]; omega),
            List.drop_drop, hmin]
        · intro y hy
          obtain rfl := Option.some.inj hy
          exact .inr (by simp only; omega)

theorem Unread.removePrefix (h : b.Unread bytes) (len : Nat) :
    ∃ b', b.removePrefix len = .ok b' ∧ b'.Unread (bytes.drop len) :=
  removeLoop_unread h

theorem Unread.dumpAll (h : b.Unread bytes) : ∃ l, b.dumpAll = .ok l ∧ l.flatten = bytes := by
  have hsize := h.size
  have hbytes := h.bytes
  unfold BufferList.dumpAll
  unfold unread at hbytes
  by_cases h0 : b.size = 0
  · rw [if_pos h0]
    exact ⟨[], rfl, (List.length_eq_zero_iff.mp (hsize.symm.trans h0)).symm⟩
  · rw [if_neg h0]
    cases hb : b.buffer with
    | nil =>
      rw [hb] at hbytes
      rw [hsize, ← hbytes] at h0
      exact absurd rfl h0
    | cons x rest =>
      rw [hb] at hbytes
      exact ⟨_, if_pos (h.skip_le hb), hbytes⟩

theorem Solid.tail (h : Solid (x :: l)) : Solid l := by
  cases l with
  | nil => exact fun y hy => absurd hy List.not_mem_nil
  | cons y l => exact fun z hz => h z (List.mem_cons_of_mem _ hz)

theorem Solid.suffix (h : Solid l) (hs : l' <:+ l) : Solid l' := by
  obtain ⟨front, rfl⟩ := hs
  induction front with
  | nil => exact h
  | cons x front ih => exact ih h.tail

theorem Holds.ofBuffers (h : Solid l) : Holds (ofBuffers l) l.flatten where
  size := by simp [BufferList.ofBuffers, List.length_flatten]
  solid := h
  bytes := rfl
  skip := .inl rfl

/-- The front string has a byte as long as there is one to read. -/
theorem Holds.front {c : UInt8} (h : Holds b (c :: bytes)) : ∃ x rest, b.buffer = x :: rest ∧
    b.skip < x.length ∧ x.drop b.skip ++ rest.flatten = c :: bytes := by
  have hbytes := h.bytes
  rcases h.skip with h0 | ⟨x, rest, hb, hlt⟩
  · cases hb : b.buffer with
    | nil =>
      rw [hb] at hbytes
      simp at hbytes
    | cons x rest =>
      rw [hb, h0] at hbytes
      refine ⟨x, rest, rfl, ?_, by rw [h0]; exact hbytes.symm⟩
      rw [h0, List.length_pos_iff]
      rintro rfl
      cases rest with
      | nil => simp at hbytes
      | cons y rest =>
        refine h.solid [] ?_ rfl
        rw [hb]
        exact List.mem_cons_self
  · refine ⟨x, rest, hb, hlt, ?_⟩
    rw [hbytes, hb, List.flatten_cons, List.drop_append_of_le_length (Nat.le_of_lt hlt)]

theorem Holds.peek {c : UInt8} (h : Holds b (c :: bytes)) : ∃ v, b.peek = .ok (c :: v) := by
  obtain ⟨x, rest, hb, hlt, hbytes⟩ := h.front
  have hdrop : x.drop b.skip = x[b.skip] :: x.drop (b.skip + 1) := List.drop_eq_getElem_cons hlt
  rw [hdrop, List.cons_append] at hbytes
  unfold BufferList.peek
  rw [hb]
  dsimp only
  rw [if_pos (Nat.le_of_lt hlt), hdrop, (List.cons.inj hbytes).1]
  exact ⟨_, rfl⟩

theorem Holds.unread (h : b.Holds bytes) : b.Unread bytes := by
  have hbytes := h.bytes
  refine ⟨h.size, ?_, fun x hx => ?_⟩
  · unfold BufferList.unread
    cases hb : b.buffer with
    | nil => simpa [hb] using hbytes.symm
    | cons x rest =>
      have hle : b.skip ≤ x.length := by
        rcases h.skip with h0 | ⟨y, rest', hy, hlt⟩
        · omega
        · obtain ⟨rfl, -⟩ := List.cons.inj (hb.symm.trans hy)
          exact Nat.le_of_lt hlt
      rw [hbytes, hb, List.flatten_cons, List.flatten_cons, List.drop_append_of_le_length hle]
  · rcases h.skip with h0 | ⟨y, rest, hy, hlt⟩
    · exact .inl h0
    · rw [hy] at hx
      obtain rfl := Option.some.inj hx
      exact .inr hlt

theorem Unread.holds (h : b.Unread bytes) (hs : Solid b.buffer)
    (h0 : b.buffer = [] → b.skip = 0) : b.Holds bytes := by
  have hbytes := h.bytes
  unfold BufferList.unread at hbytes
  cases hb : b.buffer with
  | nil => exact ⟨h.size, hs, by simpa [hb] using hbytes.symm, .inl (h0 hb)⟩
  | cons x rest =>
    rw [hb] at hbytes
    refine ⟨h.size, hs, ?_, ?_⟩
    · rw [← hbytes, hb, List.flatten_cons, List.flatten_cons,
        List.drop_append_of_le_length (h.skip_le hb)]
    · rcases h.front x (by rw [hb]; rfl) with h0 | hlt
      · exact .inl h0
      · exact .inr ⟨x, rest, hb, hlt⟩

/-- The strings that are left are the last ones. -/
theorem removeLoop_suffix {size skip len : Nat} (h : removeLoop l size skip len = .ok b)
    (h0 : l = [] → skip = 0) : b.buffer <:+ l ∧ (b.buffer = [] → b.skip = 0) := by
  induction l generalizing size skip len with
  | nil =>
    obtain rfl := Except.ok.inj h
    exact ⟨List.suffix_rfl, fun _ => h0 rfl⟩
  | cons x rest ih =>
    unfold removeLoop at h
    dsimp only at h
    split_ifs at h
    · obtain rfl := Except.ok.inj h
      exact ⟨List.suffix_rfl, nofun⟩
    · obtain ⟨hsuffix, hskip⟩ := ih h fun _ => rfl
      exact ⟨hsuffix.trans (List.suffix_cons x rest), hskip⟩
    · obtain rfl := Except.ok.inj h
      exact ⟨List.suffix_rfl, nofun⟩

theorem Holds.skip_zero (h : b.Holds bytes) (hb : b.buffer = []) : b.skip = 0 := by
  rcases h.skip with h0 | ⟨x, rest, hx, -⟩
  · exact h0
  · rw [hb] at hx
    cases hx

theorem Holds.removePrefix (h : Holds b bytes) (len : Nat) :
    ∃ b', b.removePrefix len = .ok b' ∧ b'.Holds (bytes.drop len) := by
  obtain ⟨b', hb', hunread⟩ := h.unread.removePrefix len
  obtain ⟨hsuffix, hskip⟩ := removeLoop_suffix hb' h.skip_zero
  exact ⟨b', hb', hunread.holds (h.solid.suffix hsuffix) hskip⟩

theorem Holds.truncate_of_le (h : Holds b bytes) {len : Nat} (hlen : bytes.length ≤ len) :
    b.truncate len = b :=
  if_pos (h.size ▸ hlen)

/-- The front string from `skip` on, and the strings behind it. -/
theorem Holds.strings (h : Holds b bytes) (hne : bytes ≠ []) : ∃ x rest, b.buffer = x :: rest ∧
    b.size ≠ 0 ∧ b.skip ≤ x.length ∧ (x.drop b.skip :: rest).flatten = bytes ∧
    Solid (x.drop b.skip :: rest) := by
  cases bytes with
  | nil => exact absurd rfl hne
  | cons c bytes =>
    obtain ⟨x, rest, hb, hlt, hbytes⟩ := h.front
    refine ⟨x, rest, hb, ?_, Nat.le_of_lt hlt, by rw [List.flatten_cons, hbytes], ?_⟩
    · rw [h.size]
      simp
    · intro y hy
      cases rest with
      | nil => exact absurd hy List.not_mem_nil
      | cons z rest =>
        rcases List.mem_cons.mp hy with rfl | hy
        · rw [Ne, List.drop_eq_nil_iff]
          omega
        · exact h.solid y (by rw [hb]; exact List.mem_cons_of_mem _ hy)

theorem Holds.views (h : Holds b bytes) : ∃ l, b.views = .ok l ∧ l.flatten = bytes := by
  unfold BufferList.views
  by_cases hne : bytes = []
  · rw [if_pos (by rw [h.size, hne]; rfl), hne]
    exact ⟨[], rfl, rfl⟩
  · obtain ⟨x, rest, hb, hsize, hle, hflat, -⟩ := h.strings hne
    rw [if_neg hsize, hb]
    exact ⟨_, if_pos hle, hflat⟩

theorem Holds.dumpAll (h : Holds b bytes) :
    ∃ l, b.dumpAll = .ok l ∧ l.flatten = bytes ∧ Solid l := by
  unfold BufferList.dumpAll
  by_cases hne : bytes = []
  · rw [if_pos (by rw [h.size, hne]; rfl), hne]
    exact ⟨[], rfl, rfl, fun x hx => absurd hx List.not_mem_nil⟩
  · obtain ⟨x, rest, hb, hsize, hle, hflat, hsolid⟩ := h.strings hne
    rw [if_neg hsize, hb]
    exact ⟨_, if_pos hle, hflat, hsolid⟩

end BufferList

/-! ## What a parser reads -/

namespace Parser

structure Holds (p : Parser) (bytes : Bytes) : Prop where
  error : p.error = false
  input : p.input.Holds bytes

/-- Where `bytes` come first, `m` reads them and returns `a`. -/
def Reads {α : Type} (m : ParseM α) (bytes : Bytes) (a : α) : Prop :=
  ∀ p rest, Holds p (bytes ++ rest) → ∃ p', m.run p = .ok (a, p') ∧ p'.Holds rest

variable {α β : Type} {m : ParseM α} {f : α → ParseM β} {bytes bytes' : Bytes} {a : α} {b : β}
  {p : Parser} {input : BufferList} {v : Bytes} {n : Nat}

theorem Holds.new {l : List Bytes} (h : BufferList.Solid l) : Holds (new l) l.flatten where
  error := rfl
  input := .ofBuffers h

/-- What was specified for a parser holds of one that starts on such a list. -/
theorem Reads.run_new {l : List Bytes} {rest : Bytes} (hm : Reads m bytes a)
    (hl : BufferList.Solid l) (h : l.flatten = bytes ++ rest) :
    ∃ p, m.run (Parser.new l) = .ok (a, p) ∧ p.Holds rest :=
  hm (Parser.new l) rest (h ▸ .new hl)

theorem Reads.pure (a : α) : Reads (pure a) [] a := fun p _ h => ⟨p, rfl, h⟩

theorem Reads.bind (hm : Reads m bytes a) (hf : Reads (f a) bytes' b) :
    Reads (m >>= f) (bytes ++ bytes') b := by
  intro p rest h
  rw [List.append_assoc] at h
  obtain ⟨p₁, h₁, hp₁⟩ := hm p _ h
  obtain ⟨p₂, h₂, hp₂⟩ := hf p₁ rest hp₁
  refine ⟨p₂, ?_, hp₂⟩
  rw [StateT.run_bind, h₁]
  exact h₂

theorem Reads.map (g : α → β) (hm : Reads m bytes a) : Reads (g <$> m) bytes (g a) := by
  intro p rest h
  obtain ⟨p', hp', hrest⟩ := hm p rest h
  refine ⟨p', ?_, hrest⟩
  rw [StateT.run_map, hp']
  rfl

theorem run_hasError (h : Holds p bytes) : hasError.run p = .ok (false, p) := by
  show Except.ok (p.error, p) = _
  rw [h.error]

theorem run_removePrefix (h : p.input.removePrefix n = .ok input) :
    (removePrefix n).run p = .ok ((), { p with input }) := by
  unfold removePrefix
  simp [h]

theorem run_front_cons {c : UInt8} (h : p.input.peek = .ok (c :: v)) :
    front.run p = .ok (c, p) := by
  unfold front
  simp [h]
  rfl

theorem reads_front (c : UInt8) (rest : Bytes) (h : Holds p (c :: rest)) :
    front.run p = .ok (c, p) := by
  obtain ⟨v, hv⟩ := h.input.peek
  exact run_front_cons hv

/-- Removing bytes that are there. -/
theorem reads_removePrefix (bytes : Bytes) :
    Reads (removePrefix bytes.length) bytes () := fun p rest h => by
  obtain ⟨input, hi, hrest⟩ := h.input.removePrefix bytes.length
  rw [List.drop_left] at hrest
  exact ⟨{ p with input }, run_removePrefix hi, h.error, hrest⟩

theorem reads_integerLoop (out : Nat) :
    Reads (integerLoop bytes.length out) bytes (BigEndian.decodeFrom out bytes) := by
  induction bytes generalizing out with
  | nil => exact .pure out
  | cons c bytes ih =>
    intro p rest h
    obtain ⟨p₁, h₁, hp₁⟩ := reads_removePrefix [c] p _ h
    obtain ⟨p₂, h₂, hp₂⟩ := ih (out <<< 8 ||| c.toNat) p₁ rest hp₁
    refine ⟨p₂, ?_, hp₂⟩
    rw [List.length_cons, integerLoop, StateT.run_bind, reads_front c _ h]
    show ((removePrefix 1).run p >>= fun x => (integerLoop bytes.length _).run x.2) = _
    rw [show (removePrefix 1).run p = _ from h₁]
    exact h₂

theorem reads_integer (bytes : Bytes) (out : Nat) :
    Reads (integer bytes.length out) bytes (BigEndian.decodeFrom 0 bytes) := by
  intro p rest h
  have hsize : ¬bytes.length > p.input.size := by
    rw [h.input.size, List.length_append]
    omega
  obtain ⟨p', hp', hrest⟩ := reads_integerLoop 0 p rest h
  refine ⟨p', ?_, hrest⟩
  unfold integer checkSize hasError
  simpa [hsize, h.error] using hp'

theorem reads_integer8 (old v : UInt8) :
    Reads (integer8 old) (BigEndian.encode 1 v.toNat) v := by
  have h := (reads_integer (BigEndian.encode 1 v.toNat) old.toNat).map UInt8.ofNat
  rw [BigEndian.decode_encode v.toNat_lt, UInt8.ofNat_toNat, BigEndian.encode_length] at h
  exact h

theorem reads_integer16 (old v : UInt16) :
    Reads (integer16 old) (BigEndian.encode 2 v.toNat) v := by
  have h := (reads_integer (BigEndian.encode 2 v.toNat) old.toNat).map UInt16.ofNat
  rw [BigEndian.decode_encode v.toNat_lt, UInt16.ofNat_toNat, BigEndian.encode_length] at h
  exact h

theorem reads_integer32 (old v : UInt32) :
    Reads (integer32 old) (BigEndian.encode 4 v.toNat) v := by
  have h := (reads_integer (BigEndian.encode 4 v.toNat) old.toNat).map UInt32.ofNat
  rw [BigEndian.decode_encode v.toNat_lt, UInt32.ofNat_toNat, BigEndian.encode_length] at h
  exact h

/-! ## The rest of the bytes -/

theorem run_truncate (h : Holds p bytes) {len : Nat} (hlen : bytes.length ≤ len) :
    (truncate len).run p = .ok ((), p) := by
  show Except.ok ((), { p with input := p.input.truncate len }) = _
  rw [h.input.truncate_of_le hlen]

theorem run_buffer (h : Holds p bytes) :
    ∃ l, buffer.run p = .ok (l, p) ∧ l.flatten = bytes := by
  obtain ⟨l, hl, hflat⟩ := h.input.views
  refine ⟨l, ?_, hflat⟩
  unfold buffer
  simp [hl]

theorem run_allRemaining (h : Holds p bytes) :
    ∃ l, allRemaining.run p = .ok (l, p) ∧ l.flatten = bytes ∧ BufferList.Solid l := by
  obtain ⟨l, hl, hflat, hsolid⟩ := h.input.dumpAll
  refine ⟨l, ?_, hflat, hsolid⟩
  unfold allRemaining
  simp [hl]

theorem run_concatenateAllRemaining (h : Holds p bytes) :
    concatenateAllRemaining.run p = .ok (bytes, p) := by
  obtain ⟨l, hl, hflat, -⟩ := run_allRemaining h
  unfold concatenateAllRemaining
  simp [hl, hflat]

end Parser

end Minnow
