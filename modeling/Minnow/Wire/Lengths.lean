import Minnow.Wire.Forwarding
import Minnow.Wire.TCPSegment

/-!
# Declared lengths

An IPv4 header says how long it is and how long the datagram is; a TCP header says how long it is.
`remove_prefix` and `truncate` take these lengths as they come: where there are fewer bytes than a
length says, `remove_prefix` removes those that are there and `truncate` removes none. So a datagram
is accepted with a length that its bytes do not have. Where there are more, `truncate` keeps the
right ones just when the header and the datagram end where a string of the deque ends (`Boundary`),
or there is no payload to keep.

`At` is the position of a deque in the strings it was made of. `Scans` is the specification of a
parser that reads from one position to another, whatever the strings are.
-/

namespace Minnow

/-- Some of the first strings are together `n` bytes long. -/
def Boundary (strs : List Bytes) (n : Nat) : Prop :=
  ∃ i ≤ strs.length, (strs.take i).flatten.length = n

instance (strs : List Bytes) (n : Nat) : Decidable (Boundary strs n) :=
  inferInstanceAs (Decidable (∃ i, i ≤ strs.length ∧ _))

section Boundary

variable {front l rest : List Bytes} {x : Bytes} {n : Nat}

theorem boundary_append :
    Boundary (front ++ l) (front.flatten.length + n) ↔ Boundary l n := by
  constructor
  · rintro ⟨i, hi, hlen⟩
    rw [List.length_append] at hi
    rw [List.take_append, List.flatten_append, List.length_append] at hlen
    by_cases hfront : i ≤ front.length
    · have hle : (front.take i).flatten.length ≤ front.flatten.length :=
        ((List.take_sublist i front).flatten).length_le
      rw [Nat.sub_eq_zero_of_le hfront, List.take_zero, List.flatten_nil, List.length_nil] at hlen
      exact ⟨0, Nat.zero_le _, by simp; omega⟩
    · rw [List.take_of_length_le (by omega)] at hlen
      exact ⟨i - front.length, by omega, by omega⟩
  · rintro ⟨i, hi, hlen⟩
    refine ⟨front.length + i, by rw [List.length_append]; omega, ?_⟩
    rw [List.take_append, List.take_of_length_le (by omega), List.flatten_append,
      List.length_append, Nat.add_sub_cancel_left, hlen]

/-- No string ends inside the first one. -/
theorem boundary_cons_of_lt (h : n < x.length) : Boundary (x :: rest) n ↔ n = 0 := by
  constructor
  · rintro ⟨i, -, hlen⟩
    cases i with
    | zero => exact hlen.symm
    | succ i =>
      rw [List.take_succ_cons, List.flatten_cons, List.length_append] at hlen
      omega
  · rintro rfl
    exact ⟨0, Nat.zero_le _, rfl⟩

end Boundary

namespace BufferList

/-- The deque holds the strings from byte `i` on. -/
structure At (b : BufferList) (strs : List Bytes) (i : Nat) : Prop where
  le : i ≤ strs.flatten.length
  unread : b.Unread (strs.flatten.drop i)
  suffix : b.buffer <:+ strs
  skip : b.buffer = [] → b.skip = 0

variable {b b' : BufferList} {strs : List Bytes} {i n : Nat}

theorem At.ofBuffers (strs : List Bytes) : (ofBuffers strs).At strs 0 where
  le := Nat.zero_le _
  unread := .ofBuffers strs
  suffix := List.suffix_rfl
  skip _ := rfl

theorem At.removePrefix (h : b.At strs i) (hle : i + n ≤ strs.flatten.length) :
    ∃ b', b.removePrefix n = .ok b' ∧ b'.At strs (i + n) := by
  obtain ⟨b', hb', hunread⟩ := h.unread.removePrefix n
  obtain ⟨hsuffix, hskip⟩ := removeLoop_suffix hb' h.skip
  rw [List.drop_drop] at hunread
  exact ⟨b', hb', hle, hunread, hsuffix.trans h.suffix, hskip⟩

/-- What is read of the front string is what lies between its start and the position. -/
theorem At.split (h : b.At strs i) (hlt : i < strs.flatten.length) : ∃ front x rest,
    b.buffer = x :: rest ∧ strs = front ++ x :: rest ∧ i = front.flatten.length + b.skip ∧
      (b.skip = 0 ∨ b.skip < x.length) := by
  obtain ⟨front, hstrs⟩ := h.suffix
  have hbytes := h.unread.bytes
  have hlen := congrArg List.length hstrs
  cases hb : b.buffer with
  | nil =>
    have hnil : strs.flatten.drop i = [] := by
      rw [← hbytes]
      unfold BufferList.unread
      rw [hb]
      rfl
    rw [List.drop_eq_nil_iff] at hnil
    omega
  | cons x rest =>
    have hfront := h.unread.front x (by rw [hb]; rfl)
    rw [hb] at hstrs
    refine ⟨front, x, rest, rfl, hstrs.symm, ?_, hfront⟩
    unfold BufferList.unread at hbytes
    rw [hb, ← hstrs] at hbytes
    have hcount := congrArg List.length hbytes
    rw [← hstrs] at hlt
    simp only [List.flatten_cons, List.flatten_append, List.length_append, List.length_drop]
      at hcount hlt
    omega

/-- Cutting between two strings, in terms of the strings that the deque was made of. -/
theorem At.cutsBetween_iff (h : b.At strs i) (hle : i + n ≤ strs.flatten.length) :
    b.CutsBetween n ↔ i + n = strs.flatten.length ∨ n = 0 ∨
      Boundary strs i ∧ Boundary strs (i + n) := by
  have hsize := h.unread.size
  rw [List.length_drop] at hsize
  unfold CutsBetween
  by_cases hall : i + n = strs.flatten.length
  · exact iff_of_true (.inl (by omega)) (.inl hall)
  by_cases h0 : n = 0
  · exact iff_of_true (.inr (.inl h0)) (.inr (.inl h0))
  obtain ⟨front, x, rest, hb, rfl, rfl, hskip⟩ := h.split (by omega)
  rw [or_iff_right (show ¬b.size ≤ n by omega), or_iff_right hall, or_iff_right h0, or_iff_right h0,
    Nat.add_assoc, boundary_append, boundary_append, hb]
  rcases hskip with h0 | hlt
  · rw [h0, Nat.zero_add]
    exact and_congr_left' (iff_of_true rfl ⟨0, Nat.zero_le _, rfl⟩)
  · rw [boundary_cons_of_lt hlt]
    refine and_congr_right fun h0 => ?_
    rw [h0, Nat.zero_add]
    exact Iff.rfl

end BufferList

namespace Parser

open BufferList

variable {α β : Type} {m : ParseM α} {f : α → ParseM β} {P : α → Prop} {Q : β → Prop}
  {p p' : Parser} {strs : List Bytes} {i j k : Nat}

/-- `m` does not take an error back. If it returns from position `i` without one, it has come to
position `j`, and what it returns has the property `P`. -/
structure Scans (strs : List Bytes) (i j : Nat) (m : ParseM α) (P : α → Prop) : Prop where
  error : ∀ ⦃p a p'⦄, m.run p = .ok (a, p') → p'.error = false → p.error = false
  scan : ∀ ⦃p a p'⦄, p.input.At strs i → m.run p = .ok (a, p') → p'.error = false →
    P a ∧ p'.input.At strs j

theorem Scans.pure {a : α} (h : P a) : Scans strs i i (pure a) P where
  error p a' p' hrun herr := by
    obtain ⟨-, rfl⟩ := pair_ok hrun
    exact herr
  scan p a' p' hp hrun _ := by
    obtain ⟨rfl, rfl⟩ := pair_ok hrun
    exact ⟨h, hp⟩

/-- What the first part returns is known to the property of the second one only, since without the
property of the first there may be an error to pass on. -/
theorem Scans.bind (hm : Scans strs i j m P)
    (hf : ∀ a, Scans strs j k (f a) fun b => P a → Q b) : Scans strs i k (m >>= f) Q where
  error p b p' hrun herr := by
    rw [StateT.run_bind] at hrun
    obtain ⟨⟨a, p₁⟩, hm₁, hf₁⟩ := bind_ok hrun
    exact hm.error hm₁ ((hf a).error hf₁ herr)
  scan p b p' hp hrun herr := by
    rw [StateT.run_bind] at hrun
    obtain ⟨⟨a, p₁⟩, hm₁, hf₁⟩ := bind_ok hrun
    obtain ⟨ha, hp₁⟩ := hm.scan hp hm₁ ((hf a).error hf₁ herr)
    obtain ⟨hb, hp'⟩ := (hf a).scan hp₁ hf₁ herr
    exact ⟨hb ha, hp'⟩

theorem front_ok {c : UInt8} (h : front.run p = .ok (c, p')) : p' = p := by
  cases hpeek : p.input.peek with
  | error e =>
    have herr : front.run p = .error e := by
      unfold front
      simp [hpeek]
      rfl
    rw [herr] at h
    cases h
  | ok v =>
    cases v with
    | nil =>
      rw [run_front_nil hpeek] at h
      cases h
    | cons b v =>
      rw [run_front_cons hpeek] at h
      exact (pair_ok h).2.symm

theorem removePrefix_ok {n : Nat} (h : (removePrefix n).run p = .ok ((), p')) :
    ∃ input, p.input.removePrefix n = .ok input ∧ p' = { p with input } := by
  cases hremove : p.input.removePrefix n with
  | error e =>
    have herr : (removePrefix n).run p = .error e := by
      unfold removePrefix
      simp [hremove]
    rw [herr] at h
    cases h
  | ok input =>
    rw [run_removePrefix hremove] at h
    exact ⟨input, rfl, (pair_ok h).2.symm⟩

/-- A parser that gives up. -/
theorem error_of_setError {a b : α}
    (h : (do setError; return a : ParseM α).run p = .ok (b, p')) : p'.error = true := by
  have hstop : (do setError; return a : ParseM α).run p = .ok (a, { p with error := true }) := rfl
  obtain ⟨-, rfl⟩ := pair_ok (hstop.symm.trans h)
  rfl

theorem buffer_ok {l : List Bytes} (h : buffer.run p = .ok (l, p')) : p' = p := by
  obtain ⟨l', -, h⟩ := bind_ok (show (p.input.views >>= fun l => Except.ok (l, p)) = _ from h)
  exact (pair_ok h).2.symm

/-- The loop of `integer` keeps the error flag, and takes strings off the front. -/
theorem integerLoop_ok {k out v : Nat} (h : (integerLoop k out).run p = .ok (v, p'))
    (h0 : p.input.buffer = [] → p.input.skip = 0) : p'.error = p.error ∧
      p'.input.buffer <:+ p.input.buffer ∧ (p'.input.buffer = [] → p'.input.skip = 0) := by
  induction k generalizing p out with
  | zero =>
    obtain ⟨-, rfl⟩ := pair_ok h
    exact ⟨rfl, List.suffix_rfl, h0⟩
  | succ k ih =>
    rw [integerLoop, StateT.run_bind] at h
    obtain ⟨⟨c, p₁⟩, hfront, hrest⟩ := bind_ok h
    obtain rfl := front_ok hfront
    obtain ⟨⟨_, p₂⟩, hremove, hloop⟩ := bind_ok
      (show ((removePrefix 1).run p₁ >>= fun x => (integerLoop k _).run x.2) = _ from hrest)
    obtain ⟨input, hinput, rfl⟩ := removePrefix_ok hremove
    obtain ⟨hsuffix, hskip⟩ := removeLoop_suffix hinput h0
    obtain ⟨herr, hsuffix', hskip'⟩ := ih hloop hskip
    exact ⟨herr, hsuffix'.trans hsuffix, hskip'⟩

theorem scans_integer (strs : List Bytes) (i size out : Nat) :
    Scans strs i (i + size) (integer size out) fun v => i + size ≤ strs.flatten.length ∧
      v = BigEndian.decodeFrom 0 ((strs.flatten.drop i).take size) where
  error p v p' hrun herr := by
    have hguard : (guarded size out (integerLoop size 0)).run p = .ok (v, p') := hrun
    rw [run_guarded] at hguard
    split at hguard
    · obtain ⟨-, rfl⟩ := pair_ok hguard
      cases herr
    · rename_i hok
      exact Bool.eq_false_of_not_eq_true fun hp => hok (.inl hp)
  scan p v p' hp hrun herr := by
    have hguard : (guarded size out (integerLoop size 0)).run p = .ok (v, p') := hrun
    have hsize := hp.unread.size
    rw [List.length_drop] at hsize
    rw [run_guarded] at hguard
    split at hguard
    · obtain ⟨-, rfl⟩ := pair_ok hguard
      cases herr
    · have hle : size ≤ (strs.flatten.drop i).length := by
        rw [List.length_drop]
        omega
      obtain ⟨-, hsuffix, hskip⟩ := integerLoop_ok hguard hp.skip
      by_cases hgap : Gapless size p.input.unread
      · obtain ⟨input, hloop, hinput⟩ := integerLoop_of_gapless hp.unread hle hgap 0
        obtain ⟨rfl, rfl⟩ := pair_ok (hguard.symm.trans hloop)
        rw [List.length_drop] at hle
        rw [List.drop_drop] at hinput
        have hend : i + size ≤ strs.flatten.length := by
          have := hp.le
          omega
        exact ⟨⟨hend, rfl⟩, hend, hinput, hsuffix.trans hp.suffix, hskip⟩
      · rw [integerLoop_of_gap hp.unread hle hgap] at hguard
        cases hguard

theorem take_one {l : Bytes} (h : i + 1 ≤ l.length) : (l.drop i).take 1 = [l.getD i 0] := by
  rw [List.drop_eq_getElem_cons h, List.take_succ_cons, List.take_zero,
    List.getD_eq_getElem _ _ h]

theorem take_two {l : Bytes} (h : i + 2 ≤ l.length) :
    (l.drop i).take 2 = [l.getD i 0, l.getD (i + 1) 0] := by
  rw [List.drop_eq_getElem_cons (show i < l.length by omega), List.take_succ_cons,
    take_one (by omega), List.getD_eq_getElem _ _ (show i < l.length by omega)]

/-- A byte that is read is the one at the position. -/
theorem scans_integer8 (strs : List Bytes) (i : Nat) (out : UInt8) :
    Scans strs i (i + 1) (integer8 out) fun v => v = strs.flatten.getD i 0 := by
  refine (scans_integer strs i 1 out.toNat).bind fun v => .pure fun ⟨hle, hv⟩ => ?_
  rw [hv, take_one hle]
  simp [BigEndian.decodeFrom]

/-- Two bytes in network order. -/
def word16 (bytes : Bytes) (i : Nat) : Nat :=
  (bytes.getD i 0).toNat * 2 ^ 8 + (bytes.getD (i + 1) 0).toNat

theorem scans_integer16 (strs : List Bytes) (i : Nat) (out : UInt16) :
    Scans strs i (i + 2) (integer16 out) fun v => v.toNat = word16 strs.flatten i := by
  refine (scans_integer strs i 2 out.toNat).bind fun v => .pure fun ⟨hle, hv⟩ => ?_
  have hhigh := (strs.flatten.getD i 0).toNat_lt
  have hlow := (strs.flatten.getD (i + 1) 0).toNat_lt
  have hword : v = word16 strs.flatten i := by
    rw [hv, take_two hle]
    simp only [BigEndian.decodeFrom, List.foldl_cons, List.foldl_nil, BigEndian.shift_or]
    unfold word16
    omega
  rw [toNat_ofNat16 (by unfold word16 at hword; omega), hword]

theorem scans_integer32 (strs : List Bytes) (i : Nat) (out : UInt32) :
    Scans strs i (i + 4) (integer32 out) fun _ => True :=
  (scans_integer strs i 4 out.toNat).bind fun _ => .pure fun _ => trivial

end Parser

/-! ## IPv4 -/

namespace IPv4Header

/-- The length of the header in bytes, as its first byte says. -/
def declaredHeader (bytes : Bytes) : Nat := 4 * ((bytes.getD 0 0).toNat % 16)

/-- The length of the datagram, as its header says. -/
def declaredTotal (bytes : Bytes) : Nat := Parser.word16 bytes 2

theorem scans_parseFields (old : IPv4Header) (strs : List Bytes) :
    Parser.Scans strs 0 length old.parseFields fun h =>
      4 * h.hlen.toNat = declaredHeader strs.flatten ∧
        h.len.toNat = declaredTotal strs.flatten := by
  unfold parseFields
  refine (Parser.scans_integer8 _ _ _).bind fun firstByte => ?_
  refine (Parser.scans_integer8 _ _ _).bind fun _ => ?_
  refine (Parser.scans_integer16 _ _ _).bind fun _ => ?_
  refine (Parser.scans_integer16 _ _ _).bind fun _ => ?_
  refine (Parser.scans_integer16 _ _ _).bind fun _ => ?_
  refine (Parser.scans_integer8 _ _ _).bind fun _ => ?_
  refine (Parser.scans_integer8 _ _ _).bind fun _ => ?_
  refine (Parser.scans_integer16 _ _ _).bind fun _ => ?_
  refine (Parser.scans_integer32 _ _ _).bind fun _ => ?_
  refine (Parser.scans_integer32 _ _ _).bind fun _ => .pure ?_
  intro _ _ _ _ _ _ _ hlen _ hfirst
  refine ⟨?_, hlen⟩
  rw [UInt8.toNat_and, hfirst]
  exact congrArg (4 * ·) (Nat.and_two_pow_sub_one_eq_mod _ 4)

end IPv4Header

namespace IPv4Datagram

/-- Without a wrap the payload length is the difference of the two lengths. -/
theorem payloadLength_toNat {h : IPv4Header} (hhlen : h.hlen < 16)
    (hle : 4 * h.hlen.toNat ≤ h.len.toNat) :
    h.payloadLength.toNat = h.len.toNat - 4 * h.hlen.toNat := by
  have hlt : h.hlen.toNat < 16 := UInt8.lt_iff_toNat_lt.mp hhlen
  have hmul : (4 * h.hlen.toUInt16).toNat = 4 * h.hlen.toNat := by
    rw [UInt16.toNat_mul, UInt8.toNat_toUInt16]
    exact Nat.mod_eq_of_lt (by simp only [UInt16.reduceToNat]; omega)
  unfold IPv4Header.payloadLength
  rw [UInt16.toNat_sub_of_le _ _ (UInt16.le_iff_toNat_le.mpr (by rwa [hmul])), hmul]

/-- The header fits into the length of the datagram and this into the bytes, and the payload is what
they say it is. -/
structure Honours (d : IPv4Datagram) (bytes : Bytes) : Prop where
  header_le : 4 * d.header.hlen.toNat ≤ d.header.len.toNat
  len_le : d.header.len.toNat ≤ bytes.length
  payload : d.payload.flatten = (bytes.drop (4 * d.header.hlen.toNat)).take
    (d.header.len.toNat - 4 * d.header.hlen.toNat)

/-- The declared lengths fit the bytes. If there are more bytes, the payload is empty, or the header
and the datagram end where a string ends. -/
def LengthsFit (strs : List Bytes) : Prop :=
  IPv4Header.declaredHeader strs.flatten ≤ IPv4Header.declaredTotal strs.flatten ∧
    IPv4Header.declaredTotal strs.flatten ≤ strs.flatten.length ∧
    (IPv4Header.declaredTotal strs.flatten = strs.flatten.length ∨
      IPv4Header.declaredTotal strs.flatten = IPv4Header.declaredHeader strs.flatten ∨
      Boundary strs (IPv4Header.declaredHeader strs.flatten) ∧
        Boundary strs (IPv4Header.declaredTotal strs.flatten))

instance (strs : List Bytes) : Decidable (LengthsFit strs) :=
  inferInstanceAs (Decidable (_ ∧ _ ∧ (_ ∨ _ ∨ _ ∧ _)))

variable {d old : IPv4Datagram} {strs : List Bytes}

theorem honours_iff (hparse : Parser.parse old.parse strs = .ok (d, true)) :
    d.Honours strs.flatten ↔ LengthsFit strs := by
  obtain ⟨hsound, -⟩ := parse_accepted hparse
  obtain ⟨p₁, input, hfields, herr, -, -, -, hinput, hdump⟩ := parse_steps hparse
  obtain ⟨⟨hhlen, hlen⟩, hp₁⟩ := (IPv4Header.scans_parseFields old.header strs).scan
    (.ofBuffers strs) hfields herr
  have hheader_len : IPv4Header.length + (d.header.hlen.toNat * 4 - IPv4Header.length) =
      4 * d.header.hlen.toNat := by
    have hmin := UInt8.le_iff_toNat_le.mp hsound.hlen
    simp only [IPv4Header.length, UInt8.reduceToNat] at hmin ⊢
    omega
  by_cases hfit : 4 * d.header.hlen.toNat ≤ d.header.len.toNat ∧
      d.header.len.toNat ≤ strs.flatten.length
  · obtain ⟨hle, htotal⟩ := hfit
    obtain ⟨input', hinput', hat⟩ := hp₁.removePrefix
      (n := d.header.hlen.toNat * 4 - IPv4Header.length) (by omega)
    obtain rfl : input = input' := Except.ok.inj (hinput.symm.trans hinput')
    rw [hheader_len] at hat
    have hcut := hat.unread.dumpAll_truncate_iff hdump
    have hend := Nat.add_sub_cancel' hle
    have hempty : d.header.len.toNat - 4 * d.header.hlen.toNat = 0 ↔
        d.header.len.toNat = 4 * d.header.hlen.toNat := by
      omega
    rw [payloadLength_toNat hsound.hlen_lt hle, hat.cutsBetween_iff (hend.le.trans htotal), hend,
      hempty] at hcut
    unfold LengthsFit
    rw [← hhlen, ← hlen]
    exact ⟨fun h => ⟨hle, htotal, hcut.mp h.payload⟩, fun h => ⟨hle, htotal, hcut.mpr h.2.2⟩⟩
  · refine iff_of_false (fun h => hfit ⟨h.header_le, h.len_le⟩) fun h => hfit ?_
    rw [hhlen, hlen]
    exact ⟨h.1, h.2.1⟩

end IPv4Datagram

/-! ## TCP -/

namespace TCPSegment

/-- The length of the header in bytes, as its data offset says. -/
def declaredHeader (bytes : Bytes) : Nat := 4 * ((bytes.getD 12 0).toNat / 16)

/-- The header fits into the segment, and the payload is what is behind it. -/
structure Honours (t : TCPSegment) (bytes : Bytes) : Prop where
  header_le : declaredHeader bytes ≤ bytes.length
  payload : t.message.sender.payload = bytes.drop (declaredHeader bytes)

variable {t old : TCPSegment} {strs : List Bytes} {pseudo : UInt32}

theorem scans_parseFields (old : TCPSegment) (strs : List Bytes) :
    Parser.Scans strs 0 headerLength old.parseFields fun x =>
      4 * x.2.toNat = declaredHeader strs.flatten := by
  unfold parseFields
  refine (Parser.scans_integer16 _ _ _).bind fun _ => ?_
  refine (Parser.scans_integer16 _ _ _).bind fun _ => ?_
  refine (Parser.scans_integer32 _ _ _).bind fun _ => ?_
  refine (Parser.scans_integer32 _ _ _).bind fun _ => ?_
  refine (Parser.scans_integer8 _ _ _).bind fun offset => ?_
  refine (Parser.scans_integer8 _ _ _).bind fun _ => ?_
  refine (Parser.scans_integer16 _ _ _).bind fun _ => ?_
  refine (Parser.scans_integer16 _ _ _).bind fun _ => ?_
  refine (Parser.scans_integer16 _ _ _).bind fun _ => .pure ?_
  intro _ _ _ _ hoffset _ _ _ _
  rw [UInt8.toNat_shiftRight, hoffset]
  exact congrArg (4 * ·) (Nat.shiftRight_eq_div_pow _ 4)

/-- The steps of `parse` for a segment that is accepted. -/
theorem parse_steps (hparse : Parser.parse (old.parse pseudo) strs = .ok (t, true)) :
    ∃ fields, ∃ dataOffset : UInt8, ∃ p₁ input l,
      old.parseFields.run (Parser.new strs) = .ok ((fields, dataOffset), p₁) ∧
      p₁.error = false ∧ 5 ≤ dataOffset.toNat ∧
      p₁.input.removePrefix (dataOffset.toNat * 4 - headerLength) = .ok input ∧
      input.dumpAll = .ok l ∧ t.message.sender.payload = l.flatten := by
  obtain ⟨⟨t', p⟩, hrun, hparse⟩ := bind_ok hparse
  obtain ⟨rfl, herr⟩ := pair_ok hparse
  unfold parse at hrun
  rw [StateT.run_bind] at hrun
  obtain ⟨⟨views, p₀⟩, hviews, hrun⟩ := bind_ok hrun
  obtain rfl := Parser.buffer_ok hviews
  dsimp only at hrun
  split at hrun
  · rw [Parser.error_of_setError hrun] at herr
    cases herr
  · rw [StateT.run_bind] at hrun
    obtain ⟨⟨⟨fields, dataOffset⟩, p₁⟩, hfields, hrun⟩ := bind_ok hrun
    dsimp only at hrun
    split at hrun
    · rw [Parser.error_of_setError hrun] at herr
      cases herr
    · rename_i hoffset
      rw [StateT.run_bind] at hrun
      obtain ⟨⟨_, p₂⟩, hremove, hrun⟩ := bind_ok hrun
      obtain ⟨input, hinput, rfl⟩ := Parser.removePrefix_ok hremove
      rw [StateT.run_bind] at hrun
      obtain ⟨⟨payload, p₃⟩, hpayload, hrun⟩ := bind_ok hrun
      obtain ⟨⟨l, p₄⟩, hl, hflat⟩ := bind_ok (show (Parser.allRemaining.run { p₁ with input } >>=
        fun x => Except.ok (x.1.flatten, x.2)) = _ from hpayload)
      obtain ⟨hdump, rfl⟩ := Parser.dumpAll_of_run hl
      obtain ⟨rfl, rfl⟩ := pair_ok hflat
      obtain ⟨rfl, rfl⟩ := pair_ok hrun
      exact ⟨fields, dataOffset, p₁, input, l, hfields, by simpa using herr,
        Nat.le_of_not_lt hoffset, hinput, hdump, rfl⟩

theorem honours_iff (hparse : Parser.parse (old.parse pseudo) strs = .ok (t, true)) :
    t.Honours strs.flatten ↔ declaredHeader strs.flatten ≤ strs.flatten.length := by
  obtain ⟨fields, dataOffset, p₁, input, l, hfields, herr, hoffset, hinput, hdump, hpayload⟩ :=
    parse_steps hparse
  obtain ⟨(hdeclared : 4 * dataOffset.toNat = _), hp₁⟩ :=
    (scans_parseFields old strs).scan (.ofBuffers strs) hfields herr
  refine ⟨Honours.header_le, fun hle => ⟨hle, ?_⟩⟩
  have hheader_len : headerLength + (dataOffset.toNat * 4 - headerLength) =
      declaredHeader strs.flatten := by
    rw [← hdeclared]
    unfold headerLength
    omega
  obtain ⟨input', hinput', hat⟩ := hp₁.removePrefix (n := dataOffset.toNat * 4 - headerLength)
    (hheader_len.le.trans hle)
  obtain rfl : input = input' := Except.ok.inj (hinput.symm.trans hinput')
  rw [hheader_len] at hat
  obtain ⟨l', hl', hbytes⟩ := hat.unread.dumpAll
  obtain rfl : l = l' := Except.ok.inj (hdump.symm.trans hl')
  exact hpayload.trans hbytes

end TCPSegment

/-- What is accepted honours its lengths just when they fit the bytes; a datagram in front of other
bytes has to be cut where strings end. -/
theorem lengths_honoured_iff (strs : List Bytes) :
    (∀ old d, Parser.parse (IPv4Datagram.parse old) strs = .ok (d, true) →
      (d.Honours strs.flatten ↔ IPv4Datagram.LengthsFit strs)) ∧
    ∀ old pseudo t, Parser.parse (TCPSegment.parse old pseudo) strs = .ok (t, true) →
      (t.Honours strs.flatten ↔ TCPSegment.declaredHeader strs.flatten ≤ strs.flatten.length) :=
  ⟨fun _ _ => IPv4Datagram.honours_iff, fun _ _ _ => TCPSegment.honours_iff⟩

/-- A datagram with two bytes of payload, in front of a byte that is not its own; and a segment with
an option. -/
theorem lengths_honoured_of_cut :
    (∃ strs d, Parser.parse (IPv4Datagram.parse {}) strs = .ok (d, true) ∧
      strs.flatten.length = 23 ∧ d.payload.flatten = [7, 8] ∧ d.Honours strs.flatten) ∧
    ∃ strs t, Parser.parse (TCPSegment.parse {} 0) strs = .ok (t, true) ∧
      strs.flatten.length = 25 ∧ t.message.sender.payload = [7] ∧ t.Honours strs.flatten := by
  have hip : Parser.parse (IPv4Datagram.parse {})
      [[0x45, 0, 0, 22, 0, 0, 0x40, 0, 5, 6, 0x75, 0xe3], [0, 0, 0, 0, 0, 0, 0, 0], [7], [8], [9]] =
      .ok (⟨{ len := 22, ttl := 5, cksum := 0x75e3 }, [[7], [8]]⟩, true) := by
    decide +kernel
  have htcp : Parser.parse (TCPSegment.parse {} 0) [[0, 1, 0, 2, 0, 0, 0, 3, 0, 0, 0, 4, 0x60, 0x10,
      0, 5, 0x98, 0xe0, 0, 0, 0, 0, 0, 0], [7]] =
      .ok (⟨⟨{ seqno := ⟨3⟩, payload := [7] }, { ackno := some ⟨4⟩, windowSize := 5 }⟩,
        ⟨1, 2, 0x98e0⟩⟩, true) := by
    decide +kernel
  exact ⟨⟨_, _, hip, rfl, rfl, ((lengths_honoured_iff _).1 _ _ hip).mpr (by decide +kernel)⟩,
    _, _, htcp, rfl, rfl, ((lengths_honoured_iff _).2 _ _ _ htcp).mpr (by decide +kernel)⟩

/-- Twenty bytes that declare a datagram of forty, and twenty that declare a TCP header of sixty. -/
theorem lengths_not_honoured :
    (∃ strs d, Parser.parse (IPv4Datagram.parse {}) strs = .ok (d, true) ∧
      strs.flatten.length = 20 ∧ d.header.len = 40 ∧ ¬d.Honours strs.flatten) ∧
    ∃ strs t, Parser.parse (TCPSegment.parse {} 0) strs = .ok (t, true) ∧
      strs.flatten.length = 20 ∧ TCPSegment.declaredHeader strs.flatten = 60 ∧
      ¬t.Honours strs.flatten := by
  have hip : Parser.parse (IPv4Datagram.parse {}) [[0x45, 0, 0, 40, 0, 0, 0x40, 0, 5, 6, 0x75, 0xd1,
      0, 0, 0, 0, 0, 0, 0, 0]] =
      .ok (⟨{ len := 40, ttl := 5, cksum := 0x75d1 }, []⟩, true) := by
    decide +kernel
  have htcp : Parser.parse (TCPSegment.parse {} 0) [[0, 1, 0, 2, 0, 0, 0, 3, 0, 0, 0, 4, 0xf0, 0x10,
      0, 5, 0x0f, 0xe0, 0, 0]] =
      .ok (⟨⟨{ seqno := ⟨3⟩ }, { ackno := some ⟨4⟩, windowSize := 5 }⟩, ⟨1, 2, 0x0fe0⟩⟩, true) := by
    decide +kernel
  exact ⟨⟨_, _, hip, rfl, rfl, fun h => absurd h.len_le (by decide +kernel)⟩,
    _, _, htcp, rfl, by decide +kernel, fun h => absurd h.header_le (by decide +kernel)⟩

end Minnow
