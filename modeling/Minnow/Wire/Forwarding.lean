import Minnow.Wire.IPv4
import Minnow.Wire.Flat

/-!
# Datagrams that are sent on

A header that was parsed is `Sound`, and the payload is no longer than the header says
(`parse_accepted`), however the bytes were cut. Such a datagram is written with a header of 20 bytes
that has the length field it came with, so who parses it removes options that are not there: the
first bytes of the payload. `forwarding_iff` says when it survives.
-/

namespace Minnow

namespace Parser

variable {α β : Type} {m : ParseM α} {f : α → ParseM β} {P : α → Prop} {Q : β → Prop}
  {p p' : Parser} {bytes : Bytes}

/-- What `m` returns has the property `P`, and it leaves a deque in order. -/
def Keeps (m : ParseM α) (P : α → Prop) : Prop :=
  ∀ ⦃p bytes⦄, p.input.Unread bytes → ∀ ⦃a p'⦄, m.run p = .ok (a, p') →
    P a ∧ ∃ bytes', p'.input.Unread bytes'

theorem Keeps.pure {a : α} (h : P a) : Keeps (pure a) P := by
  intro p bytes hp a' p' hrun
  obtain ⟨rfl, rfl⟩ := pair_ok hrun
  exact ⟨h, bytes, hp⟩

theorem Keeps.bind (hm : Keeps m P) (hf : ∀ a, P a → Keeps (f a) Q) : Keeps (m >>= f) Q := by
  intro p bytes hp b p' hrun
  rw [StateT.run_bind] at hrun
  obtain ⟨⟨a, p₁⟩, hm₁, hrun⟩ := bind_ok hrun
  obtain ⟨ha, bytes₁, hp₁⟩ := hm hp hm₁
  exact hf a ha hp₁ hrun

/-- An integer that is read, whatever the deque is. -/
theorem keeps_integer (size out : Nat) : Keeps (integer size out) fun _ => True := by
  intro p bytes hp a p' hrun
  have hexec : (exec (.integer size out)).run p = .ok (.number a, p') := by
    unfold exec
    rw [StateT.run_bind, hrun]
    rfl
  have htracks : p.Tracks ⟨bytes, p.error⟩ := ⟨rfl, hp⟩
  by_cases hop : p.Careful (.integer size out)
  · obtain ⟨p'', hrun', htracks'⟩ := htracks.exec hop
    obtain ⟨-, rfl⟩ := pair_ok (hexec.symm.trans hrun')
    exact ⟨trivial, _, htracks'.input⟩
  · rw [exec_integer, htracks.guarded_fault hop out .number fun hk hgap =>
      integerLoop_of_gap hp hk hgap 0] at hexec
    cases hexec

theorem keeps_integer8 (out : UInt8) : Keeps (integer8 out) fun _ => True :=
  (keeps_integer 1 out.toNat).bind fun _ _ => .pure trivial

theorem keeps_integer16 (out : UInt16) : Keeps (integer16 out) fun _ => True :=
  (keeps_integer 2 out.toNat).bind fun _ _ => .pure trivial

theorem keeps_integer32 (out : UInt32) : Keeps (integer32 out) fun _ => True :=
  (keeps_integer 4 out.toNat).bind fun _ _ => .pure trivial

end Parser

namespace IPv4Header

variable {h h' : IPv4Header} {p p' : Parser}

/-- The length and the offset come from parts of a byte and of a word. -/
theorem keeps_parseFields (old : IPv4Header) :
    Parser.Keeps old.parseFields fun h => h.hlen < 16 ∧ h.offset < 0x2000 := by
  unfold parseFields
  refine (Parser.keeps_integer8 _).bind fun firstByte _ => ?_
  refine (Parser.keeps_integer8 _).bind fun _ _ => ?_
  refine (Parser.keeps_integer16 _).bind fun _ _ => ?_
  refine (Parser.keeps_integer16 _).bind fun _ _ => ?_
  refine (Parser.keeps_integer16 _).bind fun foVal _ => ?_
  refine (Parser.keeps_integer8 _).bind fun _ _ => ?_
  refine (Parser.keeps_integer8 _).bind fun _ _ => ?_
  refine (Parser.keeps_integer16 _).bind fun _ _ => ?_
  refine (Parser.keeps_integer32 _).bind fun _ _ => ?_
  refine (Parser.keeps_integer32 _).bind fun _ _ => .pure ⟨?_, ?_⟩
  · rw [UInt8.lt_iff_toNat_lt, UInt8.toNat_and]
    exact Nat.and_lt_two_pow _ (by decide : (0xf : UInt8).toNat < 2 ^ 4)
  · rw [UInt16.lt_iff_toNat_lt, UInt16.toNat_and]
    exact Nat.and_lt_two_pow _ (by decide : (0x1fff : UInt16).toNat < 2 ^ 13)

/-- What a header has passed that `verify` left without an error. -/
theorem verify_accepted (hrun : h.verify.run p = .ok (h', p')) (herr : p'.error = false) :
    h' = h ∧ h.ver = 4 ∧ 5 ≤ h.hlen ∧ h.cksum = h.checksum ∧
      ∃ input, p.input.removePrefix (h.hlen.toNat * 4 - length) = .ok input ∧
        p' = { p with input } := by
  by_cases hgood : h.ver = 4 ∧ 5 ≤ h.hlen ∧ p.error = false
  · obtain ⟨hver, hlen, hp⟩ := hgood
    unfold verify Parser.hasError Parser.removePrefix at hrun
    simp [hver, UInt8.not_lt.mpr hlen, hp, computeChecksum_ok hver] at hrun
    obtain ⟨input, hinput, hrun⟩ := bind_ok hrun
    by_cases hcksum : h.checksum = h.cksum
    · rw [if_pos hcksum] at hrun
      obtain ⟨rfl, rfl⟩ := pair_ok hrun
      refine ⟨?_, hver, hlen, hcksum.symm, input, hinput, by rw [hp]⟩
      rw [← hver, hcksum]
    · rw [if_neg hcksum] at hrun
      obtain ⟨-, rfl⟩ := pair_ok hrun
      cases herr
  · have hstop : h.verify.run p = .ok (h, { p with error := true }) := by
      unfold verify Parser.hasError Parser.setError
      by_cases hver : h.ver = 4
      · by_cases hlen : h.hlen < 5
        · simp [hver, hlen]
          rfl
        · have hp : p.error = true :=
            Bool.eq_true_of_not_eq_false fun hp => hgood ⟨hver, UInt8.not_lt.mp hlen, hp⟩
          simp [hver, hlen, hp]
          rw [← hp]
          rfl
      · by_cases hlen : h.hlen < 5
        · simp [hver, hlen]
          rfl
        · simp [hver, hlen]
          rfl
    obtain ⟨-, rfl⟩ := pair_ok (hstop.symm.trans hrun)
    cases herr

end IPv4Header

namespace IPv4Datagram

variable {d : IPv4Datagram} {old : IPv4Datagram} {strs : List Bytes}

/-- The steps of `parse` for a datagram that is accepted. -/
theorem parse_steps (hparse : Parser.parse old.parse strs = .ok (d, true)) :
    ∃ p₁ input, old.header.parseFields.run (Parser.new strs) = .ok (d.header, p₁) ∧
      p₁.error = false ∧ d.header.ver = 4 ∧ 5 ≤ d.header.hlen ∧
      d.header.cksum = d.header.checksum ∧
      p₁.input.removePrefix (d.header.hlen.toNat * 4 - IPv4Header.length) = .ok input ∧
      (input.truncate d.header.payloadLength.toNat).dumpAll = .ok d.payload := by
  obtain ⟨⟨d', p⟩, hrun, hparse⟩ := bind_ok hparse
  obtain ⟨rfl, herr⟩ := pair_ok hparse
  unfold IPv4Datagram.parse IPv4Header.parse at hrun
  rw [StateT.run_bind, StateT.run_bind] at hrun
  obtain ⟨⟨header, p₂⟩, hheader, hrun⟩ := bind_ok hrun
  obtain ⟨⟨fields, p₁⟩, hfields, hverify⟩ := bind_ok hheader
  obtain ⟨⟨payload, p₃⟩, hpayload, hrun⟩ := bind_ok hrun
  obtain ⟨rfl, rfl⟩ := pair_ok hrun
  obtain ⟨hdump, rfl⟩ := Parser.dumpAll_of_run hpayload
  obtain ⟨rfl, hver, hlen, hcksum, input, hinput, rfl⟩ :=
    IPv4Header.verify_accepted hverify (by simpa using herr)
  exact ⟨p₁, input, hfields, by simpa using herr, hver, hlen, hcksum, hinput, hdump⟩

/-- The datagrams that are accepted. -/
theorem parse_accepted (hparse : Parser.parse old.parse strs = .ok (d, true)) :
    d.header.Sound ∧ d.payload.flatten.length ≤ d.header.payloadLength.toNat := by
  obtain ⟨p₁, input, hfields, -, hver, hlen, hcksum, hinput, hdump⟩ := parse_steps hparse
  obtain ⟨⟨hhlen, hoffset⟩, bytes, hp₁⟩ :=
    IPv4Header.keeps_parseFields old.header (.ofBuffers strs) hfields
  obtain ⟨input', hinput', hunread⟩ :=
    hp₁.removePrefix (d.header.hlen.toNat * 4 - IPv4Header.length)
  obtain rfl : input = input' := Except.ok.inj (hinput.symm.trans hinput')
  exact ⟨⟨hver, hlen, hhlen, hoffset, hcksum⟩, hunread.length_of_truncate hdump⟩

/-- What is read behind 20 bytes of a header: the options it tells of are taken from the rest. -/
theorem parse_wire {h : IPv4Header} (hs : h.Sound) {rest : Bytes}
    (hrest : rest.length ≤ h.payloadLength.toNat) {l : List Bytes} (hl : BufferList.Solid l)
    (hbytes : l.flatten = h.wire ++ rest) (old : IPv4Datagram) :
    ∃ strs, Parser.parse old.parse l = .ok (⟨h, strs⟩, true) ∧
      strs.flatten = rest.drop (h.hlen.toNat * 4 - IPv4Header.length) := by
  obtain ⟨p, hfields, hp⟩ := (IPv4Header.reads_parseFields hs.fits old.header).run_new hl hbytes
  obtain ⟨p', hverify, hp'⟩ := IPv4Header.run_verify hs hp
  obtain ⟨strs, hstrs, hflat, -⟩ := Parser.run_allRemaining hp'
  have hshort : (rest.drop (h.hlen.toNat * 4 - IPv4Header.length)).length ≤
      h.payloadLength.toNat := by
    rw [List.length_drop]
    omega
  have htrunc := Parser.run_truncate hp' hshort
  refine ⟨strs, ?_, hflat⟩
  unfold Parser.parse IPv4Datagram.parse IPv4Header.parse
  simp [hfields, hverify, htrunc, hstrs, hp'.error]

/-- The bytes that are sent are accepted, and they are the same datagram. -/
def Survives (d : IPv4Datagram) : Prop :=
  ∃ l, d.serialized = .ok l ∧ ∀ (old : IPv4Datagram) (l' : List Bytes), BufferList.Solid l' →
    l'.flatten = l.flatten → ∃ d', Parser.parse old.parse l' = .ok (d', true) ∧
      d'.header = d.header ∧ d'.payload.flatten = d.payload.flatten

/-- The length of the options that a sound header tells of. -/
theorem options_eq_zero_iff {h : IPv4Header} (hs : h.Sound) :
    h.hlen.toNat * 4 - IPv4Header.length = 0 ↔ h.hlen = 5 := by
  have hlen := UInt8.le_iff_toNat_le.mp hs.hlen
  rw [← UInt8.toNat_inj]
  simp only [IPv4Header.length, UInt8.reduceToNat] at hlen ⊢
  omega

theorem drop_eq_self_iff {l : Bytes} {k : Nat} : l.drop k = l ↔ k = 0 ∨ l = [] := by
  constructor
  · intro h
    have hlen := congrArg List.length h
    rw [List.length_drop] at hlen
    rw [← List.length_eq_zero_iff]
    omega
  · rintro (rfl | rfl)
    · exact List.drop_zero
    · exact List.drop_nil

theorem survives_iff (hs : d.header.Sound)
    (hlen : d.payload.flatten.length ≤ d.header.payloadLength.toNat) :
    d.Survives ↔ d.header.hlen = 5 ∨ d.payload.flatten = [] := by
  obtain ⟨l, hl, hbytes⟩ := serialized_ok hs.ver
  have hdrop : d.payload.flatten.drop (d.header.hlen.toNat * 4 - IPv4Header.length) =
      d.payload.flatten ↔ d.header.hlen = 5 ∨ d.payload.flatten = [] := by
    rw [drop_eq_self_iff, options_eq_zero_iff hs]
  rw [← hdrop]
  constructor
  · rintro ⟨l', hl', hread⟩
    obtain rfl : l = l' := Except.ok.inj (hl.symm.trans hl')
    have hsolid : BufferList.Solid [l.flatten] := fun x hx => absurd hx List.not_mem_nil
    obtain ⟨d', hparse, -, hpayload⟩ := hread {} [l.flatten] hsolid (by simp)
    obtain ⟨strs, hparse', hstrs⟩ := parse_wire hs hlen hsolid (by simpa using hbytes) {}
    obtain ⟨rfl, -⟩ := pair_ok (hparse.symm.trans hparse')
    exact hstrs.symm.trans hpayload
  · intro hsame
    refine ⟨l, hl, fun old l' hsolid hflat => ?_⟩
    obtain ⟨strs, hparse, hstrs⟩ := parse_wire hs hlen hsolid (hflat.trans hbytes) old
    exact ⟨_, hparse, rfl, hstrs.trans hsame⟩

/-- An accepted datagram can be sent on, as it is and after a hop, just when it has no options or
no payload. -/
theorem forwarding_iff (hparse : Parser.parse old.parse strs = .ok (d, true)) :
    (d.Survives ∧ (2 ≤ d.header.ttl → ∃ header,
      { d.header with ttl := d.header.ttl - 1 }.computeChecksum = .ok header ∧
      header = { d.header with ttl := d.header.ttl - 1, cksum := header.cksum } ∧
      { d with header }.Survives)) ↔
    d.header.hlen = 5 ∨ d.payload.flatten = [] := by
  obtain ⟨hs, hlen⟩ := parse_accepted hparse
  refine ⟨fun h => (survives_iff hs hlen).mp h.1, fun hgood =>
    ⟨(survives_iff hs hlen).mpr hgood, fun _ => ?_⟩⟩
  have hcomputed := IPv4Header.computeChecksum_ok
    (h := { d.header with ttl := d.header.ttl - 1 }) hs.ver
  have hsound : IPv4Header.Sound { d.header with
      ttl := d.header.ttl - 1
      cksum := { d.header with ttl := d.header.ttl - 1 }.checksum } :=
    ⟨hs.ver, hs.hlen, hs.hlen_lt, hs.offset, (IPv4Header.checksum_of_cksum _ _).symm⟩
  exact ⟨_, hcomputed, rfl, (survives_iff (d := ⟨_, d.payload⟩) hsound hlen).mpr hgood⟩

/-- A header without options, and two bytes of payload. -/
theorem forwarding_of_plain :
    IPv4Datagram.Survives ⟨{ len := 22, ttl := 5, cksum := 0x75e3 }, [[7, 8]]⟩ := by
  have hparse : Parser.parse (parse {}) [[0x45, 0, 0, 22, 0, 0, 0x40, 0, 5, 6, 0x75, 0xe3,
      0, 0, 0, 0, 0, 0, 0, 0, 7, 8]] =
      .ok (⟨{ len := 22, ttl := 5, cksum := 0x75e3 }, [[7, 8]]⟩, true) := by
    decide +kernel
  exact ((forwarding_iff hparse).mpr (by decide)).1

/-- A header with an end-of-options list: sent on, it costs the payload. -/
theorem forwarding_loses_payload : ∃ d : IPv4Datagram,
    Parser.parse (parse {}) [[0x46, 0, 0, 26, 0, 0, 0x40, 0, 5, 6, 0x74, 0xdf,
      0, 0, 0, 0, 0, 0, 0, 0, 0, 0, 0, 0, 7, 8]] = .ok (d, true) ∧
    d.payload.flatten = [7, 8] ∧ ¬d.Survives := by
  have hparse : Parser.parse (parse {}) [[0x46, 0, 0, 26, 0, 0, 0x40, 0, 5, 6, 0x74, 0xdf,
      0, 0, 0, 0, 0, 0, 0, 0, 0, 0, 0, 0, 7, 8]] =
      .ok (⟨{ hlen := 6, len := 26, ttl := 5, cksum := 0x74df }, [[7, 8]]⟩, true) := by
    decide +kernel
  obtain ⟨hs, hlen⟩ := parse_accepted hparse
  exact ⟨_, hparse, rfl, fun h => absurd ((survives_iff hs hlen).mp h) (by decide)⟩

end IPv4Datagram

end Minnow
