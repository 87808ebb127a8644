import Minnow.Wire.Parser
import Minnow.Wire.Serializer
import Minnow.Wire.Checksum

/-!
# IPv4 datagrams (`util/ipv4_header.cc`, `util/ipv4_datagram.hh`)

`parse` takes the old value of the object it fills, as the parser's `integer` does.

`wire` are the 20 bytes that `serialize` writes. A header is `Sound` if its fields fit into them and
its checksum is the one that `computeChecksum` gives it; such a header is what `parse` reads from
its own bytes and any options behind them (`reads_parse`).
-/

namespace Minnow

/-- What an `Address` is used for: its `ipv4_numeric()` and its `port()`. -/
structure Address where
  ipv4Numeric : UInt32 := 0
  port : UInt16 := 0
  deriving DecidableEq

/-- `from_ipv4_numeric`. -/
def Address.fromIpv4Numeric (ipAddress : UInt32) : Address where
  ipv4Numeric := ipAddress

structure IPv4Header where
  ver : UInt8 := 4
  hlen : UInt8 := 5
  tos : UInt8 := 0
  len : UInt16 := 0
  id : UInt16 := 0
  df : Bool := true
  mf : Bool := false
  offset : UInt16 := 0
  ttl : UInt8 := 128
  proto : UInt8 := 6
  cksum : UInt16 := 0
  src : UInt32 := 0
  dst : UInt32 := 0
  deriving DecidableEq

namespace IPv4Header

/-- `LENGTH`. -/
def length : Nat := 20

def protoTcp : UInt8 := 6

def payloadLength (h : IPv4Header) : UInt16 := h.len - 4 * h.hlen.toUInt16

def pseudoChecksum (h : IPv4Header) : UInt32 :=
  (h.src >>> 16) + h.src.toUInt16.toUInt32 + ((h.dst >>> 16) + h.dst.toUInt16.toUInt32) +
    h.proto.toUInt32 + h.payloadLength.toUInt32

/-- Version and header length. -/
def firstByte (h : IPv4Header) : UInt8 := h.ver <<< 4 ||| h.hlen &&& 0xf

/-- The flags and the fragment offset. -/
def foVal (h : IPv4Header) : UInt16 :=
  (if h.df then 0x4000 else 0) ||| (if h.mf then 0x2000 else 0) ||| h.offset &&& 0x1fff

def serialize (h : IPv4Header) (s : Serializer) : Except WireFault Serializer :=
  if h.ver ≠ 4 then .error .wrongVersion
  else .ok <| s
    |>.integer8 h.firstByte |>.integer8 h.tos |>.integer16 h.len |>.integer16 h.id
    |>.integer16 h.foVal |>.integer8 h.ttl |>.integer8 h.proto |>.integer16 h.cksum
    |>.integer32 h.src |>.integer32 h.dst

def computeChecksum (h : IPv4Header) : Except WireFault IPv4Header := do
  let h := { h with cksum := 0 }
  let s ← h.serialize {}
  return { h with cksum := (InternetChecksum.addAll {} s.finish).value }

/-- The first part of `parse`: the 20 bytes of a header without options. -/
def parseFields (h : IPv4Header) : ParseM IPv4Header := do
  let firstByte ← Parser.integer8 0
  let tos ← Parser.integer8 h.tos
  let len ← Parser.integer16 h.len
  let id ← Parser.integer16 h.id
  let foVal ← Parser.integer16 0
  let ttl ← Parser.integer8 h.ttl
  let proto ← Parser.integer8 h.proto
  let cksum ← Parser.integer16 h.cksum
  let src ← Parser.integer32 h.src
  let dst ← Parser.integer32 h.dst
  return {
    ver := firstByte >>> 4, hlen := firstByte &&& 0xf, tos, len, id
    df := foVal &&& 0x4000 != 0, mf := foVal &&& 0x2000 != 0, offset := foVal &&& 0x1fff
    ttl, proto, cksum, src, dst }

/-- The second part: the options are removed and the checksum is verified. -/
def verify (h : IPv4Header) : ParseM IPv4Header := do
  if h.ver ≠ 4 then Parser.setError
  if h.hlen < 5 then Parser.setError
  if ← Parser.hasError then return h
  Parser.removePrefix (h.hlen.toNat * 4 - length)
  let computed ← h.computeChecksum
  if computed.cksum ≠ h.cksum then Parser.setError
  return computed

def parse (h : IPv4Header) : ParseM IPv4Header := do
  let h ← h.parseFields
  h.verify

end IPv4Header

structure IPv4Datagram where
  header : IPv4Header := {}
  payload : List Bytes := []
  deriving DecidableEq

/-- `InternetDatagram`. -/
abbrev InternetDatagram := IPv4Datagram

namespace IPv4Datagram

def parse (d : IPv4Datagram) : ParseM IPv4Datagram := do
  let header ← d.header.parse
  Parser.truncate header.payloadLength.toNat
  let payload ← Parser.allRemaining
  return { header, payload }

def serialize (d : IPv4Datagram) (s : Serializer) : Except WireFault Serializer := do
  let s ← d.header.serialize s
  return s.strings d.payload

/-- The helper `serialize` (`util/helpers.hh`). -/
def serialized (d : IPv4Datagram) : Except WireFault (List Bytes) := do
  let s ← d.serialize {}
  return s.finish

end IPv4Datagram

/-! ## The bytes of a header -/

namespace IPv4Header

def wire (h : IPv4Header) : Bytes :=
  BigEndian.encode 1 h.firstByte.toNat ++ BigEndian.encode 1 h.tos.toNat ++
    BigEndian.encode 2 h.len.toNat ++ BigEndian.encode 2 h.id.toNat ++
    BigEndian.encode 2 h.foVal.toNat ++ BigEndian.encode 1 h.ttl.toNat ++
    BigEndian.encode 1 h.proto.toNat ++ BigEndian.encode 2 h.cksum.toNat ++
    BigEndian.encode 4 h.src.toNat ++ BigEndian.encode 4 h.dst.toNat

variable {h : IPv4Header} {p : Parser} {rest : Bytes}

@[simp] theorem wire_length (h : IPv4Header) : h.wire.length = length := by
  simp [wire, length]

theorem serialize_ok (hver : h.ver = 4) (s : Serializer) :
    ∃ s', h.serialize s = .ok s' ∧ s'.bytes = s.bytes ++ h.wire := by
  unfold serialize
  rw [if_neg (by simpa using hver)]
  exact ⟨_, rfl, by simp [wire]⟩

theorem serialize_error (hver : h.ver ≠ 4) (s : Serializer) :
    h.serialize s = .error .wrongVersion := if_pos hver

/-- The fields that share a byte or a word keep to their bits. -/
structure Fits (h : IPv4Header) : Prop where
  ver : h.ver < 16
  hlen : h.hlen < 16
  offset : h.offset < 0x2000

theorem firstByte_toNat (hf : h.Fits) : h.firstByte.toNat = h.ver.toNat * 2 ^ 4 + h.hlen.toNat := by
  have hver : h.ver.toNat < 2 ^ 4 := UInt8.lt_iff_toNat_lt.mp hf.ver
  have hhlen : h.hlen.toNat < 2 ^ 4 := UInt8.lt_iff_toNat_lt.mp hf.hlen
  have hshift : (h.ver <<< 4).toNat = h.ver.toNat <<< 4 := by
    rw [UInt8.toNat_shiftLeft]
    refine Nat.mod_eq_of_lt ?_
    rw [show (4 : UInt8).toNat % 8 = 4 from rfl, Nat.shiftLeft_eq]
    omega
  have hmask : (h.hlen &&& 0xf).toNat = h.hlen.toNat :=
    (Nat.and_two_pow_sub_one_eq_mod _ 4).trans (Nat.mod_eq_of_lt hhlen)
  rw [firstByte, UInt8.toNat_or, hshift, hmask, ← Nat.shiftLeft_add_eq_or_of_lt hhlen,
    Nat.shiftLeft_eq]

theorem firstByte_ver (hf : h.Fits) : h.firstByte >>> 4 = h.ver := by
  have hhlen : h.hlen.toNat < 2 ^ 4 := UInt8.lt_iff_toNat_lt.mp hf.hlen
  rw [← UInt8.toNat_inj, UInt8.toNat_shiftRight, firstByte_toNat hf, Nat.shiftRight_eq_div_pow]
  show (_ + h.hlen.toNat) / 2 ^ 4 = _
  omega

theorem firstByte_hlen (hf : h.Fits) : h.firstByte &&& 0xf = h.hlen := by
  have hhlen : h.hlen.toNat < 2 ^ 4 := UInt8.lt_iff_toNat_lt.mp hf.hlen
  rw [← UInt8.toNat_inj, UInt8.toNat_and, firstByte_toNat hf]
  refine (Nat.and_two_pow_sub_one_eq_mod _ 4).trans ?_
  omega

/-- A mask that the fragment offset has no bit in. -/
theorem foVal_and (h : IPv4Header) {mask : UInt16} (hm : 0x1fff &&& mask = 0) :
    h.foVal &&& mask =
      (if h.df then 0x4000 else 0) &&& mask ||| (if h.mf then 0x2000 else 0) &&& mask := by
  rw [foVal, or_and16, or_and16, UInt16.and_assoc, hm, UInt16.and_zero, UInt16.or_zero]

theorem foVal_df (h : IPv4Header) : (h.foVal &&& 0x4000 != 0) = h.df := by
  rw [foVal_and h rfl]
  cases h.df <;> cases h.mf <;> rfl

theorem foVal_mf (h : IPv4Header) : (h.foVal &&& 0x2000 != 0) = h.mf := by
  rw [foVal_and h rfl]
  cases h.df <;> cases h.mf <;> rfl

theorem foVal_offset (hf : h.Fits) : h.foVal &&& 0x1fff = h.offset := by
  have hmask : h.offset &&& 0x1fff = h.offset := by
    rw [← UInt16.toNat_inj, UInt16.toNat_and]
    exact (Nat.and_two_pow_sub_one_eq_mod _ 13).trans
      (Nat.mod_eq_of_lt (UInt16.lt_iff_toNat_lt.mp hf.offset))
  rw [foVal, or_and16, or_and16, UInt16.and_assoc,
    show (0x1fff : UInt16) &&& 0x1fff = 0x1fff from rfl, hmask]
  cases h.df <;> cases h.mf <;> exact UInt16.zero_or

theorem reads_parseFields (hf : h.Fits) (old : IPv4Header) :
    Parser.Reads old.parseFields h.wire h := by
  have hread : Parser.Reads old.parseFields _ _ :=
    (Parser.reads_integer8 0 h.firstByte).bind <| (Parser.reads_integer8 _ h.tos).bind <|
    (Parser.reads_integer16 _ h.len).bind <| (Parser.reads_integer16 _ h.id).bind <|
    (Parser.reads_integer16 0 h.foVal).bind <| (Parser.reads_integer8 _ h.ttl).bind <|
    (Parser.reads_integer8 _ h.proto).bind <| (Parser.reads_integer16 _ h.cksum).bind <|
    (Parser.reads_integer32 _ h.src).bind <| (Parser.reads_integer32 _ h.dst).bind <| .pure _
  rw [firstByte_ver hf, firstByte_hlen hf, foVal_df, foVal_mf, foVal_offset hf] at hread
  unfold wire
  simpa only [List.append_assoc, List.append_nil] using hread

/-! ## The checksum of a header -/

/-- What `computeChecksum` puts into a header of version 4. -/
def checksum (h : IPv4Header) : UInt16 :=
  (InternetChecksum.add {} { h with cksum := 0 }.wire).value

/-- The checksums do not depend on the one that is there. -/
theorem checksum_of_cksum (h : IPv4Header) (cksum : UInt16) :
    { h with cksum }.checksum = h.checksum := rfl

theorem pseudoChecksum_of_cksum (h : IPv4Header) (cksum : UInt16) :
    { h with cksum }.pseudoChecksum = h.pseudoChecksum := rfl

theorem computeChecksum_ok (hver : h.ver = 4) :
    h.computeChecksum = .ok { h with cksum := h.checksum } := by
  obtain ⟨s, hs, hbytes⟩ := serialize_ok (h := { h with cksum := 0 }) hver {}
  unfold computeChecksum checksum
  dsimp only
  rw [hs]
  show Except.ok _ = _
  rw [InternetChecksum.addAll_eq, Serializer.finish_flatten, hbytes]
  rfl

theorem computeChecksum_error (hver : h.ver ≠ 4) : h.computeChecksum = .error .wrongVersion := by
  have hs := serialize_error (h := { h with cksum := 0 }) hver {}
  unfold computeChecksum
  dsimp only
  rw [hs]
  rfl

/-- A header as a host sends it. -/
structure Sound (h : IPv4Header) : Prop where
  ver : h.ver = 4
  hlen : 5 ≤ h.hlen
  hlen_lt : h.hlen < 16
  offset : h.offset < 0x2000
  cksum : h.cksum = h.checksum

theorem Sound.fits (hs : h.Sound) : h.Fits := ⟨hs.ver ▸ by decide, hs.hlen_lt, hs.offset⟩

/-- A sound header is verified; the options it tells of are removed from what is there. -/
theorem run_verify (hs : h.Sound) (hp : p.Holds rest) : ∃ p', h.verify.run p = .ok (h, p') ∧
    p'.Holds (rest.drop (h.hlen.toNat * 4 - length)) := by
  obtain ⟨input, hi, hrest⟩ := hp.input.removePrefix (h.hlen.toNat * 4 - length)
  refine ⟨{ p with input }, ?_, hp.error, hrest⟩
  have hcomputed : h.computeChecksum = .ok h := by
    rw [computeChecksum_ok hs.ver, ← hs.cksum]
  unfold verify
  simp [hs.ver, UInt8.not_lt.mpr hs.hlen, Parser.run_hasError hp, Parser.run_removePrefix hi,
    hcomputed]

theorem reads_verify (hs : h.Sound) {options : Bytes}
    (hlen : options.length = h.hlen.toNat * 4 - length) : Parser.Reads h.verify options h := by
  intro p rest hp
  obtain ⟨p', hp', hrest⟩ := run_verify hs hp
  rw [← hlen, List.drop_left] at hrest
  exact ⟨p', hp', hrest⟩

theorem reads_parse (hs : h.Sound) {options : Bytes}
    (hlen : options.length = h.hlen.toNat * 4 - length) (old : IPv4Header) :
    Parser.Reads old.parse (h.wire ++ options) h :=
  (reads_parseFields hs.fits old).bind (reads_verify hs hlen)

end IPv4Header

namespace IPv4Datagram

/-- The payload is what is behind the header, however the datagram is cut. -/
theorem parse_ok {h : IPv4Header} (hs : h.Sound) {options payload : Bytes}
    (hlen : options.length = h.hlen.toNat * 4 - IPv4Header.length)
    (hpayload : payload.length ≤ h.payloadLength.toNat) {l : List Bytes} (hl : BufferList.Solid l)
    (hbytes : l.flatten = h.wire ++ options ++ payload) (old : IPv4Datagram) :
    ∃ strs, Parser.parse old.parse l = .ok (⟨h, strs⟩, true) ∧ strs.flatten = payload ∧
      BufferList.Solid strs := by
  obtain ⟨p, hrun, hp⟩ := (IPv4Header.reads_parse hs hlen old.header).run_new hl hbytes
  obtain ⟨strs, hstrs, hflat, hsolid⟩ := Parser.run_allRemaining hp
  refine ⟨strs, ?_, hflat, hsolid⟩
  unfold Parser.parse IPv4Datagram.parse
  simp [hrun, Parser.run_truncate hp hpayload, hstrs, hp.error]

theorem serialized_ok {d : IPv4Datagram} (hver : d.header.ver = 4) :
    ∃ l, d.serialized = .ok l ∧ l.flatten = d.header.wire ++ d.payload.flatten := by
  obtain ⟨s, hs, hbytes⟩ := IPv4Header.serialize_ok hver {}
  refine ⟨(s.strings d.payload).finish, ?_, by simp [hbytes]⟩
  unfold serialized serialize
  rw [hs]
  rfl

theorem serialized_error {d : IPv4Datagram} (hver : d.header.ver ≠ 4) :
    d.serialized = .error .wrongVersion := by
  unfold serialized serialize
  rw [IPv4Header.serialize_error hver]
  rfl

end IPv4Datagram

end Minnow
