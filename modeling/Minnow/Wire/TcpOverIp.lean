import Minnow.Wire.IPv4
import Minnow.Wire.TCPSegment

/-!
# TCP over IP (`util/tcp_over_ip.cc`, `util/tuntap_adapter.cc`)

An adapter puts a TCP message into a segment and the segment into a datagram, with the addresses and
the ports of its configuration, and takes one out of a datagram that is for it. `write` gives the
bytes that go to the TUN device. `read` gets the strings that the device has filled: one for each
header and one for the rest (`buffers`).

`read_write` composes the two: what one adapter writes, an adapter with the two addresses exchanged
reads, up to the RST flags that a segment merges.
-/

namespace Minnow

/-- `FdAdapterConfig`, without the loss rates. -/
structure FdAdapterConfig where
  source : Address := {}
  destination : Address := {}
  deriving DecidableEq

/-- `TCPOverIPv4Adapter`. -/
structure TCPOverIPv4Adapter where
  config : FdAdapterConfig := {}
  listening : Bool := false
  deriving DecidableEq

namespace TCPOverIPv4Adapter

def wrapTcpInIp (a : TCPOverIPv4Adapter) (msg : TCPMessage) :
    Except WireFault InternetDatagram := do
  let payloadSize := msg.sender.payload.length
  let seg : TCPSegment := {
    message := msg
    udinfo := { srcPort := a.config.source.port, dstPort := a.config.destination.port } }
  let header : IPv4Header := {
    src := a.config.source.ipv4Numeric
    dst := a.config.destination.ipv4Numeric }
  let header := { header with len := UInt16.ofNat (header.hlen.toNat * 4 + 20 + payloadSize) }
  let seg := seg.computeChecksum header.pseudoChecksum
  let header ← header.computeChecksum
  return { header, payload := (seg.serialize {}).finish }

/-- The checks of a segment that was parsed. A listening adapter takes the addresses of a SYN. -/
def accept (a : TCPOverIPv4Adapter) (header : IPv4Header) (seg : TCPSegment) :
    TCPOverIPv4Adapter × Option TCPMessage :=
  if seg.udinfo.dstPort ≠ a.config.source.port then (a, none)
  else if a.listening && !(seg.message.sender.syn && !seg.message.sender.rst) then (a, none)
  else
    let a : TCPOverIPv4Adapter := if a.listening then
        { config := {
            source := ⟨header.dst, a.config.source.port⟩
            destination := ⟨header.src, seg.udinfo.srcPort⟩ }
          listening := false }
      else a
    if seg.udinfo.srcPort ≠ a.config.destination.port then (a, none) else (a, some seg.message)

def unwrapTcpInIp (a : TCPOverIPv4Adapter) (dgram : InternetDatagram) :
    Except WireFault (TCPOverIPv4Adapter × Option TCPMessage) :=
  if !a.listening && dgram.header.dst != a.config.source.ipv4Numeric then return (a, none)
  else if !a.listening && dgram.header.src != a.config.destination.ipv4Numeric then return (a, none)
  else if dgram.header.proto ≠ IPv4Header.protoTcp then return (a, none)
  else do
    let (seg, ok) ← Parser.parse (({} : TCPSegment).parse dgram.header.pseudoChecksum) dgram.payload
    if ok then return a.accept dgram.header seg else return (a, none)

/-! ## The TUN device -/

/-- The bytes of `write`. -/
def write (a : TCPOverIPv4Adapter) (msg : TCPMessage) : Except WireFault Bytes := do
  let dgram ← a.wrapTcpInIp msg
  let strs ← dgram.serialized
  return strs.flatten

/-- A datagram in the three strings of `read`. -/
def buffers (bytes : Bytes) : List Bytes :=
  [bytes.take IPv4Header.length, (bytes.drop IPv4Header.length).take TCPSegment.headerLength,
    (bytes.drop IPv4Header.length).drop TCPSegment.headerLength]

/-- `read`, when the device has filled `strs`. -/
def read (a : TCPOverIPv4Adapter) (strs : List Bytes) :
    Except WireFault (TCPOverIPv4Adapter × Option TCPMessage) := do
  let (dgram, ok) ← Parser.parse ({} : InternetDatagram).parse strs
  if ok then a.unwrapTcpInIp dgram else return (a, none)

/-! ## What is written -/

variable {a b : TCPOverIPv4Adapter} {msg : TCPMessage}

/-- The IP header of a message, without its checksum. -/
def ipHeader (a : TCPOverIPv4Adapter) (msg : TCPMessage) : IPv4Header where
  len := UInt16.ofNat (40 + msg.sender.payload.length)
  src := a.config.source.ipv4Numeric
  dst := a.config.destination.ipv4Numeric

/-- The IP header with its checksum. -/
def sealed (a : TCPOverIPv4Adapter) (msg : TCPMessage) : IPv4Header :=
  { a.ipHeader msg with cksum := (a.ipHeader msg).checksum }

def segment (a : TCPOverIPv4Adapter) (msg : TCPMessage) : TCPSegment :=
  TCPSegment.computeChecksum
    ⟨msg, { srcPort := a.config.source.port, dstPort := a.config.destination.port }⟩
    (a.ipHeader msg).pseudoChecksum

theorem wrapTcpInIp_ok (a : TCPOverIPv4Adapter) (msg : TCPMessage) :
    a.wrapTcpInIp msg = .ok ⟨a.sealed msg, ((a.segment msg).serialize {}).finish⟩ := by
  have hok : (a.ipHeader msg).computeChecksum = .ok (a.sealed msg) :=
    IPv4Header.computeChecksum_ok rfl
  show ((a.ipHeader msg).computeChecksum >>= _) = _
  rw [hok]
  rfl

theorem write_ok (a : TCPOverIPv4Adapter) (msg : TCPMessage) :
    a.write msg = .ok ((a.sealed msg).wire ++ (a.segment msg).wire) := by
  obtain ⟨l, hl, hflat⟩ := IPv4Datagram.serialized_ok
    (d := ⟨a.sealed msg, ((a.segment msg).serialize {}).finish⟩) rfl
  rw [Serializer.finish_flatten, TCPSegment.serialize_bytes] at hflat
  unfold write
  rw [wrapTcpInIp_ok, ok_bind, hl, ok_bind, hflat]
  rfl

theorem sealed_sound (a : TCPOverIPv4Adapter) (msg : TCPMessage) : (a.sealed msg).Sound where
  ver := rfl
  hlen := (by decide : (5 : UInt8) ≤ 5)
  hlen_lt := (by decide : (5 : UInt8) < 16)
  offset := (by decide : (0 : UInt16) < 0x2000)
  cksum := (IPv4Header.checksum_of_cksum _ _).symm

theorem segment_message (a : TCPOverIPv4Adapter) (msg : TCPMessage) :
    (a.segment msg).message = msg := rfl

/-- The payload length of the header is the length of the segment. -/
theorem sealed_payloadLength (hpayload : msg.sender.payload.length ≤ 65495) :
    (a.sealed msg).payloadLength.toNat = (a.segment msg).wire.length := by
  have hlen : (UInt16.ofNat (40 + msg.sender.payload.length)).toNat =
      40 + msg.sender.payload.length := toNat_ofNat16 (by omega)
  rw [TCPSegment.wire_length, segment_message]
  show (UInt16.ofNat (40 + msg.sender.payload.length) - UInt16.ofNat 20).toNat = _
  rw [toNat_sub_ofNat (by omega), hlen, TCPSegment.headerLength]
  omega

theorem pseudoChecksum_lt (h : IPv4Header) : h.pseudoChecksum.toNat < 2 ^ 19 := by
  have hsrc := h.src.toNat_lt
  have hdst := h.dst.toNat_lt
  have hproto := h.proto.toNat_lt
  have hlen := h.payloadLength.toNat_lt
  unfold IPv4Header.pseudoChecksum
  simp [Nat.shiftRight_eq_div_pow]
  refine lt_of_le_of_lt (Nat.mod_le _ _) ?_
  omega

theorem segment_verifies (hpayload : msg.sender.payload.length ≤ 65495) :
    (InternetChecksum.add { sum := (a.sealed msg).pseudoChecksum } (a.segment msg).wire).value =
      0 := by
  have hlt := pseudoChecksum_lt (a.ipHeader msg)
  unfold sealed
  rw [IPv4Header.pseudoChecksum_of_cksum]
  refine TCPSegment.checksum_verifies ?_
  rw [TCPSegment.wire_length, TCPSegment.headerLength]
  simp only
  omega

/-! ## What is read -/

/-- The three strings of a datagram. -/
theorem buffers_flatten (bytes : Bytes) : (buffers bytes).flatten = bytes := by
  simp [buffers]

theorem buffers_solid {bytes : Bytes}
    (h : IPv4Header.length + TCPSegment.headerLength ≤ bytes.length) :
    BufferList.Solid (buffers bytes) := by
  have h : 40 ≤ bytes.length := h
  intro x hx
  have hx : x ∈ [bytes.take 20, (bytes.drop 20).take 20] := hx
  rw [← List.length_pos_iff]
  rcases List.mem_pair.mp hx with rfl | rfl
  · simp
    omega
  · simp
    omega

theorem accept_segment (hlisten : b.listening = false)
    (hsource : b.config.source = a.config.destination)
    (hdestination : b.config.destination = a.config.source) (header : IPv4Header) :
    b.accept header ⟨msg.merged, (a.segment msg).udinfo⟩ = (b, some msg.merged) := by
  have hdst : (a.segment msg).udinfo.dstPort = b.config.source.port := by
    rw [hsource]
    rfl
  have hsrc : (a.segment msg).udinfo.srcPort = b.config.destination.port := by
    rw [hdestination]
    rfl
  unfold accept
  simp [hlisten, hdst, hsrc]

/-- A datagram of the peer, its payload cut anywhere. -/
theorem unwrapTcpInIp_sealed (hpayload : msg.sender.payload.length ≤ 65495)
    (hlisten : b.listening = false) (hsource : b.config.source = a.config.destination)
    (hdestination : b.config.destination = a.config.source) {strs : List Bytes}
    (hsolid : BufferList.Solid strs) (hflat : strs.flatten = (a.segment msg).wire) :
    b.unwrapTcpInIp ⟨a.sealed msg, strs⟩ = .ok (b, some msg.merged) := by
  have hdst : (a.sealed msg).dst = b.config.source.ipv4Numeric := by
    rw [hsource]
    rfl
  have hsrc : (a.sealed msg).src = b.config.destination.ipv4Numeric := by
    rw [hdestination]
    rfl
  have hproto : (a.sealed msg).proto = IPv4Header.protoTcp := rfl
  obtain ⟨p, hrun, herr⟩ := TCPSegment.run_parse (hflat ▸ Parser.Holds.new hsolid)
    (segment_verifies hpayload) {}
  unfold unwrapTcpInIp Parser.parse
  simp [hdst, hsrc, hproto, hrun, herr, segment_message,
    accept_segment hlisten hsource hdestination]
  rfl

/-- What one adapter writes, however it is cut, is read by one with the addresses exchanged. -/
theorem read_of_flatten (hpayload : msg.sender.payload.length ≤ 65495)
    (hlisten : b.listening = false) (hsource : b.config.source = a.config.destination)
    (hdestination : b.config.destination = a.config.source) {strs : List Bytes}
    (hsolid : BufferList.Solid strs)
    (hflat : strs.flatten = (a.sealed msg).wire ++ (a.segment msg).wire) :
    b.read strs = .ok (b, some msg.merged) := by
  have hflat : strs.flatten = (a.sealed msg).wire ++ [] ++ (a.segment msg).wire := by
    rw [hflat, List.append_nil]
  obtain ⟨l, hparse, hl, hlsolid⟩ := IPv4Datagram.parse_ok (sealed_sound a msg) rfl
    (sealed_payloadLength hpayload).ge hsolid hflat {}
  unfold read
  simp [hparse, unwrapTcpInIp_sealed hpayload hlisten hsource hdestination hlsolid hl]

/-- For every message, what one adapter writes is the message for the other, with one RST flag. -/
theorem read_write (a b : TCPOverIPv4Adapter) (msg : TCPMessage)
    (hpayload : msg.sender.payload.length ≤ 65495) (hlisten : b.listening = false)
    (hsource : b.config.source = a.config.destination)
    (hdestination : b.config.destination = a.config.source) :
    ∃ bytes, a.write msg = .ok bytes ∧ b.read (buffers bytes) = .ok (b, some msg.merged) := by
  refine ⟨_, write_ok a msg, read_of_flatten hpayload hlisten hsource hdestination
    (buffers_solid ?_) (buffers_flatten _)⟩
  rw [List.length_append, IPv4Header.wire_length, TCPSegment.wire_length]
  omega

/-- A SYN with both halves, one of them with RST. -/
theorem read_write_syn : ∃ bytes,
    write ⟨⟨⟨1, 2⟩, ⟨3, 4⟩⟩, false⟩ ⟨{ syn := true, payload := [7] }, { rst := true }⟩ = .ok bytes ∧
    read ⟨⟨⟨3, 4⟩, ⟨1, 2⟩⟩, false⟩ (buffers bytes) = .ok (⟨⟨⟨3, 4⟩, ⟨1, 2⟩⟩, false⟩,
      some ⟨{ syn := true, payload := [7], rst := true }, { rst := true }⟩) :=
  read_write _ _ _ (by decide) rfl rfl rfl

end TCPOverIPv4Adapter

end Minnow
