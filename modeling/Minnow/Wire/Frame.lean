import Minnow.Event.FileDescriptor
import Minnow.Wire.Ethernet
import Minnow.Wire.TCPSegment

/-!
# Ethernet frames as bytes (`util/ethernet_header.cc`, `util/ethernet_frame.hh`)

An output port writes the strings of a frame at once, and the other end of the socket gets one
datagram. `maybe_receive_frame` (`apps/endtoend.cc`) reads it into four strings, one for each header
and one for the rest.

What is read from a frame is the frame, with its payload cut anew (`parse_ok`), so nothing that is
said about the bytes of a payload depends on how they were cut.
-/

namespace Minnow

namespace EthernetHeader

/-- `LENGTH`. -/
def length : Nat := 14

def parse (h : EthernetHeader) : ParseM EthernetHeader := do
  let dst ← h.dst.parse
  let src ← h.src.parse
  let type ← Parser.integer16 h.type
  return { dst, src, type }

def serialize (h : EthernetHeader) (s : Serializer) : Serializer :=
  (h.src.serialize (h.dst.serialize s)).integer16 h.type

def wire (h : EthernetHeader) : Bytes := h.dst.wire ++ h.src.wire ++ BigEndian.encode 2 h.type.toNat

@[simp] theorem wire_length (h : EthernetHeader) : h.wire.length = length := by
  simp [wire, EthernetAddress.wire, length]

@[simp] theorem serialize_bytes (h : EthernetHeader) (s : Serializer) :
    (h.serialize s).bytes = s.bytes ++ h.wire := by
  simp [serialize, wire]

theorem reads_parse (h old : EthernetHeader) : Parser.Reads old.parse h.wire h := by
  have hread : Parser.Reads old.parse _ _ :=
    (h.dst.reads_parse _).bind <| (h.src.reads_parse _).bind <|
    (Parser.reads_integer16 _ h.type).bind <| .pure _
  unfold wire
  simpa only [List.append_assoc, List.append_nil] using hread

end EthernetHeader

namespace EthernetFrame

def parse (f : EthernetFrame) : ParseM EthernetFrame := do
  let header ← f.header.parse
  let payload ← Parser.allRemaining
  return { header, payload }

def serialize (f : EthernetFrame) (s : Serializer) : Serializer :=
  (f.header.serialize s).strings f.payload

/-- The bytes that an output port writes. -/
def transmitted (f : EthernetFrame) : Bytes := (f.serialize {}).finish.flatten

/-- The bytes that fit into the strings of `maybe_receive_frame`. -/
def bufferSizes : List Nat :=
  [EthernetHeader.length, IPv4Header.length, TCPSegment.headerLength, FDWrapper.readBufferSize]

/-- `maybe_receive_frame`. What does not fit is lost. -/
def maybeReceiveFrame (bytes : Bytes) : Except WireFault (Option EthernetFrame) := do
  let (frame, ok) ← Parser.parse (parse ⟨⟨{}, {}, 0⟩, []⟩) (FDWrapper.scatter bufferSizes bytes)
  return if ok then some frame else none

/-! ## What is read -/

variable {f : EthernetFrame} {bytes : Bytes} {l : List Bytes}

@[simp] theorem transmitted_eq (f : EthernetFrame) :
    f.transmitted = f.header.wire ++ f.payload.flatten := by
  simp [transmitted, serialize]

/-- A frame is read as it was written, however its bytes are cut. -/
theorem parse_ok (hl : BufferList.Solid l) (hbytes : l.flatten = f.header.wire ++ f.payload.flatten)
    (old : EthernetFrame) : ∃ payload, Parser.parse old.parse l = .ok (⟨f.header, payload⟩, true) ∧
      payload.flatten = f.payload.flatten ∧ BufferList.Solid payload := by
  obtain ⟨p, hrun, hp⟩ := (f.header.reads_parse old.header).run_new hl hbytes
  obtain ⟨payload, hpayload, hflat, hsolid⟩ := Parser.run_allRemaining hp
  refine ⟨payload, ?_, hflat, hsolid⟩
  unfold Parser.parse EthernetFrame.parse
  simp [hrun, hpayload, hp.error]

theorem scatter_flatten (hlen : bytes.length ≤ bufferSizes.sum) :
    (FDWrapper.scatter bufferSizes bytes).flatten = bytes := by
  have hrest : (bytes.drop 54).take FDWrapper.readBufferSize = bytes.drop 54 := by
    apply List.take_of_length_le
    have : bytes.length ≤ 54 + FDWrapper.readBufferSize := hlen
    simp
    omega
  show (bytes.take 14 ++ ((bytes.drop 14).take 20 ++ (((bytes.drop 14).drop 20).take 20 ++
    ((((bytes.drop 14).drop 20).drop 20).take FDWrapper.readBufferSize ++ [])))) = bytes
  simp only [List.drop_drop, Nat.reduceAdd, hrest, List.append_nil]
  rw [show bytes.drop 54 = (bytes.drop 34).drop 20 by simp, List.take_append_drop,
    show bytes.drop 34 = (bytes.drop 14).drop 20 by simp, List.take_append_drop,
    List.take_append_drop]

theorem scatter_solid (hlen : 34 < bytes.length) :
    BufferList.Solid (FDWrapper.scatter bufferSizes bytes) := by
  intro x hx
  have hx : x ∈ [bytes.take 14, (bytes.drop 14).take 20, ((bytes.drop 14).drop 20).take 20] := hx
  rw [← List.length_pos_iff]
  simp only [List.mem_cons, List.not_mem_nil, or_false] at hx
  rcases hx with rfl | rfl | rfl
  all_goals
    simp
    omega

/-- The payload of a frame that fits. -/
theorem maybeReceiveFrame_ok (hmin : 20 < f.payload.flatten.length)
    (hmax : f.payload.flatten.length ≤ 40 + FDWrapper.readBufferSize) : ∃ payload,
      maybeReceiveFrame f.transmitted = .ok (some ⟨f.header, payload⟩) ∧
      payload.flatten = f.payload.flatten ∧ BufferList.Solid payload := by
  have hlength : f.transmitted.length = 14 + f.payload.flatten.length := by
    rw [transmitted_eq, List.length_append, EthernetHeader.wire_length]
    rfl
  have hsolid : BufferList.Solid (FDWrapper.scatter bufferSizes f.transmitted) :=
    scatter_solid (by omega)
  have hflat : (FDWrapper.scatter bufferSizes f.transmitted).flatten =
      f.header.wire ++ f.payload.flatten := by
    rw [scatter_flatten ?_, transmitted_eq]
    show f.transmitted.length ≤ 54 + FDWrapper.readBufferSize
    omega
  obtain ⟨payload, hparse, hpayload, hcut⟩ := parse_ok hsolid hflat ⟨⟨{}, {}, 0⟩, []⟩
  refine ⟨payload, ?_, hpayload, hcut⟩
  unfold maybeReceiveFrame
  rw [hparse]
  rfl

end EthernetFrame

end Minnow
