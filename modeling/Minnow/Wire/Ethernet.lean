import Minnow.Wire.IPv4

/-!
# Ethernet frames and ARP messages (`util/ethernet_header.hh`, `util/arp_message.cc`)

An interface gets its frames parsed, so a frame is its header and the strings of its payload.

An ARP message that is supported is what `parse` reads from its own bytes (`parse_serialized`), so a
frame that was made from one says what it asks for.
-/

namespace Minnow

/-- `std::array<uint8_t, 6>`. -/
structure EthernetAddress where
  b₀ : UInt8 := 0
  b₁ : UInt8 := 0
  b₂ : UInt8 := 0
  b₃ : UInt8 := 0
  b₄ : UInt8 := 0
  b₅ : UInt8 := 0
  deriving DecidableEq

namespace EthernetAddress

/-- `ETHERNET_BROADCAST`. -/
def broadcast : EthernetAddress := ⟨0xff, 0xff, 0xff, 0xff, 0xff, 0xff⟩

def parse (a : EthernetAddress) : ParseM EthernetAddress := do
  let b₀ ← Parser.integer8 a.b₀
  let b₁ ← Parser.integer8 a.b₁
  let b₂ ← Parser.integer8 a.b₂
  let b₃ ← Parser.integer8 a.b₃
  let b₄ ← Parser.integer8 a.b₄
  let b₅ ← Parser.integer8 a.b₅
  return ⟨b₀, b₁, b₂, b₃, b₄, b₅⟩

def serialize (a : EthernetAddress) (s : Serializer) : Serializer :=
  s.integer8 a.b₀ |>.integer8 a.b₁ |>.integer8 a.b₂ |>.integer8 a.b₃ |>.integer8 a.b₄
    |>.integer8 a.b₅

def wire (a : EthernetAddress) : Bytes :=
  BigEndian.encode 1 a.b₀.toNat ++ BigEndian.encode 1 a.b₁.toNat ++ BigEndian.encode 1 a.b₂.toNat ++
    BigEndian.encode 1 a.b₃.toNat ++ BigEndian.encode 1 a.b₄.toNat ++ BigEndian.encode 1 a.b₅.toNat

@[simp] theorem serialize_bytes (a : EthernetAddress) (s : Serializer) :
    (a.serialize s).bytes = s.bytes ++ a.wire := by
  simp [serialize, wire]

theorem reads_parse (a old : EthernetAddress) : Parser.Reads old.parse a.wire a := by
  have hread : Parser.Reads old.parse _ _ :=
    (Parser.reads_integer8 _ a.b₀).bind <| (Parser.reads_integer8 _ a.b₁).bind <|
    (Parser.reads_integer8 _ a.b₂).bind <| (Parser.reads_integer8 _ a.b₃).bind <|
    (Parser.reads_integer8 _ a.b₄).bind <| (Parser.reads_integer8 _ a.b₅).bind <| .pure _
  unfold wire
  simpa only [List.append_assoc, List.append_nil] using hread

end EthernetAddress

structure EthernetHeader where
  dst : EthernetAddress
  src : EthernetAddress
  type : UInt16
  deriving DecidableEq

namespace EthernetHeader

def typeIPv4 : UInt16 := 0x800

def typeArp : UInt16 := 0x806

end EthernetHeader

structure EthernetFrame where
  header : EthernetHeader
  payload : List Bytes := []
  deriving DecidableEq

structure ARPMessage where
  hardwareType : UInt16 := 1
  protocolType : UInt16 := EthernetHeader.typeIPv4
  hardwareAddressSize : UInt8 := 6
  protocolAddressSize : UInt8 := 4
  opcode : UInt16 := 0
  senderEthernetAddress : EthernetAddress := {}
  senderIpAddress : UInt32 := 0
  targetEthernetAddress : EthernetAddress := {}
  targetIpAddress : UInt32 := 0
  deriving DecidableEq

namespace ARPMessage

def typeEthernet : UInt16 := 1

def opcodeRequest : UInt16 := 1

def opcodeReply : UInt16 := 2

def supported (a : ARPMessage) : Bool :=
  a.hardwareType == typeEthernet && a.protocolType == EthernetHeader.typeIPv4 &&
    a.hardwareAddressSize == 6 && a.protocolAddressSize == 4 &&
    (a.opcode == opcodeRequest || a.opcode == opcodeReply)

/-- The addresses, of a message that is supported. -/
def parseAddresses (a : ARPMessage) : ParseM ARPMessage := do
  let senderEthernetAddress ← a.senderEthernetAddress.parse
  let senderIpAddress ← Parser.integer32 a.senderIpAddress
  let targetEthernetAddress ← a.targetEthernetAddress.parse
  let targetIpAddress ← Parser.integer32 a.targetIpAddress
  return { a with
    senderEthernetAddress, senderIpAddress, targetEthernetAddress, targetIpAddress }

def parse (a : ARPMessage) : ParseM ARPMessage := do
  let hardwareType ← Parser.integer16 a.hardwareType
  let protocolType ← Parser.integer16 a.protocolType
  let hardwareAddressSize ← Parser.integer8 a.hardwareAddressSize
  let protocolAddressSize ← Parser.integer8 a.protocolAddressSize
  let opcode ← Parser.integer16 a.opcode
  let a := { a with hardwareType, protocolType, hardwareAddressSize, protocolAddressSize, opcode }
  if !a.supported then
    Parser.setError
    return a
  a.parseAddresses

def serialize (a : ARPMessage) (s : Serializer) : Except WireFault Serializer :=
  if !a.supported then .error .unsupportedArp
  else
    let s := s.integer16 a.hardwareType |>.integer16 a.protocolType
      |>.integer8 a.hardwareAddressSize |>.integer8 a.protocolAddressSize |>.integer16 a.opcode
    let s := a.senderEthernetAddress.serialize s
    let s := s.integer32 a.senderIpAddress
    let s := a.targetEthernetAddress.serialize s
    .ok (s.integer32 a.targetIpAddress)

/-- The helper `serialize` (`util/helpers.hh`). -/
def serialized (a : ARPMessage) : Except WireFault (List Bytes) := do
  let s ← a.serialize {}
  return s.finish

def wire (a : ARPMessage) : Bytes :=
  BigEndian.encode 2 a.hardwareType.toNat ++ BigEndian.encode 2 a.protocolType.toNat ++
    BigEndian.encode 1 a.hardwareAddressSize.toNat ++
    BigEndian.encode 1 a.protocolAddressSize.toNat ++ BigEndian.encode 2 a.opcode.toNat ++
    a.senderEthernetAddress.wire ++ BigEndian.encode 4 a.senderIpAddress.toNat ++
    a.targetEthernetAddress.wire ++ BigEndian.encode 4 a.targetIpAddress.toNat

variable {a : ARPMessage}

theorem reads_parseAddresses (a old : ARPMessage) : Parser.Reads old.parseAddresses
    (a.senderEthernetAddress.wire ++ BigEndian.encode 4 a.senderIpAddress.toNat ++
      a.targetEthernetAddress.wire ++ BigEndian.encode 4 a.targetIpAddress.toNat)
    { old with
      senderEthernetAddress := a.senderEthernetAddress, senderIpAddress := a.senderIpAddress
      targetEthernetAddress := a.targetEthernetAddress, targetIpAddress := a.targetIpAddress } := by
  have hread : Parser.Reads old.parseAddresses _ _ :=
    (a.senderEthernetAddress.reads_parse _).bind <|
    (Parser.reads_integer32 _ a.senderIpAddress).bind <|
    (a.targetEthernetAddress.reads_parse _).bind <|
    (Parser.reads_integer32 _ a.targetIpAddress).bind <| .pure _
  simpa only [List.append_assoc, List.append_nil] using hread

theorem reads_parse (hs : a.supported = true) (old : ARPMessage) :
    Parser.Reads old.parse a.wire a := by
  unfold wire
  simp only [List.append_assoc]
  refine (Parser.reads_integer16 _ a.hardwareType).bind <|
    (Parser.reads_integer16 _ a.protocolType).bind <|
    (Parser.reads_integer8 _ a.hardwareAddressSize).bind <|
    (Parser.reads_integer8 _ a.protocolAddressSize).bind <|
    (Parser.reads_integer16 _ a.opcode).bind ?_
  -- whether a message is supported depends on what was read so far
  have hread : ARPMessage.supported { old with
      hardwareType := a.hardwareType, protocolType := a.protocolType
      hardwareAddressSize := a.hardwareAddressSize
      protocolAddressSize := a.protocolAddressSize, opcode := a.opcode } = true := hs
  dsimp only
  rw [hread, if_neg (by simp), ← List.append_assoc, ← List.append_assoc]
  exact reads_parseAddresses a _

theorem serialize_ok (hs : a.supported = true) : ∃ s, a.serialize {} = .ok s ∧ s.bytes = a.wire ∧
    s.output = [] := by
  unfold serialize
  rw [hs, if_neg (by simp)]
  exact ⟨_, rfl, by simp [wire], rfl⟩

/-- A message that is supported is read as it was written. -/
theorem parse_serialized (hs : a.supported = true) (old : ARPMessage) : ∃ l,
    a.serialized = .ok l ∧ Parser.parse old.parse l = .ok (a, true) := by
  obtain ⟨s, hok, hbytes, houtput⟩ := serialize_ok hs
  have hsolid : BufferList.Solid s.finish := fun x hx =>
    Serializer.finish_ne_nil houtput (List.mem_of_mem_dropLast hx)
  have hflat : s.finish.flatten = a.wire ++ [] := by
    rw [Serializer.finish_flatten, hbytes, List.append_nil]
  obtain ⟨p, hrun, hp⟩ := (reads_parse hs old).run_new hsolid hflat
  refine ⟨s.finish, ?_, ?_⟩
  · unfold serialized
    rw [hok]
    rfl
  · unfold Parser.parse
    simp [hrun, hp.error]

end ARPMessage

end Minnow
