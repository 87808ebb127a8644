import Minnow.Tcp.Peer
import Minnow.Wire.Parser
import Minnow.Wire.Serializer
import Minnow.Wire.Checksum

/-!
# TCP segments (`util/tcp_segment.cc`)

A segment carries one RST flag for both halves of its message, so what is parsed has the flag in
both if one of them had it (`merged`).

The checksum is verified over the unread bytes before any of them is read. `checksum_verifies` says
that a segment passes with the checksum that `computeChecksum` gives it: the checksum stands at an
even offset, so it is added to the sum of the segment without it.
-/

namespace Minnow

structure UserDatagramInfo where
  srcPort : UInt16 := 0
  dstPort : UInt16 := 0
  cksum : UInt16 := 0
  deriving DecidableEq

structure TCPSegment where
  message : TCPMessage := {}
  udinfo : UserDatagramInfo := {}
  deriving DecidableEq

/-- The message with one RST flag for both halves. -/
def TCPMessage.merged (m : TCPMessage) : TCPMessage where
  sender := { m.sender with rst := m.sender.rst || m.receiver.rst }
  receiver := { m.receiver with rst := m.sender.rst || m.receiver.rst }

namespace TCPSegment

/-- `HEADER_LENGTH`. -/
def headerLength : Nat := 20

/-- The first part of `parse`: the header without options, and the data offset. A variable that is
filled a second time keeps its old value after an error. -/
def parseFields (t : TCPSegment) : ParseM (TCPSegment × UInt8) := do
  let srcPort ← Parser.integer16 t.udinfo.srcPort
  let dstPort ← Parser.integer16 t.udinfo.dstPort
  let seqno ← Parser.integer32 0
  let ackno ← Parser.integer32 seqno
  let offset ← Parser.integer8 0
  let flags ← Parser.integer8 offset
  let windowSize ← Parser.integer16 t.message.receiver.windowSize
  let cksum ← Parser.integer16 t.udinfo.cksum
  let _ ← Parser.integer16 0
  let rst := flags &&& 0x04 != 0
  let sender : TCPSenderMessage := { t.message.sender with
    seqno := ⟨seqno⟩, syn := flags &&& 0x02 != 0, fin := flags &&& 0x01 != 0, rst }
  let receiver : TCPReceiverMessage := {
    ackno := if flags &&& 0x10 != 0 then some ⟨ackno⟩ else none, windowSize, rst }
  return (⟨⟨sender, receiver⟩, ⟨srcPort, dstPort, cksum⟩⟩, offset >>> 4)

def parse (t : TCPSegment) (datagramLayerPseudoChecksum : UInt32) : ParseM TCPSegment := do
  let views ← Parser.buffer
  let check := InternetChecksum.addAll { sum := datagramLayerPseudoChecksum } views
  if check.value ≠ 0 then
    Parser.setError
    return t
  let (t, dataOffset) ← t.parseFields
  if dataOffset.toNat < headerLength / 4 then
    Parser.setError
    return t
  Parser.removePrefix (dataOffset.toNat * 4 - headerLength)
  let payload ← Parser.concatenateAllRemaining
  return { t with message.sender.payload := payload }

def flags (t : TCPSegment) : UInt8 :=
  let reset := t.message.sender.rst || t.message.receiver.rst
  (if t.message.receiver.ackno.isSome then 0x10 else 0) ||| (if reset then 0x04 else 0) |||
    (if t.message.sender.syn then 0x02 else 0) ||| (if t.message.sender.fin then 0x01 else 0)

def serialize (t : TCPSegment) (s : Serializer) : Serializer :=
  s.integer16 t.udinfo.srcPort |>.integer16 t.udinfo.dstPort
    |>.integer32 t.message.sender.seqno.rawValue
    |>.integer32 (t.message.receiver.ackno.getD ⟨0⟩).rawValue
    |>.integer8 ((UInt8.ofNat headerLength >>> 2) <<< 4) |>.integer8 t.flags
    |>.integer16 t.message.receiver.windowSize |>.integer16 t.udinfo.cksum |>.integer16 0
    |>.string t.message.sender.payload

/-- `udinfo.cksum = cksum`. -/
def setCksum (t : TCPSegment) (cksum : UInt16) : TCPSegment :=
  { t with udinfo := { t.udinfo with cksum } }

def computeChecksum (t : TCPSegment) (datagramLayerPseudoChecksum : UInt32) : TCPSegment :=
  let t := t.setCksum 0
  let check :=
    InternetChecksum.addAll { sum := datagramLayerPseudoChecksum } (t.serialize {}).finish
  t.setCksum check.value

/-! ## The bytes of a segment -/

/-- The header up to its checksum. -/
def front (t : TCPSegment) : Bytes :=
  BigEndian.encode 2 t.udinfo.srcPort.toNat ++ BigEndian.encode 2 t.udinfo.dstPort.toNat ++
    BigEndian.encode 4 t.message.sender.seqno.rawValue.toNat ++
    BigEndian.encode 4 (t.message.receiver.ackno.getD ⟨0⟩).rawValue.toNat ++
    BigEndian.encode 1 ((UInt8.ofNat headerLength >>> 2) <<< 4).toNat ++
    BigEndian.encode 1 t.flags.toNat ++ BigEndian.encode 2 t.message.receiver.windowSize.toNat

/-- The header behind its checksum, and the payload. -/
def back (t : TCPSegment) : Bytes := BigEndian.encode 2 0 ++ t.message.sender.payload

def wire (t : TCPSegment) : Bytes := t.front ++ BigEndian.encode 2 t.udinfo.cksum.toNat ++ t.back

variable {t : TCPSegment} {pseudo : UInt32}

@[simp] theorem front_length (t : TCPSegment) : t.front.length = 16 := by simp [front]

@[simp] theorem wire_length (t : TCPSegment) :
    t.wire.length = headerLength + t.message.sender.payload.length := by
  simp [wire, back, headerLength]
  omega

@[simp] theorem serialize_bytes (t : TCPSegment) (s : Serializer) :
    (t.serialize s).bytes = s.bytes ++ t.wire := by
  simp [serialize, wire, front, back]

/-! ## The checksum -/

theorem weight_encode (v : UInt16) :
    InternetChecksum.weight false (BigEndian.encode 2 v.toNat) = v.toNat := by
  have hv := v.toNat_lt
  simp [BigEndian.encode, InternetChecksum.weight, Nat.shiftRight_eq_div_pow]
  omega

theorem weight_wire (t : TCPSegment) : InternetChecksum.weight false t.wire =
    InternetChecksum.weight false t.front + t.udinfo.cksum.toNat +
      InternetChecksum.weight false t.back := by
  unfold wire
  rw [InternetChecksum.weight_append, InternetChecksum.weight_append]
  simp [weight_encode]

theorem weight_setCksum (t : TCPSegment) (cksum : UInt16) :
    InternetChecksum.weight false (t.setCksum cksum).wire =
      InternetChecksum.weight false (t.setCksum 0).wire + cksum.toNat := by
  rw [weight_wire, weight_wire, show (t.setCksum cksum).udinfo.cksum = cksum from rfl,
    show (t.setCksum 0).udinfo.cksum.toNat = 0 from rfl]
  show InternetChecksum.weight false t.front + cksum.toNat + InternetChecksum.weight false t.back =
    InternetChecksum.weight false t.front + 0 + InternetChecksum.weight false t.back + cksum.toNat
  omega

theorem computeChecksum_eq (t : TCPSegment) (pseudo : UInt32) :
    t.computeChecksum pseudo =
      t.setCksum (InternetChecksum.add { sum := pseudo } (t.setCksum 0).wire).value := by
  unfold computeChecksum
  dsimp only
  rw [InternetChecksum.addAll_eq, Serializer.finish_flatten, serialize_bytes]
  rfl

/-- A segment that fits into a datagram does not overflow the sum. -/
theorem sum_wire (hsum : pseudo.toNat + 2 ^ 16 * t.wire.length < 2 ^ 32) :
    (InternetChecksum.add { sum := pseudo } t.wire).sum.toNat =
      pseudo.toNat + InternetChecksum.weight false t.wire :=
  InternetChecksum.add_sum (lt_of_le_of_lt
    (Nat.add_le_add_left (InternetChecksum.weight_le false t.wire) _) hsum)

theorem checksum_verifies (hsum : pseudo.toNat + 2 ^ 16 * t.wire.length < 2 ^ 32) :
    (InternetChecksum.add { sum := pseudo } (t.computeChecksum pseudo).wire).value = 0 := by
  have hlength : ∀ cksum, (t.setCksum cksum).wire.length = t.wire.length := fun cksum => by
    simp [setCksum]
  have hwith : ∀ cksum, (InternetChecksum.add { sum := pseudo } (t.setCksum cksum).wire).sum.toNat =
      (InternetChecksum.add { sum := pseudo } (t.setCksum 0).wire).sum.toNat + cksum.toNat :=
    fun cksum => by
      rw [sum_wire (by rwa [hlength]), sum_wire (by rwa [hlength]), weight_setCksum, Nat.add_assoc]
  rw [computeChecksum_eq]
  exact InternetChecksum.value_add_complement (hwith _)

/-! ## What is parsed -/

theorem flags_bits (t : TCPSegment) :
    (t.flags &&& 0x10 != 0) = t.message.receiver.ackno.isSome ∧
    (t.flags &&& 0x04 != 0) = (t.message.sender.rst || t.message.receiver.rst) ∧
    (t.flags &&& 0x02 != 0) = t.message.sender.syn ∧
    (t.flags &&& 0x01 != 0) = t.message.sender.fin := by
  unfold flags
  generalize t.message.receiver.ackno.isSome = ack, t.message.sender.syn = syn,
    t.message.sender.fin = fin, (t.message.sender.rst || t.message.receiver.rst) = rst
  revert ack rst syn fin
  decide

/-- What `parseFields` reads from the header: the message without its payload. -/
theorem reads_parseFields (t old : TCPSegment) :
    Parser.Reads old.parseFields
      (t.front ++ BigEndian.encode 2 t.udinfo.cksum.toNat ++ BigEndian.encode 2 0)
      (⟨⟨{ t.message.merged.sender with payload := old.message.sender.payload },
        t.message.merged.receiver⟩, t.udinfo⟩, 5) := by
  have hread : Parser.Reads old.parseFields _ _ :=
    (Parser.reads_integer16 _ t.udinfo.srcPort).bind <|
    (Parser.reads_integer16 _ t.udinfo.dstPort).bind <|
    (Parser.reads_integer32 0 t.message.sender.seqno.rawValue).bind <|
    (Parser.reads_integer32 _ (t.message.receiver.ackno.getD ⟨0⟩).rawValue).bind <|
    (Parser.reads_integer8 0 ((UInt8.ofNat headerLength >>> 2) <<< 4)).bind <|
    (Parser.reads_integer8 _ t.flags).bind <|
    (Parser.reads_integer16 _ t.message.receiver.windowSize).bind <|
    (Parser.reads_integer16 _ t.udinfo.cksum).bind <|
    (Parser.reads_integer16 0 0).bind <| .pure _
  obtain ⟨hack, hrst, hsyn, hfin⟩ := t.flags_bits
  have hackno : (if t.message.receiver.ackno.isSome then
      some (⟨(t.message.receiver.ackno.getD ⟨0⟩).rawValue⟩ : Wrap32) else none) =
      t.message.receiver.ackno := by
    cases t.message.receiver.ackno <;> rfl
  rw [hack, hrst, hsyn, hfin, hackno] at hread
  unfold front
  simp only [List.append_assoc, List.append_nil] at hread ⊢
  exact hread

/-- A segment whose checksum is right is parsed to its end. -/
theorem run_parse {p : Parser} (hp : p.Holds t.wire)
    (hcheck : (InternetChecksum.add { sum := pseudo } t.wire).value = 0) (old : TCPSegment) :
    ∃ p', (old.parse pseudo).run p = .ok (⟨t.message.merged, t.udinfo⟩, p') ∧ p'.error = false := by
  obtain ⟨views, hviews, hflat⟩ := Parser.run_buffer hp
  obtain ⟨p₁, hfields, hp₁⟩ := reads_parseFields t old p t.message.sender.payload (by
    simpa [wire, back, List.append_assoc] using hp)
  -- there are no options
  obtain ⟨p₂, hremove, hp₂⟩ := Parser.reads_removePrefix [] p₁ _ hp₁
  rw [List.length_nil] at hremove
  have hvalue : (InternetChecksum.addAll { sum := pseudo } views).value = 0 := by
    rw [InternetChecksum.addAll_eq, hflat, hcheck]
  refine ⟨p₂, ?_, hp₂.error⟩
  unfold parse
  simp [hviews, hvalue, hfields, headerLength, hremove, Parser.run_concatenateAllRemaining hp₂]
  rfl

end TCPSegment

end Minnow
