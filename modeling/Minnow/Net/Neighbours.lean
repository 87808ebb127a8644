import Minnow.Net.Contents

/-!
# What interfaces on one link tell each other (`src/network_interface.cc`)

An interface knows of its neighbours what they say in ARP messages. `Genuine` is a frame that tells
the truth, whatever is said to be true (`K`) and whatever was sent to whom (`P`), and `Truthful` an
interface that has heard nothing else: it stays so, and its frames are genuine.

What waits for a mapping has been asked for (`Follows`), and is transmitted when the next hop says
where it is (`recvArp_total`, `recvArp_brings`).
-/

namespace Minnow

/-! ## Datagrams on the way -/

namespace IPv4Datagram

/-- A datagram as a host sends it, with no options and a payload that fits into a frame. -/
structure Whole (d : IPv4Datagram) : Prop where
  sound : d.header.Sound
  hlen : d.header.hlen = 5
  length : d.payload.flatten.length ≤ d.header.payloadLength.toNat
  nonempty : 0 < d.payload.flatten.length
  fits : d.payload.flatten.length ≤ 20 + FDWrapper.readBufferSize

instance (d : IPv4Datagram) : Decidable d.Whole :=
  decidable_of_iff ((d.header.ver = 4 ∧ 5 ≤ d.header.hlen ∧ d.header.hlen < 16 ∧
      d.header.offset < 0x2000 ∧ d.header.cksum = d.header.checksum) ∧ d.header.hlen = 5 ∧
      d.payload.flatten.length ≤ d.header.payloadLength.toNat ∧ 0 < d.payload.flatten.length ∧
      d.payload.flatten.length ≤ 20 + FDWrapper.readBufferSize)
    ⟨fun ⟨⟨hver, hlen, hlt, hoffset, hcksum⟩, h⟩ =>
      ⟨⟨hver, hlen, hlt, hoffset, hcksum⟩, h.1, h.2.1, h.2.2.1, h.2.2.2⟩,
    fun h => ⟨⟨h.sound.ver, h.sound.hlen, h.sound.hlen_lt, h.sound.offset, h.sound.cksum⟩, h.hlen,
      h.length, h.nonempty, h.fits⟩⟩

/-- The datagrams are the same, but for the cuts in the payload. -/
structure Arrived (d d' : IPv4Datagram) : Prop where
  header : d'.header = d.header
  payload : d'.payload.flatten = d.payload.flatten

variable {d : IPv4Datagram}

theorem Whole.wire_length (h : d.Whole) : 20 < d.wire.length ∧
    d.wire.length ≤ 40 + FDWrapper.readBufferSize := by
  have hpos := h.nonempty
  have hfits := h.fits
  unfold wire
  rw [List.length_append, IPv4Header.wire_length]
  unfold IPv4Header.length
  omega

theorem Whole.arrives (h : d.Whole) {strs : List Bytes} (hsolid : BufferList.Solid strs)
    (hflat : strs.flatten = d.wire) : ∃ d', Parser.parse ({} : InternetDatagram).parse strs =
      .ok (d', true) ∧ d.Arrived d' := by
  have hlen : ([] : Bytes).length = d.header.hlen.toNat * 4 - IPv4Header.length := by
    rw [h.hlen]
    rfl
  have hflat : strs.flatten = d.header.wire ++ [] ++ d.payload.flatten := by
    rw [hflat, List.append_nil]
    rfl
  obtain ⟨payload, hparse, hpayload, -⟩ := parse_ok h.sound hlen h.length hsolid hflat {}
  exact ⟨_, hparse, rfl, hpayload⟩

end IPv4Datagram

namespace ARPMessage

variable {a : ARPMessage}

theorem serialized_flatten {l : List Bytes} (hs : a.supported = true)
    (h : a.serialized = .ok l) : l.flatten = a.wire := by
  obtain ⟨s, hok, hbytes, -⟩ := serialize_ok hs
  obtain ⟨s', hs', h⟩ := bind_ok h
  obtain rfl := Except.ok.inj h
  obtain rfl := Except.ok.inj (hok.symm.trans hs')
  rw [Serializer.finish_flatten, hbytes]

theorem wire_length (a : ARPMessage) : a.wire.length = 28 := by
  simp [wire, EthernetAddress.wire]

end ARPMessage

/-- The frame carries the ARP message. -/
structure EthernetFrame.Tells (f : EthernetFrame) (arp : ARPMessage) : Prop where
  type : f.header.type = EthernetHeader.typeArp
  supported : arp.supported = true
  wire : f.payload.flatten = arp.wire

/-- The frame carries the datagram, to a station. -/
structure EthernetFrame.Brings (f : EthernetFrame) (d : InternetDatagram) (dst : EthernetAddress) :
    Prop where
  type : f.header.type = EthernetHeader.typeIPv4
  dst : f.header.dst = dst
  wire : f.payload.flatten = d.wire

/-- The frame tells the truth: an ARP message the address of its sender, and the header of an IPv4
frame the address of the next hop. -/
def EthernetFrame.Genuine (K : UInt32 → EthernetAddress → Prop)
    (P : InternetDatagram → UInt32 → Prop) (f : EthernetFrame) : Prop :=
  (∃ arp, f.Tells arp ∧ K arp.senderIpAddress arp.senderEthernetAddress) ∨
    ∃ d ip dst, f.Brings d dst ∧ P d ip ∧ K ip dst

theorem EthernetFrame.Genuine.mono {K : UInt32 → EthernetAddress → Prop}
    {P Q : InternetDatagram → UInt32 → Prop} {f : EthernetFrame} (h : f.Genuine K P)
    (hle : ∀ d ip, P d ip → Q d ip) : f.Genuine K Q :=
  h.imp_right fun ⟨d, ip, dst, hf, hd, hK⟩ => ⟨d, ip, dst, hf, hle d ip hd, hK⟩

/-- A frame whose payload fits is read as it was transmitted, its payload cut anew. -/
theorem EthernetFrame.Tells.received {f : EthernetFrame} {arp : ARPMessage} (h : f.Tells arp) :
    ∃ payload, maybeReceiveFrame f.transmitted = .ok (some ⟨f.header, payload⟩) ∧
      EthernetFrame.Tells ⟨f.header, payload⟩ arp ∧ BufferList.Solid payload := by
  have hlen : f.payload.flatten.length = 28 := by rw [h.wire, arp.wire_length]
  obtain ⟨payload, hok, hflat, hsolid⟩ := maybeReceiveFrame_ok (f := f) (by omega) (by
    rw [hlen]
    decide)
  exact ⟨payload, hok, ⟨h.type, h.supported, hflat.trans h.wire⟩, hsolid⟩

theorem EthernetFrame.Brings.received {f : EthernetFrame} {d : InternetDatagram}
    {dst : EthernetAddress} (h : f.Brings d dst) (hd : d.Whole) :
    ∃ payload, maybeReceiveFrame f.transmitted = .ok (some ⟨f.header, payload⟩) ∧
      EthernetFrame.Brings ⟨f.header, payload⟩ d dst ∧ BufferList.Solid payload := by
  obtain ⟨hmin, hmax⟩ := hd.wire_length
  rw [← h.wire] at hmin hmax
  obtain ⟨payload, hok, hflat, hsolid⟩ := maybeReceiveFrame_ok hmin hmax
  exact ⟨payload, hok, ⟨h.type, h.dst, hflat.trans h.wire⟩, hsolid⟩

namespace NetworkInterface

/-- What is heard of a frame does not depend on the cuts in it. -/
theorem recvFrame_tells {i : NetworkInterface} {f : EthernetFrame} {arp : ARPMessage}
    (h : f.Tells arp) (hsolid : BufferList.Solid f.payload) : i.recvFrame f = i.recvArp arp := by
  have hflat : f.payload.flatten = arp.wire ++ [] := by rw [h.wire, List.append_nil]
  obtain ⟨p, hrun, hp⟩ := (ARPMessage.reads_parse h.supported {}).run_new hsolid hflat
  have hparse : Parser.parse ({} : ARPMessage).parse f.payload = .ok (arp, true) := by
    unfold Parser.parse
    simp [hrun, hp.error]
  rw [recvFrame_arp h.type, hparse]
  rfl

/-- A datagram is received by the station that it is brought to, and by no other one. -/
theorem recvFrame_brings {i : NetworkInterface} {f : EthernetFrame} {d : InternetDatagram}
    {dst : EthernetAddress} (h : f.Brings d dst) (hd : d.Whole)
    (hsolid : BufferList.Solid f.payload) (hunicast : dst ≠ .broadcast) :
    ∃ d', d.Arrived d' ∧ i.recvFrame f = .ok (if dst = i.ethernetAddress then
      { i with datagramsReceived := i.datagramsReceived ++ [d'] } else i, []) := by
  obtain ⟨d', hparse, harr⟩ := hd.arrives hsolid h.wire
  have harp : f.header.type ≠ EthernetHeader.typeArp := by
    rw [h.type]
    decide
  refine ⟨d', harr, ?_⟩
  unfold recvFrame
  rw [h.dst]
  by_cases hdst : dst = i.ethernetAddress
  · rw [if_neg fun hother => hother.1 hdst, if_pos h.type, hparse, if_pos hdst]
    rfl
  · rw [if_pos ⟨hdst, hunicast, harp⟩, if_neg hdst]
    rfl

/-- A frame from the link, read by `maybe_receive_frame`. -/
def hear (i : NetworkInterface) (bytes : Bytes) :
    Except WireFault (NetworkInterface × List EthernetFrame) := do
  match ← EthernetFrame.maybeReceiveFrame bytes with
  | none => return (i, [])
  | some frame => i.recvFrame frame

theorem hear_tells {i : NetworkInterface} {f : EthernetFrame} {arp : ARPMessage} (h : f.Tells arp) :
    i.hear f.transmitted = i.recvArp arp := by
  obtain ⟨payload, hok, htells, hsolid⟩ := h.received
  unfold hear
  rw [hok, ok_bind]
  exact recvFrame_tells htells hsolid

theorem hear_brings {i : NetworkInterface} {f : EthernetFrame} {d : InternetDatagram}
    {dst : EthernetAddress} (h : f.Brings d dst) (hd : d.Whole) (hunicast : dst ≠ .broadcast) :
    ∃ d', d.Arrived d' ∧ i.hear f.transmitted = .ok (if dst = i.ethernetAddress then
      { i with datagramsReceived := i.datagramsReceived ++ [d'] } else i, []) := by
  obtain ⟨payload, hok, hbrings, hsolid⟩ := h.received hd
  obtain ⟨d', harr, hrecv⟩ := recvFrame_brings (i := i) hbrings hd hsolid hunicast
  refine ⟨d', harr, ?_⟩
  unfold hear
  rw [hok, ok_bind]
  exact hrecv

/-- The mappings of the interface are true, and its datagrams were given to it or sent to it. -/
structure Truthful (K : UInt32 → EthernetAddress → Prop) (P : InternetDatagram → UInt32 → Prop)
    (i : NetworkInterface) : Prop where
  own : K i.ipAddress.ipv4Numeric i.ethernetAddress
  cache : ∀ ip dst ttl, i.arpCache ip = some (dst, ttl) → K ip dst
  waiting : ∀ ip, ∀ d ∈ i.waiting ip, P d ip
  received : ∀ d' ∈ i.datagramsReceived, ∃ d, P d i.ipAddress.ipv4Numeric ∧ d.Arrived d'

/-- What holds of the addresses and the datagrams on a link where an interface is. -/
structure Neighbours (K : UInt32 → EthernetAddress → Prop) (P : InternetDatagram → UInt32 → Prop)
    (i : NetworkInterface) : Prop where
  whole : ∀ d ip, P d ip → d.Whole
  alone : ∀ ip, K ip i.ethernetAddress → ip = i.ipAddress.ipv4Numeric
  unicast : ∀ ip dst, K ip dst → dst ≠ .broadcast

section

variable {K : UInt32 → EthernetAddress → Prop} {P Q : InternetDatagram → UInt32 → Prop}
  {i i' : NetworkInterface} {dgram : InternetDatagram} {nextHop : Address} {f : EthernetFrame}
  {arp : ARPMessage} {out : List EthernetFrame}

theorem Truthful.mono (h : i.Truthful K P) (hle : ∀ d ip, P d ip → Q d ip) : i.Truthful K Q where
  own := h.own
  cache := h.cache
  waiting ip d hd := hle d ip (h.waiting ip d hd)
  received d' hd' := by
    obtain ⟨d, hd, harr⟩ := h.received d' hd'
    exact ⟨d, hle d _ hd, harr⟩

theorem Truthful.new {ethernetAddress : EthernetAddress} {ipAddress : Address}
    (h : K ipAddress.ipv4Numeric ethernetAddress) :
    Truthful K P { ethernetAddress, ipAddress } where
  own := h
  cache := by simp
  waiting := by simp [NetworkInterface.waiting]
  received := by simp

theorem datagramFrame_brings {payload : List Bytes} (h : dgram.serialized = .ok payload)
    (i : NetworkInterface) (dst : EthernetAddress) :
    (i.datagramFrame dst payload).Brings dgram dst :=
  ⟨rfl, rfl, IPv4Datagram.serialized_flatten h⟩

theorem arpFrame_tells {dst : EthernetAddress} (hs : arp.supported = true)
    (h : i.arpFrame dst arp = .ok f) : f.Tells arp := by
  obtain ⟨payload, hpayload, h⟩ := bind_ok h
  obtain rfl := Except.ok.inj h
  exact ⟨rfl, hs, ARPMessage.serialized_flatten hs hpayload⟩

theorem sendDatagram_truthful (h : i.Truthful K P) (hd : P dgram nextHop.ipv4Numeric)
    (hst : i.sendDatagram dgram nextHop = .ok (i', out)) :
    i'.Truthful K P ∧ ∀ f ∈ out, f.Genuine K P := by
  rcases sendDatagram_cases hst with ⟨dst, ttl, payload, hcache, hpayload, rfl, rfl⟩ |
    ⟨-, rfl, hout⟩
  · refine ⟨h, fun f hf => ?_⟩
    obtain rfl := List.mem_singleton.mp hf
    exact .inr ⟨dgram, _, dst, datagramFrame_brings hpayload i' dst, hd, h.cache _ _ _ hcache⟩
  · refine ⟨⟨h.own, h.cache, fun ip d hmem => ?_, h.received⟩, ?_⟩
    · rw [queue_waiting] at hmem
      split at hmem
      · rename_i hip
        subst hip
        rcases List.mem_append.mp hmem with hmem | hmem
        · exact h.waiting _ d hmem
        · exact List.mem_singleton.mp hmem ▸ hd
      · exact h.waiting ip d hmem
    · rcases hout with ⟨-, request, hrequest, rfl⟩ | ⟨-, rfl⟩
      · intro f hf
        obtain rfl := List.mem_singleton.mp hf
        exact .inl ⟨_, arpFrame_tells (i.arpRequest_supported _) hrequest, h.own⟩
      · simp

theorem recvArp_truthful (h : i.Truthful K P)
    (hK : K arp.senderIpAddress arp.senderEthernetAddress)
    (hst : i.recvArp arp = .ok (i', out)) : i'.Truthful K P ∧ ∀ f ∈ out, f.Genuine K P := by
  obtain ⟨responses, payloads, hresponses, hpayloads, rfl, rfl⟩ := recvArp_cases hst
  refine ⟨⟨h.own, fun ip dst ttl hcache => ?_, fun ip d hmem => ?_, h.received⟩, fun f hf => ?_⟩
  · by_cases hip : ip = arp.senderIpAddress
    · subst hip
      simp only [learn, Function.update_self, Option.some.injEq, Prod.mk.injEq] at hcache
      exact hcache.1 ▸ hK
    · simp only [learn, Function.update_of_ne hip] at hcache
      exact h.cache ip dst ttl hcache
  · by_cases hip : ip = arp.senderIpAddress
    · subst hip
      simp [NetworkInterface.waiting] at hmem
    · simp only [NetworkInterface.waiting, Function.update_of_ne hip] at hmem
      exact h.waiting ip d hmem
  · rcases List.mem_append.mp hf with hf | hf
    · rcases hresponses with rfl | ⟨response, hresponse, rfl⟩
      · cases hf
      · obtain rfl := List.mem_singleton.mp hf
        exact .inl ⟨_, arpFrame_tells (i.arpResponse_supported arp) hresponse, h.own⟩
    · obtain ⟨payload, hpayload, rfl⟩ := List.mem_map.mp hf
      have hmem : Except.ok payload ∈ payloads.map (Except.ok (ε := WireFault)) :=
        List.mem_map_of_mem hpayload
      rw [← map_eq_of_mapM hpayloads] at hmem
      obtain ⟨d, hd, hserialized⟩ := List.mem_map.mp hmem
      exact .inr ⟨d, _, _, datagramFrame_brings hserialized i _, h.waiting _ d hd, hK⟩

/-- What a genuine frame teaches is true, and it is for the interface that takes the datagram. -/
theorem hear_truthful (hn : i.Neighbours K P) (h : i.Truthful K P) (hf : f.Genuine K P)
    (hst : i.hear f.transmitted = .ok (i', out)) :
    i'.Truthful K P ∧ ∀ f ∈ out, f.Genuine K P := by
  rcases hf with ⟨arp, hf, hK⟩ | ⟨d, ip, dst, hf, hd, hK⟩
  · rw [hear_tells hf] at hst
    exact recvArp_truthful h hK hst
  · obtain ⟨d', harr, hhear⟩ := hear_brings (i := i) hf (hn.whole d ip hd) (hn.unicast ip dst hK)
    rw [hhear] at hst
    obtain ⟨rfl, rfl⟩ := pair_ok hst
    refine ⟨?_, by simp⟩
    split
    · rename_i hdst
      obtain rfl := hn.alone ip (hdst ▸ hK)
      refine ⟨h.own, h.cache, h.waiting, fun x hx => ?_⟩
      rcases List.mem_append.mp hx with hx | hx
      · exact h.received x hx
      · obtain rfl := List.mem_singleton.mp hx
        exact ⟨d, hd, harr⟩
    · exact h

theorem tick_truthful (h : i.Truthful K P) (ms : Nat) : (i.tick ms).Truthful K P := by
  refine ⟨h.own, fun ip dst ttl hcache => ?_, fun ip d hmem => h.waiting ip d ?_, h.received⟩
  · obtain ⟨entry, hentry, hleft⟩ := Option.bind_eq_some_iff.mp hcache
    unfold tickCache at hleft
    split at hleft
    · cases hleft
    · obtain ⟨rfl, -⟩ := Prod.mk.inj (Option.some.inj hleft)
      exact h.cache ip entry.1 entry.2 hentry
  · simp only [NetworkInterface.waiting, tick] at hmem ⊢
    cases hentry : i.pendingArpRequests ip with
    | none => simp [hentry] at hmem
    | some entry =>
      rw [hentry, Option.bind_some, tickPending] at hmem
      split at hmem
      · simp at hmem
      · exact hmem

/-! ## What waits has been asked for -/

/-- A call keeps the addresses, and what waits after it has waited before or is asked for in it. -/
structure Follows (i i' : NetworkInterface) (out : List EthernetFrame) : Prop where
  ethernetAddress : i'.ethernetAddress = i.ethernetAddress
  ipAddress : i'.ipAddress = i.ipAddress
  asked : ∀ ip, (i'.pendingArpRequests ip).isSome → (i.pendingArpRequests ip).isSome ∨
    ∃ f ∈ out, f.Tells (i.arpRequest ip)

theorem sendDatagram_follows (hst : i.sendDatagram dgram nextHop = .ok (i', out)) :
    i.Follows i' out := by
  rcases sendDatagram_cases hst with ⟨dst, ttl, payload, -, -, rfl, rfl⟩ | ⟨-, rfl, hout⟩
  · exact ⟨rfl, rfl, fun ip hip => .inl hip⟩
  · refine ⟨rfl, rfl, fun ip hip => ?_⟩
    by_cases hnext : ip = nextHop.ipv4Numeric
    · subst hnext
      rcases hout with ⟨-, request, hrequest, rfl⟩ | ⟨hwants, rfl⟩
      · exact .inr ⟨request, List.mem_singleton_self _,
          arpFrame_tells (i.arpRequest_supported _) hrequest⟩
      · -- no request is wanted, so there is an entry already
        unfold wantsRequest at hwants
        cases hentry : i.pendingArpRequests nextHop.ipv4Numeric with
        | none => simp [hentry] at hwants
        | some entry => exact .inl rfl
    · simp only [queue, Function.update_of_ne hnext] at hip
      exact .inl hip

theorem recvArp_follows (hst : i.recvArp arp = .ok (i', out)) : i.Follows i' out := by
  obtain ⟨responses, payloads, -, -, rfl, -⟩ := recvArp_cases hst
  refine ⟨rfl, rfl, fun ip hip => ?_⟩
  by_cases hsender : ip = arp.senderIpAddress
  · subst hsender
    simp at hip
  · simp only [Function.update_of_ne hsender] at hip
    exact .inl hip

theorem hear_follows {bytes : Bytes} (hst : i.hear bytes = .ok (i', out)) : i.Follows i' out := by
  obtain ⟨frame, -, hst⟩ := bind_ok hst
  cases frame with
  | none =>
    obtain ⟨rfl, rfl⟩ := pair_ok hst
    exact ⟨rfl, rfl, fun ip hip => .inl hip⟩
  | some frame =>
    rcases recvFrame_cases hst with ⟨-, ⟨datagramsReceived, rfl⟩, -⟩ | ⟨arp, -, harp⟩
    · exact ⟨rfl, rfl, fun ip hip => .inl hip⟩
    · exact recvArp_follows harp

theorem tick_follows (i : NetworkInterface) (ms : Nat) : i.Follows (i.tick ms) [] := by
  refine ⟨rfl, rfl, fun ip hip => ?_⟩
  simp only [tick] at hip
  cases hentry : i.pendingArpRequests ip with
  | none => simp [hentry] at hip
  | some entry => exact .inl rfl

/-! ## What waits can be sent -/

/-- A message is processed if what waits for its sender can be serialized. -/
theorem recvArp_total (h : ∀ d ∈ i.waiting arp.senderIpAddress, d.Whole) :
    ∃ i' out, i.recvArp arp = .ok (i', out) ∧
      (arp.opcode = ARPMessage.opcodeRequest → arp.targetIpAddress = i.ipAddress.ipv4Numeric →
        ∃ f ∈ out, f.Tells (i.arpResponse arp)) := by
  obtain ⟨i', out, hrecv, hresponse⟩ := recvArp_returns fun d hd => (h d hd).sound.ver
  refine ⟨i', out, hrecv, fun hop htarget => ?_⟩
  obtain ⟨f, hf, hok⟩ := hresponse hop htarget
  exact ⟨f, hf, arpFrame_tells (i.arpResponse_supported arp) hok⟩

/-- A genuine frame is heard. -/
theorem hear_total (hn : i.Neighbours K P) (h : i.Truthful K P) (hf : f.Genuine K P) :
    ∃ i' out, i.hear f.transmitted = .ok (i', out) := by
  rcases hf with ⟨arp, hf, -⟩ | ⟨d, ip, dst, hf, hd, hK⟩
  · have hwhole : ∀ d ∈ i.waiting arp.senderIpAddress, d.Whole := fun d hd =>
      hn.whole d _ (h.waiting _ d hd)
    obtain ⟨i', out, hrecv, -⟩ := recvArp_total hwhole
    exact ⟨i', out, (hear_tells hf).trans hrecv⟩
  · obtain ⟨d', -, hhear⟩ := hear_brings (i := i) hf (hn.whole d ip hd) (hn.unicast ip dst hK)
    exact ⟨_, _, hhear⟩

/-- What waits for the sender is transmitted to it. -/
theorem recvArp_brings (hst : i.recvArp arp = .ok (i', out))
    (hd : dgram ∈ i.waiting arp.senderIpAddress) :
    ∃ f ∈ out, f.Brings dgram arp.senderEthernetAddress := by
  obtain ⟨responses, payloads, -, hpayloads, -, rfl⟩ := recvArp_cases hst
  have hmem : dgram.serialized ∈ payloads.map (Except.ok (ε := WireFault)) := by
    rw [← map_eq_of_mapM hpayloads]
    exact List.mem_map_of_mem hd
  obtain ⟨payload, hpayload, hserialized⟩ := List.mem_map.mp hmem
  exact ⟨_, List.mem_append_right _ (List.mem_map_of_mem hpayload),
    datagramFrame_brings hserialized.symm i _⟩

/-- A datagram is transmitted to a mapping of its next hop, or waits for one. -/
theorem sendDatagram_total (h : dgram.Whole) (i : NetworkInterface) (nextHop : Address) :
    ∃ i' out, i.sendDatagram dgram nextHop = .ok (i', out) ∧
      ((∃ f ∈ out, ∃ dst ttl, i.arpCache nextHop.ipv4Numeric = some (dst, ttl) ∧
        f.Brings dgram dst) ∨ dgram ∈ i'.waiting nextHop.ipv4Numeric) := by
  unfold sendDatagram
  split
  · rename_i dst ttl hcache
    obtain ⟨payload, hpayload, -⟩ := IPv4Datagram.serialized_ok h.sound.ver
    rw [hpayload, ok_bind]
    exact ⟨_, _, rfl, .inl ⟨_, List.mem_singleton_self _, dst, ttl, hcache,
      datagramFrame_brings hpayload i dst⟩⟩
  · have hwaiting : dgram ∈ (i.queue dgram nextHop.ipv4Numeric).waiting nextHop.ipv4Numeric := by
      rw [queue_waiting, if_pos rfl]
      simp
    split
    · obtain ⟨payload, hok, -⟩ := arpFrame_ok (i.arpRequest_supported nextHop.ipv4Numeric) i
        .broadcast
      rw [hok, ok_bind]
      exact ⟨_, _, rfl, .inr hwaiting⟩
    · exact ⟨_, _, rfl, .inr hwaiting⟩

end

end NetworkInterface

end Minnow
