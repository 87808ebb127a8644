import Minnow.Wire.Ethernet

/-!
# The network interface (`src/network_interface.cc`)

The two hash tables are partial functions: no operation depends on the order of their entries. The
operations return the frames that they transmit. A call that throws or reads out of bounds returns
nothing; what one leaves that throws is said apart (`interrupted`).

`sendDatagram_cases`, `recvFrame_cases` and the two lemmas about `tick` say what the operations do
to the tables and what they transmit. The invariants of the runs are derived from them.
-/

namespace Minnow

structure NetworkInterface where
  ethernetAddress : EthernetAddress
  ipAddress : Address
  datagramsReceived : List InternetDatagram := []
  /-- The Ethernet address of an IP address, and for how long it is known. -/
  arpCache : UInt32 → Option (EthernetAddress × Nat) := fun _ => none
  /-- The datagrams that wait for a mapping, and the age of the entry. -/
  pendingArpRequests : UInt32 → Option (List InternetDatagram × Nat) := fun _ => none

namespace NetworkInterface

/-! ## Frames -/

/-- An IPv4 frame. -/
def datagramFrame (i : NetworkInterface) (dst : EthernetAddress) (payload : List Bytes) :
    EthernetFrame where
  header := { dst, src := i.ethernetAddress, type := EthernetHeader.typeIPv4 }
  payload

/-- An ARP frame. -/
def arpFrame (i : NetworkInterface) (dst : EthernetAddress) (arp : ARPMessage) :
    Except WireFault EthernetFrame := do
  let payload ← arp.serialized
  return { header := { dst, src := i.ethernetAddress, type := EthernetHeader.typeArp }, payload }

/-- `arp_request`. -/
def arpRequest (i : NetworkInterface) (nextHopIp : UInt32) : ARPMessage where
  opcode := ARPMessage.opcodeRequest
  senderEthernetAddress := i.ethernetAddress
  senderIpAddress := i.ipAddress.ipv4Numeric
  targetIpAddress := nextHopIp

/-- `arp_response`. -/
def arpResponse (i : NetworkInterface) (arp : ARPMessage) : ARPMessage where
  opcode := ARPMessage.opcodeReply
  senderEthernetAddress := i.ethernetAddress
  senderIpAddress := i.ipAddress.ipv4Numeric
  targetEthernetAddress := arp.senderEthernetAddress
  targetIpAddress := arp.senderIpAddress

/-! ## Operations -/

/-- There is no request yet, or one that is older than five seconds. -/
def wantsRequest (i : NetworkInterface) (nextHopIp : UInt32) : Bool :=
  (i.pendingArpRequests nextHopIp).all fun entry => entry.2 > 5000

/-- `pending_arp_requests_[next_hop_ip].first.push_back( dgram )`. -/
def queue (i : NetworkInterface) (dgram : InternetDatagram) (nextHopIp : UInt32) :
    NetworkInterface :=
  let entry := (i.pendingArpRequests nextHopIp).getD ([], 0)
  { i with pendingArpRequests :=
      Function.update i.pendingArpRequests nextHopIp (some (entry.1 ++ [dgram], entry.2)) }

def sendDatagram (i : NetworkInterface) (dgram : InternetDatagram) (nextHop : Address) :
    Except WireFault (NetworkInterface × List EthernetFrame) :=
  match i.arpCache nextHop.ipv4Numeric with
  | some (dst, _) => do
    let payload ← dgram.serialized
    return (i, [i.datagramFrame dst payload])
  | none =>
    if i.wantsRequest nextHop.ipv4Numeric then do
      let request ← i.arpFrame .broadcast (i.arpRequest nextHop.ipv4Numeric)
      return (i.queue dgram nextHop.ipv4Numeric, [request])
    else return (i.queue dgram nextHop.ipv4Numeric, [])

/-- `arp_cache_[arp.sender_ip_address] = make_pair( arp.sender_ethernet_address, 30000 )`. -/
def learn (i : NetworkInterface) (arp : ARPMessage) : NetworkInterface :=
  { i with arpCache :=
      Function.update i.arpCache arp.senderIpAddress (some (arp.senderEthernetAddress, 30000)) }

/-- The loop over the datagrams that wait for the sender, and the erasure of its entry. -/
def release (i : NetworkInterface) (arp : ARPMessage) :
    Except WireFault (NetworkInterface × List EthernetFrame) := do
  let dgrams := ((i.pendingArpRequests arp.senderIpAddress).getD ([], 0)).1
  let payloads ← dgrams.mapM IPv4Datagram.serialized
  return ({ i with pendingArpRequests :=
      Function.update i.pendingArpRequests arp.senderIpAddress none },
    payloads.map (i.datagramFrame arp.senderEthernetAddress))

/-- The answer to a request, or the datagrams that waited for a reply. -/
def answer (i : NetworkInterface) (arp : ARPMessage) :
    Except WireFault (NetworkInterface × List EthernetFrame) :=
  if arp.opcode = ARPMessage.opcodeRequest ∧ arp.targetIpAddress = i.ipAddress.ipv4Numeric then do
    let response ← i.arpFrame arp.senderEthernetAddress (i.arpResponse arp)
    return (i, [response])
  else if arp.opcode = ARPMessage.opcodeReply ∧ arp.targetIpAddress = i.ipAddress.ipv4Numeric ∧
      (i.pendingArpRequests arp.senderIpAddress).isSome then i.release arp
  else return (i, [])

def recvArp (i : NetworkInterface) (arp : ARPMessage) :
    Except WireFault (NetworkInterface × List EthernetFrame) := do
  let (i, answered) ← (i.learn arp).answer arp
  let (i, released) ← i.release arp
  return (i, answered ++ released)

def recvFrame (i : NetworkInterface) (frame : EthernetFrame) :
    Except WireFault (NetworkInterface × List EthernetFrame) :=
  if frame.header.dst ≠ i.ethernetAddress ∧ frame.header.dst ≠ .broadcast ∧
      frame.header.type ≠ EthernetHeader.typeArp then return (i, [])
  else if frame.header.type = EthernetHeader.typeIPv4 then do
    let (datagram, ok) ← Parser.parse ({} : InternetDatagram).parse frame.payload
    if ok then return ({ i with datagramsReceived := i.datagramsReceived ++ [datagram] }, [])
    else return (i, [])
  else if frame.header.type = EthernetHeader.typeArp then do
    let (arp, ok) ← Parser.parse ({} : ARPMessage).parse frame.payload
    if ok then i.recvArp arp else return (i, [])
  else return (i, [])

/-- The datagrams that are serialized before the first one that cannot be. -/
def serializedUntil : List InternetDatagram → List (List Bytes)
  | [] => []
  | dgram :: rest =>
    match dgram.serialized with
    | .ok payload => payload :: serializedUntil rest
    | .error _ => []

/-- `response_frame`, if the message asks for the interface. -/
def responses (i : NetworkInterface) (arp : ARPMessage) : List EthernetFrame :=
  if arp.opcode = ARPMessage.opcodeRequest ∧ arp.targetIpAddress = i.ipAddress.ipv4Numeric then
    (i.arpFrame arp.senderEthernetAddress (i.arpResponse arp)).toOption.toList
  else []

/-- What `recvArp` has done when the loop that transmits the waiting datagrams throws: it has learned
the mapping and answered a request, and the datagrams before the one that cannot be serialized are
transmitted. The entry is not erased. -/
def interrupted (i : NetworkInterface) (arp : ARPMessage) :
    NetworkInterface × List EthernetFrame :=
  let dgrams := ((i.pendingArpRequests arp.senderIpAddress).getD ([], 0)).1
  (i.learn arp, i.responses arp ++
    (serializedUntil dgrams).map (i.datagramFrame arp.senderEthernetAddress))

/-- The first loop of `tick`, for one entry. -/
def tickCache (ms : Nat) (entry : EthernetAddress × Nat) : Option (EthernetAddress × Nat) :=
  if entry.2 ≤ ms then none else some (entry.1, entry.2 - ms)

/-- The second loop of `tick`, for one entry. -/
def tickPending (ms : Nat) (entry : List InternetDatagram × Nat) :
    Option (List InternetDatagram × Nat) :=
  if add64 entry.2 ms > 5000 then none else some (entry.1, add64 entry.2 ms)

def tick (i : NetworkInterface) (ms : Nat) : NetworkInterface :=
  { i with
    arpCache := fun ip => (i.arpCache ip).bind (tickCache ms)
    pendingArpRequests := fun ip => (i.pendingArpRequests ip).bind (tickPending ms) }

/-! ## What the operations do -/

/-- The queue of a next hop. -/
def waiting (i : NetworkInterface) (ip : UInt32) : List InternetDatagram :=
  ((i.pendingArpRequests ip).getD ([], 0)).1

/-- The ARP message that a frame carries, if the interface processes one. -/
def heardIn (frame : EthernetFrame) : Option ARPMessage :=
  if frame.header.type = EthernetHeader.typeArp then
    match Parser.parse ({} : ARPMessage).parse frame.payload with
    | .ok (arp, true) => some arp
    | _ => none
  else none

variable {i i' : NetworkInterface} {dgram : InternetDatagram} {nextHop : Address}
  {frame : EthernetFrame} {arp : ARPMessage} {out : List EthernetFrame} {ms : Nat}

theorem arpFrame_ok (hs : arp.supported = true) (i : NetworkInterface) (dst : EthernetAddress) :
    ∃ payload,
      i.arpFrame dst arp = .ok ⟨⟨dst, i.ethernetAddress, EthernetHeader.typeArp⟩, payload⟩ ∧
      Parser.parse ({} : ARPMessage).parse payload = .ok (arp, true) := by
  obtain ⟨l, hl, hparse⟩ := ARPMessage.parse_serialized hs {}
  refine ⟨l, ?_, hparse⟩
  unfold arpFrame
  rw [hl]
  rfl

/-- An ARP frame is heard as the message that it was made from. -/
theorem heardIn_arpFrame {dst : EthernetAddress} (hs : arp.supported = true)
    (h : i.arpFrame dst arp = .ok frame) :
    frame.header.dst = dst ∧ frame.header.type = EthernetHeader.typeArp ∧
      heardIn frame = some arp := by
  obtain ⟨payload, hok, hparse⟩ := arpFrame_ok hs i dst
  obtain rfl := Except.ok.inj (hok.symm.trans h)
  refine ⟨rfl, rfl, ?_⟩
  unfold heardIn
  rw [if_pos rfl, hparse]

theorem arpRequest_supported (i : NetworkInterface) (ip : UInt32) :
    (i.arpRequest ip).supported = true := rfl

theorem arpResponse_supported (i : NetworkInterface) (arp : ARPMessage) :
    (i.arpResponse arp).supported = true := rfl

/-- A datagram is transmitted to a next hop that is known. Otherwise it is queued, and a request is
broadcast if the next hop wants one. -/
theorem sendDatagram_cases (h : i.sendDatagram dgram nextHop = .ok (i', out)) :
    (∃ dst ttl payload, i.arpCache nextHop.ipv4Numeric = some (dst, ttl) ∧
      dgram.serialized = .ok payload ∧ i' = i ∧ out = [i.datagramFrame dst payload]) ∨
    (i.arpCache nextHop.ipv4Numeric = none ∧ i' = i.queue dgram nextHop.ipv4Numeric ∧
      ((i.wantsRequest nextHop.ipv4Numeric = true ∧ ∃ request,
          i.arpFrame .broadcast (i.arpRequest nextHop.ipv4Numeric) = .ok request ∧
          out = [request]) ∨
        (i.wantsRequest nextHop.ipv4Numeric = false ∧ out = []))) := by
  unfold sendDatagram at h
  split at h
  · rename_i dst ttl hcache
    obtain ⟨payload, hpayload, h⟩ := bind_ok h
    obtain ⟨rfl, rfl⟩ := pair_ok h
    exact .inl ⟨dst, ttl, payload, hcache, hpayload, rfl, rfl⟩
  · rename_i hcache
    split at h
    · rename_i hwants
      obtain ⟨request, hrequest, h⟩ := bind_ok h
      obtain ⟨rfl, rfl⟩ := pair_ok h
      exact .inr ⟨hcache, rfl, .inl ⟨hwants, request, hrequest, rfl⟩⟩
    · rename_i hwants
      obtain ⟨rfl, rfl⟩ := pair_ok h
      exact .inr ⟨hcache, rfl, .inr ⟨Bool.eq_false_of_not_eq_true hwants, rfl⟩⟩

theorem release_cases (h : i.release arp = .ok (i', out)) : ∃ payloads,
    (i.waiting arp.senderIpAddress).mapM IPv4Datagram.serialized = .ok payloads ∧
    i' = { i with
      pendingArpRequests := Function.update i.pendingArpRequests arp.senderIpAddress none } ∧
    out = payloads.map (i.datagramFrame arp.senderEthernetAddress) := by
  obtain ⟨payloads, hpayloads, h⟩ := bind_ok h
  obtain ⟨rfl, rfl⟩ := pair_ok h
  exact ⟨payloads, hpayloads, rfl, rfl⟩

/-- What an interface transmits beside IPv4 frames when it hears `arp`: at most one response. -/
def Responses (i : NetworkInterface) (arp : ARPMessage) (out : List EthernetFrame) : Prop :=
  out = [] ∨ ∃ response, i.arpFrame arp.senderEthernetAddress (i.arpResponse arp) = .ok response ∧
    out = [response]

/-- The datagrams that wait for the sender are transmitted once, whichever loop does it. -/
theorem recvArp_cases (h : i.recvArp arp = .ok (i', out)) : ∃ responses payloads,
    i.Responses arp responses ∧
    (i.waiting arp.senderIpAddress).mapM IPv4Datagram.serialized = .ok payloads ∧
    i' = { i.learn arp with
      pendingArpRequests := Function.update i.pendingArpRequests arp.senderIpAddress none } ∧
    out = responses ++ payloads.map (i.datagramFrame arp.senderEthernetAddress) := by
  obtain ⟨⟨i₁, answered⟩, hanswer, h⟩ := bind_ok h
  obtain ⟨⟨i₂, released⟩, hrelease, h⟩ := bind_ok h
  obtain ⟨rfl, rfl⟩ := pair_ok h
  obtain ⟨payloads, hpayloads, rfl, rfl⟩ := release_cases hrelease
  unfold answer at hanswer
  split at hanswer
  · obtain ⟨response, hresponse, hanswer⟩ := bind_ok hanswer
    obtain ⟨rfl, rfl⟩ := pair_ok hanswer
    exact ⟨[response], payloads, .inr ⟨response, hresponse, rfl⟩, hpayloads, rfl, rfl⟩
  · split at hanswer
    · -- the first loop has erased the entry, so the second one finds nothing
      obtain ⟨first, hfirst, rfl, rfl⟩ := release_cases hanswer
      have hnone : (pure [] : Except WireFault (List (List Bytes))) = .ok payloads := by
        simpa [waiting] using hpayloads
      obtain rfl := Except.ok.inj hnone
      refine ⟨[], first, .inl rfl, hfirst, ?_, ?_⟩
      · rw [Function.update_idem]
        rfl
      · rw [List.map_nil, List.append_nil]
        rfl
    · obtain ⟨rfl, rfl⟩ := pair_ok hanswer
      exact ⟨[], payloads, .inl rfl, hpayloads, rfl, rfl⟩

theorem responses_spec (i : NetworkInterface) (arp : ARPMessage) :
    i.Responses arp (i.responses arp) := by
  unfold responses
  split
  · obtain ⟨payload, hok, -⟩ := arpFrame_ok (i.arpResponse_supported arp) i
      arp.senderEthernetAddress
    rw [hok]
    exact .inr ⟨_, hok, rfl⟩
  · exact .inl rfl

/-- What waits is transmitted if all of it has the version that can be serialized. -/
theorem release_returns (h : ∀ d ∈ i.waiting arp.senderIpAddress, d.header.ver = 4) :
    ∃ i' out, i.release arp = .ok (i', out) := by
  obtain ⟨payloads, hpayloads⟩ := exists_mapM (f := IPv4Datagram.serialized) fun d hd => by
    obtain ⟨l, hl, -⟩ := IPv4Datagram.serialized_ok (h d hd)
    exact ⟨l, hl⟩
  refine ⟨{ i with
    pendingArpRequests := Function.update i.pendingArpRequests arp.senderIpAddress none },
    payloads.map (i.datagramFrame arp.senderEthernetAddress), ?_⟩
  show (i.waiting arp.senderIpAddress).mapM IPv4Datagram.serialized >>= _ = _
  rw [hpayloads]
  rfl

/-- A request for the interface is answered. -/
theorem answer_returns (h : ∀ d ∈ i.waiting arp.senderIpAddress, d.header.ver = 4) :
    ∃ i' out, i.answer arp = .ok (i', out) ∧
      (∀ d ∈ i'.waiting arp.senderIpAddress, d.header.ver = 4) ∧
      (arp.opcode = ARPMessage.opcodeRequest → arp.targetIpAddress = i.ipAddress.ipv4Numeric →
        ∃ response ∈ out,
          i.arpFrame arp.senderEthernetAddress (i.arpResponse arp) = .ok response) := by
  unfold answer
  split
  · obtain ⟨payload, hok, -⟩ := arpFrame_ok (i.arpResponse_supported arp) i
      arp.senderEthernetAddress
    rw [hok, ok_bind]
    exact ⟨i, _, rfl, h, fun _ _ => ⟨_, List.mem_singleton_self _, rfl⟩⟩
  · rename_i hno
    split
    · obtain ⟨i', out, hrelease⟩ := release_returns h
      obtain ⟨payloads, -, rfl, -⟩ := release_cases hrelease
      refine ⟨_, out, hrelease, ?_, fun hop htarget => absurd ⟨hop, htarget⟩ hno⟩
      simp [waiting]
    · exact ⟨i, [], rfl, h, fun hop htarget => absurd ⟨hop, htarget⟩ hno⟩

/-- A message is processed if what waits for its sender can be serialized. -/
theorem recvArp_returns (h : ∀ d ∈ i.waiting arp.senderIpAddress, d.header.ver = 4) :
    ∃ i' out, i.recvArp arp = .ok (i', out) ∧
      (arp.opcode = ARPMessage.opcodeRequest → arp.targetIpAddress = i.ipAddress.ipv4Numeric →
        ∃ response ∈ out,
          i.arpFrame arp.senderEthernetAddress (i.arpResponse arp) = .ok response) := by
  obtain ⟨i₁, answered, hanswer, h₁, hresponse⟩ := answer_returns (i := i.learn arp) h
  obtain ⟨i₂, released, hrelease⟩ := release_returns h₁
  refine ⟨i₂, answered ++ released, ?_, fun hop htarget => ?_⟩
  · unfold recvArp
    rw [hanswer, ok_bind]
    dsimp only
    rw [hrelease]
    rfl
  · obtain ⟨response, hmem, hok⟩ := hresponse hop htarget
    exact ⟨response, List.mem_append_left _ hmem, hok⟩

/-- A frame that carries no message for the interface at most adds a datagram to those received. -/
theorem recvFrame_cases (h : i.recvFrame frame = .ok (i', out)) :
    (heardIn frame = none ∧ (∃ datagramsReceived, i' = { i with datagramsReceived }) ∧ out = []) ∨
    (∃ arp, heardIn frame = some arp ∧ i.recvArp arp = .ok (i', out)) := by
  unfold recvFrame at h
  split at h
  · rename_i hother
    obtain ⟨rfl, rfl⟩ := pair_ok h
    exact .inl ⟨if_neg hother.2.2, ⟨_, rfl⟩, rfl⟩
  · split at h
    · rename_i hipv4
      have harp : frame.header.type ≠ EthernetHeader.typeArp := by
        rw [hipv4]
        decide
      obtain ⟨⟨datagram, ok⟩, -, h⟩ := bind_ok h
      cases ok with
      | true | false =>
        obtain ⟨rfl, rfl⟩ := pair_ok h
        exact .inl ⟨if_neg harp, ⟨_, rfl⟩, rfl⟩
    · split at h
      · rename_i harp
        obtain ⟨⟨arp, ok⟩, hparse, h⟩ := bind_ok h
        unfold heardIn
        rw [if_pos harp, hparse]
        cases ok with
        | true => exact .inr ⟨arp, rfl, h⟩
        | false =>
          obtain ⟨rfl, rfl⟩ := pair_ok h
          exact .inl ⟨rfl, ⟨_, rfl⟩, rfl⟩
      · rename_i harp
        obtain ⟨rfl, rfl⟩ := pair_ok h
        exact .inl ⟨if_neg harp, ⟨_, rfl⟩, rfl⟩

/-- What becomes of an ARP frame, whoever it is for. -/
theorem recvFrame_arp (harp : frame.header.type = EthernetHeader.typeArp) :
    i.recvFrame frame = (do
      let (arp, ok) ← Parser.parse ({} : ARPMessage).parse frame.payload
      if ok then i.recvArp arp else return (i, [])) := by
  have hipv4 : EthernetHeader.typeArp ≠ EthernetHeader.typeIPv4 := by decide
  unfold recvFrame
  simp [harp, hipv4]

/-- A message that is heard is processed. -/
theorem recvFrame_heard (h : heardIn frame = some arp) : i.recvFrame frame = i.recvArp arp := by
  unfold heardIn at h
  split at h
  · rename_i harp
    rw [recvFrame_arp harp]
    cases hparse : Parser.parse ({} : ARPMessage).parse frame.payload with
    | error fault =>
      rw [hparse] at h
      cases h
    | ok parsed =>
      obtain ⟨arp', ok⟩ := parsed
      rw [hparse] at h
      cases ok with
      | false => cases h
      | true =>
        obtain rfl := Option.some.inj h
        rfl
  · cases h

/-- A call throws for a frame that carries no message, or in a loop over what waits. -/
theorem recvFrame_throws {fault : WireFault} (h : i.recvFrame frame = .error fault) :
    heardIn frame = none ∨ ∃ arp, heardIn frame = some arp ∧
      ∃ d ∈ i.waiting arp.senderIpAddress, d.header.ver ≠ 4 := by
  cases hheard : heardIn frame with
  | none => exact .inl rfl
  | some arp =>
    refine .inr ⟨arp, rfl, ?_⟩
    by_contra hall
    push Not at hall
    obtain ⟨i', out, hok, -⟩ := recvArp_returns hall
    have hrecv : i.recvFrame frame = i.recvArp arp := recvFrame_heard hheard
    rw [hrecv, hok] at h
    cases h

end NetworkInterface

end Minnow
