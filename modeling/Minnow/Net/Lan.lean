import Minnow.Lib.Machine
import Minnow.Net.Neighbours

/-!
# Hosts on one link (`src/network_interface.cc`)

A `Lan` is a link with any number of hosts, each behind its `NetworkInterface`. A frame on the link
is bytes, and any host may get it, at any time, any number of times, or never. What a host knows of
the others it has learned from ARP messages.

Nobody else is on the link, so what is learned is true, and a datagram is received by its next hop
and by no other host (`mappings_true`). What waits for a mapping is never stuck, since the request
for it is on the link: a few deliveries take it to its next hop (`delivery_possible`).
-/

namespace Minnow

/-- The addresses of the hosts. -/
structure Stations (η : Type) where
  ethernetAddress : η → EthernetAddress
  ipAddress : η → Address

namespace Stations

variable {η : Type}

/-- The station with the IP address has the Ethernet address. -/
def Owns (a : Stations η) (ip : UInt32) (dst : EthernetAddress) : Prop :=
  ∃ z, (a.ipAddress z).ipv4Numeric = ip ∧ a.ethernetAddress z = dst

/-- No two stations share an address. -/
structure Distinct (a : Stations η) : Prop where
  ethernet : Function.Injective a.ethernetAddress
  ip : Function.Injective fun x => (a.ipAddress x).ipv4Numeric
  unicast : ∀ x, a.ethernetAddress x ≠ .broadcast

theorem Distinct.owns {a : Stations η} (h : a.Distinct) {z : η} {dst : EthernetAddress}
    (ho : a.Owns (a.ipAddress z).ipv4Numeric dst) : a.ethernetAddress z = dst := by
  obtain ⟨y, hip, rfl⟩ := ho
  rw [h.ip hip]

/-- `arp_request` of a station. -/
def request (a : Stations η) (x : η) (ip : UInt32) : ARPMessage :=
  NetworkInterface.arpRequest
    { ethernetAddress := a.ethernetAddress x, ipAddress := a.ipAddress x } ip

end Stations

structure Lan (η : Type) where
  hosts : η → NetworkInterface
  link : List Bytes := []
  /-- The datagrams that were sent, and their next hops. -/
  sent : List (InternetDatagram × Address) := []

namespace Lan

inductive Op (η : Type) where
  | send (x : η) (dgram : InternetDatagram) (nextHop : Address)
  | hear (x : η) (bytes : Bytes)
  | tick (x : η) (ms : Nat)
  | pop (x : η)

section

variable {η : Type} [DecidableEq η]

/-- The host after a call, and what it has transmitted. -/
def put (s : Lan η) (x : η) (i : NetworkInterface) (out : List EthernetFrame) : Lan η :=
  { s with
    hosts := Function.update s.hosts x i
    link := s.link ++ out.map EthernetFrame.transmitted }

def step (s : Lan η) : Op η → Except WireFault (Lan η)
  | .send x dgram nextHop => do
    let (i, out) ← (s.hosts x).sendDatagram dgram nextHop
    return { s.put x i out with sent := s.sent ++ [(dgram, nextHop)] }
  | .hear x bytes => do
    let (i, out) ← (s.hosts x).hear bytes
    return s.put x i out
  | .tick x ms => return s.put x ((s.hosts x).tick ms) []
  | .pop x =>
    let i := s.hosts x
    return s.put x { i with datagramsReceived := i.datagramsReceived.tail } []

/-- The stations, when nothing has been sent. -/
def new (a : Stations η) : Lan η where
  hosts x := { ethernetAddress := a.ethernetAddress x, ipAddress := a.ipAddress x }

def machine (a : Stations η) : Machine (Lan η) (Op η) := .det (new a) step

/-- The link delivers what was transmitted on it, and nobody pops a queue that is empty. -/
def Permitted (s : Lan η) : Op η → Prop
  | .send _ dgram _ => dgram.Whole
  | .hear _ bytes => bytes ∈ s.link
  | .tick _ _ => True
  | .pop x => (s.hosts x).datagramsReceived.isEmpty = false

/-- The link delivers, and nothing else happens. -/
def Delivers (s : Lan η) : Op η → Prop
  | .hear _ bytes => bytes ∈ s.link
  | .send _ _ _ | .tick _ _ | .pop _ => False

instance (s : Lan η) : ∀ op, Decidable (Permitted s op)
  | .send _ dgram _ => decidable_of_iff dgram.Whole .rfl
  | .hear _ bytes => decidable_of_iff (∃ sent ∈ s.link, sent = bytes)
    ⟨fun ⟨_, hmem, heq⟩ => heq ▸ hmem, fun hmem => ⟨bytes, hmem, rfl⟩⟩
  | .tick _ _ => .isTrue trivial
  | .pop x => decidable_of_iff ((s.hosts x).datagramsReceived.isEmpty = false) .rfl

end

/-! ## What is on the link -/

variable {η : Type} {a : Stations η} {s s' : Lan η} {x z : η} {d : InternetDatagram}

/-- The datagram was sent to the next hop. -/
def Sent (sent : List (InternetDatagram × Address)) (d : InternetDatagram) (ip : UInt32) : Prop :=
  d.Whole ∧ ∃ nextHop, (d, nextHop) ∈ sent ∧ nextHop.ipv4Numeric = ip

theorem Sent.mono {sent : List (InternetDatagram × Address)} {ip : UInt32} (h : Sent sent d ip)
    (more : List (InternetDatagram × Address)) : Sent (sent ++ more) d ip := by
  obtain ⟨hd, nextHop, hmem, hip⟩ := h
  exact ⟨hd, nextHop, List.mem_append_left _ hmem, hip⟩

structure Inv (a : Stations η) (s : Lan η) : Prop where
  ethernetAddress : ∀ x, (s.hosts x).ethernetAddress = a.ethernetAddress x
  ipAddress : ∀ x, (s.hosts x).ipAddress = a.ipAddress x
  hosts : ∀ x, (s.hosts x).Truthful a.Owns (Sent s.sent)
  link : ∀ bytes ∈ s.link, ∃ f : EthernetFrame, f.transmitted = bytes ∧
    f.Genuine a.Owns (Sent s.sent)
  asked : ∀ x ip, ((s.hosts x).pendingArpRequests ip).isSome → ∃ f : EthernetFrame,
    f.transmitted ∈ s.link ∧ f.Tells (a.request x ip)

theorem Inv.request (h : s.Inv a) (x : η) (ip : UInt32) :
    (s.hosts x).arpRequest ip = a.request x ip := by
  unfold Stations.request NetworkInterface.arpRequest
  rw [h.ethernetAddress, h.ipAddress]

theorem Inv.neighbours (h : s.Inv a) (ha : a.Distinct) (x : η) :
    (s.hosts x).Neighbours a.Owns (Sent s.sent) where
  whole _ _ hd := hd.1
  alone := by
    rintro ip ⟨z, rfl, hz⟩
    rw [h.ethernetAddress] at hz
    rw [h.ipAddress, ha.ethernet hz]
  unicast := by
    rintro ip dst ⟨z, -, rfl⟩
    exact ha.unicast z

theorem Inv.new (a : Stations η) : (new a).Inv a where
  ethernetAddress _ := rfl
  ipAddress _ := rfl
  hosts x := .new ⟨x, rfl, rfl⟩
  link := by simp [Lan.new]
  asked := by simp [Lan.new]

section

variable [DecidableEq η]

/-- A call of one host. -/
theorem Inv.put {i : NetworkInterface} {out : List EthernetFrame}
    {more : List (InternetDatagram × Address)} (h : s.Inv a)
    (hfollows : (s.hosts x).Follows i out) (hi : i.Truthful a.Owns (Sent (s.sent ++ more)))
    (hout : ∀ f ∈ out, f.Genuine a.Owns (Sent (s.sent ++ more))) :
    Inv a { s.put x i out with sent := s.sent ++ more } where
  ethernetAddress y := by
    by_cases hy : y = x
    · subst hy
      simp [Lan.put, hfollows.ethernetAddress, h.ethernetAddress]
    · simp [Lan.put, hy, h.ethernetAddress]
  ipAddress y := by
    by_cases hy : y = x
    · subst hy
      simp [Lan.put, hfollows.ipAddress, h.ipAddress]
    · simp [Lan.put, hy, h.ipAddress]
  hosts y := by
    by_cases hy : y = x
    · subst hy
      simpa [Lan.put] using hi
    · simpa [Lan.put, hy] using (h.hosts y).mono fun d ip hd => hd.mono more
  link bytes hbytes := by
    rcases List.mem_append.mp hbytes with hbytes | hbytes
    · obtain ⟨f, hf, hgenuine⟩ := h.link bytes hbytes
      exact ⟨f, hf, hgenuine.mono fun d ip hd => hd.mono more⟩
    · obtain ⟨f, hf, rfl⟩ := List.mem_map.mp hbytes
      exact ⟨f, rfl, hout f hf⟩
  asked y ip hy := by
    have hold : ((s.hosts y).pendingArpRequests ip).isSome → ∃ f : EthernetFrame,
        f.transmitted ∈ s.link ++ out.map EthernetFrame.transmitted ∧
        f.Tells (a.request y ip) := by
      intro hsome
      obtain ⟨f, hf, htells⟩ := h.asked y ip hsome
      exact ⟨f, List.mem_append_left _ hf, htells⟩
    by_cases hyx : y = x
    · subst hyx
      have hy : (i.pendingArpRequests ip).isSome := by simpa [Lan.put] using hy
      rcases hfollows.asked ip hy with hsome | ⟨f, hf, htells⟩
      · exact hold hsome
      · rw [h.request] at htells
        exact ⟨f, List.mem_append_right _ (List.mem_map_of_mem hf), htells⟩
    · exact hold (by simpa [Lan.put, hyx] using hy)

/-- A call that sends nothing new. -/
theorem Inv.call {i : NetworkInterface} {out : List EthernetFrame} (h : s.Inv a)
    (hfollows : (s.hosts x).Follows i out) (hi : i.Truthful a.Owns (Sent s.sent))
    (hout : ∀ f ∈ out, f.Genuine a.Owns (Sent s.sent)) : (s.put x i out).Inv a := by
  have hput : Inv a { s.put x i out with sent := s.sent ++ [] } :=
    h.put hfollows (by rwa [List.append_nil]) (by rwa [List.append_nil])
  rwa [List.append_nil] at hput

theorem step_send {dgram : InternetDatagram} {nextHop : Address} {i : NetworkInterface}
    {out : List EthernetFrame} (h : (s.hosts x).sendDatagram dgram nextHop = .ok (i, out)) :
    s.step (.send x dgram nextHop) =
      .ok { s.put x i out with sent := s.sent ++ [(dgram, nextHop)] } := by
  show (s.hosts x).sendDatagram dgram nextHop >>= _ = _
  rw [h]
  rfl

theorem step_hear {bytes : Bytes} {i : NetworkInterface} {out : List EthernetFrame}
    (h : (s.hosts x).hear bytes = .ok (i, out)) :
    s.step (.hear x bytes) = .ok (s.put x i out) := by
  show (s.hosts x).hear bytes >>= _ = _
  rw [h]
  rfl

/-- No call throws. -/
theorem Inv.step_total {op : Op η} (h : s.Inv a) (ha : a.Distinct) (hok : Permitted s op) :
    ∃ s', s.step op = .ok s' := by
  cases op with
  | send x dgram nextHop =>
    obtain ⟨i, out, hsend, -⟩ := NetworkInterface.sendDatagram_total hok (s.hosts x) nextHop
    exact ⟨_, step_send hsend⟩
  | hear x bytes =>
    obtain ⟨f, rfl, hf⟩ := h.link bytes hok
    obtain ⟨i, out, hhear⟩ := NetworkInterface.hear_total (h.neighbours ha x) (h.hosts x) hf
    exact ⟨_, step_hear hhear⟩
  | tick x ms => exact ⟨_, rfl⟩
  | pop x => exact ⟨_, rfl⟩

theorem Inv.step {op : Op η} (h : s.Inv a) (ha : a.Distinct) (hok : Permitted s op)
    (hst : s.step op = .ok s') : s'.Inv a := by
  cases op with
  | send x dgram nextHop =>
    obtain ⟨⟨i, out⟩, hsend, hst⟩ := bind_ok hst
    obtain rfl := Except.ok.inj hst
    have hsent : Sent (s.sent ++ [(dgram, nextHop)]) dgram nextHop.ipv4Numeric :=
      ⟨hok, nextHop, List.mem_append_right _ (List.mem_singleton_self _), rfl⟩
    obtain ⟨hi, hout⟩ := NetworkInterface.sendDatagram_truthful
      ((h.hosts x).mono fun d ip hd => hd.mono _) hsent hsend
    exact h.put (NetworkInterface.sendDatagram_follows hsend) hi hout
  | hear x bytes =>
    obtain ⟨⟨i, out⟩, hhear, hst⟩ := bind_ok hst
    obtain rfl := Except.ok.inj hst
    obtain ⟨f, rfl, hf⟩ := h.link bytes hok
    obtain ⟨hi, hout⟩ := NetworkInterface.hear_truthful (h.neighbours ha x) (h.hosts x) hf hhear
    exact h.call (NetworkInterface.hear_follows hhear) hi hout
  | tick x ms =>
    obtain rfl := Except.ok.inj hst
    exact h.call (NetworkInterface.tick_follows _ ms)
      (NetworkInterface.tick_truthful (h.hosts x) ms) (by simp)
  | pop x =>
    obtain rfl := Except.ok.inj hst
    obtain ⟨hown, hcache, hwaiting, hreceived⟩ := h.hosts x
    refine h.call ⟨rfl, rfl, fun ip hip => .inl hip⟩ ⟨hown, hcache, hwaiting, ?_⟩ (by simp)
    exact fun d hd => hreceived d (List.mem_of_mem_tail hd)

theorem inv (ha : a.Distinct) (h : (machine a).Reaches Permitted s) : s.Inv a :=
  h.invariant_det (.new a) fun _ _ _ hs hok hst => hs.step ha hok hst

/-- On a link where every station is one of the hosts, in every run: no call throws, each mapping in
a cache is true, and what a host has received is what some host has sent to it, header and
payload. -/
theorem mappings_true (a : Stations η) (s : Lan η) (ha : a.Distinct)
    (h : (machine a).Reaches Permitted s) :
    (∀ op, Permitted s op → ∃ s', s.step op = .ok s') ∧
    (∀ x ip dst ttl, (s.hosts x).arpCache ip = some (dst, ttl) →
      ∃ z, (a.ipAddress z).ipv4Numeric = ip ∧ a.ethernetAddress z = dst) ∧
    (∀ x, ∀ d' ∈ (s.hosts x).datagramsReceived, ∃ d nextHop, (d, nextHop) ∈ s.sent ∧
      nextHop.ipv4Numeric = (a.ipAddress x).ipv4Numeric ∧ d'.header = d.header ∧
      d'.payload.flatten = d.payload.flatten) := by
  have hinv := inv ha h
  refine ⟨fun op hok => hinv.step_total ha hok, fun x => (hinv.hosts x).cache, fun x d' hd' => ?_⟩
  obtain ⟨d, ⟨-, nextHop, hsent, hip⟩, harr⟩ := (hinv.hosts x).received d' hd'
  rw [hinv.ipAddress] at hip
  exact ⟨d, nextHop, hsent, hip, harr.header, harr.payload⟩

/-- Two hosts. -/
def pair : Stations Bool where
  ethernetAddress x := { b₅ := if x then 2 else 1 }
  ipAddress x := { ipv4Numeric := if x then 2 else 1 }

theorem pair_distinct : pair.Distinct :=
  ⟨by decide, by decide, by decide⟩

def greeting : InternetDatagram := ⟨{ len := 22, ttl := 5, cksum := 0x75e3 }, [[7, 8]]⟩

/-- The request, the answer and the greeting are heard one after the other. -/
def greets : List (Lan Bool → Op Bool) :=
  [fun _ => .send false greeting { ipv4Numeric := 2 }, fun s => .hear true (s.link.getD 0 []),
    fun s => .hear false (s.link.getD 1 []), fun s => .hear true (s.link.getD 2 [])]

/-- One host learns the address of the other, which receives the greeting. -/
theorem mappings_true_greeting : ∃ s : Lan Bool,
    (s.hosts false).arpCache 2 = some ({ b₅ := 2 }, 30000) ∧
    (∃ z, (pair.ipAddress z).ipv4Numeric = 2 ∧ pair.ethernetAddress z = { b₅ := 2 }) ∧
    ∃ d' ∈ (s.hosts true).datagramsReceived, ∃ d nextHop, (d, nextHop) ∈ s.sent ∧
      nextHop.ipv4Numeric = 2 ∧ d'.header = d.header ∧ d'.payload.flatten = d.payload.flatten := by
  obtain ⟨s, h, hcache, hreceived⟩ := Machine.exists_reaches_choosing step (new pair) Permitted
    (fun s => (s.hosts false).arpCache 2 = some ({ b₅ := 2 }, 30000) ∧
      (s.hosts true).datagramsReceived ≠ [])
    greets (by decide +kernel) (by decide +kernel)
  obtain ⟨-, hmappings, hdatagrams⟩ := mappings_true pair s pair_distinct h
  obtain ⟨d', hd'⟩ := List.exists_mem_of_ne_nil _ hreceived
  exact ⟨s, hcache, hmappings _ _ _ _ hcache, d', hd', hdatagrams true d' hd'⟩

/-! ## What waits can be delivered -/

/-- The link can deliver the datagram to the host, as the next one that this receives. -/
def CanDeliver (a : Stations η) (s : Lan η) (z : η) (d : InternetDatagram) : Prop :=
  ∃ t, (machine a).Runs Delivers s t ∧ ∃ d', d'.header = d.header ∧
    d'.payload.flatten = d.payload.flatten ∧
    (t.hosts z).datagramsReceived = (s.hosts z).datagramsReceived ++ [d']

theorem CanDeliver.of_runs {t : Lan η} (h : (machine a).Runs Delivers s t)
    (hreceived : (t.hosts z).datagramsReceived = (s.hosts z).datagramsReceived)
    (ht : t.CanDeliver a z d) : s.CanDeliver a z d := by
  obtain ⟨u, hu, d', hheader, hpayload, hz⟩ := ht
  exact ⟨u, h.trans hu, d', hheader, hpayload, hz.trans (by rw [hreceived])⟩

theorem hear_runs {f : EthernetFrame} {i : NetworkInterface} {out : List EthernetFrame}
    (a : Stations η) (hf : f.transmitted ∈ s.link)
    (hhear : (s.hosts x).hear f.transmitted = .ok (i, out)) :
    (machine a).Runs Delivers s (s.put x i out) :=
  .single (show Delivers s (.hear x f.transmitted) from hf) (step_hear hhear)

/-- The frame with the datagram is on the link. -/
theorem Inv.brought {f : EthernetFrame} (h : s.Inv a) (ha : a.Distinct) (hd : d.Whole)
    (hf : f.transmitted ∈ s.link) (hbrings : f.Brings d (a.ethernetAddress z)) :
    s.CanDeliver a z d := by
  obtain ⟨d', harr, hhear⟩ :=
    NetworkInterface.hear_brings (i := s.hosts z) hbrings hd (ha.unicast z)
  rw [h.ethernetAddress, if_pos rfl] at hhear
  refine ⟨_, hear_runs a hf hhear, d', harr.header, harr.payload, ?_⟩
  simp [Lan.put]

/-- A host processes an ARP message that is on the link: it answers a request for it, and what waits
for the sender is on the link. -/
theorem Inv.said {f : EthernetFrame} {arp : ARPMessage} (h : s.Inv a) (ha : a.Distinct)
    (hf : f.transmitted ∈ s.link) (htells : f.Tells arp) (x : η) :
    ∃ t, (machine a).Runs Delivers s t ∧ t.Inv a ∧
      (∀ y, (t.hosts y).datagramsReceived = (s.hosts y).datagramsReceived) ∧
      (∀ y, y ≠ x → t.hosts y = s.hosts y) ∧
      (arp.opcode = ARPMessage.opcodeRequest →
        arp.targetIpAddress = (a.ipAddress x).ipv4Numeric →
        ∃ f' : EthernetFrame, f'.transmitted ∈ t.link ∧
          f'.Tells ((s.hosts x).arpResponse arp)) ∧
      (∀ d ∈ (s.hosts x).waiting arp.senderIpAddress,
        ∃ f' : EthernetFrame, f'.transmitted ∈ t.link ∧
          f'.Brings d arp.senderEthernetAddress) := by
  have hwhole : ∀ d ∈ (s.hosts x).waiting arp.senderIpAddress, d.Whole := fun d hd =>
    ((h.hosts x).waiting _ d hd).1
  obtain ⟨i, out, hrecv, hanswer⟩ := NetworkInterface.recvArp_total hwhole
  have hhear : (s.hosts x).hear f.transmitted = .ok (i, out) := by
    rw [NetworkInterface.hear_tells htells]
    exact hrecv
  have hlink : ∀ f' ∈ out, f'.transmitted ∈ (s.put x i out).link := fun f' hf' =>
    List.mem_append_right _ (List.mem_map_of_mem hf')
  obtain ⟨g, hg, hgenuine⟩ := h.link _ hf
  obtain ⟨hi, hout⟩ := NetworkInterface.hear_truthful (h.neighbours ha x) (h.hosts x) hgenuine
    (hg ▸ hhear)
  refine ⟨s.put x i out, hear_runs a hf hhear,
    h.call (NetworkInterface.hear_follows hhear) hi hout, fun y => ?_, fun y hy => ?_,
    fun hop htarget => ?_, fun d hd => ?_⟩
  · by_cases hy : y = x
    · subst hy
      obtain ⟨responses, payloads, -, -, rfl, -⟩ := NetworkInterface.recvArp_cases hrecv
      simp [Lan.put, NetworkInterface.learn]
    · simp [Lan.put, hy]
  · exact Function.update_of_ne hy _ _
  · rw [← h.ipAddress] at htarget
    obtain ⟨f', hf', htells'⟩ := hanswer hop htarget
    exact ⟨f', hlink f' hf', htells'⟩
  · obtain ⟨f', hf', hbrings⟩ := NetworkInterface.recvArp_brings hrecv hd
    exact ⟨f', hlink f' hf', hbrings⟩

/-- The next hop of what waits has said where it is. -/
theorem Inv.told {f : EthernetFrame} {arp : ARPMessage} (h : s.Inv a) (ha : a.Distinct)
    (hf : f.transmitted ∈ s.link) (htells : f.Tells arp)
    (hip : arp.senderIpAddress = (a.ipAddress z).ipv4Numeric)
    (hdst : arp.senderEthernetAddress = a.ethernetAddress z)
    (hd : d ∈ (s.hosts x).waiting (a.ipAddress z).ipv4Numeric) : s.CanDeliver a z d := by
  obtain ⟨t, hrun, ht, hreceived, -, -, hbrought⟩ := h.said ha hf htells x
  have hwhole : d.Whole := ((h.hosts x).waiting _ d hd).1
  rw [← hip] at hd
  obtain ⟨f', hf', hbrings⟩ := hbrought d hd
  rw [hdst] at hbrings
  exact .of_runs hrun (hreceived z) (ht.brought ha hwhole hf' hbrings)

/-- The next hop hears the request, its answer is heard, and then the datagram. A host that asks for
itself has told itself. -/
theorem Inv.resolves (h : s.Inv a) (ha : a.Distinct)
    (hd : d ∈ (s.hosts x).waiting (a.ipAddress z).ipv4Numeric) : s.CanDeliver a z d := by
  have hpending : ((s.hosts x).pendingArpRequests (a.ipAddress z).ipv4Numeric).isSome := by
    unfold NetworkInterface.waiting at hd
    cases hentry : (s.hosts x).pendingArpRequests (a.ipAddress z).ipv4Numeric with
    | none => simp [hentry] at hd
    | some entry => rfl
  obtain ⟨f, hf, htells⟩ := h.asked x _ hpending
  by_cases hxz : x = z
  · subst hxz
    exact h.told ha hf htells rfl rfl hd
  obtain ⟨t, hrun, ht, hreceived, hothers, hanswer, -⟩ := h.said ha hf htells z
  obtain ⟨f', hf', htells'⟩ := hanswer rfl rfl
  rw [← hothers x hxz] at hd
  refine .of_runs hrun (hreceived z) (ht.told ha hf' htells' ?_ ?_ hd)
  · show (s.hosts z).ipAddress.ipv4Numeric = _
    rw [h.ipAddress]
  · exact h.ethernetAddress z

/-- In every run on such a link: what waits for a mapping can be delivered to its next hop by the
link alone, and so can any datagram that is sent to a host, whatever has happened before. -/
theorem delivery_possible (a : Stations η) (s : Lan η) (ha : a.Distinct)
    (h : (machine a).Reaches Permitted s) :
    (∀ x z, ∀ d ∈ (s.hosts x).waiting (a.ipAddress z).ipv4Numeric, s.CanDeliver a z d) ∧
    (∀ x z dgram nextHop, dgram.Whole →
      nextHop.ipv4Numeric = (a.ipAddress z).ipv4Numeric →
      ∃ s', s.step (.send x dgram nextHop) = .ok s' ∧ s'.CanDeliver a z dgram) := by
  have hinv := inv ha h
  refine ⟨fun x z d hd => hinv.resolves ha hd, fun x z dgram nextHop hd hip => ?_⟩
  obtain ⟨i, out, hsend, hdgram⟩ := NetworkInterface.sendDatagram_total hd (s.hosts x) nextHop
  have hinv' := hinv.step ha (show Permitted s (.send x dgram nextHop) from hd) (step_send hsend)
  refine ⟨_, step_send hsend, ?_⟩
  rcases hdgram with ⟨f, hf, dst, ttl, hcache, hbrings⟩ | hwaiting
  · have howns := (hinv.hosts x).cache _ dst ttl hcache
    rw [hip] at howns
    rw [← ha.owns howns] at hbrings
    exact hinv'.brought ha hd (List.mem_append_right _ (List.mem_map_of_mem hf)) hbrings
  · rw [hip] at hwaiting
    refine hinv'.resolves (x := x) ha ?_
    simpa [Lan.put] using hwaiting

/-- The greeting waits, and another one is sent. -/
theorem delivery_possible_greeting : ∃ s : Lan Bool, greeting ∈ (s.hosts false).waiting 2 ∧
    s.CanDeliver pair true greeting ∧
    ∃ s', s.step (.send false greeting { ipv4Numeric := 2 }) = .ok s' ∧
      s'.CanDeliver pair true greeting := by
  obtain ⟨s, h, hwaiting⟩ := Machine.exists_reaches step (new pair) Permitted
    (fun s => greeting ∈ (s.hosts false).waiting 2)
    [.send false greeting { ipv4Numeric := 2 }] (by decide +kernel) (by decide +kernel)
  obtain ⟨hwaits, hsends⟩ := delivery_possible pair s pair_distinct h
  exact ⟨s, hwaiting, hwaits false true greeting hwaiting,
    hsends false true greeting { ipv4Numeric := 2 } (by decide +kernel) rfl⟩

end

end Lan

end Minnow
