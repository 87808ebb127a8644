import Minnow.Net.Foreign
import Minnow.Net.Routing
import Minnow.Wire.Frame

/-!
# What interfaces and routers carry

Interfaces and routers make no datagrams. What they have and what they transmit was given to them,
some hops ago and cut anew: a property that survives a hop and a transmission (`Transit`) holds of
all of it, if it holds of what is given (`sendDatagram_contents`, `recvFrame_contents`,
`route_contents`). The ARP messages in between carry no datagrams.
-/

namespace Minnow

namespace IPv4Datagram

def wire (d : IPv4Datagram) : Bytes := d.header.wire ++ d.payload.flatten

theorem serialized_flatten {d : IPv4Datagram} {l : List Bytes} (h : d.serialized = .ok l) :
    l.flatten = d.wire := by
  by_cases hver : d.header.ver = 4
  · obtain ⟨l', hl', hflat⟩ := serialized_ok hver
    obtain rfl := Except.ok.inj (h.symm.trans hl')
    exact hflat
  · cases h.symm.trans (serialized_error hver)

end IPv4Datagram

theorem ARPMessage.serialized_length {a : ARPMessage} {l : List Bytes}
    (h : a.serialized = .ok l) : l.flatten.length = 28 := by
  have hs : a.supported = true := by
    by_contra hs
    simp only [Bool.not_eq_true] at hs
    unfold ARPMessage.serialized ARPMessage.serialize at h
    rw [hs] at h
    cases h
  obtain ⟨s, hok, hbytes, -⟩ := ARPMessage.serialize_ok hs
  obtain ⟨s', hs', h⟩ := bind_ok h
  obtain rfl := Except.ok.inj h
  obtain rfl := Except.ok.inj (hok.symm.trans hs')
  rw [Serializer.finish_flatten, hbytes]
  simp [ARPMessage.wire, EthernetAddress.wire]

/-- A property of datagrams that survives a hop and a transmission, if they fit into a frame. -/
structure Transit (P : InternetDatagram → Prop) : Prop where
  size : ∀ {d}, P d → 20 < d.wire.length ∧ d.wire.length ≤ 40 + FDWrapper.readBufferSize
  hop : ∀ {d}, P d → P (Router.hop d)
  arrives : ∀ {d strs}, P d → BufferList.Solid strs → strs.flatten = d.wire →
    ∃ d', Parser.parse ({} : InternetDatagram).parse strs = .ok (d', true) ∧ P d' ∧
      BufferList.Solid d'.payload

/-- The frame carries an ARP message, or a datagram with the property. -/
def EthernetFrame.Carries (P : InternetDatagram → Prop) (f : EthernetFrame) : Prop :=
  (f.header.type = EthernetHeader.typeArp ∧ f.payload.flatten.length = 28) ∨
    (f.header.type = EthernetHeader.typeIPv4 ∧ ∃ d, P d ∧ f.payload.flatten = d.wire)

theorem EthernetFrame.Carries.mono {P Q : InternetDatagram → Prop} {f : EthernetFrame}
    (h : f.Carries P) (hle : ∀ d, P d → Q d) : f.Carries Q :=
  h.imp_right fun ⟨htype, d, hd, hwire⟩ => ⟨htype, d, hle d hd, hwire⟩

/-- A frame that was transmitted is received, its payload cut anew. -/
theorem EthernetFrame.Carries.received {P : InternetDatagram → Prop} {f : EthernetFrame}
    (h : f.Carries P) (ht : Transit P) : ∃ f', maybeReceiveFrame f.transmitted = .ok (some f') ∧
      f'.Carries P ∧ BufferList.Solid f'.payload := by
  have hsize : 20 < f.payload.flatten.length ∧
      f.payload.flatten.length ≤ 40 + FDWrapper.readBufferSize := by
    rcases h with ⟨-, hlen⟩ | ⟨-, d, hd, hwire⟩
    · rw [hlen]
      decide
    · rw [hwire]
      exact ht.size hd
  obtain ⟨payload, hok, hflat, hsolid⟩ := maybeReceiveFrame_ok hsize.1 hsize.2
  refine ⟨_, hok, ?_, hsolid⟩
  unfold EthernetFrame.Carries at h ⊢
  rw [hflat]
  exact h

namespace NetworkInterface

/-- All datagrams of the interface have the property. -/
structure Contents (P : InternetDatagram → Prop) (i : NetworkInterface) : Prop where
  received : ∀ d ∈ i.datagramsReceived, P d ∧ BufferList.Solid d.payload
  waiting : ∀ ip, ∀ d ∈ i.waiting ip, P d

variable {P Q : InternetDatagram → Prop} {i i' : NetworkInterface} {dgram : InternetDatagram}
  {nextHop : Address} {frame : EthernetFrame} {arp : ARPMessage} {out : List EthernetFrame}

theorem Contents.mono (h : i.Contents P) (hle : ∀ d, P d → Q d) : i.Contents Q :=
  ⟨fun d hd => (h.received d hd).imp_left (hle d), fun ip d hd => hle d (h.waiting ip d hd)⟩

theorem Contents.new (ethernetAddress : EthernetAddress) (ipAddress : Address) :
    Contents P { ethernetAddress, ipAddress } := by
  constructor
  · simp
  · simp [NetworkInterface.waiting]

theorem datagramFrame_carries {payload : List Bytes} (hd : P dgram)
    (h : dgram.serialized = .ok payload) (i : NetworkInterface) (dst : EthernetAddress) :
    (i.datagramFrame dst payload).Carries P :=
  .inr ⟨rfl, dgram, hd, IPv4Datagram.serialized_flatten h⟩

theorem arpFrame_carries {dst : EthernetAddress} (h : i.arpFrame dst arp = .ok frame) :
    frame.Carries P := by
  obtain ⟨payload, hpayload, h⟩ := bind_ok h
  obtain rfl := Except.ok.inj h
  exact .inl ⟨rfl, ARPMessage.serialized_length hpayload⟩

theorem queue_waiting (i : NetworkInterface) (dgram : InternetDatagram) (ip ip' : UInt32) :
    (i.queue dgram ip).waiting ip' = if ip' = ip then i.waiting ip ++ [dgram] else i.waiting ip' := by
  unfold queue NetworkInterface.waiting
  by_cases h : ip' = ip
  · subst h
    simp
  · simp [h]

theorem sendDatagram_contents (h : i.Contents P) (hd : P dgram)
    (hst : i.sendDatagram dgram nextHop = .ok (i', out)) :
    i'.Contents P ∧ ∀ f ∈ out, f.Carries P := by
  rcases sendDatagram_cases hst with ⟨dst, ttl, payload, -, hpayload, rfl, rfl⟩ |
    ⟨-, rfl, hout⟩
  · refine ⟨h, fun f hf => ?_⟩
    obtain rfl := List.mem_singleton.mp hf
    exact datagramFrame_carries hd hpayload i' dst
  · refine ⟨⟨h.received, fun ip d hmem => ?_⟩, ?_⟩
    · rw [queue_waiting] at hmem
      split at hmem
      · rcases List.mem_append.mp hmem with hmem | hmem
        · exact h.waiting _ d hmem
        · exact List.mem_singleton.mp hmem ▸ hd
      · exact h.waiting ip d hmem
    · rcases hout with ⟨-, request, hrequest, rfl⟩ | ⟨-, rfl⟩
      · intro f hf
        obtain rfl := List.mem_singleton.mp hf
        exact arpFrame_carries hrequest
      · simp

theorem recvArp_contents (h : i.Contents P) (hst : i.recvArp arp = .ok (i', out)) :
    i'.Contents P ∧ ∀ f ∈ out, f.Carries P := by
  obtain ⟨responses, payloads, hresponses, hpayloads, rfl, rfl⟩ := recvArp_cases hst
  refine ⟨⟨h.received, fun ip d hmem => ?_⟩, fun f hf => ?_⟩
  · by_cases hip : ip = arp.senderIpAddress
    · subst hip
      simp [NetworkInterface.waiting] at hmem
    · simp only [NetworkInterface.waiting, Function.update_of_ne hip] at hmem
      exact h.waiting ip d hmem
  · rcases List.mem_append.mp hf with hf | hf
    · rcases hresponses with rfl | ⟨response, hresponse, rfl⟩
      · cases hf
      · obtain rfl := List.mem_singleton.mp hf
        exact arpFrame_carries hresponse
    · obtain ⟨payload, hpayload, rfl⟩ := List.mem_map.mp hf
      have hmem : Except.ok payload ∈ payloads.map (Except.ok (ε := WireFault)) :=
        List.mem_map_of_mem hpayload
      rw [← map_eq_of_mapM hpayloads] at hmem
      obtain ⟨d, hd, hserialized⟩ := List.mem_map.mp hmem
      exact datagramFrame_carries (h.waiting _ d hd) hserialized i arp.senderEthernetAddress

/-- A frame that arrives, its payload cut somehow. -/
theorem recvFrame_contents (ht : Transit P) (h : i.Contents P) (hf : frame.Carries P)
    (hsolid : BufferList.Solid frame.payload) (hst : i.recvFrame frame = .ok (i', out)) :
    i'.Contents P ∧ ∀ f ∈ out, f.Carries P := by
  rcases hf with ⟨harp, -⟩ | ⟨hipv4, d, hd, hwire⟩
  · rw [recvFrame_arp harp] at hst
    obtain ⟨⟨arp, ok⟩, -, hst⟩ := bind_ok hst
    cases ok with
    | true => exact recvArp_contents h hst
    | false =>
      obtain ⟨rfl, rfl⟩ := pair_ok hst
      exact ⟨h, by simp⟩
  · obtain ⟨d', hparse, hd', hcut⟩ := ht.arrives hd hsolid hwire
    unfold recvFrame at hst
    rw [if_pos hipv4, hparse] at hst
    split at hst
    · obtain ⟨rfl, rfl⟩ := pair_ok hst
      exact ⟨h, by simp⟩
    · obtain ⟨rfl, rfl⟩ := pair_ok hst
      refine ⟨⟨fun x hx => ?_, h.waiting⟩, by simp⟩
      rcases List.mem_append.mp hx with hx | hx
      · exact h.received x hx
      · exact List.mem_singleton.mp hx ▸ ⟨hd', hcut⟩

theorem tick_contents (h : i.Contents P) (ms : Nat) : (i.tick ms).Contents P := by
  refine ⟨h.received, fun ip d hmem => h.waiting ip d ?_⟩
  simp only [NetworkInterface.waiting, tick] at hmem ⊢
  cases hentry : i.pendingArpRequests ip with
  | none => simp [hentry] at hmem
  | some entry =>
    rw [hentry, Option.bind_some, tickPending] at hmem
    split at hmem
    · simp at hmem
    · exact hmem

end NetworkInterface

namespace Router

/-- All datagrams of all interfaces have the property. -/
def Contents (P : InternetDatagram → Prop) (r : Router) : Prop :=
  ∀ i ∈ r.interfaces, i.Contents P

/-- What the calls of `send_datagram` have transmitted, with the number of the interface. -/
def transmitted (handed : List Handed) : List (Nat × EthernetFrame) :=
  handed.flatMap fun x => x.frames.map fun frame => (x.interfaceNum, frame)

/-- `interface( k )->recv_frame( frame )` and `route()`, one behind the other. -/
def receive (r : Router) (k : Nat) (frame : EthernetFrame) :
    Except WireFault (Router × List (Nat × EthernetFrame)) :=
  match r.interfaces[k]? with
  | none => .error .outOfRange
  | some i => do
    let (i, out) ← i.recvFrame frame
    let (r, handed) ← { r with interfaces := r.interfaces.set k i }.route
    return (r, out.map (fun frame => (k, frame)) ++ transmitted handed)

/-- `interface( k )->tick( ms )`. -/
def tick (r : Router) (k ms : Nat) : Router :=
  { r with interfaces := r.interfaces.modify k fun i => i.tick ms }

variable {P Q : InternetDatagram → Prop} {r r' : Router} {dgram : InternetDatagram}
  {nextHop : Address} {n k : Nat} {handed : List Handed} {goOn : Bool}

theorem Contents.mono (h : r.Contents P) (hle : ∀ d, P d → Q d) : r.Contents Q :=
  fun i hi => (h i hi).mono hle

theorem Contents.set {i : NetworkInterface} (h : r.Contents P) (hi : i.Contents P) (k : Nat) :
    Contents P { r with interfaces := r.interfaces.set k i } := by
  intro j hj
  rcases List.mem_or_eq_of_mem_set hj with hj | rfl
  · exact h j hj
  · exact hi

theorem Contents.modify {f : NetworkInterface → NetworkInterface} (h : r.Contents P) (k : Nat)
    (hf : ∀ i ∈ r.interfaces, (f i).Contents P) :
    Contents P { r with interfaces := r.interfaces.modify k f } := by
  intro j hj
  obtain ⟨m, hm, rfl⟩ := List.getElem_of_mem hj
  simp only [List.getElem_modify]
  simp only [List.length_modify] at hm
  split
  · exact hf _ (List.getElem_mem hm)
  · exact h _ (List.getElem_mem hm)

theorem Contents.queue (h : r.Contents P) (n : Nat) :
    ∀ d ∈ r.queue n, P d ∧ BufferList.Solid d.payload := by
  intro d hd
  unfold Router.queue at hd
  cases hi : r.interfaces[n]? with
  | none => simp [hi] at hd
  | some i =>
    simp only [hi, Option.map_some, Option.getD_some] at hd
    exact (h i (List.mem_of_getElem? hi)).received d hd

theorem Contents.setQueue {q : List InternetDatagram} (h : r.Contents P) (n : Nat)
    (hq : ∀ d ∈ q, P d ∧ BufferList.Solid d.payload) : (r.setQueue n q).Contents P :=
  h.modify n fun i hi => ⟨hq, (h i hi).waiting⟩

theorem sendDatagram_contents (h : r.Contents P) (hd : P dgram)
    (hst : r.sendDatagram n dgram nextHop = .ok (r', handed)) :
    r'.Contents P ∧ ∀ x ∈ handed, ∀ f ∈ x.frames, f.Carries P := by
  unfold sendDatagram at hst
  split at hst
  · cases hst
  · rename_i i hi
    obtain ⟨⟨i', frames⟩, hsend, hst⟩ := bind_ok hst
    obtain ⟨rfl, rfl⟩ := pair_ok hst
    obtain ⟨hi', hframes⟩ :=
      NetworkInterface.sendDatagram_contents (h i (List.mem_of_getElem? hi)) hd hsend
    refine ⟨h.set hi' n, fun x hx => ?_⟩
    obtain rfl := List.mem_singleton.mp hx
    exact hframes

theorem forward_contents (ht : Transit P) (h : r.Contents P) (hd : P dgram)
    (hst : r.forward dgram = .ok (r', handed)) :
    r'.Contents P ∧ ∀ x ∈ handed, ∀ f ∈ x.frames, f.Carries P := by
  by_cases hver : dgram.header.ver = 4
  · rw [forward_eq hver] at hst
    obtain ⟨found, -, hst⟩ := bind_ok hst
    cases found with
    | none =>
      obtain ⟨rfl, rfl⟩ := pair_ok hst
      exact ⟨h, by simp⟩
    | some route => exact sendDatagram_contents h (ht.hop hd) hst
  · obtain ⟨e, he⟩ := forward_error (r := r) fun hgood => hver hgood.1
    cases hst.symm.trans he

theorem drain_contents {fuel : Nat} (ht : Transit P) (h : r.Contents P)
    (hst : drain n fuel r = .ok (r', handed, goOn)) :
    r'.Contents P ∧ ∀ x ∈ handed, ∀ f ∈ x.frames, f.Carries P := by
  induction fuel generalizing r handed with
  | zero =>
    obtain ⟨rfl, rfl, -⟩ := triple_ok hst
    exact ⟨h, by simp⟩
  | succ fuel ih =>
    unfold drain at hst
    split at hst
    · obtain ⟨rfl, rfl, -⟩ := triple_ok hst
      exact ⟨h, by simp⟩
    · rename_i dgram rest hqueue
      have hmem := h.queue n
      rw [hqueue, List.forall_mem_cons] at hmem
      obtain ⟨⟨hd, -⟩, hrest⟩ := hmem
      have hset := h.setQueue n hrest
      dsimp only at hst
      split at hst
      · obtain ⟨rfl, rfl, -⟩ := triple_ok hst
        exact ⟨hset, by simp⟩
      · obtain ⟨⟨r₁, first⟩, hforward, hst⟩ := bind_ok hst
        obtain ⟨⟨r₂, later, again⟩, hdrain, hst⟩ := bind_ok hst
        obtain ⟨rfl, rfl, rfl⟩ := triple_ok hst
        obtain ⟨h₁, hfirst⟩ := forward_contents ht hset hd hforward
        obtain ⟨h₂, hlater⟩ := ih h₁ hdrain
        exact ⟨h₂, List.forall_mem_append.mpr ⟨hfirst, hlater⟩⟩

theorem routeAll_contents {l : List Nat} (ht : Transit P) (h : r.Contents P)
    (hst : routeAll l r = .ok (r', handed)) :
    r'.Contents P ∧ ∀ x ∈ handed, ∀ f ∈ x.frames, f.Carries P := by
  induction l generalizing r handed with
  | nil =>
    obtain ⟨rfl, rfl⟩ := pair_ok hst
    exact ⟨h, by simp⟩
  | cons n l ih =>
    obtain ⟨⟨r₁, first, again⟩, hdrain, hst⟩ := bind_ok hst
    obtain ⟨h₁, hfirst⟩ := drain_contents ht h hdrain
    dsimp only at hst
    split at hst
    · obtain ⟨⟨r₂, later⟩, hlater, hst⟩ := bind_ok hst
      obtain ⟨rfl, rfl⟩ := pair_ok hst
      obtain ⟨h₂, hlater⟩ := ih h₁ hlater
      exact ⟨h₂, List.forall_mem_append.mpr ⟨hfirst, hlater⟩⟩
    · obtain ⟨rfl, rfl⟩ := pair_ok hst
      exact ⟨h₁, hfirst⟩

theorem receive_contents {frame : EthernetFrame} {out : List (Nat × EthernetFrame)}
    (ht : Transit P) (h : r.Contents P) (hf : frame.Carries P)
    (hsolid : BufferList.Solid frame.payload) (hst : r.receive k frame = .ok (r', out)) :
    r'.Contents P ∧ ∀ x ∈ out, x.2.Carries P := by
  unfold receive at hst
  split at hst
  · cases hst
  · rename_i i hi
    obtain ⟨⟨i', answered⟩, hrecv, hst⟩ := bind_ok hst
    obtain ⟨⟨r₁, handed⟩, hroute, hst⟩ := bind_ok hst
    obtain ⟨rfl, rfl⟩ := pair_ok hst
    obtain ⟨hi', hanswered⟩ := NetworkInterface.recvFrame_contents ht
      (h i (List.mem_of_getElem? hi)) hf hsolid hrecv
    obtain ⟨h₁, hhanded⟩ := routeAll_contents ht (h.set hi' k) hroute
    refine ⟨h₁, fun x hx => ?_⟩
    rcases List.mem_append.mp hx with hx | hx
    · obtain ⟨f, hf, rfl⟩ := List.mem_map.mp hx
      exact hanswered f hf
    · obtain ⟨y, hy, hx⟩ := List.mem_flatMap.mp hx
      obtain ⟨f, hf, rfl⟩ := List.mem_map.mp hx
      exact hhanded y hy f hf

theorem tick_contents (h : r.Contents P) (k ms : Nat) : (r.tick k ms).Contents P :=
  h.modify k fun i hi => NetworkInterface.tick_contents (h i hi) ms

end Router

end Minnow
