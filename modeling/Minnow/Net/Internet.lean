import Minnow.Lib.Machine
import Minnow.Net.Contents
import Minnow.Tcp.Linger
import Minnow.Wire.TcpOverIp

/-!
# Hosts, routers and links (`apps/endtoend.cc`)

A host is a `NetworkInterfaceAdapter`: TCP messages in datagrams, and the datagrams in frames. The
network thread gives the frames to a router, which routes, and the frames of the router to the next
link. An `Internet` has any number of hosts, routers and links (`Cable`); on a link the frames are
bytes, and each interface on it may get any of them, at any time, any number of times, or never.

`Carried` relates a datagram to the message in it, some hops after it was wrapped. It survives
(`transit`), so what a host gets was written by another one, for it (`messages_integrity`).
-/

namespace Minnow

/-! ## Messages in datagrams -/

/-- The datagram carries the message of the adapter. The routers have changed the time to live. -/
structure Carried (a : TCPOverIPv4Adapter) (msg : TCPMessage) (d : InternetDatagram) : Prop where
  sound : d.header.Sound
  header : d.header = { a.ipHeader msg with ttl := d.header.ttl, cksum := d.header.cksum }
  payload : d.payload.flatten = (a.segment msg).wire
  size : msg.sender.payload.length ≤ FDWrapper.readBufferSize

section

attribute [ext] Address

variable {a b b' : TCPOverIPv4Adapter} {msg : TCPMessage} {m : Option TCPMessage}
  {d : InternetDatagram}

theorem Carried.wrap (hsize : msg.sender.payload.length ≤ FDWrapper.readBufferSize)
    (h : a.wrapTcpInIp msg = .ok d) : Carried a msg d := by
  rw [TCPOverIPv4Adapter.wrapTcpInIp_ok] at h
  obtain rfl := Except.ok.inj h
  refine ⟨TCPOverIPv4Adapter.sealed_sound a msg, rfl, ?_, hsize⟩
  simp

theorem Carried.hop (h : Carried a msg d) : Carried a msg (Router.hop d) := by
  obtain ⟨hsound, hheader, hpayload, hsize⟩ := h
  refine ⟨⟨hsound.ver, hsound.hlen, hsound.hlen_lt, hsound.offset, ?_⟩, ?_, hpayload, hsize⟩
  · exact (IPv4Header.checksum_of_cksum _ _).symm
  · unfold Router.hop
    dsimp only
    rw [hheader]

theorem Carried.payloadLength (h : Carried a msg d) :
    d.header.payloadLength.toNat = d.payload.flatten.length := by
  have hsize := h.size
  unfold FDWrapper.readBufferSize at hsize
  rw [h.header, h.payload, ← TCPOverIPv4Adapter.sealed_payloadLength (a := a) (by omega)]
  rfl

theorem Carried.wire_length (h : Carried a msg d) :
    d.wire.length = 40 + msg.sender.payload.length := by
  unfold IPv4Datagram.wire
  rw [List.length_append, IPv4Header.wire_length, h.payload, TCPSegment.wire_length,
    TCPOverIPv4Adapter.segment_message]
  unfold IPv4Header.length TCPSegment.headerLength
  omega

theorem Carried.arrives (h : Carried a msg d) {strs : List Bytes} (hsolid : BufferList.Solid strs)
    (hflat : strs.flatten = d.wire) : ∃ d', Parser.parse ({} : InternetDatagram).parse strs =
      .ok (d', true) ∧ Carried a msg d' ∧ BufferList.Solid d'.payload := by
  have hlen : ([] : Bytes).length = d.header.hlen.toNat * 4 - IPv4Header.length := by
    rw [h.header]
    rfl
  have hflat : strs.flatten = d.header.wire ++ [] ++ d.payload.flatten := by
    rw [hflat, List.append_nil]
    rfl
  obtain ⟨payload, hparse, hpayload, hcut⟩ :=
    IPv4Datagram.parse_ok h.sound hlen h.payloadLength.ge hsolid hflat {}
  exact ⟨_, hparse, ⟨h.sound, h.header, hpayload.trans h.payload, h.size⟩, hcut⟩

/-- What an adapter takes has its own two ports. A listening one takes the addresses of the peer. -/
theorem TCPOverIPv4Adapter.accept_cases {header : IPv4Header} {seg : TCPSegment}
    (h : b.accept header seg = (b', m)) : (m = none ∧ b' = b) ∨
      (m = some seg.message ∧ b'.listening = false ∧ b'.config.source.port = seg.udinfo.dstPort ∧
        b'.config.destination.port = seg.udinfo.srcPort ∧
        b'.config.source.port = b.config.source.port ∧
        if b.listening then b'.config.source.ipv4Numeric = header.dst ∧
          b'.config.destination.ipv4Numeric = header.src
        else b' = b) := by
  unfold TCPOverIPv4Adapter.accept at h
  split at h
  · obtain ⟨rfl, rfl⟩ := Prod.mk.inj h
    exact .inl ⟨rfl, rfl⟩
  · rename_i hport
    simp only [ne_eq, not_not] at hport
    cases hlisten : b.listening with
    | false =>
      simp only [hlisten, Bool.false_and, Bool.false_eq_true, if_false] at h
      split at h
      · obtain ⟨rfl, rfl⟩ := Prod.mk.inj h
        exact .inl ⟨rfl, rfl⟩
      · rename_i hport'
        obtain ⟨rfl, rfl⟩ := Prod.mk.inj h
        simp only [ne_eq, not_not] at hport'
        exact .inr ⟨rfl, hlisten, hport.symm, hport'.symm, rfl, rfl⟩
    | true =>
      simp only [hlisten, Bool.true_and, if_true] at h
      split at h
      · obtain ⟨rfl, rfl⟩ := Prod.mk.inj h
        exact .inl ⟨rfl, rfl⟩
      · simp only [ne_eq, not_true_eq_false, if_false] at h
        obtain ⟨rfl, rfl⟩ := Prod.mk.inj h
        exact .inr ⟨rfl, rfl, hport.symm, rfl, rfl, rfl, rfl⟩

/-- One that does not listen takes what is for it, and from its peer. -/
theorem TCPOverIPv4Adapter.unwrapTcpInIp_cases (h : b.unwrapTcpInIp d = .ok (b', m)) :
    (m = none ∧ b' = b) ∨
    (∃ seg, Parser.parse (({} : TCPSegment).parse d.header.pseudoChecksum) d.payload =
        .ok (seg, true) ∧ b.accept d.header seg = (b', m) ∧
      (b.listening = false → d.header.dst = b.config.source.ipv4Numeric ∧
        d.header.src = b.config.destination.ipv4Numeric)) := by
  unfold TCPOverIPv4Adapter.unwrapTcpInIp at h
  split at h
  · obtain ⟨rfl, rfl⟩ := pair_ok h
    exact .inl ⟨rfl, rfl⟩
  · rename_i hdst
    split at h
    · obtain ⟨rfl, rfl⟩ := pair_ok h
      exact .inl ⟨rfl, rfl⟩
    · rename_i hsrc
      split at h
      · obtain ⟨rfl, rfl⟩ := pair_ok h
        exact .inl ⟨rfl, rfl⟩
      · obtain ⟨⟨seg, ok⟩, hparse, h⟩ := bind_ok h
        cases ok with
        | false =>
          obtain ⟨rfl, rfl⟩ := pair_ok h
          exact .inl ⟨rfl, rfl⟩
        | true =>
          refine .inr ⟨seg, hparse, Except.ok.inj h, fun hlisten => ?_⟩
          simpa [hlisten] using And.intro hdst hsrc

/-- The adapter `b` has read a message of `a`, and is `b'` then: the two have each other's
addresses. -/
structure TCPOverIPv4Adapter.Takes (b a b' : TCPOverIPv4Adapter) : Prop where
  listening : b'.listening = false
  source : b'.config.source = a.config.destination
  destination : b'.config.destination = a.config.source
  port : b'.config.source.port = b.config.source.port
  kept : b.listening = false → b' = b

/-- What an adapter makes of a datagram that carries a message: it is for another one, or it is the
message of the peer. -/
theorem Carried.unwrap (h : Carried a msg d) (hsolid : BufferList.Solid d.payload)
    (hst : b.unwrapTcpInIp d = .ok (b', m)) :
    (m = none ∧ b' = b) ∨ (m = some msg.merged ∧ b.Takes a b') := by
  have hsize := h.size
  unfold FDWrapper.readBufferSize at hsize
  have hsrc : d.header.src = a.config.source.ipv4Numeric := by rw [h.header]; rfl
  have hdst : d.header.dst = a.config.destination.ipv4Numeric := by rw [h.header]; rfl
  have hpseudo : d.header.pseudoChecksum = (a.sealed msg).pseudoChecksum := by rw [h.header]; rfl
  rcases TCPOverIPv4Adapter.unwrapTcpInIp_cases hst with hnone | ⟨seg, hparse, haccept, hfor⟩
  · exact .inl hnone
  -- the segment is parsed, whatever its payload was cut to
  obtain ⟨p, hrun, herr⟩ := TCPSegment.run_parse (h.payload ▸ Parser.Holds.new hsolid)
    (TCPOverIPv4Adapter.segment_verifies (a := a) (by omega)) {}
  obtain rfl : seg = ⟨msg.merged, (a.segment msg).udinfo⟩ := by
    unfold Parser.parse at hparse
    rw [hpseudo, hrun] at hparse
    exact (pair_ok hparse).1.symm
  rcases TCPOverIPv4Adapter.accept_cases haccept with
    hnone | ⟨rfl, hlisten, hdstPort, hsrcPort, hport, haddress⟩
  · exact .inl hnone
  · have hsource : b'.config.source.ipv4Numeric = a.config.destination.ipv4Numeric ∧
        b'.config.destination.ipv4Numeric = a.config.source.ipv4Numeric := by
      split at haddress
      · rw [← hsrc, ← hdst]
        exact haddress
      · rename_i hb
        subst haddress
        obtain ⟨hfor, hfrom⟩ := hfor (Bool.eq_false_of_not_eq_true hb)
        exact ⟨hfor.symm.trans hdst, hfrom.symm.trans hsrc⟩
    refine .inr ⟨rfl, hlisten, Address.ext hsource.1 hdstPort, Address.ext hsource.2 hsrcPort,
      hport, fun hb => ?_⟩
    rwa [hb, if_neg Bool.false_ne_true] at haddress

end

/-! ## Hosts -/

structure NetworkInterfaceAdapter where
  adapter : TCPOverIPv4Adapter
  interface : NetworkInterface
  nextHop : Address

namespace NetworkInterfaceAdapter

/-- `write`, and the frames that are transmitted. -/
def write (a : NetworkInterfaceAdapter) (msg : TCPMessage) :
    Except WireFault (NetworkInterfaceAdapter × List EthernetFrame) := do
  let dgram ← a.adapter.wrapTcpInIp msg
  let (interface, frames) ← a.interface.sendDatagram dgram a.nextHop
  return ({ a with interface }, frames)

/-- The datagram at the front of the queue. -/
def unwrapFront (a : NetworkInterfaceAdapter) :
    Except WireFault (NetworkInterfaceAdapter × Option TCPMessage) :=
  match a.interface.datagramsReceived with
  | [] => return (a, none)
  | dgram :: datagramsReceived => do
    let (adapter, msg) ← a.adapter.unwrapTcpInIp dgram
    return ({ a with adapter, interface := { a.interface with datagramsReceived } }, msg)

/-- The rest of `read`. -/
def take (a : NetworkInterfaceAdapter) : Option EthernetFrame →
    Except WireFault (NetworkInterfaceAdapter × List EthernetFrame × Option TCPMessage)
  | none => return (a, [], none)
  | some frame => do
    let (interface, frames) ← a.interface.recvFrame frame
    let (a, msg) ← unwrapFront { a with interface }
    return (a, frames, msg)

/-- `read`, when the descriptor gives these bytes. -/
def read (a : NetworkInterfaceAdapter) (bytes : Bytes) :
    Except WireFault (NetworkInterfaceAdapter × List EthernetFrame × Option TCPMessage) := do
  let frame ← EthernetFrame.maybeReceiveFrame bytes
  a.take frame

def tick (a : NetworkInterfaceAdapter) (ms : Nat) : NetworkInterfaceAdapter :=
  { a with interface := a.interface.tick ms }

variable {P : InternetDatagram → Prop} {a a' : NetworkInterfaceAdapter} {msg : TCPMessage}
  {m : Option TCPMessage} {out : List EthernetFrame} {f : EthernetFrame}

theorem write_contents (h : a.interface.Contents P)
    (hP : ∀ d, a.adapter.wrapTcpInIp msg = .ok d → P d) (hst : a.write msg = .ok (a', out)) :
    a'.interface.Contents P ∧ ∀ f ∈ out, f.Carries P := by
  obtain ⟨d, hd, hst⟩ := bind_ok hst
  obtain ⟨⟨i, frames⟩, hsend, hst⟩ := bind_ok hst
  obtain ⟨rfl, rfl⟩ := pair_ok hst
  exact NetworkInterface.sendDatagram_contents h (hP d hd) hsend

theorem write_adapter (hst : a.write msg = .ok (a', out)) : a'.adapter = a.adapter := by
  obtain ⟨d, -, hst⟩ := bind_ok hst
  obtain ⟨⟨i, frames⟩, -, hst⟩ := bind_ok hst
  obtain ⟨rfl, rfl⟩ := pair_ok hst
  rfl

/-- A message that is read was in a datagram. -/
theorem read_contents (ht : Transit P) (h : a.interface.Contents P) (hf : f.Carries P)
    (hst : a.read f.transmitted = .ok (a', out, m)) :
    a'.interface.Contents P ∧ (∀ f ∈ out, f.Carries P) ∧
      ((m = none ∧ a'.adapter = a.adapter) ∨ ∃ d, P d ∧ BufferList.Solid d.payload ∧
        a.adapter.unwrapTcpInIp d = .ok (a'.adapter, m)) := by
  obtain ⟨f', hreceived, hf', hsolid⟩ := hf.received ht
  unfold read at hst
  rw [hreceived, ok_bind] at hst
  obtain ⟨⟨i, frames⟩, hrecv, hst⟩ := bind_ok hst
  obtain ⟨⟨a₁, m₁⟩, hfront, hst⟩ := bind_ok hst
  obtain ⟨rfl, rfl, rfl⟩ := triple_ok hst
  obtain ⟨hi, hframes⟩ := NetworkInterface.recvFrame_contents ht h hf' hsolid hrecv
  unfold unwrapFront at hfront
  dsimp only at hfront
  split at hfront
  · obtain ⟨rfl, rfl⟩ := pair_ok hfront
    exact ⟨hi, hframes, .inl ⟨rfl, rfl⟩⟩
  · rename_i d datagramsReceived hqueue
    obtain ⟨⟨b, m⟩, hunwrap, hfront⟩ := bind_ok hfront
    obtain ⟨rfl, rfl⟩ := pair_ok hfront
    have hreceived := hi.received
    rw [hqueue, List.forall_mem_cons] at hreceived
    exact ⟨⟨hreceived.2, hi.waiting⟩, hframes, .inr ⟨d, hreceived.1.1, hreceived.1.2, hunwrap⟩⟩

end NetworkInterfaceAdapter

/-- The rules for the frames to the router. -/
def Router.take (r : Router) (k : Nat) :
    Option EthernetFrame → Except WireFault (Router × List (Nat × EthernetFrame))
  | none => return (r, [])
  | some frame => r.receive k frame

def Router.read (r : Router) (k : Nat) (bytes : Bytes) :
    Except WireFault (Router × List (Nat × EthernetFrame)) := do
  let frame ← EthernetFrame.maybeReceiveFrame bytes
  r.take k frame

theorem Router.read_contents {P : InternetDatagram → Prop} {r r' : Router} {k : Nat}
    {f : EthernetFrame} {out : List (Nat × EthernetFrame)} (ht : Transit P) (h : r.Contents P)
    (hf : f.Carries P) (hst : r.read k f.transmitted = .ok (r', out)) :
    r'.Contents P ∧ ∀ x ∈ out, x.2.Carries P := by
  obtain ⟨f', hreceived, hf', hsolid⟩ := hf.received ht
  unfold read at hst
  rw [hreceived, ok_bind] at hst
  exact receive_contents ht h hf' hsolid hst

/-! ## The internet -/

/-- The link that each interface is on. -/
structure Cable (η ρ κ : Type) where
  host : η → κ
  router : ρ → Nat → κ

/-- A message that a host has written or read, and the adapter that it has then. -/
structure Entry (η : Type) where
  host : η
  adapter : TCPOverIPv4Adapter
  msg : TCPMessage

/-- What was read is what was written, for the one that reads it and by its peer. -/
structure Entry.Answers {η : Type} (g e : Entry η) : Prop where
  msg : g.msg = e.msg.merged
  source : g.adapter.config.source = e.adapter.config.destination
  destination : g.adapter.config.destination = e.adapter.config.source

structure Internet (η ρ κ : Type) where
  host : η → NetworkInterfaceAdapter
  router : ρ → Router
  wire : κ → List Bytes := fun _ => []
  wrote : List (Entry η) := []
  got : List (Entry η) := []

namespace Internet

inductive Op (η ρ : Type) where
  | write (x : η) (msg : TCPMessage)
  | read (x : η) (bytes : Bytes)
  | tick (x : η) (ms : Nat)
  | route (y : ρ) (k : Nat) (bytes : Bytes)
  | tickRouter (y : ρ) (k ms : Nat)

section

variable {η ρ κ : Type} [DecidableEq η] [DecidableEq ρ] [DecidableEq κ]

/-- Frames on their links. -/
def put (wire : κ → List Bytes) (out : List (κ × EthernetFrame)) (l : κ) : List Bytes :=
  wire l ++ (out.filter fun x => x.1 = l).map fun x => x.2.transmitted

def step (c : Cable η ρ κ) (s : Internet η ρ κ) : Op η ρ → Except WireFault (Internet η ρ κ)
  | .write x msg => do
    let (a, frames) ← (s.host x).write msg
    return { s with
      host := Function.update s.host x a
      wire := put s.wire (frames.map fun frame => (c.host x, frame))
      wrote := s.wrote ++ [⟨x, (s.host x).adapter, msg⟩] }
  | .read x bytes => do
    let (a, frames, msg) ← (s.host x).read bytes
    return { s with
      host := Function.update s.host x a
      wire := put s.wire (frames.map fun frame => (c.host x, frame))
      got := s.got ++ msg.toList.map fun msg => ⟨x, a.adapter, msg⟩ }
  | .tick x ms => return { s with host := Function.update s.host x ((s.host x).tick ms) }
  | .route y k bytes => do
    let (r, frames) ← (s.router y).read k bytes
    return { s with
      router := Function.update s.router y r
      wire := put s.wire (frames.map fun frame => (c.router y frame.1, frame.2)) }
  | .tickRouter y k ms => return { s with
      router := Function.update s.router y ((s.router y).tick k ms) }

def machine (c : Cable η ρ κ) (start : Internet η ρ κ) : Machine (Internet η ρ κ) (Op η ρ) :=
  .det start (step c)

/-- A link delivers what was transmitted on it, and a message fits into the buffers of a host. -/
def Permitted (c : Cable η ρ κ) (s : Internet η ρ κ) : Op η ρ → Prop
  | .write _ msg => msg.sender.payload.length ≤ FDWrapper.readBufferSize
  | .read x bytes => bytes ∈ s.wire (c.host x)
  | .route y k bytes => bytes ∈ s.wire (c.router y k)
  | .tick _ _ | .tickRouter _ _ _ => True

instance (c : Cable η ρ κ) (s : Internet η ρ κ) : ∀ op, Decidable (Permitted c s op)
  | .write _ _ | .read _ _ | .route _ _ _ => by
    unfold Permitted
    infer_instance
  | .tick _ _ | .tickRouter _ _ _ => .isTrue trivial

end

/-! ## What hosts read -/

section

variable {η ρ κ : Type}

/-- The datagram carries a message that was written. -/
def Traced (wrote : List (Entry η)) (d : InternetDatagram) : Prop :=
  ∃ e ∈ wrote, Carried e.adapter e.msg d

theorem Traced.mono {wrote : List (Entry η)} {d : InternetDatagram} (h : Traced wrote d)
    (more : List (Entry η)) : Traced (wrote ++ more) d := by
  obtain ⟨e, he, hd⟩ := h
  exact ⟨e, List.mem_append_left _ he, hd⟩

theorem transit (wrote : List (Entry η)) : Transit (Traced wrote) where
  size := by
    rintro d ⟨e, -, hd⟩
    have hsize := hd.size
    rw [hd.wire_length]
    omega
  hop := by
    rintro d ⟨e, he, hd⟩
    exact ⟨e, he, hd.hop⟩
  arrives := by
    rintro d strs ⟨e, he, hd⟩ hsolid hflat
    obtain ⟨d', hparse, hd', hcut⟩ := hd.arrives hsolid hflat
    exact ⟨d', hparse, ⟨e, he, hd'⟩, hcut⟩

structure Inv (s : Internet η ρ κ) : Prop where
  hosts : ∀ x, (s.host x).interface.Contents (Traced s.wrote)
  routers : ∀ y, (s.router y).Contents (Traced s.wrote)
  wire : ∀ l, ∀ bytes ∈ s.wire l, ∃ f : EthernetFrame, f.transmitted = bytes ∧
    f.Carries (Traced s.wrote)
  got : ∀ g ∈ s.got, ∃ e ∈ s.wrote, g.Answers e

/-- Nothing has happened. -/
structure Fresh (s : Internet η ρ κ) : Prop where
  hosts : ∀ x, (s.host x).interface.Contents fun _ => False
  routers : ∀ y, (s.router y).Contents fun _ => False
  wire : ∀ l, s.wire l = []
  wrote : s.wrote = []
  got : s.got = []

theorem Fresh.inv {s : Internet η ρ κ} (h : s.Fresh) : s.Inv where
  hosts x := (h.hosts x).mono fun _ => False.elim
  routers y := (h.routers y).mono fun _ => False.elim
  wire l := by simp [h.wire l]
  got := by simp [h.got]

end

section

variable {η ρ κ : Type} [DecidableEq η] [DecidableEq ρ] [DecidableEq κ] {c : Cable η ρ κ}
  {s s' start : Internet η ρ κ} {op : Op η ρ}

theorem put_carries {P : InternetDatagram → Prop} {wire : κ → List Bytes}
    {out : List (κ × EthernetFrame)} (h : ∀ l, ∀ bytes ∈ wire l, ∃ f : EthernetFrame,
      f.transmitted = bytes ∧ f.Carries P) (hout : ∀ x ∈ out, x.2.Carries P) :
    ∀ l, ∀ bytes ∈ put wire out l, ∃ f : EthernetFrame, f.transmitted = bytes ∧ f.Carries P := by
  intro l bytes hmem
  rcases List.mem_append.mp hmem with hmem | hmem
  · exact h l bytes hmem
  · obtain ⟨x, hx, rfl⟩ := List.mem_map.mp hmem
    exact ⟨x.2, rfl, hout x (List.mem_of_mem_filter hx)⟩

/-- Only the host at `x` changes. -/
theorem hosts_update {P : InternetDatagram → Prop} {host : η → NetworkInterfaceAdapter} {x : η}
    {a : NetworkInterfaceAdapter} (ha : a.interface.Contents P)
    (h : ∀ y, (host y).interface.Contents P) :
    ∀ y, (Function.update host x a y).interface.Contents P :=
  (Function.forall_update_iff host fun _ a => a.interface.Contents P).mpr
    ⟨ha, fun y _ => h y⟩

theorem routers_update {P : InternetDatagram → Prop} {router : ρ → Router} {y : ρ} {r : Router}
    (hr : r.Contents P) (h : ∀ z, (router z).Contents P) :
    ∀ z, (Function.update router y r z).Contents P :=
  (Function.forall_update_iff router fun _ r => r.Contents P).mpr ⟨hr, fun z _ => h z⟩

theorem write_cases {x : η} {msg : TCPMessage} (hst : s.step c (.write x msg) = .ok s') :
    s'.wrote = s.wrote ++ [⟨x, (s.host x).adapter, msg⟩] ∧
      ∀ y, (s'.host y).adapter = (s.host y).adapter := by
  obtain ⟨⟨a, frames⟩, hwrite, hst⟩ := bind_ok hst
  obtain rfl := Except.ok.inj hst
  refine ⟨rfl, (Function.forall_update_iff s.host fun y a =>
    a.adapter = (s.host y).adapter).mpr ⟨?_, fun y _ => rfl⟩⟩
  exact NetworkInterfaceAdapter.write_adapter hwrite

theorem Inv.write {x : η} {msg : TCPMessage} (h : s.Inv)
    (hsize : msg.sender.payload.length ≤ FDWrapper.readBufferSize)
    (hst : s.step c (.write x msg) = .ok s') : s'.Inv := by
  obtain ⟨⟨a, frames⟩, hwrite, hst⟩ := bind_ok hst
  obtain rfl := Except.ok.inj hst
  have hmore : ∀ d, Traced s.wrote d → Traced (s.wrote ++ [⟨x, (s.host x).adapter, msg⟩]) d :=
    fun d hd => hd.mono _
  obtain ⟨ha, hframes⟩ := NetworkInterfaceAdapter.write_contents ((h.hosts x).mono hmore)
    (fun d hd => ⟨⟨x, (s.host x).adapter, msg⟩, by simp, Carried.wrap hsize hd⟩) hwrite
  refine ⟨hosts_update ha fun y => (h.hosts y).mono hmore, fun y => (h.routers y).mono hmore,
    put_carries (fun l bytes hb => ?_) ?_, fun g hg => ?_⟩
  · obtain ⟨f, hf, hcarries⟩ := h.wire l bytes hb
    exact ⟨f, hf, hcarries.mono hmore⟩
  · exact List.forall_mem_map.mpr hframes
  · obtain ⟨e, he, hanswers⟩ := h.got g hg
    exact ⟨e, List.mem_append_left _ he, hanswers⟩

/-- What the adapter of a host reads. -/
theorem read_cases {x : η} {bytes : Bytes} (h : s.Inv) (hmem : bytes ∈ s.wire (c.host x))
    (hst : s.step c (.read x bytes) = .ok s') : s'.wrote = s.wrote ∧
      (∀ y, y ≠ x → s'.host y = s.host y) ∧
      ((s'.got = s.got ∧ (s'.host x).adapter = (s.host x).adapter) ∨
        ∃ e ∈ s.wrote, s'.got = s.got ++ [⟨x, (s'.host x).adapter, e.msg.merged⟩] ∧
          (s.host x).adapter.Takes e.adapter (s'.host x).adapter) := by
  obtain ⟨⟨a, frames, m⟩, hread, hst⟩ := bind_ok hst
  obtain rfl := Except.ok.inj hst
  obtain ⟨f, rfl, hf⟩ := h.wire _ bytes hmem
  obtain ⟨-, -, hmsg⟩ :=
    NetworkInterfaceAdapter.read_contents (transit s.wrote) (h.hosts x) hf hread
  refine ⟨rfl, fun y hy => Function.update_of_ne hy .., ?_⟩
  simp only [Function.update_self]
  rcases hmsg with ⟨rfl, hadapter⟩ | ⟨d, ⟨e, he, hd⟩, hcut, hunwrap⟩
  · exact .inl ⟨by simp, hadapter⟩
  · rcases hd.unwrap hcut hunwrap with ⟨rfl, hadapter⟩ | ⟨rfl, htakes⟩
    · exact .inl ⟨by simp, hadapter⟩
    · exact .inr ⟨e, he, by simp, htakes⟩

theorem Inv.read {x : η} {bytes : Bytes} (h : s.Inv) (hmem : bytes ∈ s.wire (c.host x))
    (hst : s.step c (.read x bytes) = .ok s') : s'.Inv := by
  obtain ⟨-, -, hgot⟩ := read_cases h hmem hst
  obtain ⟨⟨a, frames, m⟩, hread, hst⟩ := bind_ok hst
  obtain rfl := Except.ok.inj hst
  obtain ⟨f, rfl, hf⟩ := h.wire _ bytes hmem
  obtain ⟨ha, hframes, -⟩ :=
    NetworkInterfaceAdapter.read_contents (transit s.wrote) (h.hosts x) hf hread
  refine ⟨hosts_update ha h.hosts, h.routers,
    put_carries h.wire (List.forall_mem_map.mpr hframes), fun g hg => ?_⟩
  rcases hgot with ⟨hgot, -⟩ | ⟨e, he, hgot, htakes⟩
  · exact h.got g (hgot ▸ hg)
  · rw [hgot] at hg
    rcases List.mem_append.mp hg with hg | hg
    · exact h.got g hg
    · obtain rfl := List.mem_singleton.mp hg
      exact ⟨e, he, rfl, htakes.source, htakes.destination⟩

theorem Inv.route {y : ρ} {k : Nat} {bytes : Bytes} (h : s.Inv)
    (hmem : bytes ∈ s.wire (c.router y k)) (hst : s.step c (.route y k bytes) = .ok s') :
    s'.Inv := by
  obtain ⟨⟨r, frames⟩, hread, hst⟩ := bind_ok hst
  obtain rfl := Except.ok.inj hst
  obtain ⟨f, rfl, hf⟩ := h.wire _ bytes hmem
  obtain ⟨hr, hframes⟩ := Router.read_contents (transit s.wrote) (h.routers y) hf hread
  exact ⟨h.hosts, routers_update hr h.routers,
    put_carries h.wire (List.forall_mem_map.mpr hframes), h.got⟩

theorem Inv.step (h : s.Inv) (hok : s.Permitted c op) (hst : s.step c op = .ok s') : s'.Inv := by
  cases op with
  | write x msg => exact h.write hok hst
  | read x bytes => exact h.read hok hst
  | route y k bytes => exact h.route hok hst
  | tick x ms =>
    obtain rfl := Except.ok.inj hst
    exact ⟨hosts_update (NetworkInterface.tick_contents (h.hosts x) ms) h.hosts, h.routers, h.wire,
      h.got⟩
  | tickRouter y k ms =>
    obtain rfl := Except.ok.inj hst
    exact ⟨h.hosts, routers_update (Router.tick_contents (h.routers y) k ms) h.routers, h.wire,
      h.got⟩

theorem inv (hstart : start.Fresh) (h : (machine c start).Reaches (Permitted c) s) : s.Inv :=
  h.invariant_det hstart.inv fun _ _ _ hinv hok hst => hinv.step hok hst

/-- In every run, whatever the topology and the routing tables are: a message that a host has read
is one that was written, by a host that has the address and port of its peer, for its own address and
port. -/
theorem messages_integrity (c : Cable η ρ κ) (start s : Internet η ρ κ) (hstart : start.Fresh)
    (h : (machine c start).Reaches (Permitted c) s) :
    ∀ g ∈ s.got, ∃ e ∈ s.wrote, g.Answers e :=
  (inv hstart h).got

end

/-! ## The client and the server -/

/-- At each end a link of the host, 0 and 2, and between the routers the link 1. -/
def endToEndCable : Cable Side Side (Fin 3) where
  host
    | .a => 0
    | .b => 2
  router
    | .a, k => if k = 0 then 0 else 1
    | .b, k => if k = 0 then 2 else 1

/-- An interface with a private Ethernet address. -/
def privateInterface (n : UInt8) (ip : UInt32) : NetworkInterface where
  ethernetAddress := { b₀ := 2, b₅ := n }
  ipAddress := .fromIpv4Numeric ip

/-- The router of the client: `host_side` is 0, `internet_side` is 1. -/
def clientRouter : Router :=
  let router : Router :=
    { interfaces := [privateInterface 1 0xc0a80001, privateInterface 2 0x0a0000c0] }
  router.addRoute 0xc0a80000 16 none 0
    |>.addRoute 0x0a000000 8 none 1
    |>.addRoute 0xac100000 12 (some (.fromIpv4Numeric 0x0a0000ac)) 1

def serverRouter : Router :=
  let router : Router :=
    { interfaces := [privateInterface 3 0xac100001, privateInterface 4 0x0a0000ac] }
  router.addRoute 0xac100000 12 none 0
    |>.addRoute 0x0a000000 8 none 1
    |>.addRoute 0xc0a80000 16 (some (.fromIpv4Numeric 0x0a0000c0)) 1

/-- What `program_body` sets up for a client with this port, and for a server. -/
def endToEnd (port : UInt16) : Internet Side Side (Fin 3) where
  host
    | .a => {
      adapter := { config := { source := ⟨0xc0a80032, port⟩, destination := ⟨0xac100064, 1234⟩ } }
      interface := privateInterface 5 0xc0a80032
      nextHop := .fromIpv4Numeric 0xc0a80001 }
    | .b => {
      adapter := { config := { source := ⟨0xac100064, 1234⟩ }, listening := true }
      interface := privateInterface 6 0xac100064
      nextHop := .fromIpv4Numeric 0xac100001 }
  router
    | .a => clientRouter
    | .b => serverRouter

theorem endToEnd_fresh (port : UInt16) : (endToEnd port).Fresh where
  hosts x := by cases x <;> exact .new _ _
  routers y := by
    cases y
    all_goals
      refine List.forall_mem_cons.mpr ⟨.new _ _, List.forall_mem_cons.mpr ⟨.new _ _, ?_⟩⟩
      simp
  wire _ := rfl
  wrote := rfl
  got := rfl

/-- The host at `x` gets the frame with the number `n` of its link. -/
def hears (x : Side) (n : Nat) (s : Internet Side Side (Fin 3)) : Op Side Side :=
  .read x ((s.wire (endToEndCable.host x)).getD n [])

/-- The interface `k` of the router at `y` does. -/
def passes (y : Side) (k n : Nat) (s : Internet Side Side (Fin 3)) : Op Side Side :=
  .route y k ((s.wire (endToEndCable.router y k)).getD n [])

def firstSyn : TCPMessage := ⟨{ seqno := ⟨7⟩, syn := true }, { windowSize := 64000 }⟩

/-- A SYN of the client gets to the server; on each link an address is resolved first. -/
def synArrives : List (Internet Side Side (Fin 3) → Op Side Side) :=
  [fun _ => .write .a firstSyn, passes .a 0 0, hears .a 1, passes .a 0 2, passes .b 1 0,
    passes .a 1 1, passes .b 1 2, hears .b 0, passes .b 0 1, hears .b 2]

theorem messages_integrity_syn : ∃ s : Internet Side Side (Fin 3), ∃ g ∈ s.got,
    g.msg = firstSyn ∧ ∃ e ∈ s.wrote, g.Answers e := by
  obtain ⟨s, h, hgot⟩ := Machine.exists_reaches_choosing (step endToEndCable) (endToEnd 5000)
    (Permitted endToEndCable) (fun s => s.got.map (fun g => g.msg) = [firstSyn]) synArrives
    (by decide +kernel) (by decide +kernel)
  have hmem : firstSyn ∈ s.got.map fun g => g.msg := by
    rw [hgot]
    exact List.mem_cons_self
  obtain ⟨g, hg, hmsg⟩ := List.mem_map.mp hmem
  exact ⟨s, g, hg, hmsg,
    messages_integrity endToEndCable (endToEnd 5000) s (endToEnd_fresh 5000) h g hg⟩

end Internet

end Minnow
