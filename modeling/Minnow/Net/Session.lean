import Minnow.Net.Interface
import Minnow.Lib.Machine

/-!
# Runs of an interface, one next hop at a time

A `Session` keeps beside an interface the history of every next hop: the datagrams given for it and
what has become of each, the IPv4 frames transmitted for it, the times at which an ARP request for
it was broadcast, and the last ARP message heard from it. Frames and requests are those that the
interface has transmitted; a datagram is dropped when a tick ends the queue it is in. A call that
throws is recorded with what it has done until then, and the run goes on. Only what has no defined
behaviour ends it.

What happens to one next hop does not depend on the others. A `View` is what there is about it, a
`Move` is what a call can do to that, and `step_view` says that every step of the interface moves
every view. The invariants are proved about moves (`view_invariant`).
-/

namespace Minnow

namespace NetworkInterface

inductive Op where
  | sendDatagram (dgram : InternetDatagram) (nextHop : Address)
  | recvFrame (frame : EthernetFrame)
  | tick (ms : Nat)
  deriving DecidableEq

/-- What has become of a datagram. -/
inductive Fate where
  | transmitted
  /-- It waits for a reply to the request that was broadcast at `asked`. -/
  | queued (asked : Nat)
  | dropped (asked time : Nat)
  deriving DecidableEq

namespace Fate

def release : Fate → Fate
  | queued _ => transmitted
  | fate => fate

def drop (time : Nat) : Fate → Fate
  | queued asked => dropped asked time
  | fate => fate

def isTransmitted : Fate → Bool
  | transmitted => true
  | _ => false

def isQueued : Fate → Bool
  | queued _ => true
  | _ => false

@[simp] theorem isTransmitted_transmitted : transmitted.isTransmitted = true := rfl

@[simp] theorem isTransmitted_queued (asked : Nat) : (queued asked).isTransmitted = false := rfl

theorem isTransmitted_drop (time : Nat) (fate : Fate) :
    (fate.drop time).isTransmitted = fate.isTransmitted := by
  cases fate <;> rfl

theorem release_of_decided {fate : Fate} (h : fate.isQueued = false) : fate.release = fate := by
  cases fate with
  | queued => cases h
  | transmitted | dropped => rfl

theorem drop_of_decided {fate : Fate} (time : Nat) (h : fate.isQueued = false) :
    fate.drop time = fate := by
  cases fate with
  | queued => cases h
  | transmitted | dropped => rfl

theorem isQueued_release (fate : Fate) : fate.release.isQueued = false := by
  cases fate <;> rfl

theorem isQueued_drop (time : Nat) (fate : Fate) : (fate.drop time).isQueued = false := by
  cases fate <;> rfl

theorem release_eq_dropped {fate : Fate} {asked time : Nat}
    (h : fate.release = dropped asked time) :
    fate = dropped asked time := by
  cases fate with
  | queued | transmitted => cases h
  | dropped => exact h

end Fate

/-! ## What a call shows -/

def isIPv4 (frame : EthernetFrame) : Bool := frame.header.type == EthernetHeader.typeIPv4

/-- The frame broadcasts an ARP request for `ip`. -/
def asks (ip : UInt32) (frame : EthernetFrame) : Bool :=
  frame.header.dst == .broadcast && (heardIn frame).any fun arp =>
    arp.opcode == ARPMessage.opcodeRequest && arp.targetIpAddress == ip

namespace Op

def run (i : NetworkInterface) : Op → Except WireFault (NetworkInterface × List EthernetFrame)
  | sendDatagram dgram nextHop => i.sendDatagram dgram nextHop
  | recvFrame frame => i.recvFrame frame
  | tick ms => return (i.tick ms, [])

/-- The interface that a call leaves which throws, and the frames that it has transmitted. -/
def left (i : NetworkInterface) : Op → NetworkInterface × List EthernetFrame
  | recvFrame frame => ((heardIn frame).map i.interrupted).getD (i, [])
  | sendDatagram _ _ | tick _ => (i, [])

def elapsed : Op → Nat
  | tick ms => ms
  | _ => 0

/-- The next hop that the IPv4 frames of a call are for. -/
def nextHop : Op → Option UInt32
  | sendDatagram _ nextHop => some nextHop.ipv4Numeric
  | recvFrame frame => (heardIn frame).map ARPMessage.senderIpAddress
  | tick _ => none

/-- The datagram that is given for `ip`. -/
def given (ip : UInt32) : Op → List InternetDatagram
  | sendDatagram dgram nextHop => if nextHop.ipv4Numeric = ip then [dgram] else []
  | _ => []

/-- The Ethernet address that is heard from `ip`. -/
def heard (ip : UInt32) : Op → Option EthernetAddress
  | recvFrame frame => (heardIn frame).bind fun arp =>
    if arp.senderIpAddress = ip then some arp.senderEthernetAddress else none
  | _ => none

/-- What happens to the fate of a datagram for `ip` in a call that returns at `time`. -/
def change (ip : UInt32) (time : Nat) (i' : NetworkInterface) : Op → Fate → Fate
  | recvFrame frame => if ((recvFrame frame).heard ip).isSome then .release else id
  | tick _ => if (i'.pendingArpRequests ip).isNone then .drop time else id
  | _ => id

end Op

/-! ## Sessions -/

/-- What happened to a next hop. The last of `requests` is the latest one. -/
structure History where
  given : List InternetDatagram := []
  fates : List (InternetDatagram × Fate) := []
  transmitted : List EthernetFrame := []
  requests : List Nat := []
  heard : Option (EthernetAddress × Nat) := none
  deriving DecidableEq

/-- The history of `ip` after a call at `now` that has returned `i'` and transmitted `out`. -/
def History.record (h : History) (ip : UInt32) (now : Nat) (i' : NetworkInterface)
    (out : List EthernetFrame) (op : Op) : History :=
  let requests := h.requests ++ (out.filter (asks ip)).map fun _ => now
  let fate := if out.any isIPv4 then .transmitted else .queued (requests.getLast?.getD 0)
  { given := h.given ++ op.given ip
    fates := h.fates.map (fun x => (x.1, op.change ip (now + op.elapsed) i' x.2)) ++
      (op.given ip).map fun dgram => (dgram, fate)
    transmitted := h.transmitted ++ if op.nextHop = some ip then out.filter isIPv4 else []
    requests
    heard := ((op.heard ip).map fun ethernetAddress => (ethernetAddress, now)).or h.heard }

/-- The history of `ip` after a call at `now` that has thrown and transmitted `out`. -/
def History.recordThrown (h : History) (ip : UInt32) (now : Nat) (out : List EthernetFrame)
    (op : Op) : History where
  given := h.given ++ op.given ip
  fates := h.fates
  transmitted := h.transmitted ++ if op.nextHop = some ip then out.filter isIPv4 else []
  requests := h.requests ++ (out.filter (asks ip)).map fun _ => now
  heard := ((op.heard ip).map fun ethernetAddress => (ethernetAddress, now)).or h.heard

structure Session where
  interface : NetworkInterface
  now : Nat := 0
  history : UInt32 → History := fun _ => {}

namespace Session

/-- The session after a call that returns. -/
def after (s : Session) (op : Op) (i' : NetworkInterface) (out : List EthernetFrame) : Session where
  interface := i'
  now := s.now + op.elapsed
  history := fun ip => (s.history ip).record ip s.now i' out op

/-- The session after a call that throws. -/
def thrown (s : Session) (op : Op) : Session where
  interface := (op.left s.interface).1
  now := s.now + op.elapsed
  history := fun ip => (s.history ip).recordThrown ip s.now (op.left s.interface).2 op

/-- A call, and the frames that it transmits. -/
def step (s : Session) (op : Op) : Except WireFault (Session × List EthernetFrame) :=
  match op.run s.interface with
  | .ok (i', out) => .ok (s.after op i' out, out)
  | .error fault =>
    if fault.isException then .ok (s.thrown op, (op.left s.interface).2) else .error fault

def next (s : Session) (op : Op) : Except WireFault Session := do
  let (s, _) ← s.step op
  return s

def new (ethernetAddress : EthernetAddress) (ipAddress : Address) : Session where
  interface := { ethernetAddress, ipAddress }

def machine (ethernetAddress : EthernetAddress) (ipAddress : Address) : Machine Session Op :=
  .det (new ethernetAddress ipAddress) next

/-- The time after the call is in `times`. -/
def Within (times : Nat → Prop) (s : Session) (op : Op) : Prop := times (s.now + op.elapsed)

instance (times : Nat → Prop) [DecidablePred times] (s : Session) (op : Op) :
    Decidable (Within times s op) := inferInstanceAs (Decidable (times _))

end Session

/-! ## Views -/

/-- What there is about one next hop. -/
structure View where
  cache : Option (EthernetAddress × Nat) := none
  pending : Option (List InternetDatagram × Nat) := none
  now : Nat := 0
  history : History := {}

def View.waiting (v : View) : List InternetDatagram := (v.pending.getD ([], 0)).1

/-- What a call does to a view. -/
inductive View.Move (v : View) : View → Prop where
  /-- The call is about another next hop. -/
  | other : Move v v
  /-- A datagram is given and the next hop is known. -/
  | transmit (dgram : InternetDatagram) (frame : EthernetFrame) (ttl : Nat)
      (cached : v.cache = some (frame.header.dst, ttl))
      (payload : dgram.serialized = .ok frame.payload) :
      Move v { v with history := { v.history with
        given := v.history.given ++ [dgram]
        fates := v.history.fates ++ [(dgram, .transmitted)]
        transmitted := v.history.transmitted ++ [frame] } }
  /-- A datagram is given and the next hop is asked for. -/
  | request (dgram : InternetDatagram) (unknown : v.cache = none)
      (wanted : v.pending.all (·.2 > 5000) = true) :
      Move v { v with
        pending := some (v.waiting ++ [dgram], (v.pending.getD ([], 0)).2)
        history := { v.history with
          given := v.history.given ++ [dgram]
          fates := v.history.fates ++ [(dgram, .queued v.now)]
          requests := v.history.requests ++ [v.now] } }
  /-- A datagram is given and the next hop has been asked for. -/
  | wait (dgram : InternetDatagram) (queue : List InternetDatagram) (age : Nat)
      (unknown : v.cache = none) (asked : v.pending = some (queue, age)) (recent : age ≤ 5000) :
      Move v { v with
        pending := some (queue ++ [dgram], age)
        history := { v.history with
          given := v.history.given ++ [dgram]
          fates := v.history.fates ++ [(dgram, .queued (v.history.requests.getLast?.getD 0))] } }
  /-- The next hop is heard, and what waited for it is transmitted. -/
  | hear (ethernetAddress : EthernetAddress) (frames : List EthernetFrame)
      (payloads :
        v.waiting.map IPv4Datagram.serialized = frames.map fun frame => .ok frame.payload) :
      Move v { v with
        cache := some (ethernetAddress, 30000)
        pending := none
        history := { v.history with
          fates := v.history.fates.map fun x => (x.1, x.2.release)
          transmitted := v.history.transmitted ++ frames
          heard := some (ethernetAddress, v.now) } }
  /-- A datagram is given to a next hop that is known, and cannot be serialized. -/
  | refuse (dgram : InternetDatagram) (known : v.cache ≠ none) (version : dgram.header.ver ≠ 4) :
      Move v { v with history := { v.history with given := v.history.given ++ [dgram] } }
  /-- The next hop is heard, and the loop over what waited for it throws. -/
  | interrupt (ethernetAddress : EthernetAddress) (frames : List EthernetFrame)
      (dgram : InternetDatagram) (waits : dgram ∈ v.waiting) (version : dgram.header.ver ≠ 4) :
      Move v { v with
        cache := some (ethernetAddress, 30000)
        history := { v.history with
          transmitted := v.history.transmitted ++ frames
          heard := some (ethernetAddress, v.now) } }
  | tick (ms : Nat) :
      Move v { v with
        cache := v.cache.bind (tickCache ms)
        pending := v.pending.bind (tickPending ms)
        now := v.now + ms
        history := { v.history with
          fates := v.history.fates.map fun x => (x.1,
            if (v.pending.bind (tickPending ms)).isNone then x.2.drop (v.now + ms) else x.2) } }

def Session.view (s : Session) (ip : UInt32) : View where
  cache := s.interface.arpCache ip
  pending := s.interface.pendingArpRequests ip
  now := s.now
  history := s.history ip

/-! ## Every step is a move -/

variable {i i' : NetworkInterface} {ip : UInt32} {frame : EthernetFrame} {arp : ARPMessage}
  {out : List EthernetFrame} {op : Op} {s s' : Session}

theorem asks_datagramFrame (i : NetworkInterface) (dst : EthernetAddress) (payload : List Bytes) :
    asks ip (i.datagramFrame dst payload) = false := by
  have hheard : heardIn (i.datagramFrame dst payload) = none := if_neg (by
    show EthernetHeader.typeIPv4 ≠ EthernetHeader.typeArp
    decide)
  unfold asks
  rw [hheard]
  simp

theorem isIPv4_datagramFrame (i : NetworkInterface) (dst : EthernetAddress)
    (payload : List Bytes) : isIPv4 (i.datagramFrame dst payload) = true := rfl

theorem isIPv4_arpFrame {dst : EthernetAddress} (hs : arp.supported = true)
    (h : i.arpFrame dst arp = .ok frame) : isIPv4 frame = false := by
  obtain ⟨-, htype, -⟩ := heardIn_arpFrame hs h
  unfold isIPv4
  rw [htype]
  rfl

theorem asks_request {nextHop : UInt32}
    (h : i.arpFrame .broadcast (i.arpRequest nextHop) = .ok frame) :
    asks ip frame = (nextHop == ip) := by
  obtain ⟨hdst, -, hheard⟩ := heardIn_arpFrame (i.arpRequest_supported nextHop) h
  unfold asks
  rw [hdst, hheard]
  simp [arpRequest]

theorem asks_response {dst : EthernetAddress} (h : i.arpFrame dst (i.arpResponse arp) = .ok frame) :
    asks ip frame = false := by
  obtain ⟨-, -, hheard⟩ := heardIn_arpFrame (i.arpResponse_supported arp) h
  have hopcode : (ARPMessage.opcodeReply == ARPMessage.opcodeRequest) = false := by decide
  unfold asks
  rw [hheard]
  simp [arpResponse, hopcode]

/-- What an interface transmits beside IPv4 frames is no request. -/
theorem responses_filter {responses : List EthernetFrame} (h : i.Responses arp responses)
    (ip : UInt32) :
    responses.filter (asks ip) = [] ∧ responses.filter isIPv4 = [] := by
  rcases h with rfl | ⟨response, hok, rfl⟩
  · exact ⟨rfl, rfl⟩
  · simp [asks_response hok, isIPv4_arpFrame (i.arpResponse_supported arp) hok]

theorem datagramFrames_filter (i : NetworkInterface) (dst : EthernetAddress)
    (payloads : List (List Bytes)) (ip : UInt32) :
    (payloads.map (i.datagramFrame dst)).filter (asks ip) = [] ∧
    (payloads.map (i.datagramFrame dst)).filter isIPv4 = payloads.map (i.datagramFrame dst) := by
  constructor
  · simp [List.filter_map, asks_datagramFrame, Function.comp_def]
  · simp [List.filter_map, isIPv4_datagramFrame, Function.comp_def]

/-- A call that gives nothing for a next hop, does not hear it and does not ask for it. -/
theorem record_other (h : History) (now : Nat) (i' : NetworkInterface)
    (hgiven : op.given ip = []) (hchange : op.change ip (now + op.elapsed) i' = id)
    (hnext : op.nextHop ≠ some ip) (hheard : op.heard ip = none)
    (hasks : out.filter (asks ip) = []) :
    h.record ip now i' out op = h := by
  unfold History.record
  simp [hgiven, hchange, hnext, hheard, hasks]

theorem record_sendDatagram (h : History) (now : Nat) (i' : NetworkInterface)
    (out : List EthernetFrame) (dgram : InternetDatagram) (nextHop : Address) :
    h.record nextHop.ipv4Numeric now i' out (.sendDatagram dgram nextHop) = { h with
      given := h.given ++ [dgram]
      fates := h.fates ++ [(dgram, if out.any isIPv4 then .transmitted else .queued
        ((h.requests ++ (out.filter (asks nextHop.ipv4Numeric)).map fun _ => now).getLast?.getD 0))]
      transmitted := h.transmitted ++ out.filter isIPv4
      requests := h.requests ++ (out.filter (asks nextHop.ipv4Numeric)).map fun _ => now } := by
  unfold History.record
  simp [Op.given, Op.change, Op.nextHop, Op.heard]

/-- A step is a call that returns, or one that throws. -/
theorem step_run (h : s.step op = .ok (s', out)) :
    (∃ i', op.run s.interface = .ok (i', out) ∧ s' = s.after op i' out) ∨
    ∃ fault, op.run s.interface = .error fault ∧ s' = s.thrown op ∧
      out = (op.left s.interface).2 := by
  unfold Session.step at h
  cases hrun : op.run s.interface with
  | ok result =>
    rw [hrun] at h
    obtain ⟨rfl, rfl⟩ := pair_ok h
    exact .inl ⟨result.1, rfl, rfl⟩
  | error fault =>
    rw [hrun] at h
    dsimp only at h
    split at h
    · obtain ⟨rfl, rfl⟩ := pair_ok h
      exact .inr ⟨fault, rfl, rfl, rfl⟩
    · cases h

/-- A call that is about another next hop. -/
theorem view_other (hcache : i'.arpCache ip = s.interface.arpCache ip)
    (hpending : i'.pendingArpRequests ip = s.interface.pendingArpRequests ip)
    (helapsed : op.elapsed = 0) (hgiven : op.given ip = [])
    (hchange : op.change ip (s.now + op.elapsed) i' = id) (hnext : op.nextHop ≠ some ip)
    (hheard : op.heard ip = none) (hasks : out.filter (asks ip) = []) :
    (s.view ip).Move ((s.after op i' out).view ip) := by
  unfold Session.view Session.after
  dsimp only
  rw [record_other _ _ _ hgiven hchange hnext hheard hasks, hcache, hpending, helapsed]
  exact .other

theorem queue_other {dgram : InternetDatagram} {nextHop : UInt32} (h : nextHop ≠ ip) :
    (i.queue dgram nextHop).pendingArpRequests ip = i.pendingArpRequests ip :=
  Function.update_of_ne (Ne.symm h) _ _

theorem queue_self (i : NetworkInterface) (dgram : InternetDatagram) (ip : UInt32) :
    (i.queue dgram ip).pendingArpRequests ip =
      some (i.waiting ip ++ [dgram], ((i.pendingArpRequests ip).getD ([], 0)).2) :=
  Function.update_self ..

theorem view_sendDatagram {dgram : InternetDatagram} {nextHop : Address}
    (h : s.interface.sendDatagram dgram nextHop = .ok (i', out)) (ip : UInt32) :
    (s.view ip).Move ((s.after (.sendDatagram dgram nextHop) i' out).view ip) := by
  by_cases hip : nextHop.ipv4Numeric = ip
  · subst hip
    unfold Session.view Session.after
    dsimp only
    rw [record_sendDatagram]
    rcases sendDatagram_cases h with ⟨dst, ttl, payload, hcache, hpayload, rfl, rfl⟩ |
      ⟨hcache, rfl, ⟨hwants, request, hrequest, rfl⟩ | ⟨hwants, rfl⟩⟩
    · rw [List.filter_cons_of_neg (by simp [asks_datagramFrame]), List.filter_nil, List.map_nil,
        List.append_nil]
      exact .transmit dgram (s.interface.datagramFrame dst payload) ttl hcache hpayload
    · have hipv4 := isIPv4_arpFrame (s.interface.arpRequest_supported _) hrequest
      rw [List.filter_cons_of_pos (by simp [asks_request hrequest]),
        List.filter_cons_of_neg (by simp [hipv4]), List.any_cons, hipv4, queue_self]
      simp only [List.filter_nil, List.map_cons, List.map_nil, List.append_nil,
        List.getLast?_concat, List.any_nil, Bool.or_self, Option.getD_some]
      exact .request dgram hcache hwants
    · unfold wantsRequest at hwants
      cases hpending : s.interface.pendingArpRequests nextHop.ipv4Numeric with
      | none =>
        rw [hpending] at hwants
        cases hwants
      | some entry =>
        rw [hpending] at hwants
        have hrecent : entry.2 ≤ 5000 := by simpa using hwants
        rw [queue_self]
        unfold waiting
        rw [hpending]
        simp only [List.filter_nil, List.map_nil, List.append_nil]
        exact .wait dgram entry.1 entry.2 hcache rfl hrecent
  · rcases sendDatagram_cases h with ⟨dst, ttl, payload, hcache, hpayload, rfl, rfl⟩ |
      ⟨hcache, rfl, ⟨hwants, request, hrequest, rfl⟩ | ⟨hwants, rfl⟩⟩
    all_goals
      refine view_other rfl ?_ rfl (if_neg hip) rfl (by simpa [Op.nextHop] using hip) rfl ?_
    · rfl
    · simp [asks_datagramFrame]
    · exact queue_other hip
    · simp [asks_request hrequest, hip]
    · exact queue_other hip
    · rfl

theorem record_recvFrame (hheard : heardIn frame = some arp) (h : History) (now : Nat)
    (i' : NetworkInterface) (out : List EthernetFrame) :
    h.record arp.senderIpAddress now i' out (.recvFrame frame) = { h with
      fates := h.fates.map fun x => (x.1, x.2.release)
      transmitted := h.transmitted ++ out.filter isIPv4
      requests := h.requests ++ (out.filter (asks arp.senderIpAddress)).map fun _ => now
      heard := some (arp.senderEthernetAddress, now) } := by
  unfold History.record
  simp [Op.given, Op.change, Op.nextHop, Op.heard, hheard]

theorem view_recvFrame (h : s.interface.recvFrame frame = .ok (i', out)) (ip : UInt32) :
    (s.view ip).Move ((s.after (.recvFrame frame) i' out).view ip) := by
  rcases recvFrame_cases h with ⟨hheard, ⟨datagramsReceived, rfl⟩, rfl⟩ | ⟨arp, hheard, harp⟩
  · refine view_other rfl rfl rfl rfl ?_ ?_ ?_ rfl
    · simp [Op.change, Op.heard, hheard]
    · simp [Op.nextHop, hheard]
    · simp [Op.heard, hheard]
  · obtain ⟨responses, payloads, hresponses, hpayloads, rfl, rfl⟩ := recvArp_cases harp
    obtain ⟨hasks, hipv4⟩ := responses_filter hresponses ip
    obtain ⟨hasks', hipv4'⟩ := datagramFrames_filter s.interface
      arp.senderEthernetAddress payloads ip
    by_cases hip : arp.senderIpAddress = ip
    · subst hip
      unfold Session.view Session.after
      dsimp only
      rw [record_recvFrame hheard, List.filter_append, List.filter_append, hasks, hasks', hipv4,
        hipv4', Function.update_self, List.map_append, List.map_nil, List.append_nil,
        List.append_nil, List.nil_append]
      have hcache : (s.interface.learn arp).arpCache arp.senderIpAddress =
          some (arp.senderEthernetAddress, 30000) := Function.update_self ..
      rw [hcache]
      refine .hear arp.senderEthernetAddress
        (payloads.map (s.interface.datagramFrame arp.senderEthernetAddress)) ?_
      rw [List.map_map]
      exact map_eq_of_mapM hpayloads
    · refine view_other (Function.update_of_ne (Ne.symm hip) _ _)
        (Function.update_of_ne (Ne.symm hip) _ _) rfl rfl ?_ ?_ ?_ ?_
      · simp [Op.change, Op.heard, hheard, hip]
      · simpa [Op.nextHop, hheard] using hip
      · simp [Op.heard, hheard, hip]
      · rw [List.filter_append, hasks, hasks', List.append_nil]

theorem view_tick (s : Session) (ms : Nat) (ip : UInt32) :
    (s.view ip).Move ((s.after (.tick ms) (s.interface.tick ms) []).view ip) := by
  have hrecord : (s.history ip).record ip s.now (s.interface.tick ms) [] (.tick ms) =
      { s.history ip with fates := (s.history ip).fates.map fun x => (x.1,
        if ((s.interface.pendingArpRequests ip).bind (tickPending ms)).isNone then
          x.2.drop (s.now + ms) else x.2) } := by
    unfold History.record
    cases hended : ((s.interface.pendingArpRequests ip).bind (tickPending ms)).isNone <;>
      simp [Op.given, Op.change, Op.nextHop, Op.heard, Op.elapsed, tick, hended]
  unfold Session.view Session.after
  dsimp only
  rw [hrecord]
  exact .tick ms

/-! ## Calls that throw -/

/-- A call that throws and is about another next hop. -/
theorem view_thrown_other
    (hcache : (op.left s.interface).1.arpCache ip = s.interface.arpCache ip)
    (hpending : (op.left s.interface).1.pendingArpRequests ip = s.interface.pendingArpRequests ip)
    (helapsed : op.elapsed = 0) (hgiven : op.given ip = [])
    (hnext : op.nextHop ≠ some ip ∨ (op.left s.interface).2 = []) (hheard : op.heard ip = none)
    (hasks : (op.left s.interface).2.filter (asks ip) = []) :
    (s.view ip).Move ((s.thrown op).view ip) := by
  have hrecord : (s.history ip).recordThrown ip s.now (op.left s.interface).2 op = s.history ip := by
    unfold History.recordThrown
    rcases hnext with hnext | hnext <;> simp [hgiven, hheard, hasks, hnext]
  unfold Session.view Session.thrown
  dsimp only
  rw [hrecord, hcache, hpending, helapsed]
  exact .other

/-- Only a datagram for a next hop that is known is serialized when it is given. -/
theorem sendDatagram_throws {dgram : InternetDatagram} {nextHop : Address} {fault : WireFault}
    (h : i.sendDatagram dgram nextHop = .error fault) :
    i.arpCache nextHop.ipv4Numeric ≠ none ∧ dgram.header.ver ≠ 4 := by
  unfold sendDatagram at h
  cases hcache : i.arpCache nextHop.ipv4Numeric with
  | some entry =>
    rw [hcache] at h
    refine ⟨Option.some_ne_none _, fun hver => ?_⟩
    obtain ⟨payload, hpayload, -⟩ := IPv4Datagram.serialized_ok hver
    dsimp only at h
    rw [hpayload] at h
    cases h
  | none =>
    rw [hcache] at h
    dsimp only at h
    split at h
    · obtain ⟨payload, hok, -⟩ := arpFrame_ok (i.arpRequest_supported nextHop.ipv4Numeric) i
        .broadcast
      rw [hok] at h
      cases h
    · cases h

theorem view_sendDatagram_thrown {dgram : InternetDatagram} {nextHop : Address} {fault : WireFault}
    (h : s.interface.sendDatagram dgram nextHop = .error fault) (ip : UInt32) :
    (s.view ip).Move ((s.thrown (.sendDatagram dgram nextHop)).view ip) := by
  obtain ⟨hknown, hversion⟩ := sendDatagram_throws h
  by_cases hip : nextHop.ipv4Numeric = ip
  · subst hip
    have hrecord : (s.history nextHop.ipv4Numeric).recordThrown nextHop.ipv4Numeric s.now []
        (.sendDatagram dgram nextHop) = { s.history nextHop.ipv4Numeric with
          given := (s.history nextHop.ipv4Numeric).given ++ [dgram] } := by
      unfold History.recordThrown
      simp [Op.given, Op.heard]
    unfold Session.view Session.thrown
    dsimp only [Op.left]
    rw [hrecord]
    exact .refuse dgram hknown hversion
  · exact view_thrown_other rfl rfl rfl (if_neg hip) (.inr rfl) rfl rfl

/-- What a loop that throws leaves of a next hop that is heard. -/
theorem recordThrown_recvFrame (hheard : heardIn frame = some arp) (h : History) (now : Nat)
    (out : List EthernetFrame) :
    h.recordThrown arp.senderIpAddress now out (.recvFrame frame) = { h with
      transmitted := h.transmitted ++ out.filter isIPv4
      requests := h.requests ++ (out.filter (asks arp.senderIpAddress)).map fun _ => now
      heard := some (arp.senderEthernetAddress, now) } := by
  unfold History.recordThrown
  simp [Op.given, Op.nextHop, Op.heard, hheard]

theorem left_heard (hheard : heardIn frame = some arp) (i : NetworkInterface) :
    (Op.recvFrame frame).left i = i.interrupted arp := by
  simp [Op.left, hheard]

theorem left_unheard (hheard : heardIn frame = none) (i : NetworkInterface) :
    (Op.recvFrame frame).left i = (i, []) := by
  simp [Op.left, hheard]

theorem view_recvFrame_thrown {fault : WireFault}
    (h : s.interface.recvFrame frame = .error fault) (ip : UInt32) :
    (s.view ip).Move ((s.thrown (.recvFrame frame)).view ip) := by
  rcases recvFrame_throws h with hheard | ⟨arp, hheard, dgram, hwaits, hversion⟩
  · have hleft := left_unheard hheard s.interface
    refine view_thrown_other (by rw [hleft]) (by rw [hleft]) rfl rfl (.inr (by rw [hleft])) ?_
      (by rw [hleft]; rfl)
    simp [Op.heard, hheard]
  · have hleft := left_heard hheard s.interface
    obtain ⟨hasks, hipv4⟩ := responses_filter (s.interface.responses_spec arp) ip
    obtain ⟨hasks', hipv4'⟩ := datagramFrames_filter s.interface arp.senderEthernetAddress
      (serializedUntil (s.interface.waiting arp.senderIpAddress)) ip
    have hout : (s.interface.interrupted arp).2 = s.interface.responses arp ++
        (serializedUntil (s.interface.waiting arp.senderIpAddress)).map
          (s.interface.datagramFrame arp.senderEthernetAddress) := rfl
    by_cases hip : arp.senderIpAddress = ip
    · subst hip
      have hcache : (s.interface.interrupted arp).1.arpCache arp.senderIpAddress =
          some (arp.senderEthernetAddress, 30000) := Function.update_self ..
      unfold Session.view Session.thrown
      dsimp only
      rw [recordThrown_recvFrame hheard, hleft, hout, List.filter_append, List.filter_append, hasks,
        hasks', hipv4, hipv4', List.map_append, List.map_nil, List.append_nil, List.append_nil,
        List.nil_append, hcache]
      exact .interrupt arp.senderEthernetAddress _ dgram hwaits hversion
    · refine view_thrown_other ?_ ?_ rfl rfl (.inl ?_) ?_ ?_
      · rw [hleft]
        exact Function.update_of_ne (Ne.symm hip) _ _
      · rw [hleft]
        rfl
      · simpa [Op.nextHop, hheard] using hip
      · simp [Op.heard, hheard, hip]
      · rw [hleft, hout, List.filter_append, hasks, hasks', List.append_nil]

theorem step_view (h : s.step op = .ok (s', out)) (ip : UInt32) :
    (s.view ip).Move (s'.view ip) := by
  rcases step_run h with ⟨i', hrun, rfl⟩ | ⟨fault, hrun, rfl, -⟩
  · cases op with
    | sendDatagram dgram nextHop => exact view_sendDatagram hrun ip
    | recvFrame frame => exact view_recvFrame hrun ip
    | tick ms =>
      obtain ⟨rfl, rfl⟩ := pair_ok hrun
      exact view_tick s ms ip
  · cases op with
    | sendDatagram dgram nextHop => exact view_sendDatagram_thrown hrun ip
    | recvFrame frame => exact view_recvFrame_thrown hrun ip
    | tick ms => cases hrun

/-! ## Runs -/

variable {ethernetAddress : EthernetAddress} {ipAddress : Address} {times : Nat → Prop}

theorem next_step (h : s.next op = .ok s') : ∃ out, s.step op = .ok (s', out) := by
  obtain ⟨⟨s₁, out⟩, hs, h⟩ := bind_ok h
  obtain rfl := Except.ok.inj h
  exact ⟨out, hs⟩

theorem step_now (h : s.step op = .ok (s', out)) : s'.now = s.now + op.elapsed := by
  rcases step_run h with ⟨i', -, rfl⟩ | ⟨fault, -, rfl, -⟩ <;> rfl

/-- What holds of a new view and is kept by every move to one of the allowed times holds of every
view of a session that is reached. -/
theorem view_invariant {P : View → Prop}
    (h : (Session.machine ethernetAddress ipAddress).Reaches (Session.Within times) s)
    (ip : UInt32) (hinit : P {}) (hmove : ∀ v v', P v → times v'.now → v.Move v' → P v') :
    P (s.view ip) := by
  refine h.invariant_det (P := fun s => P (s.view ip)) hinit fun s op s' hs hok hstep => ?_
  obtain ⟨out, hstep⟩ := next_step hstep
  have htime : times s'.now := step_now hstep ▸ hok
  exact hmove _ _ hs htime (step_view hstep ip)

/-- A reply of the host 7, in a frame to all. -/
def replyFrame : EthernetFrame where
  header := { dst := .broadcast, src := { b₅ := 7 }, type := EthernetHeader.typeArp }
  payload := [ARPMessage.wire {
    opcode := ARPMessage.opcodeReply, senderEthernetAddress := { b₅ := 7 }, senderIpAddress := 7
    targetIpAddress := 1 }]

end NetworkInterface

end Minnow
