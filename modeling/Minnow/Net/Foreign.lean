import Minnow.Net.Session

/-!
# Frames for other stations

`recv_frame` drops a frame that is for another station, unless it is an ARP frame. An ARP message in
such a frame is processed like any other: the interface learns from it, transmits what waits for its
sender, and answers it. So the frame is ignored only when the message has nothing new for the
interface (`foreign_ignored_iff`).
-/

namespace Minnow

namespace NetworkInterface

/-- The frame is for another station. -/
def Foreign (ethernetAddress : EthernetAddress) (frame : EthernetFrame) : Prop :=
  frame.header.dst ≠ ethernetAddress ∧ frame.header.dst ≠ .broadcast

instance (ethernetAddress : EthernetAddress) (frame : EthernetFrame) :
    Decidable (Foreign ethernetAddress frame) := inferInstanceAs (Decidable (_ ∧ _))

/-- The mapping was heard since the last tick, nothing waits for it, and it comes with no request
for this interface. -/
def NothingNew (i : NetworkInterface) (arp : ARPMessage) : Prop :=
  i.arpCache arp.senderIpAddress = some (arp.senderEthernetAddress, 30000) ∧
  i.pendingArpRequests arp.senderIpAddress = none ∧
  ¬(arp.opcode = ARPMessage.opcodeRequest ∧ arp.targetIpAddress = i.ipAddress.ipv4Numeric)

/-- The frame is no ARP frame, or it carries no ARP message, or one that has nothing new. -/
def Negligible (i : NetworkInterface) (frame : EthernetFrame) : Prop :=
  frame.header.type = EthernetHeader.typeArp → ∃ arp ok,
    Parser.parse ({} : ARPMessage).parse frame.payload = .ok (arp, ok) ∧
    (ok = true → i.NothingNew arp)

variable {i i' : NetworkInterface} {frame : EthernetFrame} {arp : ARPMessage}
  {out : List EthernetFrame}

theorem NothingNew.learn (h : i.NothingNew arp) : i.learn arp = i := by
  unfold NetworkInterface.learn
  rw [← h.1, Function.update_eq_self]

theorem release_none (h : i.pendingArpRequests arp.senderIpAddress = none) :
    i.release arp = .ok (i, []) := by
  have hsame : Function.update i.pendingArpRequests arp.senderIpAddress none =
      i.pendingArpRequests := by rw [← h, Function.update_eq_self]
  unfold release
  rw [h, hsame]
  rfl

theorem NothingNew.answer (h : i.NothingNew arp) : i.answer arp = .ok (i, []) := by
  have hreply : ¬(arp.opcode = ARPMessage.opcodeReply ∧
      arp.targetIpAddress = i.ipAddress.ipv4Numeric ∧
      (i.pendingArpRequests arp.senderIpAddress).isSome) := by
    simp [h.2.1]
  unfold NetworkInterface.answer
  rw [if_neg h.2.2, if_neg hreply]
  rfl

/-- A request for this interface is answered. -/
theorem recvArp_request (h : i.recvArp arp = .ok (i', out))
    (hrequest : arp.opcode = ARPMessage.opcodeRequest ∧
      arp.targetIpAddress = i.ipAddress.ipv4Numeric) : out ≠ [] := by
  obtain ⟨⟨i₁, answered⟩, hanswer, h⟩ := bind_ok h
  obtain ⟨⟨i₂, released⟩, -, h⟩ := bind_ok h
  obtain ⟨rfl, rfl⟩ := pair_ok h
  have hown : arp.opcode = ARPMessage.opcodeRequest ∧
      arp.targetIpAddress = (i.learn arp).ipAddress.ipv4Numeric := hrequest
  unfold answer at hanswer
  rw [if_pos hown] at hanswer
  obtain ⟨response, -, hanswer⟩ := bind_ok hanswer
  obtain ⟨rfl, rfl⟩ := pair_ok hanswer
  exact List.cons_ne_nil _ _

theorem recvArp_inert_iff : i.recvArp arp = .ok (i, []) ↔ i.NothingNew arp := by
  constructor
  · intro h
    obtain ⟨responses, payloads, -, -, hi, -⟩ := recvArp_cases h
    refine ⟨?_, ?_, fun hrequest => recvArp_request h hrequest rfl⟩
    · have hcache := congrArg (fun i => i.arpCache arp.senderIpAddress) hi
      exact hcache.trans (Function.update_self ..)
    · have hpending := congrArg (fun i => i.pendingArpRequests arp.senderIpAddress) hi
      exact hpending.trans (Function.update_self ..)
  · intro h
    unfold recvArp
    rw [h.learn, h.answer]
    exact congrArg (fun x => x >>= fun y => pure (y.1, [] ++ y.2)) (release_none h.2.1)

/-- A frame for another station is ignored, if and only if it is no ARP frame, or carries nothing
new. -/
theorem foreign_ignored_iff (hother : Foreign i.ethernetAddress frame) :
    i.recvFrame frame = .ok (i, []) ↔ i.Negligible frame := by
  by_cases harp : frame.header.type = EthernetHeader.typeArp
  · rw [recvFrame_arp harp]
    unfold Negligible
    cases hparse : Parser.parse ({} : ARPMessage).parse frame.payload with
    | error fault =>
      refine iff_of_false (fun h => by cases h) fun h => ?_
      obtain ⟨arp, ok, hok, -⟩ := h harp
      cases hok
    | ok parsed =>
      obtain ⟨arp, ok⟩ := parsed
      cases ok with
      | false => exact iff_of_true rfl fun _ => ⟨arp, false, rfl, nofun⟩
      | true =>
        refine Iff.trans (b := i.NothingNew arp) recvArp_inert_iff ⟨fun h _ => ?_, fun h => ?_⟩
        · exact ⟨arp, true, rfl, fun _ => h⟩
        · obtain ⟨arp', ok, hok, hnew⟩ := h harp
          obtain ⟨rfl, rfl⟩ := pair_ok hok
          exact hnew rfl
  · refine iff_of_true ?_ fun h => absurd h harp
    unfold recvFrame
    simp [hother.1, hother.2, harp]
    rfl

/-- A reply that the host 7 gives another one. -/
def overheard : ARPMessage where
  opcode := ARPMessage.opcodeReply
  senderEthernetAddress := { b₅ := 7 }
  senderIpAddress := 7
  targetEthernetAddress := { b₅ := 9 }
  targetIpAddress := 9

/-- The frame in which it is sent. -/
def overheardFrame : EthernetFrame where
  header :=
    { dst := overheard.targetEthernetAddress, src := overheard.senderEthernetAddress
      type := EthernetHeader.typeArp }
  payload := [overheard.wire]

theorem parse_overheard :
    Parser.parse ({} : ARPMessage).parse overheardFrame.payload = .ok (overheard, true) := by
  decide +kernel

/-- A reply of the host 7 to the host 9, which is heard a second time. -/
theorem foreign_ignored_twice : ∃ s, (Session.machine { b₅ := 1 } { ipv4Numeric := 1 }).Reaches
    (fun _ _ => True) s ∧ s.interface.arpCache 7 = some ({ b₅ := 7 }, 30000) ∧
    s.interface.recvFrame overheardFrame = .ok (s.interface, []) := by
  obtain ⟨s, hs, haddress, hcache, hpending⟩ := Machine.exists_reaches Session.next
    (Session.new { b₅ := 1 } { ipv4Numeric := 1 }) (fun _ _ => True)
    (fun s => s.interface.ethernetAddress = { b₅ := 1 } ∧
      s.interface.arpCache 7 = some ({ b₅ := 7 }, 30000) ∧
      s.interface.pendingArpRequests 7 = none)
    [.recvFrame overheardFrame] (by decide +kernel) (by decide +kernel)
  refine ⟨s, hs, hcache, (foreign_ignored_iff ?_).mpr fun _ => ?_⟩
  · rw [haddress]
    decide
  · have hnew : s.interface.NothingNew overheard :=
      ⟨hcache, hpending, fun h => absurd h.1 (by decide)⟩
    exact ⟨overheard, true, parse_overheard, fun _ => hnew⟩

/-- A datagram waits for the host 7, and a reply of it to the host 9 is heard: the interface learns
from it and transmits the datagram. -/
theorem foreign_processed : ∃ s i' out,
    (Session.machine { b₅ := 1 } { ipv4Numeric := 1 }).Reaches (fun _ _ => True) s ∧
    Foreign s.interface.ethernetAddress overheardFrame ∧
    s.interface.recvFrame overheardFrame = .ok (i', out) ∧ out.length = 1 ∧
    s.interface.arpCache 7 = none ∧ i'.arpCache 7 = some ({ b₅ := 7 }, 30000) := by
  obtain ⟨s, hs, haddress, hcache, hrun⟩ := Machine.exists_reaches Session.next
    (Session.new { b₅ := 1 } { ipv4Numeric := 1 }) (fun _ _ => True)
    (fun s => s.interface.ethernetAddress = { b₅ := 1 } ∧ s.interface.arpCache 7 = none ∧
      (s.interface.recvFrame overheardFrame).map (fun x => (x.2.length, x.1.arpCache 7)) =
        .ok (1, some ({ b₅ := 7 }, 30000)))
    [.sendDatagram {} { ipv4Numeric := 7 }] (by decide +kernel) (by decide +kernel)
  obtain ⟨⟨i', out⟩, hframe, heffect⟩ := map_ok hrun
  obtain ⟨hlength, hlearned⟩ := Prod.mk.inj heffect
  refine ⟨s, i', out, hs, ?_, hframe, hlength, hcache, hlearned⟩
  rw [haddress]
  decide

end NetworkInterface

end Minnow
