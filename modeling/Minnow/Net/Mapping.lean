import Minnow.Net.Session

/-!
# How fresh a mapping is

The cache counts down how long a mapping is still known. Whatever the ticks are, the count is the
time that is left of the 30 seconds since the next hop was last heard (`View.Fresh`), so the cache
knows a next hop if and only if it was heard less than that long ago, and by the address it had
then. `mapping_fresh` is what this means for the frames.
-/

namespace Minnow

namespace NetworkInterface

/-- How long a mapping is known. -/
def lifetime : Nat := 30000

/-- The cache has what was heard last, and what is left of its lifetime. -/
def View.Fresh (v : View) : Prop :=
  v.cache = v.history.heard.bind fun heard =>
    if v.now < heard.2 + lifetime then some (heard.1, heard.2 + lifetime - v.now) else none

variable {v v' : View} {s s' : Session} {ethernetAddress dst : EthernetAddress}
  {ipAddress : Address} {out : List EthernetFrame} {op : Op} {ip : UInt32} {ttl time : Nat}

/-- A countdown goes on in a tick as if it were counted from the start. -/
theorem tickCache_countdown (ms now time : Nat) (dst : EthernetAddress) :
    (if now < time + lifetime then some (dst, time + lifetime - now) else none).bind
      (tickCache ms) =
    if now + ms < time + lifetime then some (dst, time + lifetime - (now + ms)) else none := by
  unfold tickCache
  by_cases hknown : now < time + lifetime
  · rw [if_pos hknown, Option.bind_some]
    dsimp only
    by_cases hleft : now + ms < time + lifetime
    · rw [if_pos hleft, if_neg (by omega), Nat.sub_sub]
    · rw [if_neg hleft, if_pos (by omega)]
  · rw [if_neg hknown, if_neg (by omega), Option.bind_none]

theorem View.Fresh.move (h : v.Fresh) (hm : v.Move v') : v'.Fresh := by
  cases hm with
  | other => exact h
  | transmit dgram frame ttl cached payload => exact h
  | request dgram unknown wanted => exact h
  | wait dgram queue age unknown asked recent => exact h
  | refuse dgram known version => exact h
  | hear ethernetAddress frames payloads
  | interrupt ethernetAddress frames dgram waits version =>
    have hpos : 0 < lifetime := by decide
    have hleft : v.now + lifetime - v.now = 30000 := Nat.add_sub_cancel_left v.now lifetime
    unfold View.Fresh
    dsimp only
    rw [Option.bind_some, if_pos (Nat.lt_add_of_pos_right hpos), hleft]
  | tick ms =>
    unfold View.Fresh at h ⊢
    dsimp only
    rw [h]
    cases v.history.heard with
    | none => rfl
    | some entry =>
      rw [Option.bind_some, Option.bind_some]
      exact tickCache_countdown ms v.now entry.2 entry.1

theorem fresh {times : Nat → Prop}
    (hr : (Session.machine ethernetAddress ipAddress).Reaches (Session.Within times) s)
    (ip : UInt32) : (s.view ip).Fresh :=
  view_invariant hr ip rfl fun _ _ h _ hm => h.move hm

/-- A next hop that is known was heard, less than the lifetime ago. -/
theorem View.Fresh.heard (h : v.Fresh) (hc : v.cache = some (dst, ttl)) :
    ∃ time, v.history.heard = some (dst, time) ∧ v.now < time + lifetime := by
  rw [h] at hc
  cases hh : v.history.heard with
  | none =>
    rw [hh] at hc
    cases hc
  | some entry =>
    rw [hh, Option.bind_some] at hc
    by_cases hlt : v.now < entry.2 + lifetime
    · rw [if_pos hlt] at hc
      obtain ⟨rfl, -⟩ := Prod.mk.inj (Option.some.inj hc)
      exact ⟨entry.2, rfl, hlt⟩
    · rw [if_neg hlt] at hc
      cases hc

/-- A next hop that was heard less than the lifetime ago is known. -/
theorem View.Fresh.cached (h : v.Fresh) (hh : v.history.heard = some (dst, time))
    (hlt : v.now < time + lifetime) : v.cache = some (dst, time + lifetime - v.now) := by
  rw [h, hh, Option.bind_some]
  exact if_pos hlt

/-- The frame goes to the address that was heard last from a next hop, less than the lifetime
before. -/
def FreshFrame (s : Session) (ip : UInt32) (frame : EthernetFrame) : Prop :=
  ∃ time, (s.history ip).heard = some (frame.header.dst, time) ∧ s.now < time + lifetime

/-- What a datagram does when its next hop is known. -/
theorem sendDatagram_known {i : NetworkInterface} {nextHop : Address}
    (h : i.arpCache nextHop.ipv4Numeric = some (dst, ttl)) (dgram : InternetDatagram) :
    i.sendDatagram dgram nextHop =
      dgram.serialized.map fun payload => (i, [i.datagramFrame dst payload]) := by
  unfold sendDatagram
  rw [h]
  cases dgram.serialized <;> rfl

/-- The IPv4 frames of a call that hears a next hop go to the address that is heard. -/
theorem freshFrame_of_heard {frame : EthernetFrame} {i : NetworkInterface} {arp : ARPMessage}
    {responses : List EthernetFrame} {payloads : List (List Bytes)}
    (hresponses : i.Responses arp responses)
    (hf : frame ∈ responses ++ payloads.map (i.datagramFrame arp.senderEthernetAddress))
    (hipv4 : isIPv4 frame = true)
    (hheard : (s'.history arp.senderIpAddress).heard = some (arp.senderEthernetAddress, s'.now)) :
    FreshFrame s' arp.senderIpAddress frame := by
  rcases List.mem_append.mp hf with hf | hf
  · have hmem := List.mem_filter.mpr ⟨hf, hipv4⟩
    rw [(responses_filter hresponses 0).2] at hmem
    cases hmem
  · obtain ⟨payload, -, rfl⟩ := List.mem_map.mp hf
    refine ⟨s'.now, hheard, ?_⟩
    unfold lifetime
    omega

/-- A call that throws transmits IPv4 frames only when it hears their next hop. -/
theorem thrown_fresh {frame : EthernetFrame} (hf : frame ∈ (op.left s.interface).2)
    (hipv4 : isIPv4 frame = true) :
    ∃ ip, op.nextHop = some ip ∧ FreshFrame (s.thrown op) ip frame := by
  cases op with
  | sendDatagram dgram nextHop | tick ms => cases hf
  | recvFrame received =>
    cases hheard : heardIn received with
    | none =>
      rw [left_unheard hheard] at hf
      cases hf
    | some arp =>
      rw [left_heard hheard] at hf
      refine ⟨arp.senderIpAddress, by simp [Op.nextHop, hheard],
        freshFrame_of_heard (s.interface.responses_spec arp) hf hipv4 ?_⟩
      unfold Session.thrown
      dsimp only
      rw [recordThrown_recvFrame hheard]
      rfl

/-- The IPv4 frames of a step are for the next hop of its call. -/
theorem step_fresh (hfresh : ∀ ip, (s.view ip).Fresh) (h : s.step op = .ok (s', out))
    {frame : EthernetFrame} (hf : frame ∈ out) (hipv4 : isIPv4 frame = true) :
    ∃ ip, op.nextHop = some ip ∧ FreshFrame s' ip frame := by
  rcases step_run h with ⟨i', hrun, rfl⟩ | ⟨-, -, rfl, rfl⟩
  swap
  · exact thrown_fresh hf hipv4
  cases op with
  | sendDatagram dgram nextHop =>
    rcases sendDatagram_cases hrun with ⟨dst, ttl, payload, hcache, hpayload, rfl, rfl⟩ |
      ⟨hcache, rfl, ⟨hwants, request, hrequest, rfl⟩ | ⟨hwants, rfl⟩⟩
    · obtain rfl := List.mem_singleton.mp hf
      obtain ⟨time, hheard, hlt⟩ := (hfresh nextHop.ipv4Numeric).heard hcache
      exact ⟨_, rfl, time, hheard, hlt⟩
    · obtain rfl := List.mem_singleton.mp hf
      rw [isIPv4_arpFrame (s.interface.arpRequest_supported _) hrequest] at hipv4
      cases hipv4
    · cases hf
  | recvFrame received =>
    rcases recvFrame_cases hrun with ⟨-, -, rfl⟩ | ⟨arp, hheard, harp⟩
    · cases hf
    · obtain ⟨responses, payloads, hresponses, -, -, rfl⟩ := recvArp_cases harp
      refine ⟨arp.senderIpAddress, by simp [Op.nextHop, hheard],
        freshFrame_of_heard hresponses hf hipv4 ?_⟩
      unfold Session.after
      dsimp only
      rw [record_recvFrame hheard]
      rfl
  | tick ms =>
    obtain ⟨rfl, rfl⟩ := pair_ok hrun
    cases hf

/-- In every run, an IPv4 frame goes to the address last heard from its next hop, less than 30
seconds before; and a datagram for a next hop that was heard less than 30 seconds ago is transmitted
at once, unless it cannot be serialized, and nothing else is. -/
theorem mapping_fresh (ethernetAddress : EthernetAddress) (ipAddress : Address) (s : Session)
    (hr : (Session.machine ethernetAddress ipAddress).Reaches (fun _ _ => True) s) :
    (∀ op s' out, s.step op = .ok (s', out) → ∀ frame ∈ out, isIPv4 frame = true →
      ∃ ip, op.nextHop = some ip ∧ FreshFrame s' ip frame) ∧
    (∀ nextHop dst time, (s.history nextHop.ipv4Numeric).heard = some (dst, time) →
      s.now < time + 30000 → ∀ dgram, s.interface.sendDatagram dgram nextHop =
        dgram.serialized.map fun payload =>
          (s.interface, [s.interface.datagramFrame dst payload])) := by
  have hr : (Session.machine ethernetAddress ipAddress).Reaches
    (Session.Within fun _ => True) s := hr
  have hfresh : ∀ ip, (s.view ip).Fresh := fresh hr
  constructor
  · intro op s' out h frame hf hipv4
    exact step_fresh hfresh h hf hipv4
  · intro nextHop dst time hheard hlt dgram
    exact sendDatagram_known ((hfresh nextHop.ipv4Numeric).cached hheard hlt) dgram

/-- The host 7 is heard, and known 29999 milliseconds later. -/
theorem mapping_fresh_reply : ∃ s : Session, s.now = 29999 ∧
    s.interface.sendDatagram {} { ipv4Numeric := 7 } =
      (IPv4Datagram.serialized {}).map fun payload =>
        (s.interface, [s.interface.datagramFrame { b₅ := 7 } payload]) := by
  obtain ⟨s, hs, hheard, hnow⟩ := Machine.exists_reaches Session.next
    (Session.new { b₅ := 1 } { ipv4Numeric := 1 }) (fun _ _ => True)
    (fun s => (s.history 7).heard = some ({ b₅ := 7 }, 0) ∧ s.now = 29999)
    [.recvFrame replyFrame, .tick 29000, .tick 999] (by decide +kernel) (by decide +kernel)
  exact ⟨s, hnow, (mapping_fresh _ _ s hs).2 { ipv4Numeric := 7 } _ 0 hheard (by omega) {}⟩

end NetworkInterface

end Minnow
