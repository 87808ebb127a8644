import Minnow.Net.LongestPrefix

/-!
# The bits below a prefix

The comment of `add_route` says that only the upper bits of a prefix, as many as its length, need to
match. So the bits below them should not matter: the routes should lead where they lead with these
bits cleared (`SameForwarding`). They do matter, since the table is searched under the destination
without its host bits. A route that has such bits is found only if a route for the length zero is
looked up under its own destination; else the next best route that the search sees takes over, if
there is one. `host_bits_iff` says when this is no difference.
-/

namespace Minnow

open RoutingTable

namespace RouteCall

/-- The call without the bits below its prefix. -/
def clear (c : RouteCall) : RouteCall :=
  { c with routePrefix := clearHostBits c.prefixLength.toFin c.routePrefix }

variable {c d : RouteCall} {dst : UInt32}

theorem clear_canonical (h : c.prefixLength ≤ 32) : c.clear.Canonical := by
  refine ⟨h, ?_⟩
  show (clearHostBits c.prefixLength.toFin c.routePrefix).toNat % _ = 0
  by_cases h0 : c.prefixLength.toFin = 0
  · rw [h0, clearHostBits_zero]
    rfl
  · rw [clearHostBits_toNat h0]
    exact Nat.mul_mod_left _ _

theorem clear_covers : c.clear.Covers dst ↔ c.Covers dst := by
  have hsame := samePrefix_clearHostBits c.prefixLength.toFin c.routePrefix
  exact ⟨hsame.symm.trans, hsame.trans⟩

theorem Best.clear {calls : List RouteCall} (h : Best calls dst c) :
    Best (calls.map clear) dst c.clear :=
  LatestMax.map (h.congr fun _ _ => clear_covers.symm)

end RouteCall

namespace Router

open RouteCall

/-- Where a route leads a datagram: the interface and the next hop. -/
def target (dst : UInt32) (route : RouteToNext) : Nat × Address :=
  (route.interfaceNum, route.nextHop.getD (.fromIpv4Numeric dst))

/-- What becomes of a datagram: the interfaces after it, and what they were handed. -/
def forwarded (r : Router) (dgram : InternetDatagram) :
    Except WireFault (List NetworkInterface × List Handed) := do
  let (r, handed) ← r.forward dgram
  return (r.interfaces, handed)

/-- The datagrams for `dst` go where they go without the bits below the prefixes. -/
def SameForwarding (calls : List RouteCall) (dst : UInt32) : Prop :=
  ∀ interfaces dgram, dgram.header.dst = dst →
    (withRoutes interfaces calls).forwarded dgram =
      (withRoutes interfaces (calls.map clear)).forwarded dgram

/-- The end of `forward` for a datagram that is led to `place`. -/
def handTo (interfaces : List NetworkInterface) (dgram : InternetDatagram) :
    Option (Nat × Address) → Except WireFault (List NetworkInterface × List Handed)
  | none => .ok (interfaces, [])
  | some (interfaceNum, nextHop) =>
    match interfaces[interfaceNum]? with
    | none => .error .outOfRange
    | some i => do
      let (i, frames) ← i.sendDatagram dgram nextHop
      return (interfaces.set interfaceNum i, [{ interfaceNum, dgram, nextHop, frames }])

variable {r r' : Router} {dgram : InternetDatagram} {found : Option RouteToNext}
  {calls : List RouteCall} {dst : UInt32} {c d : RouteCall}

theorem forwarded_eq (hver : dgram.header.ver = 4)
    (h : r.routingTable.lookup dgram.header.dst = .ok found) : r.forwarded dgram =
      handTo r.interfaces (hop dgram) (found.map (target dgram.header.dst)) := by
  unfold forwarded
  rw [forward_eq hver, h, ok_bind]
  cases found with
  | none => rfl
  | some route =>
    unfold handOn sendDatagram handTo target
    dsimp only [Option.map_some]
    cases r.interfaces[route.interfaceNum]? with
    | none => rfl
    | some i =>
      dsimp only
      have hdst : (hop dgram).header.dst = dgram.header.dst := rfl
      rw [hdst]
      cases i.sendDatagram (hop dgram) (route.nextHop.getD (.fromIpv4Numeric dgram.header.dst)) with
      | error e => rfl
      | ok sent => rfl

/-- A datagram of another version throws before the table is looked at. -/
theorem forwarded_version (hver : dgram.header.ver ≠ 4) :
    r.forwarded dgram = r'.forwarded dgram := by
  unfold forwarded forward
  rw [IPv4Header.computeChecksum_error
    (h := { dgram.header with ttl := dgram.header.ttl - 1 }) hver]
  rfl

/-- With interfaces enough, where a datagram is led shows in what is handed on. -/
theorem handTo_inj {interfaces : List NetworkInterface} {place place' : Option (Nat × Address)}
    (hver : dgram.header.ver = 4) (hplace : ∀ n a, place = some (n, a) → n < interfaces.length)
    (hplace' : ∀ n a, place' = some (n, a) → n < interfaces.length)
    (h : handTo interfaces dgram place = handTo interfaces dgram place') : place = place' := by
  have hhanded : ∀ place, (∀ n a, place = some (n, a) → n < interfaces.length) →
      ∃ interfaces' handed, handTo interfaces dgram place = .ok (interfaces', handed) ∧
        handed.head?.map (fun h => (h.interfaceNum, h.nextHop)) = place := by
    rintro (_ | ⟨n, a⟩) hn
    · exact ⟨interfaces, [], rfl, rfl⟩
    · have hn := hn n a rfl
      obtain ⟨i, frames, hsend, -⟩ := NetworkInterface.sendDatagram_ok hver interfaces[n] a
      refine ⟨interfaces.set n i, [⟨n, dgram, a, frames⟩], ?_, rfl⟩
      simp only [handTo, List.getElem?_eq_getElem hn]
      exact congrArg (· >>= _) hsend
  obtain ⟨i, handed, heq, hlist⟩ := hhanded place hplace
  obtain ⟨i', handed', heq', hlist'⟩ := hhanded place' hplace'
  rw [heq, heq'] at h
  obtain ⟨-, rfl⟩ := pair_ok h
  exact hlist.symm.trans hlist'

/-- Interfaces for all the numbers below `n`. -/
def interfacesUpTo (n : Nat) : List NetworkInterface :=
  List.replicate n { ethernetAddress := {}, ipAddress := {} }

/-- The forwarding is the same just if the two tables lead to the same place. -/
theorem sameForwarding_iff {found found' : Option RouteToNext}
    (h : ∀ interfaces, (withRoutes interfaces calls).routingTable.lookup dst = .ok found)
    (h' : ∀ interfaces,
      (withRoutes interfaces (calls.map clear)).routingTable.lookup dst = .ok found') :
    SameForwarding calls dst ↔ found.map (target dst) = found'.map (target dst) := by
  constructor
  · intro hsame
    -- a datagram that tells: there are interfaces for both routes
    obtain ⟨n, hn, hn'⟩ : ∃ n, (∀ m a, found.map (target dst) = some (m, a) → m < n) ∧
        ∀ m a, found'.map (target dst) = some (m, a) → m < n := by
      refine ⟨found.elim 0 RouteToNext.interfaceNum + found'.elim 0 RouteToNext.interfaceNum + 1,
        ?_, ?_⟩ <;>
      · intro m a hm
        obtain ⟨route, rfl, hroute⟩ := Option.map_eq_some_iff.mp hm
        obtain ⟨rfl, -⟩ := Prod.mk.inj hroute
        simp only [Option.elim_some]
        omega
    have hlength : ∀ calls, (withRoutes (interfacesUpTo n) calls).interfaces = interfacesUpTo n :=
      fun calls => addRoutes_interfaces _ _
    have heq := hsame (interfacesUpTo n) { header := { dst } } rfl
    rw [forwarded_eq rfl (h _), forwarded_eq rfl (h' _), hlength, hlength] at heq
    have hlen : (interfacesUpTo n).length = n := List.length_replicate
    exact handTo_inj rfl (by rwa [hlen]) (by rwa [hlen]) heq
  · rintro htarget interfaces dgram rfl
    by_cases hver : dgram.header.ver = 4
    · rw [forwarded_eq hver (h _), forwarded_eq hver (h' _), htarget]
      unfold withRoutes
      rw [addRoutes_interfaces, addRoutes_interfaces]
    · exact forwarded_version hver

/-- For all calls with prefixes that fit an address and every destination: the bits below the
prefixes do not matter if and only if no route covers the destination, or the last of the longest
routes that are stored where the search looks leads to the place to which the last of the longest
routes that cover the destination does. -/
theorem host_bits_iff (hshort : ∀ c ∈ calls, c.prefixLength ≤ 32) :
    SameForwarding calls dst ↔ ((∃ c ∈ calls, c.Covers dst) → ∃ c d, Best calls dst c ∧
      LatestMax (Searched calls dst) (fun c => c.prefixLength.toNat) calls d ∧
      target dst c.route = target dst d.route) := by
  have hclear : ∀ c ∈ calls.map clear, c.Canonical := by
    rw [List.forall_mem_map]
    exact fun c hc => clear_canonical (hshort c hc)
  by_cases hcovered : ∃ c ∈ calls, c.Covers dst
  · constructor
    · intro hsame _
      obtain ⟨c, hc⟩ : ∃ c, Best calls dst c := exists_latestMax hcovered
      by_cases hsearched : ∃ d ∈ calls, Searched calls dst d
      · obtain ⟨d, hd⟩ : ∃ d, LatestMax (Searched calls dst) (fun c => c.prefixLength.toNat) calls
            d := exists_latestMax hsearched
        have htarget := (sameForwarding_iff (fun _ => lookup_searched hshort hd)
          fun _ => lookup_best hclear hc.clear).mp hsame
        exact ⟨c, d, hc, hd, (Option.some.inj htarget).symm⟩
      · have htarget := (sameForwarding_iff (fun _ => lookup_unsearched hshort fun d hd h =>
          hsearched ⟨d, hd, h⟩) fun _ => lookup_best hclear hc.clear).mp hsame
        cases htarget
    · intro h
      obtain ⟨c, d, hc, hd, htarget⟩ := h hcovered
      exact (sameForwarding_iff (fun _ => lookup_searched hshort hd)
        fun _ => lookup_best hclear hc.clear).mpr (congrArg some htarget.symm)
  · have hnone : ∀ c ∈ calls, ¬c.Covers dst := fun c hc h => hcovered ⟨c, hc, h⟩
    refine iff_of_true ?_ fun h => absurd h hcovered
    have hcleared : ∀ c ∈ calls.map clear, ¬c.Covers dst := by
      rw [List.forall_mem_map]
      exact fun c hc h => hnone c hc (clear_covers.mp h)
    exact (sameForwarding_iff (fun _ => lookup_unsearched hshort fun c hc hsearched =>
      hnone c hc hsearched.covers) fun _ => lookup_uncovered hclear hcleared).mpr rfl

/-- The network 128.30.0.0/16, given by the address of a host in it. -/
def hostAddress : List RouteCall := [⟨0x801e4cff, 16, some { ipv4Numeric := 7 }, 0⟩]

/-- Two routes that differ in the host bits only. The later one leads to the same place, so it does
not matter that the search does not see it. -/
theorem host_bits_of_copy : SameForwarding
    [⟨0x801e0000, 16, some { ipv4Numeric := 7 }, 0⟩, ⟨0x801e4cff, 16, some { ipv4Numeric := 7 }, 0⟩]
    0x801e0101 :=
  (host_bits_iff (by decide)).mpr fun _ => ⟨⟨0x801e4cff, 16, some { ipv4Numeric := 7 }, 0⟩,
    ⟨0x801e0000, 16, some { ipv4Numeric := 7 }, 0⟩,
    ⟨[⟨0x801e0000, 16, some { ipv4Numeric := 7 }, 0⟩], [], rfl, by decide, by decide, nofun⟩,
    ⟨[], [⟨0x801e4cff, 16, some { ipv4Numeric := 7 }, 0⟩], rfl, by decide, nofun, by decide⟩, rfl⟩

/-- A datagram for another host of the network is handed to nobody; without the host bits it goes to
the next hop. -/
theorem host_bits_dropped : (∀ c ∈ hostAddress, c.prefixLength ≤ 32) ∧
    ¬SameForwarding hostAddress 0x801e0101 := by
  refine ⟨by decide, fun h => ?_⟩
  have heq := h (twoInterfaces [] []) { header := { dst := 0x801e0101 } } rfl
  have hlength := congrArg (fun x => x.toOption.map (·.2.length)) heq
  revert hlength
  decide +kernel

end Router

end Minnow
