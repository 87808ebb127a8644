import Minnow.Net.Interface
import Minnow.Lib.OrdMap

/-!
# The router (`src/router.cc`, `src/router.hh`)

The routing table has a hash table for every prefix length. `route` goes through the interfaces,
takes the datagrams off their queues and hands each to an interface; the calls of `send_datagram`
that it makes are what it returns beside the router.

`lookup` walks from the longest prefixes to the shortest ones. It finds a route if there is one
stored under the destination with its host bits cleared (`Keyed`, `lookup_ok`). A prefix longer than
an address shifts by more bits than there are, which is undefined.
-/

namespace Minnow

/-- `route_to_next_`. -/
structure RouteToNext where
  nextHop : Option Address
  interfaceNum : Nat
  deriving DecidableEq

/-- `std::unordered_map<uint32_t, route_to_next_>`. -/
abbrev Routes := UInt32 → Option RouteToNext

/-- `routing_table_`. A prefix length is a `uint8_t`. -/
abbrev RoutingTable := OrdMap (Fin 256) Routes

structure Router where
  interfaces : List NetworkInterface := []
  routingTable : RoutingTable := .empty

/-- A call of `send_datagram`, and the frames that were transmitted. -/
structure Handed where
  interfaceNum : Nat
  dgram : InternetDatagram
  nextHop : Address
  frames : List EthernetFrame
  deriving DecidableEq

/-! ## The routing table -/

namespace RoutingTable

/-- `routing_table_[prefix_length]`. -/
def routes (t : RoutingTable) (prefixLength : Fin 256) : Routes :=
  ((t.entries.find? (·.1 == prefixLength)).map Prod.snd).getD fun _ => none

/-- The destination with the bits below the prefix cleared. -/
def clearHostBits (prefixLength : Fin 256) (dst : UInt32) : UInt32 :=
  let numShift := UInt32.ofNat (32 - prefixLength)
  if prefixLength = 0 then 0 else (dst >>> numShift) <<< numShift

/-- `dst_route_prefix`, under which the table of a prefix length is searched. -/
def dstRoutePrefix (prefixLength : Fin 256) (routes : Routes) (dst : UInt32) :
    Except WireFault UInt32 :=
  if prefixLength = 0 then
    if (routes dst).isNone then .ok 0 else .ok dst
  else if prefixLength ≤ 32 then .ok (clearHostBits prefixLength dst)
  else .error .undefinedShift

/-- The inner loop of `route`, from the longest prefixes on. -/
def lookupIn : List (Fin 256 × Routes) → UInt32 → Except WireFault (Option RouteToNext)
  | [], _ => .ok none
  | (prefixLength, routes) :: rest, dst => do
    let routePrefix ← dstRoutePrefix prefixLength routes dst
    match routes routePrefix with
    | some route => return some route
    | none => lookupIn rest dst

def lookup (t : RoutingTable) (dst : UInt32) : Except WireFault (Option RouteToNext) :=
  lookupIn t.entries.reverse dst

/-! ## What the lookup finds -/

/-- Every prefix fits into an address. -/
def Short (t : RoutingTable) : Prop := ∀ entry ∈ t.entries, entry.1 ≤ 32

instance (t : RoutingTable) : Decidable t.Short := inferInstanceAs (Decidable (∀ _ ∈ _, _))

/-- A route for `dst` is stored under `dst` without its host bits, or under `dst` itself if it is a
default route. -/
def keyedIn (entries : List (Fin 256 × Routes)) (dst : UInt32) : Bool :=
  entries.any fun entry => (entry.2 (clearHostBits entry.1 dst)).isSome ||
    entry.1 == 0 && (entry.2 dst).isSome

def keyed (t : RoutingTable) (dst : UInt32) : Bool := keyedIn t.entries dst

/-- The upper bits are equal, as many as the prefix has. -/
def SamePrefix (prefixLength : Nat) (a b : UInt32) : Prop :=
  a.toNat / 2 ^ (32 - prefixLength) = b.toNat / 2 ^ (32 - prefixLength)

/-- A route of the table matches `dst`. -/
def Matches (t : RoutingTable) (dst : UInt32) : Prop :=
  ∃ entry ∈ t.entries, ∃ routePrefix, (entry.2 routePrefix).isSome = true ∧
    SamePrefix entry.1 routePrefix dst

variable {t : RoutingTable} {entries : List (Fin 256 × Routes)} {prefixLength : Fin 256}
  {routes : Routes} {dst : UInt32} {route : RouteToNext}

theorem clearHostBits_zero (dst : UInt32) : clearHostBits 0 dst = 0 := by
  simp [clearHostBits]

theorem clearHostBits_toNat (hpos : prefixLength ≠ 0) (dst : UInt32) :
    (clearHostBits prefixLength dst).toNat =
      dst.toNat / 2 ^ (32 - prefixLength.val) * 2 ^ (32 - prefixLength.val) := by
  have hpos : prefixLength.val ≠ 0 := fun h => hpos (Fin.ext h)
  have hshift : (UInt32.ofNat (32 - prefixLength.val)).toNat % 32 = 32 - prefixLength.val := by
    rw [UInt32.toNat_ofNat']
    omega
  have hlt := dst.toNat_lt
  unfold clearHostBits
  rw [if_neg fun h => hpos (congrArg Fin.val h), UInt32.toNat_shiftLeft, UInt32.toNat_shiftRight,
    hshift, Nat.shiftRight_eq_div_pow, Nat.shiftLeft_eq]
  exact Nat.mod_eq_of_lt (lt_of_le_of_lt (Nat.div_mul_le_self _ _) hlt)

theorem samePrefix_clearHostBits (prefixLength : Fin 256) (dst : UInt32) :
    SamePrefix prefixLength (clearHostBits prefixLength dst) dst := by
  unfold SamePrefix
  by_cases h0 : prefixLength = 0
  · subst h0
    rw [clearHostBits_zero]
    exact (Nat.div_eq_of_lt dst.toNat_lt).symm
  · rw [clearHostBits_toNat h0, Nat.mul_div_cancel _ (Nat.two_pow_pos _)]

/-- Every address has the prefix of a default route. -/
theorem samePrefix_zero (a b : UInt32) : SamePrefix 0 a b := by
  unfold SamePrefix
  rw [Nat.div_eq_of_lt a.toNat_lt, Nat.div_eq_of_lt b.toNat_lt]

/-- What is found has the prefix that was looked for. -/
theorem matches_of_keyed (h : t.keyed dst = true) : t.Matches dst := by
  obtain ⟨entry, hentry, hroute⟩ := List.any_eq_true.mp h
  rcases Bool.or_eq_true_iff.mp hroute with hroute | hroute
  · exact ⟨entry, hentry, _, hroute, samePrefix_clearHostBits entry.1 dst⟩
  · obtain ⟨h0, hroute⟩ := Bool.and_eq_true_iff.mp hroute
    refine ⟨entry, hentry, dst, hroute, ?_⟩
    rw [beq_iff_eq.mp h0]
    exact samePrefix_zero dst dst

/-- What is searched at one length. -/
theorem dstRoutePrefix_ok (hle : prefixLength ≤ 32) (routes : Routes) (dst : UInt32) :
    ∃ routePrefix, dstRoutePrefix prefixLength routes dst = .ok routePrefix ∧
      (routes routePrefix).isSome = ((routes (clearHostBits prefixLength dst)).isSome ||
        prefixLength == 0 && (routes dst).isSome) := by
  unfold dstRoutePrefix
  by_cases h0 : prefixLength = 0
  · subst h0
    rw [if_pos rfl, clearHostBits_zero]
    cases hdst : routes dst with
    | none => exact ⟨0, rfl, by simp⟩
    | some route => exact ⟨dst, rfl, by simp [hdst]⟩
  · rw [if_neg h0, if_pos hle]
    exact ⟨_, rfl, by simp [h0]⟩

theorem lookupIn_ok (hs : ∀ entry ∈ entries, entry.1 ≤ 32) (dst : UInt32) :
    ∃ found, lookupIn entries dst = .ok found ∧ found.isSome = keyedIn entries dst ∧
      ∀ route, found = some route → ∃ entry ∈ entries, ∃ routePrefix,
        entry.2 routePrefix = some route := by
  induction entries with
  | nil => exact ⟨none, rfl, rfl, fun _ h => absurd h (Option.some_ne_none _).symm⟩
  | cons entry rest ih =>
    obtain ⟨routePrefix, hsearched, hkeyed⟩ :=
      dstRoutePrefix_ok (hs entry List.mem_cons_self) entry.2 dst
    unfold lookupIn
    rw [hsearched, ok_bind]
    cases hroute : entry.2 routePrefix with
    | some route =>
      refine ⟨some route, rfl, ?_, ?_⟩
      · rw [hroute] at hkeyed
        unfold keyedIn
        rw [List.any_cons, ← hkeyed]
        rfl
      · rintro _ ⟨⟩
        exact ⟨entry, List.mem_cons_self, routePrefix, hroute⟩
    | none =>
      obtain ⟨found, hfound, hsome, hstored⟩ := ih fun x hx => hs x (List.mem_cons_of_mem _ hx)
      refine ⟨found, hfound, ?_, ?_⟩
      · rw [hroute] at hkeyed
        unfold keyedIn at hsome ⊢
        rw [List.any_cons, ← hkeyed, hsome]
        rfl
      · intro route h
        obtain ⟨x, hx, hstored⟩ := hstored route h
        exact ⟨x, List.mem_cons_of_mem _ hx, hstored⟩

theorem lookup_ok (hs : t.Short) (dst : UInt32) :
    ∃ found, t.lookup dst = .ok found ∧ found.isSome = t.keyed dst ∧
      ∀ route, found = some route → ∃ entry ∈ t.entries, ∃ routePrefix,
        entry.2 routePrefix = some route := by
  have hs : ∀ entry ∈ t.entries.reverse, entry.1 ≤ 32 := fun entry h =>
    hs entry (List.mem_reverse.mp h)
  obtain ⟨found, hfound, hsome, hstored⟩ := lookupIn_ok hs dst
  refine ⟨found, hfound, ?_, fun route h => ?_⟩
  · rw [hsome]
    exact List.any_reverse
  · obtain ⟨entry, hentry, hstored⟩ := hstored route h
    exact ⟨entry, List.mem_reverse.mp hentry, hstored⟩

/-- The longest prefix is tried first, whatever the destination is. -/
theorem lookup_error (hs : ¬t.Short) (dst : UInt32) : t.lookup dst = .error .undefinedShift := by
  unfold Short at hs
  push Not at hs
  obtain ⟨entry, hentry, hlong⟩ := hs
  obtain ⟨last, hlast⟩ := OrdMap.last?_isSome (List.ne_nil_of_mem hentry)
  obtain ⟨before, hbefore⟩ := List.getLast?_eq_some_iff.mp hlast
  have hlong : 32 < last.1 := by
    rcases OrdMap.key_lt_last hlast hentry with rfl | hlt
    · exact hlong
    · exact lt_trans hlong hlt
  unfold lookup
  rw [hbefore, List.reverse_append, List.reverse_singleton, List.singleton_append, lookupIn,
    dstRoutePrefix, if_neg (ne_of_gt (lt_trans (by decide) hlong)), if_neg (not_le.mpr hlong)]
  rfl

end RoutingTable

namespace Router

def addRoute (r : Router) (routePrefix : UInt32) (prefixLength : UInt8) (nextHop : Option Address)
    (interfaceNum : Nat) : Router :=
  let routes := Function.update (r.routingTable.routes prefixLength.toFin) routePrefix
    (some { nextHop, interfaceNum })
  { r with routingTable := r.routingTable.set prefixLength.toFin routes }

/-! ## Routing -/

def queue (r : Router) (n : Nat) : List InternetDatagram :=
  (r.interfaces[n]?.map NetworkInterface.datagramsReceived).getD []

/-- The datagrams that are left in a queue. -/
def setQueue (r : Router) (n : Nat) (datagramsReceived : List InternetDatagram) : Router :=
  { r with interfaces := r.interfaces.modify n fun i => { i with datagramsReceived } }

/-- `interface( n )->send_datagram( dgram, next_hop )`. -/
def sendDatagram (r : Router) (interfaceNum : Nat) (dgram : InternetDatagram) (nextHop : Address) :
    Except WireFault (Router × List Handed) :=
  match r.interfaces[interfaceNum]? with
  | none => .error .outOfRange
  | some i => do
    let (i, frames) ← i.sendDatagram dgram nextHop
    return ({ r with interfaces := r.interfaces.set interfaceNum i },
      [{ interfaceNum, dgram, nextHop, frames }])

/-- The end of the inner loop: the datagram is handed on if a route was found. -/
def handOn (r : Router) (dgram : InternetDatagram) :
    Option RouteToNext → Except WireFault (Router × List Handed)
  | none => .ok (r, [])
  | some route => r.sendDatagram route.interfaceNum dgram
      (route.nextHop.getD (.fromIpv4Numeric dgram.header.dst))

/-- What is done with a datagram that is not expired. -/
def forward (r : Router) (dgram : InternetDatagram) : Except WireFault (Router × List Handed) := do
  let header ← { dgram.header with ttl := dgram.header.ttl - 1 }.computeChecksum
  let dgram := { dgram with header }
  let found ← r.routingTable.lookup dgram.header.dst
  r.handOn dgram found

/-- The loop over one queue, at most `fuel` rounds of it. The flag is false after a `return`. -/
def drain (n : Nat) : Nat → Router → Except WireFault (Router × List Handed × Bool)
  | 0, r => return (r, [], true)
  | fuel + 1, r =>
    match r.queue n with
    | [] => return (r, [], true)
    | dgram :: rest => do
      let r := r.setQueue n rest
      if dgram.header.ttl ≤ 1 then
        return (r, [], false)
      else
        let (r, handed) ← r.forward dgram
        let (r, later, goOn) ← drain n fuel r
        return (r, handed ++ later, goOn)

/-- The loop over the interfaces. -/
def routeAll : List Nat → Router → Except WireFault (Router × List Handed)
  | [], r => return (r, [])
  | n :: rest, r => do
    let (r, handed, goOn) ← drain n (r.queue n).length r
    if goOn then
      let (r, later) ← routeAll rest r
      return (r, handed ++ later)
    else return (r, handed)

def route (r : Router) : Except WireFault (Router × List Handed) :=
  routeAll (List.range r.interfaces.length) r

end Router

end Minnow
