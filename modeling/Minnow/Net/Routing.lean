import Minnow.Net.Router

/-!
# What `route` does to the datagrams

The queues, one behind the other, are what `route` works through (`arrivals`). Which interface a
datagram came from makes no difference, and neither do the frames that are transmitted: `outcome`
says for a list of datagrams which are handed on and which are left, and `route_outcome` that the
router does just this.

A datagram whose time to live has run out ends the whole call, so the datagrams behind it are left.
`routes_all_iff` is the exact condition under which none is.
-/

namespace Minnow

namespace NetworkInterface

variable {i : NetworkInterface} {dgram : InternetDatagram}

/-- A datagram of version 4 is sent or queued; what was received stays. -/
theorem sendDatagram_ok (hver : dgram.header.ver = 4) (i : NetworkInterface) (nextHop : Address) :
    ∃ i' out, i.sendDatagram dgram nextHop = .ok (i', out) ∧
      i'.datagramsReceived = i.datagramsReceived := by
  obtain ⟨payload, hpayload, -⟩ := IPv4Datagram.serialized_ok hver
  unfold sendDatagram
  rw [hpayload]
  cases hcache : i.arpCache nextHop.ipv4Numeric with
  | some entry => exact ⟨i, _, rfl, rfl⟩
  | none =>
    obtain ⟨request, hrequest, -⟩ := arpFrame_ok (i.arpRequest_supported nextHop.ipv4Numeric) i
      .broadcast
    rw [hrequest]
    dsimp only
    split
    · exact ⟨_, _, rfl, rfl⟩
    · exact ⟨_, _, rfl, rfl⟩

end NetworkInterface

namespace Router

def queues (r : Router) : List (List InternetDatagram) :=
  r.interfaces.map NetworkInterface.datagramsReceived

/-- All the datagrams, in the order in which `route` takes them. -/
def arrivals (r : Router) : List InternetDatagram := r.queues.flatten

/-- The routes of the table lead to interfaces. -/
def Valid (t : RoutingTable) (interfaces : Nat) : Prop :=
  ∀ entry ∈ t.entries, ∀ routePrefix route, entry.2 routePrefix = some route →
    route.interfaceNum < interfaces

/-- A datagram with its time to live reduced by one, and its checksum. -/
def hop (dgram : InternetDatagram) : InternetDatagram :=
  let header := { dgram.header with ttl := dgram.header.ttl - 1 }
  { dgram with header := { header with cksum := header.checksum } }

/-- What is handed on of a list of datagrams, and what is left of it. -/
def outcome (t : RoutingTable) :
    List InternetDatagram → Option (List InternetDatagram × List InternetDatagram)
  | [] => some ([], [])
  | dgram :: rest =>
    if dgram.header.ttl ≤ 1 then some ([], rest)
    else if dgram.header.ver = 4 ∧ t.Short then
      (outcome t rest).map fun x =>
        (if t.keyed dgram.header.dst then hop dgram :: x.1 else x.1, x.2)
    else none

variable {r r' : Router} {dgram : InternetDatagram} {n : Nat}

theorem outcome_forwarded {t : RoutingTable} (hexpired : ¬dgram.header.ttl ≤ 1)
    (hgood : dgram.header.ver = 4 ∧ t.Short) (rest : List InternetDatagram) :
    outcome t (dgram :: rest) = (outcome t rest).map fun x =>
      ((if t.keyed dgram.header.dst then [hop dgram] else []) ++ x.1, x.2) := by
  rw [outcome, if_neg hexpired, if_pos hgood]
  cases t.keyed dgram.header.dst <;> rfl

/-! ## One datagram -/

theorem queue_eq (r : Router) (n : Nat) : r.queue n = r.queues[n]?.getD [] := by
  unfold queue queues
  rw [List.getElem?_map]

theorem queue_getElem (hn : n < r.queues.length) : r.queue n = r.queues[n] := by
  simp [queue_eq, hn]

theorem setQueue_queues (r : Router) (n : Nat) (left : List InternetDatagram) :
    (r.setQueue n left).queues = r.queues.set n left := by
  refine List.ext_getElem? fun k => ?_
  unfold setQueue queues
  rw [List.getElem?_map, List.getElem?_modify, List.getElem?_set, List.getElem?_map]
  by_cases hk : n = k
  · subst hk
    by_cases hn : n < r.interfaces.length
    · simp [hn]
    · simp [hn]
  · simp [hk]

/-- A datagram is handed to the interface, which keeps its queue. -/
theorem sendDatagram_ok (dgram : InternetDatagram) (hver : dgram.header.ver = 4)
    (hn : n < r.interfaces.length) (nextHop : Address) :
    ∃ r' handed, r.sendDatagram n dgram nextHop = .ok (r', handed) ∧
      r'.routingTable = r.routingTable ∧ r'.queues = r.queues ∧
      handed.map Handed.dgram = [dgram] := by
  obtain ⟨i', out, hsend, hreceived⟩ :=
    NetworkInterface.sendDatagram_ok hver r.interfaces[n] nextHop
  unfold sendDatagram
  rw [List.getElem?_eq_getElem hn]
  dsimp only
  rw [hsend]
  refine ⟨_, _, rfl, rfl, ?_, rfl⟩
  unfold queues
  have hlength : n < (r.interfaces.map NetworkInterface.datagramsReceived).length := by
    rwa [List.length_map]
  rw [List.map_set, hreceived, ← List.getElem_map NetworkInterface.datagramsReceived (h := hlength),
    List.set_getElem_self]

theorem forward_eq (hver : dgram.header.ver = 4) (r : Router) :
    r.forward dgram = r.routingTable.lookup dgram.header.dst >>= r.handOn (hop dgram) := by
  unfold forward
  rw [IPv4Header.computeChecksum_ok (h := { dgram.header with ttl := dgram.header.ttl - 1 }) hver]
  rfl

theorem forward_ok (hv : Valid r.routingTable r.interfaces.length) (hs : r.routingTable.Short)
    (hver : dgram.header.ver = 4) : ∃ r' handed, r.forward dgram = .ok (r', handed) ∧
      r'.routingTable = r.routingTable ∧ r'.queues = r.queues ∧
      handed.map Handed.dgram =
        if r.routingTable.keyed dgram.header.dst then [hop dgram] else [] := by
  obtain ⟨found, hfound, hkeyed, hstored⟩ := RoutingTable.lookup_ok hs dgram.header.dst
  rw [forward_eq hver, hfound, ok_bind, ← hkeyed]
  cases found with
  | none => exact ⟨r, [], rfl, rfl, rfl, rfl⟩
  | some route =>
    obtain ⟨entry, hentry, routePrefix, hroute⟩ := hstored route rfl
    rw [Option.isSome_some, if_pos rfl]
    exact sendDatagram_ok (hop dgram) hver (hv entry hentry routePrefix route hroute) _

theorem forward_error (h : ¬(dgram.header.ver = 4 ∧ r.routingTable.Short)) :
    ∃ e, r.forward dgram = .error e := by
  by_cases hver : dgram.header.ver = 4
  · rw [forward_eq hver, RoutingTable.lookup_error fun hs => h ⟨hver, hs⟩]
    exact ⟨_, rfl⟩
  · unfold forward
    rw [IPv4Header.computeChecksum_error
      (h := { dgram.header with ttl := dgram.header.ttl - 1 }) hver]
    exact ⟨_, rfl⟩

/-! ## One queue -/

/-- What `drain` does to the queue `n`, and what `outcome` says of a list that begins with it. -/
inductive Drained (r : Router) (n : Nat) (q rest : List InternetDatagram) :
    Except WireFault (Router × List Handed × Bool) → Prop where
  | error (e : WireFault) (h : outcome r.routingTable (q ++ rest) = none) :
      Drained r n q rest (.error e)
  | stopped (r' : Router) (handed : List Handed) (left : List InternetDatagram)
      (table : r'.routingTable = r.routingTable) (queues : r'.queues = r.queues.set n left)
      (h : outcome r.routingTable (q ++ rest) = some (handed.map Handed.dgram, left ++ rest)) :
      Drained r n q rest (.ok (r', handed, false))
  | done (r' : Router) (handed : List Handed) (table : r'.routingTable = r.routingTable)
      (queues : r'.queues = r.queues.set n [])
      (h : outcome r.routingTable (q ++ rest) = (outcome r.routingTable rest).map fun x =>
        (handed.map Handed.dgram ++ x.1, x.2)) :
      Drained r n q rest (.ok (r', handed, true))

theorem queues_length (r : Router) : r.queues.length = r.interfaces.length := List.length_map _

theorem length_of_queues (h : r'.queues = r.queues.set n q) :
    r'.interfaces.length = r.interfaces.length := by
  rw [← queues_length, h, List.length_set, queues_length]

theorem drain_drained (hv : Valid r.routingTable r.interfaces.length) (hn : n < r.queues.length)
    (q rest : List InternetDatagram) (hq : r.queues[n] = q) :
    Drained r n q rest (drain n q.length r) := by
  induction q generalizing r with
  | nil =>
    refine .done r [] rfl ?_ (by simp)
    rw [← hq, List.set_getElem_self]
  | cons dgram left ih =>
    have hqueue : r.queue n = dgram :: left := (queue_getElem hn).trans hq
    have hset := setQueue_queues r n left
    rw [List.length_cons, drain, hqueue]
    dsimp only
    by_cases hexpired : dgram.header.ttl ≤ 1
    · rw [if_pos hexpired]
      refine .stopped _ [] left rfl hset ?_
      rw [List.cons_append, outcome, if_pos hexpired]
      rfl
    · rw [if_neg hexpired]
      by_cases hgood : dgram.header.ver = 4 ∧ r.routingTable.Short
      · obtain ⟨r₁, handed, hforward, htable, hqueues, hhanded⟩ :=
          forward_ok (r := r.setQueue n left) (length_of_queues hset ▸ hv) hgood.2 hgood.1
        have hq₁ : r₁.queues = r.queues.set n left := hqueues.trans hset
        have htable : r₁.routingTable = r.routingTable := htable
        have hn₁ : n < r₁.queues.length := by rwa [hq₁, List.length_set]
        have hlater := ih (r := r₁) (by rw [htable, length_of_queues hq₁]; exact hv) hn₁
          (by simp [hq₁])
        rw [hforward, ok_bind]
        generalize drain n left.length r₁ = result at hlater
        cases hlater with
        | error e h =>
          refine .error e ?_
          rw [htable] at h
          rw [List.cons_append, outcome_forwarded hexpired hgood, h]
          rfl
        | stopped r₂ later left₂ table queues h =>
          refine .stopped r₂ _ left₂ (table.trans htable) ?_ ?_
          · rw [queues, hq₁, List.set_set]
          · rw [htable] at h
            rw [List.cons_append, outcome_forwarded hexpired hgood, h, List.map_append, hhanded]
            rfl
        | done r₂ later table queues h =>
          refine .done r₂ _ (table.trans htable) ?_ ?_
          · rw [queues, hq₁, List.set_set]
          · rw [htable] at h
            rw [List.cons_append, outcome_forwarded hexpired hgood, h, List.map_append, hhanded,
              Option.map_map]
            simp only [Function.comp_def, List.append_assoc]
            rfl
      · obtain ⟨e, he⟩ := forward_error (r := r.setQueue n left) hgood
        rw [he]
        refine .error e ?_
        rw [List.cons_append, outcome, if_neg hexpired, if_neg hgood]

/-! ## All queues -/

/-- What `routeAll` does from the queue `k` on, if those before it are empty. -/
theorem routeAll_outcome (m k : Nat) (hv : Valid r.routingTable r.interfaces.length)
    (hk : k + m = r.queues.length) (hbefore : (r.queues.take k).flatten = []) :
    (∃ e, routeAll (List.range' k m) r = .error e ∧
      outcome r.routingTable (r.queues.drop k).flatten = none) ∨
    (∃ r' handed, routeAll (List.range' k m) r = .ok (r', handed) ∧
      outcome r.routingTable (r.queues.drop k).flatten =
        some (handed.map Handed.dgram, r'.arrivals)) := by
  induction m generalizing r k with
  | zero =>
    have hnone : (r.queues.drop k).flatten = [] := by
      rw [List.drop_of_length_le (by omega)]
      rfl
    have harrivals : r.arrivals = [] := by
      unfold arrivals
      rw [← List.take_append_drop k r.queues, List.flatten_append, hbefore, hnone]
      rfl
    exact .inr ⟨r, [], rfl, by rw [hnone, harrivals]; rfl⟩
  | succ m ih =>
    have hn : k < r.queues.length := by omega
    have hdrop : r.queues.drop k = r.queues[k] :: r.queues.drop (k + 1) :=
      List.drop_eq_getElem_cons hn
    have hqueue : r.queue k = r.queues[k] := queue_getElem hn
    have hdrained := drain_drained hv hn _ (r.queues.drop (k + 1)).flatten rfl
    rw [List.range'_succ, routeAll, hqueue, hdrop, List.flatten_cons]
    generalize drain k (r.queues[k]).length r = result at hdrained
    cases hdrained with
    | error e h => exact .inl ⟨e, rfl, h⟩
    | stopped r' handed left table queues h =>
      refine .inr ⟨r', handed, rfl, ?_⟩
      have harrivals : r'.arrivals = left ++ (r.queues.drop (k + 1)).flatten := by
        unfold arrivals
        rw [queues, List.set_eq_take_append_cons_drop, if_pos hn, List.flatten_append, hbefore]
        rfl
      rw [h, harrivals]
    | done r₁ handed table queues h =>
      have hbefore₁ : (r₁.queues.take (k + 1)).flatten = [] := by
        rw [queues, List.take_add_one, List.take_set_of_le (Nat.le_refl k),
          List.getElem?_set_self hn, List.flatten_append, hbefore]
        rfl
      have hafter : r₁.queues.drop (k + 1) = r.queues.drop (k + 1) := by
        rw [queues, List.drop_set_of_lt (by omega)]
      have hlater := ih (r := r₁) (k + 1) (by rw [table, length_of_queues queues]; exact hv)
        (by rw [queues, List.length_set]; omega) hbefore₁
      rw [table, hafter] at hlater
      rw [h]
      rcases hlater with ⟨e, he, hnone⟩ | ⟨r₂, later, hok, hsome⟩
      · refine .inl ⟨e, ?_, by rw [hnone]; rfl⟩
        rw [ok_bind]
        dsimp only
        rw [he]
        rfl
      · refine .inr ⟨r₂, handed ++ later, ?_, ?_⟩
        · rw [ok_bind]
          dsimp only
          rw [hok]
          rfl
        · rw [hsome, List.map_append]
          rfl

/-- `route` does to the datagrams what `outcome` says. -/
theorem route_outcome (hv : Valid r.routingTable r.interfaces.length) :
    (∃ e, r.route = .error e ∧ outcome r.routingTable r.arrivals = none) ∨
    (∃ r' handed, r.route = .ok (r', handed) ∧
      outcome r.routingTable r.arrivals = some (handed.map Handed.dgram, r'.arrivals)) := by
  have h := routeAll_outcome r.interfaces.length 0 hv (by rw [queues_length, Nat.zero_add]) rfl
  rw [← List.range_eq_range'] at h
  exact h

/-! ## When nothing is left -/

theorem not_expired_iff (ttl : UInt8) : ¬ttl ≤ 1 ↔ 2 ≤ ttl := by
  rw [UInt8.le_iff_toNat_le, UInt8.le_iff_toNat_le]
  exact Nat.not_le

/-- An expired datagram leaves what is behind it, a bad one leaves everything. -/
theorem outcome_nil_iff (t : RoutingTable) (l : List InternetDatagram) :
    (∃ handed, outcome t l = some (handed, [])) ↔
      (∀ dgram ∈ l.dropLast, 2 ≤ dgram.header.ttl) ∧
      ∀ dgram ∈ l, 2 ≤ dgram.header.ttl → dgram.header.ver = 4 ∧ t.Short := by
  induction l with
  | nil => exact ⟨fun _ => by simp, fun _ => ⟨[], rfl⟩⟩
  | cons dgram rest ih =>
    by_cases hexpired : dgram.header.ttl ≤ 1
    · have hlive : ¬2 ≤ dgram.header.ttl := fun h => (not_expired_iff _).mpr h hexpired
      rw [outcome, if_pos hexpired]
      cases rest with
      | nil => simp [hlive]
      | cons next rest => simp [hlive]
    · have hlive := (not_expired_iff dgram.header.ttl).mp hexpired
      have hdrop : (∀ x ∈ (dgram :: rest).dropLast, 2 ≤ x.header.ttl) ↔
          ∀ x ∈ rest.dropLast, 2 ≤ x.header.ttl := by
        cases rest with
        | nil => simp
        | cons next rest => simp [hlive]
      rw [hdrop, List.forall_mem_cons]
      by_cases hgood : dgram.header.ver = 4 ∧ t.Short
      · have hmap : (∃ handed, outcome t (dgram :: rest) = some (handed, [])) ↔
            ∃ handed, outcome t rest = some (handed, []) := by
          rw [outcome_forwarded hexpired hgood]
          cases outcome t rest with
          | none => simp
          | some x => simp [Prod.ext_iff]
        rw [hmap, ih]
        exact ⟨fun h => ⟨h.1, fun _ => hgood, h.2⟩, fun h => ⟨h.1, h.2.2⟩⟩
      · rw [outcome, if_neg hexpired, if_neg hgood]
        simp [hlive, hgood]

/-- What is handed on when nothing is left. -/
theorem outcome_handed {t : RoutingTable} {l handed : List InternetDatagram}
    (h : outcome t l = some (handed, [])) :
    handed = (l.filter fun dgram => 2 ≤ dgram.header.ttl && t.keyed dgram.header.dst).map hop := by
  induction l generalizing handed with
  | nil =>
    obtain ⟨rfl, -⟩ := Prod.mk.inj (Option.some.inj h)
    rfl
  | cons dgram rest ih =>
    by_cases hexpired : dgram.header.ttl ≤ 1
    · have hlive : ¬2 ≤ dgram.header.ttl := fun h => (not_expired_iff _).mpr h hexpired
      rw [outcome, if_pos hexpired] at h
      obtain ⟨rfl, rfl⟩ := Prod.mk.inj (Option.some.inj h)
      simp [hlive]
    · have hlive := (not_expired_iff dgram.header.ttl).mp hexpired
      by_cases hgood : dgram.header.ver = 4 ∧ t.Short
      · rw [outcome_forwarded hexpired hgood] at h
        obtain ⟨⟨later, left⟩, hlater, heq⟩ := Option.map_eq_some_iff.mp h
        obtain ⟨rfl, rfl⟩ := Prod.mk.inj heq
        dsimp only
        rw [ih hlater]
        cases hkeyed : t.keyed dgram.header.dst <;> simp [hlive, hkeyed]
      · rw [outcome, if_neg hexpired, if_neg hgood] at h
        cases h

open Classical in
/-- The datagrams that are to be handed on. -/
noncomputable def routable (r : Router) : List InternetDatagram :=
  r.arrivals.filter fun dgram => 2 ≤ dgram.header.ttl ∧ r.routingTable.Matches dgram.header.dst

/-- `route` empties the queues and hands on what is to be handed on, each datagram once. -/
def RoutesAll (r : Router) : Prop :=
  ∃ r' handed, r.route = .ok (r', handed) ∧ (∀ i ∈ r'.interfaces, i.datagramsReceived = []) ∧
    (handed.map Handed.dgram).Perm (r.routable.map hop)

/-- No datagram but the last one is expired, and those that are not can be handled. -/
structure Smooth (r : Router) : Prop where
  live : ∀ dgram ∈ r.arrivals.dropLast, 2 ≤ dgram.header.ttl
  version : ∀ dgram ∈ r.arrivals, 2 ≤ dgram.header.ttl → dgram.header.ver = 4
  short : ∀ dgram ∈ r.arrivals, 2 ≤ dgram.header.ttl → r.routingTable.Short
  keyed : ∀ dgram ∈ r.arrivals, 2 ≤ dgram.header.ttl →
    r.routingTable.Matches dgram.header.dst → r.routingTable.keyed dgram.header.dst = true

theorem arrivals_nil_iff (r : Router) :
    r.arrivals = [] ↔ ∀ i ∈ r.interfaces, i.datagramsReceived = [] := by
  unfold arrivals queues
  simp

/-- What is handed on are the datagrams that are found, which are some of those to be handed on. -/
theorem filter_keyed (r : Router) :
    (r.arrivals.filter fun dgram => 2 ≤ dgram.header.ttl && r.routingTable.keyed dgram.header.dst) =
      r.routable.filter fun dgram => r.routingTable.keyed dgram.header.dst := by
  unfold routable
  rw [List.filter_filter]
  refine List.filter_congr fun dgram _ => ?_
  cases hkeyed : r.routingTable.keyed dgram.header.dst with
  | false => simp
  | true => simp [RoutingTable.matches_of_keyed hkeyed]

theorem mem_routable : dgram ∈ r.routable ↔ dgram ∈ r.arrivals ∧ 2 ≤ dgram.header.ttl ∧
    r.routingTable.Matches dgram.header.dst := by
  simp [routable]

/-- `route` empties its queues and hands on what is to be handed on iff no datagram makes it stop
early: none before the last is expired, and it can serialize and look up those that are not. -/
theorem routesAll_iff (r : Router) (hv : Valid r.routingTable r.interfaces.length) :
    r.RoutesAll ↔ r.Smooth := by
  have hnil := outcome_nil_iff r.routingTable r.arrivals
  constructor
  · rintro ⟨r', handed, hroute, hempty, hperm⟩
    rcases route_outcome hv with ⟨e, he, -⟩ | ⟨r'', handed', hok, houtcome⟩
    · rw [hroute] at he
      cases he
    · rw [hroute] at hok
      obtain ⟨rfl, rfl⟩ := pair_ok hok
      rw [(arrivals_nil_iff r').mpr hempty] at houtcome
      obtain ⟨hlive, hgood⟩ := hnil.mp ⟨_, houtcome⟩
      refine ⟨hlive, fun d hd ht => (hgood d hd ht).1, fun d hd ht => (hgood d hd ht).2, ?_⟩
      -- as many are handed on as there are to hand on
      rw [outcome_handed houtcome, filter_keyed] at hperm
      have hlength := hperm.length_eq
      rw [List.length_map, List.length_map, List.length_filter_eq_length_iff] at hlength
      intro d hd ht hm
      exact hlength d (mem_routable.mpr ⟨hd, ht, hm⟩)
  · intro hs
    obtain ⟨handed, houtcome⟩ := hnil.mpr
      ⟨hs.live, fun d hd ht => ⟨hs.version d hd ht, hs.short d hd ht⟩⟩
    rcases route_outcome hv with ⟨e, -, hnone⟩ | ⟨r', handed', hok, hsome⟩
    · rw [houtcome] at hnone
      cases hnone
    · rw [houtcome] at hsome
      obtain ⟨rfl, harrivals⟩ := Prod.mk.inj (Option.some.inj hsome)
      refine ⟨r', handed', hok, (arrivals_nil_iff r').mp harrivals.symm, ?_⟩
      rw [outcome_handed houtcome, filter_keyed, List.filter_eq_self.mpr]
      intro d hd
      obtain ⟨hd, ht, hm⟩ := mem_routable.mp hd
      exact hs.keyed d hd ht hm

/-- Two interfaces, and a default route to a host on the side of the second one. -/
def twoSided (datagramsReceived : List InternetDatagram) : Router :=
  addRoute {
    interfaces := [
      { ethernetAddress := { b₅ := 1 }, ipAddress := { ipv4Numeric := 1 }, datagramsReceived },
      { ethernetAddress := { b₅ := 2 }, ipAddress := { ipv4Numeric := 2 } }] }
    0 0 (some { ipv4Numeric := 7 }) 1

theorem twoSided_valid (l : List InternetDatagram) :
    Valid (twoSided l).routingTable (twoSided l).interfaces.length := by
  intro entry hentry routePrefix route hroute
  obtain rfl := List.mem_singleton.mp hentry
  by_cases hzero : routePrefix = 0
  · subst hzero
    obtain rfl := Option.some.inj hroute
    exact Nat.lt_succ_self 1
  · have hnone : (none : Option RouteToNext) = some route :=
      (Function.update_of_ne hzero _ _).symm.trans hroute
    cases hnone

/-- The expired datagram is the last one. -/
theorem routesAll_last :
    (twoSided [{ header := { ttl := 5 } }, { header := { ttl := 1 } }]).RoutesAll := by
  have hkeyed :
      ∀ dgram ∈ (twoSided [{ header := { ttl := 5 } }, { header := { ttl := 1 } }]).arrivals,
      RoutingTable.keyed (twoSided []).routingTable dgram.header.dst = true := by decide +kernel
  exact (routesAll_iff _ (twoSided_valid _)).mpr ⟨by decide +kernel, by decide +kernel,
    by decide +kernel, fun dgram hd _ _ => hkeyed dgram hd⟩

/-- The expired datagram is in front of another one. -/
theorem expired_stops_route :
    ¬(twoSided [{ header := { ttl := 1 } }, { header := { ttl := 5 } }]).RoutesAll := by
  rintro ⟨r', handed, hroute, hempty, -⟩
  have hleft : (twoSided [{ header := { ttl := 1 } }, { header := { ttl := 5 } }]).route.map
      (fun x => x.1.arrivals) = .ok [{ header := { ttl := 5 } }] := by decide +kernel
  rw [hroute] at hleft
  have hleft : r'.arrivals = [{ header := { ttl := 5 } }] := Except.ok.inj hleft
  rw [(arrivals_nil_iff r').mpr hempty] at hleft
  cases hleft

end Router

end Minnow
