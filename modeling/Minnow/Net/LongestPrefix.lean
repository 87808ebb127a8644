import Minnow.Net.AddedRoutes

/-!
# Longest-prefix match

`sent k` is what `route` sends for the datagram at the head of the queue `k`: nothing if an earlier
queue has ended the call. It is a part of all that `route` sends (`sent_infix`).

The datagram is sent through the best route if `route` gets to it. An expired datagram in an earlier
queue returns from `route`, and one that is not of version 4 throws, so that it does not get there:
`longest_prefix_iff`.
-/

namespace Minnow

namespace Router

open RoutingTable RouteCall

/-- What is sent for the datagram at the head of the queue `k`. -/
def headSent (k : Nat) (r : Router) : List Handed :=
  match r.queue k with
  | [] => []
  | dgram :: rest =>
    if dgram.header.ttl ≤ 1 then []
    else
      match (r.setQueue k rest).forward dgram with
      | .ok (_, handed) => handed
      | .error _ => []

/-- `headSent`, when the loop over the interfaces gets to the queue `k`. -/
def sentFrom (k : Nat) : List Nat → Router → List Handed
  | [], _ => []
  | n :: rest, r =>
    if n = k then headSent k r
    else
      match drain n (r.queue n).length r with
      | .ok (r, _, true) => sentFrom k rest r
      | _ => []

/-- What `route` sends for the datagram at the head of the queue `k`. -/
def sent (r : Router) (k : Nat) : List Handed := sentFrom k (List.range r.interfaces.length) r

variable {r r' : Router} {k n : Nat} {handed : List Handed} {goOn : Bool}
  {dgram : InternetDatagram} {calls : List RouteCall} {c : RouteCall}
  {interfaces : List NetworkInterface}

/-! ## What is sent is a part of what `route` sends -/

/-- A queue begins with its head. -/
theorem headSent_prefix (h : drain n (r.queue n).length r = .ok (r', handed, goOn)) :
    headSent n r <+: handed := by
  unfold headSent
  cases hq : r.queue n with
  | nil => exact List.nil_prefix
  | cons dgram rest =>
    rw [hq, List.length_cons, drain, hq] at h
    dsimp only at h ⊢
    by_cases hexpired : dgram.header.ttl ≤ 1
    · rw [if_pos hexpired]
      exact List.nil_prefix
    · rw [if_neg hexpired] at h ⊢
      obtain ⟨⟨r₁, first⟩, hforward, h⟩ := bind_ok h
      obtain ⟨⟨r₂, later, goOn'⟩, -, h⟩ := bind_ok h
      obtain ⟨-, h⟩ := pair_ok h
      obtain ⟨rfl, -⟩ := Prod.mk.inj h
      rw [hforward]
      exact List.prefix_append _ _

theorem sentFrom_infix {l : List Nat} (h : routeAll l r = .ok (r', handed)) :
    sentFrom k l r <:+: handed := by
  induction l generalizing r handed with
  | nil => exact List.nil_infix
  | cons n rest ih =>
    obtain ⟨⟨r₁, first, goOn⟩, hdrain, h⟩ := bind_ok h
    unfold sentFrom
    by_cases hk : n = k
    · subst hk
      rw [if_pos rfl]
      have hfirst := headSent_prefix hdrain
      cases goOn with
      | true =>
        obtain ⟨⟨r₂, later⟩, -, h⟩ := bind_ok h
        obtain ⟨-, rfl⟩ := pair_ok h
        exact (hfirst.trans (List.prefix_append _ _)).isInfix
      | false =>
        obtain ⟨-, rfl⟩ := pair_ok h
        exact hfirst.isInfix
    · rw [if_neg hk, hdrain]
      cases goOn with
      | true =>
        obtain ⟨⟨r₂, later⟩, hrest, h⟩ := bind_ok h
        obtain ⟨rfl, rfl⟩ := pair_ok h
        exact (ih hrest).trans (List.suffix_append _ _).isInfix
      | false => exact List.nil_infix

theorem sent_infix (h : r.route = .ok (r', handed)) : r.sent k <:+: handed := sentFrom_infix h

/-! ## Getting to a queue -/

/-- The datagram is not expired, and of the version that has a checksum. -/
def Live (dgram : InternetDatagram) : Prop := 2 ≤ dgram.header.ttl ∧ dgram.header.ver = 4

instance (dgram : InternetDatagram) : Decidable (Live dgram) :=
  inferInstanceAs (Decidable (_ ∧ _))

/-- The loop over a queue goes on to the next one if all its datagrams are live. -/
theorem drain_goesOn (hv : Valid r.routingTable r.interfaces.length) (hs : r.routingTable.Short)
    (hn : n < r.queues.length) :
    (∃ r' handed, drain n (r.queue n).length r = .ok (r', handed, true) ∧
      r'.routingTable = r.routingTable ∧ r'.queues = r.queues.set n [] ∧
      ∀ dgram ∈ r.queue n, Live dgram) ∨
    ((∀ r' handed, drain n (r.queue n).length r ≠ .ok (r', handed, true)) ∧
      ¬∀ dgram ∈ r.queue n, Live dgram) := by
  -- a live datagram behind the queue tells whether the loop goes on
  have hdrained := drain_drained hv hn _ [({} : InternetDatagram)] (queue_getElem hn).symm
  have hnil := outcome_nil_iff r.routingTable (r.queue n ++ [({} : InternetDatagram)])
  have hlive : (∃ handed, outcome r.routingTable (r.queue n ++ [({} : InternetDatagram)]) =
      some (handed, [])) ↔ ∀ dgram ∈ r.queue n, Live dgram := by
    rw [hnil, List.dropLast_concat]
    constructor
    · rintro ⟨httl, hver⟩ dgram hd
      exact ⟨httl dgram hd, (hver dgram (List.mem_append_left _ hd) (httl dgram hd)).1⟩
    · intro h
      refine ⟨fun dgram hd => (h dgram hd).1, fun dgram hd _ => ⟨?_, hs⟩⟩
      rcases List.mem_append.mp hd with hd | hd
      · exact (h dgram hd).2
      · rw [List.mem_singleton.mp hd]
  rw [← hlive]
  generalize drain n (r.queue n).length r = result at hdrained
  cases hdrained with
  | error e h =>
    refine .inr ⟨nofun, ?_⟩
    rintro ⟨handed, hsome⟩
    rw [h] at hsome
    cases hsome
  | stopped r' handed left table queues h =>
    refine .inr ⟨nofun, ?_⟩
    rintro ⟨handed', hsome⟩
    rw [h] at hsome
    exact absurd (Prod.mk.inj (Option.some.inj hsome)).2 (by simp)
  | done r' handed table queues h =>
    refine .inl ⟨r', handed, rfl, table, queues, ?_⟩
    obtain ⟨later, hlater⟩ := (outcome_nil_iff r.routingTable [({} : InternetDatagram)]).mpr
      ⟨nofun, fun dgram hd _ => ⟨by rw [List.mem_singleton.mp hd], hs⟩⟩
    rw [h, hlater]
    exact ⟨_, rfl⟩

/-- What `route` sends for the head of the queue `k`, when it is at the queue `j`. -/
theorem sentFrom_reaches (m j : Nat) (hv : Valid r.routingTable r.interfaces.length)
    (hs : r.routingTable.Short) (hm : j + m = r.queues.length) (hj : j ≤ k) (hk : k < j + m) :
    ((∀ n, j ≤ n → n < k → ∀ dgram ∈ r.queue n, Live dgram) ∧ ∃ r₁,
      sentFrom k (List.range' j m) r = headSent k r₁ ∧ r₁.routingTable = r.routingTable ∧
      r₁.interfaces.length = r.interfaces.length ∧ r₁.queue k = r.queue k) ∨
    ((¬∀ n, j ≤ n → n < k → ∀ dgram ∈ r.queue n, Live dgram) ∧
      sentFrom k (List.range' j m) r = []) := by
  induction m generalizing r j with
  | zero => omega
  | succ m ih =>
    rw [List.range'_succ, sentFrom]
    by_cases hjk : j = k
    · subst hjk
      rw [if_pos rfl]
      exact .inl ⟨fun n h₁ h₂ => absurd h₁ (not_le.mpr h₂), r, rfl, rfl, rfl, rfl⟩
    · rw [if_neg hjk]
      rcases drain_goesOn hv hs (n := j) (by omega) with
        ⟨r₁, handed, hdrain, htable, hqueues, hlive⟩ | ⟨hstop, hdead⟩
      · rw [hdrain]
        dsimp only
        have hlength : r₁.interfaces.length = r.interfaces.length := length_of_queues hqueues
        have hother : ∀ n, j + 1 ≤ n → r₁.queue n = r.queue n := by
          intro n hn
          rw [queue_eq, queue_eq, hqueues, List.getElem?_set_ne (by omega)]
        have hlater : (∀ n, j + 1 ≤ n → n < k → ∀ dgram ∈ r₁.queue n, Live dgram) ↔
            ∀ n, j ≤ n → n < k → ∀ dgram ∈ r.queue n, Live dgram := by
          constructor
          · intro h n hjn hnk
            rcases Nat.eq_or_lt_of_le hjn with rfl | hlt
            · exact hlive
            · exact hother n hlt ▸ h n hlt hnk
          · intro h n hjn hnk
            rw [hother n hjn]
            exact h n (by omega) hnk
        have hrest := ih (r := r₁) (j + 1) (by rwa [htable, hlength]) (htable ▸ hs)
          (by rw [hqueues, List.length_set]; omega) (by omega) (by omega)
        rwa [hlater, htable, hlength, hother k (by omega)] at hrest
      · refine .inr ⟨fun h => hdead (h j (Nat.le_refl j) (by omega)), ?_⟩
        split
        · rename_i r₁ handed hdrain
          exact absurd hdrain (hstop r₁ handed)
        · rfl

/-- `route` gets to a queue if the datagrams of the earlier ones are live. -/
theorem sent_reaches (hv : Valid r.routingTable r.interfaces.length) (hs : r.routingTable.Short)
    (hk : k < r.interfaces.length) :
    ((∀ n < k, ∀ dgram ∈ r.queue n, Live dgram) ∧ ∃ r₁, r.sent k = headSent k r₁ ∧
      r₁.routingTable = r.routingTable ∧ r₁.interfaces.length = r.interfaces.length ∧
      r₁.queue k = r.queue k) ∨
    ((¬∀ n < k, ∀ dgram ∈ r.queue n, Live dgram) ∧ r.sent k = []) := by
  have h := sentFrom_reaches r.interfaces.length 0 hv hs (by rw [queues_length, Nat.zero_add])
    (Nat.zero_le k) (by omega)
  rw [← List.range_eq_range'] at h
  simpa [sent] using h

/-! ## What is done with the head of a queue -/

/-- The call of `send_datagram` that a route leads to. -/
def handedTo (c : RouteCall) (dgram : InternetDatagram) (frames : List EthernetFrame) : Handed where
  interfaceNum := c.interfaceNum
  dgram := hop dgram
  nextHop := c.nextHop.getD (.fromIpv4Numeric dgram.header.dst)
  frames

theorem forward_route (hn : c.interfaceNum < r.interfaces.length) (hver : dgram.header.ver = 4)
    (hlookup : r.routingTable.lookup dgram.header.dst = .ok (some c.route)) :
    ∃ r' frames, r.forward dgram = .ok (r', [handedTo c dgram frames]) := by
  have hhop : (hop dgram).header.ver = 4 := hver
  obtain ⟨i, frames, hsend, -⟩ := NetworkInterface.sendDatagram_ok hhop
    r.interfaces[c.interfaceNum] (c.nextHop.getD (.fromIpv4Numeric dgram.header.dst))
  refine ⟨{ r with interfaces := r.interfaces.set c.interfaceNum i }, frames, ?_⟩
  rw [forward_eq hver, hlookup, ok_bind]
  show r.sendDatagram c.interfaceNum (hop dgram) _ = _
  unfold sendDatagram
  rw [List.getElem?_eq_getElem hn]
  dsimp only
  exact congrArg (· >>= _) hsend

section

variable {rest : List InternetDatagram} (hq : r.queue k = dgram :: rest)
  (httl : 2 ≤ dgram.header.ttl)

include hq httl

theorem headSent_eq : headSent k r =
    match (r.setQueue k rest).forward dgram with
    | .ok (_, handed) => handed
    | .error _ => [] := by
  unfold headSent
  rw [hq]
  exact if_neg ((not_expired_iff _).mpr httl)

theorem headSent_route (hn : c.interfaceNum < r.interfaces.length) (hver : dgram.header.ver = 4)
    (hlookup : r.routingTable.lookup dgram.header.dst = .ok (some c.route)) :
    ∃ frames, headSent k r = [handedTo c dgram frames] := by
  have hn : c.interfaceNum < (r.setQueue k rest).interfaces.length := by
    unfold setQueue
    rwa [List.length_modify]
  obtain ⟨r', frames, hforward⟩ := forward_route hn hver hlookup
  refine ⟨frames, ?_⟩
  rw [headSent_eq hq httl, hforward]

theorem headSent_version (hver : dgram.header.ver ≠ 4) : headSent k r = [] := by
  obtain ⟨e, he⟩ := forward_error (r := r.setQueue k rest) fun h => hver h.1
  rw [headSent_eq hq httl, he]

theorem headSent_none (hlookup : r.routingTable.lookup dgram.header.dst = .ok none) :
    headSent k r = [] := by
  by_cases hver : dgram.header.ver = 4
  · have hlookup : (r.setQueue k rest).routingTable.lookup dgram.header.dst = .ok none := hlookup
    rw [headSent_eq hq httl, forward_eq hver, hlookup]
    rfl
  · exact headSent_version hq httl hver

end

/-! ## The best route -/

/-- The datagram at the head of the queue `k` is sent through the best route, to its next hop or
else to the destination, and it is not sent if there is no route. -/
structure RoutesHead (interfaces : List NetworkInterface) (calls : List RouteCall) (k : Nat)
    (dgram : InternetDatagram) : Prop where
  best : ∀ c, Best calls dgram.header.dst c →
    ∃ frames, (withRoutes interfaces calls).sent k = [handedTo c dgram frames]
  unrouted : (∀ c ∈ calls, ¬c.Covers dgram.header.dst) → (withRoutes interfaces calls).sent k = []

/-- For every list of added routes and every destination: what `route` sends for the datagram at
the head of a queue is a part of all that it sends, and is what the longest prefix says, if and only
if no route covers the destination, or the datagrams of the earlier queues are live and this one is
of version 4. -/
theorem longest_prefix_iff {rest : List InternetDatagram}
    (hproper : ∀ c ∈ calls, c.Proper interfaces.length)
    (hq : (withRoutes interfaces calls).queue k = dgram :: rest) (httl : 2 ≤ dgram.header.ttl) :
    (∀ r' handed, (withRoutes interfaces calls).route = .ok (r', handed) →
      (withRoutes interfaces calls).sent k <:+: handed) ∧
    (RoutesHead interfaces calls k dgram ↔ ((∃ c ∈ calls, c.Covers dgram.header.dst) →
      (∀ n < k, ∀ d ∈ (withRoutes interfaces calls).queue n, Live d) ∧ dgram.header.ver = 4)) := by
  refine ⟨fun r' handed => sent_infix, ?_⟩
  have hlength : (withRoutes interfaces calls).interfaces.length = interfaces.length :=
    congrArg List.length (addRoutes_interfaces _ _)
  have hk : k < (withRoutes interfaces calls).interfaces.length := by
    by_contra hk
    rw [queue, List.getElem?_eq_none (not_lt.mp hk)] at hq
    cases hq
  have hcanonical : ∀ c ∈ calls, c.Canonical := fun c hc => (hproper c hc).canonical
  have hreach := sent_reaches (valid_withRoutes hproper)
    (short_withRoutes fun c hc => (hproper c hc).short) hk
  constructor
  · rintro ⟨hbest, -⟩ hcovered
    obtain ⟨c, hc⟩ : ∃ c, Best calls dgram.header.dst c := exists_latestMax hcovered
    obtain ⟨frames, hsent⟩ := hbest c hc
    rcases hreach with ⟨hlive, r₁, heq, -, -, hq₁⟩ | ⟨-, hnil⟩
    · refine ⟨hlive, ?_⟩
      by_contra hver
      rw [heq, headSent_version (hq₁.trans hq) httl hver] at hsent
      cases hsent
    · rw [hnil] at hsent
      cases hsent
  · intro hcond
    constructor
    · intro c hc
      obtain ⟨hlive, hver⟩ := hcond ⟨c, hc.mem, hc.picked⟩
      rcases hreach with ⟨-, r₁, heq, htable, hlength₁, hq₁⟩ | ⟨hdead, -⟩
      · have hn : c.interfaceNum < r₁.interfaces.length := by
          rw [hlength₁, hlength]
          exact (hproper c hc.mem).valid
        rw [heq]
        exact headSent_route (hq₁.trans hq) httl hn hver (htable ▸ lookup_best hcanonical hc)
      · exact absurd hlive hdead
    · intro hnone
      rcases hreach with ⟨-, r₁, heq, htable, -, hq₁⟩ | ⟨-, hnil⟩
      · rw [heq]
        exact headSent_none (hq₁.trans hq) httl (htable ▸ lookup_uncovered hcanonical hnone)
      · exact hnil

/-- Two interfaces, and what they have received. -/
def twoInterfaces (first second : List InternetDatagram) : List NetworkInterface :=
  [{ ethernetAddress := { b₅ := 1 }, ipAddress := { ipv4Numeric := 1 },
      datagramsReceived := first },
    { ethernetAddress := { b₅ := 2 }, ipAddress := { ipv4Numeric := 2 },
      datagramsReceived := second }]

/-- The network 10.0.0.0/8 on the side of the first interface, a part of it behind the host 7, and a
default route. -/
def threeRoutes : List RouteCall :=
  [⟨0x0a000000, 8, none, 0⟩, ⟨0x0a010000, 16, some { ipv4Numeric := 7 }, 1⟩,
    ⟨0, 0, some { ipv4Numeric := 8 }, 0⟩]

/-- All three routes cover the destination. -/
theorem longest_prefix_three : ∃ frames,
    (withRoutes (twoInterfaces [{ header := { dst := 0x0a010203 } }] []) threeRoutes).sent 0 =
      [⟨1, hop { header := { dst := 0x0a010203 } }, { ipv4Numeric := 7 }, frames⟩] := by
  have hq : (withRoutes (twoInterfaces [{ header := { dst := 0x0a010203 } }] [])
      threeRoutes).queue 0 = [{ header := { dst := 0x0a010203 } }] := rfl
  have hroutes := (longest_prefix_iff (by decide) hq (by decide)).2.mpr fun _ =>
    ⟨fun n hn => absurd hn (Nat.not_lt_zero n), rfl⟩
  exact hroutes.best ⟨0x0a010000, 16, some { ipv4Numeric := 7 }, 1⟩
    ⟨[⟨0x0a000000, 8, none, 0⟩], [⟨0, 0, some { ipv4Numeric := 8 }, 0⟩], rfl, by decide, by decide,
      by decide⟩

/-- An expired datagram has come to the first interface, and another one to the second. -/
def expiredFirst : List NetworkInterface :=
  twoInterfaces [{ header := { ttl := 1 } }] [{ header := { ttl := 5 } }]

/-- The other one is not sent, although there is a default route. -/
theorem longest_prefix_expired : (∀ c ∈ threeRoutes, c.Proper expiredFirst.length) ∧
    (withRoutes expiredFirst threeRoutes).queue 1 = [{ header := { ttl := 5 } }] ∧
    (withRoutes expiredFirst threeRoutes).sent 1 = [] ∧
    ¬RoutesHead expiredFirst threeRoutes 1 { header := { ttl := 5 } } := by
  have hnil : (withRoutes expiredFirst threeRoutes).sent 1 = [] := by decide +kernel
  refine ⟨by decide, rfl, hnil, fun h => ?_⟩
  obtain ⟨frames, hsent⟩ := h.best ⟨0, 0, some { ipv4Numeric := 8 }, 0⟩
    ⟨[⟨0x0a000000, 8, none, 0⟩, ⟨0x0a010000, 16, some { ipv4Numeric := 7 }, 1⟩], [], rfl,
      by decide, by decide, nofun⟩
  rw [hnil] at hsent
  cases hsent

end Router

end Minnow
