import Minnow.Net.Requests

/-!
# What becomes of a datagram

The fates of the datagrams that were given for a next hop are those of a queue: first the datagrams
whose fate is decided, then those that wait, all for the reply to one request (`View.Kept`). The
ones with the fate `transmitted` are the frames that the interface has transmitted, one for each and
in their order. That is so as long as every datagram can be serialized: one that cannot makes a call
throw, which leaves those before it both transmitted and queued (`transmitted_and_queued`).
-/

namespace Minnow

namespace NetworkInterface

/-- The frames are those of the datagrams that are said to be transmitted. -/
def History.Transmits (h : History) : Prop :=
  (h.fates.filter (·.2.isTransmitted)).map (·.1.serialized) =
    h.transmitted.map fun frame => .ok frame.payload

/-- The fates of datagrams that wait for the reply to a request. -/
def waitingSince (asked : Nat) (dgrams : List InternetDatagram) : List (InternetDatagram × Fate) :=
  dgrams.map fun dgram => (dgram, .queued asked)

/-- A drop was preceded by a request, more than the patience before. -/
def History.DroppedLate (h : History) (now : Nat) : Prop :=
  ∀ dgram asked time, (dgram, Fate.dropped asked time) ∈ h.fates →
    asked ∈ h.requests ∧ asked + patience < time ∧ time ≤ now

structure View.Kept (v : View) : Prop where
  given : v.history.fates.map Prod.fst = v.history.given
  transmits : v.history.Transmits
  queue : ∃ decided, v.history.fates =
      decided ++ waitingSince (v.history.requests.getLast?.getD 0) v.waiting ∧
    ∀ x ∈ decided, x.2.isQueued = false
  dropped : v.history.DroppedLate v.now
  known : v.cache = none ∨ v.pending = none

variable {v v' : View} {s : Session} {dgrams : List InternetDatagram} {dgram : InternetDatagram}
  {fates decided : List (InternetDatagram × Fate)} {frames : List EthernetFrame}
  {frame : EthernetFrame}
  {asked time now ms : Nat} {h : History} {f : Fate → Fate}

/-! ## Fates -/

/-- What changes queued fates only keeps those that are decided. -/
theorem map_decided (hf : ∀ fate, fate.isQueued = false → f fate = fate)
    (hd : ∀ x ∈ decided, x.2.isQueued = false) :
    decided.map (fun x => (x.1, f x.2)) = decided :=
  calc decided.map (fun x => (x.1, f x.2))
      = decided.map id := List.map_congr_left fun x hx => Prod.ext rfl (hf _ (hd x hx))
    _ = decided := List.map_id _

theorem map_waitingSince (f : Fate → Fate) (asked : Nat) (dgrams : List InternetDatagram) :
    (waitingSince asked dgrams).map (fun x => (x.1, f x.2)) =
      dgrams.map fun dgram => (dgram, f (.queued asked)) := by
  unfold waitingSince
  rw [List.map_map]
  rfl

theorem map_fst_fates (f : Fate → Fate) (fates : List (InternetDatagram × Fate)) :
    (fates.map fun x => (x.1, f x.2)).map Prod.fst = fates.map Prod.fst := by
  rw [List.map_map]
  rfl

theorem filter_transmitted_map (hf : ∀ fate, (f fate).isTransmitted = fate.isTransmitted)
    (fates : List (InternetDatagram × Fate)) :
    ((fates.map fun x => (x.1, f x.2)).filter (·.2.isTransmitted)).map (·.1.serialized) =
      (fates.filter (·.2.isTransmitted)).map (·.1.serialized) := by
  rw [List.filter_map, List.map_map]
  simp [Function.comp_def, hf]

theorem filter_waitingSince (asked : Nat) (dgrams : List InternetDatagram) :
    (waitingSince asked dgrams).filter (·.2.isTransmitted) = [] := by
  unfold waitingSince
  rw [List.filter_map, List.map_eq_nil_iff]
  simp [Function.comp_def]

/-! ## What a move keeps -/

/-- A queue with no entry is empty. -/
theorem View.waiting_none (hp : v.pending = none) : v.waiting = [] := by
  unfold View.waiting
  rw [hp]
  rfl

theorem View.waiting_some {queue : List InternetDatagram} {age : Nat}
    (hp : v.pending = some (queue, age)) : v.waiting = queue := by
  unfold View.waiting
  rw [hp]
  rfl

theorem View.waiting_tick {entry : List InternetDatagram × Nat}
    (hp : v.pending.bind (tickPending ms) = some entry) : entry = (v.waiting, entry.2) := by
  obtain ⟨old, hold, hentry⟩ := Option.bind_eq_some_iff.mp hp
  rw [View.waiting_some hold]
  unfold tickPending at hentry
  split at hentry
  · cases hentry
  · rw [← Option.some.inj hentry]

theorem View.Kept.new : View.Kept {} where
  given := rfl
  transmits := rfl
  queue := ⟨[], rfl, fun _ h => absurd h List.not_mem_nil⟩
  dropped _ _ _ h := absurd h List.not_mem_nil
  known := .inl rfl

/-- A datagram is given and transmitted. -/
theorem View.Kept.transmit (h : v.Kept) (hc : v.cache ≠ none)
    (hp : dgram.serialized = .ok frame.payload) : View.Kept { v with history := { v.history with
      given := v.history.given ++ [dgram]
      fates := v.history.fates ++ [(dgram, .transmitted)]
      transmitted := v.history.transmitted ++ [frame] } } := by
  have hnone : v.pending = none := h.known.resolve_left hc
  obtain ⟨decided, hfates, hdecided⟩ := h.queue
  refine ⟨?_, ?_, ?_, ?_, .inr hnone⟩
  · simp [h.given]
  · have htransmits := h.transmits
    unfold History.Transmits at htransmits ⊢
    show ((v.history.fates ++ [(dgram, Fate.transmitted)]).filter _).map _ =
      (v.history.transmitted ++ [frame]).map _
    rw [List.filter_append, List.map_append, htransmits, List.map_append,
      List.filter_cons_of_pos rfl, List.filter_nil, List.map_cons, hp]
    rfl
  · refine ⟨decided ++ [(dgram, .transmitted)], ?_, ?_⟩
    · rw [v.waiting_none hnone] at hfates
      show v.history.fates ++ _ = _ ++ waitingSince _ v.waiting
      rw [v.waiting_none hnone, hfates]
      simp [waitingSince]
    · intro x hx
      rcases List.mem_append.mp hx with hx | hx
      · exact hdecided x hx
      · rw [List.mem_singleton.mp hx]
        rfl
  · intro d asked time hd
    rcases List.mem_append.mp hd with hd | hd
    · exact h.dropped d asked time hd
    · cases List.mem_singleton.mp hd

/-- A datagram is given and queued behind those that wait for the same reply. -/
theorem View.Kept.enqueue (h : v.Kept) (hc : v.cache = none) (dgram : InternetDatagram)
    (requests : List Nat) (hr : ∀ time ∈ v.history.requests, time ∈ requests)
    (hlast : v.waiting = [] ∨ requests = v.history.requests) (age : Nat) :
    View.Kept { v with
      pending := some (v.waiting ++ [dgram], age)
      history := { v.history with
        given := v.history.given ++ [dgram]
        fates := v.history.fates ++ [(dgram, .queued (requests.getLast?.getD 0))]
        requests } } := by
  obtain ⟨decided, hfates, hdecided⟩ := h.queue
  have hqueue : v.history.fates =
      decided ++ waitingSince (requests.getLast?.getD 0) v.waiting := by
    rcases hlast with hempty | rfl
    · rw [hfates, hempty]
      rfl
    · exact hfates
  refine ⟨?_, ?_, ⟨decided, ?_, hdecided⟩, ?_, .inl hc⟩
  · simp [h.given]
  · have htransmits := h.transmits
    unfold History.Transmits at htransmits ⊢
    simp [htransmits]
  · show v.history.fates ++ _ = decided ++ waitingSince _ (v.waiting ++ [dgram])
    rw [hqueue]
    simp [waitingSince]
  · intro d asked time hd
    rcases List.mem_append.mp hd with hd | hd
    · obtain ⟨hasked, hlate, hpast⟩ := h.dropped d asked time hd
      exact ⟨hr asked hasked, hlate, hpast⟩
    · cases List.mem_singleton.mp hd

/-- The next hop is heard: the datagrams that waited follow those that were transmitted before. -/
theorem View.Kept.hear (h : v.Kept) (ethernetAddress : EthernetAddress)
    (hp : v.waiting.map IPv4Datagram.serialized = frames.map fun frame => .ok frame.payload) :
    View.Kept { v with
      cache := some (ethernetAddress, 30000)
      pending := none
      history := { v.history with
        fates := v.history.fates.map fun x => (x.1, x.2.release)
        transmitted := v.history.transmitted ++ frames
        heard := some (ethernetAddress, v.now) } } := by
  obtain ⟨decided, hfates, hdecided⟩ := h.queue
  have hreleased : (v.history.fates.map fun x => (x.1, x.2.release)) =
      decided ++ v.waiting.map fun dgram => (dgram, Fate.transmitted) := by
    rw [hfates, List.map_append, map_decided (fun _ => Fate.release_of_decided) hdecided,
      map_waitingSince]
    rfl
  refine ⟨?_, ?_, ⟨_, (List.append_nil _).symm, ?_⟩, ?_, .inr rfl⟩
  · rw [map_fst_fates]
    exact h.given
  · have htransmits := h.transmits
    unfold History.Transmits at htransmits ⊢
    rw [hfates, List.filter_append, filter_waitingSince, List.append_nil] at htransmits
    show ((v.history.fates.map _).filter _).map _ = _
    rw [hreleased, List.filter_append, List.map_append, htransmits, List.map_append, ← hp,
      List.filter_map]
    simp [Function.comp_def]
  · intro x hx
    obtain ⟨y, -, rfl⟩ := List.mem_map.mp hx
    exact y.2.isQueued_release
  · intro d asked time hd
    obtain ⟨⟨d', fate⟩, hy, heq⟩ := List.mem_map.mp hd
    obtain ⟨rfl, hfate⟩ := Prod.mk.inj heq
    obtain rfl := Fate.release_eq_dropped hfate
    exact h.dropped _ asked time hy

/-- A tick that leaves a queue alone. -/
theorem View.Kept.pass (h : v.Kept)
    (hm : v.pending.bind (tickPending ms) = some (v.waiting, time)) :
    View.Kept { v with
      cache := v.cache.bind (tickCache ms)
      pending := v.pending.bind (tickPending ms)
      now := v.now + ms } := by
  have hc : v.cache = none := by
    refine h.known.resolve_right fun hp => ?_
    rw [hp] at hm
    cases hm
  refine ⟨h.given, h.transmits, ?_, ?_, .inl (by rw [hc]; rfl)⟩
  · obtain ⟨decided, hfates, hdecided⟩ := h.queue
    refine ⟨decided, ?_, hdecided⟩
    rw [View.waiting_some (v := { v with
      cache := v.cache.bind (tickCache ms), pending := v.pending.bind (tickPending ms)
      now := v.now + ms }) hm]
    exact hfates
  · intro d asked time hd
    obtain ⟨hasked, hlate, hpast⟩ := h.dropped d asked time hd
    exact ⟨hasked, hlate, Nat.le_add_right_of_le hpast⟩

/-- A tick that ends a queue: its entry was there for longer than the patience. -/
theorem View.Kept.drop (h : v.Kept) (ha : v.Asked) (hlt : v.now + ms < 2 ^ 64)
    (hm : v.pending.bind (tickPending ms) = none) :
    View.Kept {
      cache := v.cache.bind (tickCache ms)
      pending := v.pending.bind (tickPending ms)
      now := v.now + ms
      history := { v.history with
        fates := v.history.fates.map fun x => (x.1, x.2.drop (v.now + ms)) } } := by
  obtain ⟨decided, hfates, hdecided⟩ := h.queue
  refine ⟨?_, ?_, ?_, ?_, .inr hm⟩
  · rw [map_fst_fates]
    exact h.given
  · have htransmits := h.transmits
    unfold History.Transmits at htransmits ⊢
    rw [filter_transmitted_map (Fate.isTransmitted_drop _)]
    exact htransmits
  · refine ⟨v.history.fates.map fun x => (x.1, x.2.drop (v.now + ms)), ?_, ?_⟩
    · rw [View.waiting_none hm]
      exact (List.append_nil _).symm
    · intro x hx
      obtain ⟨y, -, rfl⟩ := List.mem_map.mp hx
      exact y.2.isQueued_drop _
  · intro d asked time hd
    have hd : (d, Fate.dropped asked time) ∈ v.history.fates.map fun x =>
      (x.1, x.2.drop (v.now + ms)) := hd
    rw [hfates, List.map_append, map_decided (fun _ => Fate.drop_of_decided _) hdecided,
      map_waitingSince] at hd
    rcases List.mem_append.mp hd with hd | hd
    · obtain ⟨hasked, hlate, hpast⟩ := h.dropped d asked time (hfates ▸ List.mem_append_left _ hd)
      exact ⟨hasked, hlate, Nat.le_add_right_of_le hpast⟩
    · obtain ⟨d', hd', heq⟩ := List.mem_map.mp hd
      cases hp : v.pending with
      | none =>
        rw [View.waiting_none hp] at hd'
        cases hd'
      | some entry =>
        obtain ⟨-, last, hlast, hnow⟩ := ha.entry entry.1 entry.2 hp
        rw [ha.tick_pending hlt hp] at hm
        have hold : ¬entry.2 + ms ≤ patience := fun hle => by
          rw [if_pos hle] at hm
          cases hm
        rw [hlast] at heq
        cases heq
        exact ⟨List.mem_of_getLast? hlast, by simp only [Option.getD_some]; omega, Nat.le_refl _⟩

/-- Every datagram that was given can be serialized. -/
def History.Serializable (h : History) : Prop := ∀ dgram ∈ h.given, dgram.header.ver = 4

theorem View.Move.given (hm : v.Move v') : v.history.given <+: v'.history.given := by
  cases hm with
  | other | hear | interrupt | tick => exact List.prefix_rfl
  | transmit | request | wait | refuse => exact List.prefix_append _ _

/-- What waits was given. -/
theorem View.Kept.given_of_waiting (h : v.Kept) (hd : dgram ∈ v.waiting) :
    dgram ∈ v.history.given := by
  obtain ⟨decided, hfates, -⟩ := h.queue
  rw [← h.given, hfates, List.map_append]
  refine List.mem_append_right _ (List.mem_map.mpr ?_)
  exact ⟨_, List.mem_map_of_mem hd, rfl⟩

theorem View.Kept.move (h : v.Kept) (ha : v.Asked) (hs : v'.history.Serializable)
    (hlt : v'.now < 2 ^ 64) (hm : v.Move v') : v'.Kept := by
  cases hm with
  | other => exact h
  | transmit dgram frame ttl cached payload =>
    exact h.transmit (by rw [cached]; exact Option.some_ne_none _) payload
  | request dgram unknown wanted =>
    have hmove := h.enqueue unknown dgram (v.history.requests ++ [v.now])
      (fun _ ht => List.mem_append_left _ ht) (.inl (View.waiting_none (ha.no_entry wanted)))
      (v.pending.getD ([], 0)).2
    rw [List.getLast?_concat] at hmove
    exact hmove
  | wait dgram queue age unknown asked recent =>
    obtain rfl := View.waiting_some asked
    exact h.enqueue unknown dgram v.history.requests (fun _ ht => ht) (.inr rfl) age
  | hear ethernetAddress frames payloads => exact h.hear ethernetAddress payloads
  | refuse dgram known version =>
    exact absurd (hs dgram (List.mem_append_right _ (List.mem_singleton_self _))) version
  | interrupt ethernetAddress frames dgram waits version =>
    exact absurd (hs dgram (h.given_of_waiting waits)) version
  | tick ms =>
    cases hp : v.pending.bind (tickPending ms) with
    | none =>
      have hmove := h.drop ha hlt hp
      rw [hp] at hmove
      exact hmove
    | some entry =>
      have hmove := h.pass (View.waiting_tick hp ▸ hp)
      rw [hp] at hmove
      simpa using hmove

/-! ## Runs -/

/-- What there is to say about the datagrams given for `ip`. -/
structure Conserved (s : Session) (ip : UInt32) : Prop where
  /-- Every datagram has one fate. -/
  given : (s.history ip).fates.map Prod.fst = (s.history ip).given
  /-- Those that are transmitted are the frames for `ip`, in the order in which they were given. -/
  transmitted : ((s.history ip).fates.filter (·.2.isTransmitted)).map (·.1.serialized) =
    (s.history ip).transmitted.map fun frame => .ok frame.payload
  /-- Those that are queued are in the pending entry. -/
  queued : ((s.history ip).fates.filter (·.2.isQueued)).map Prod.fst = s.interface.waiting ip
  /-- Those that are dropped were dropped more than five seconds after the request for them. -/
  dropped : ∀ dgram asked time, (dgram, Fate.dropped asked time) ∈ (s.history ip).fates →
    asked ∈ (s.history ip).requests ∧ asked + 5000 < time ∧ time ≤ s.now
  exclusive : s.interface.arpCache ip = none ∨ s.interface.pendingArpRequests ip = none

/-- In every run of less than `2 ^ 64` milliseconds the datagrams for a next hop are conserved, if
all that were given for it have the version 4, the only one that can be serialized. -/
theorem conservation (ethernetAddress : EthernetAddress) (ipAddress : Address) (s : Session)
    (hr : (Session.machine ethernetAddress ipAddress).Reaches
      (Session.Within (· < 2 ^ 64)) s) (ip : UInt32)
    (hversion : ∀ dgram ∈ (s.history ip).given, dgram.header.ver = 4) : Conserved s ip := by
  obtain ⟨-, hkept⟩ := view_invariant (P := fun v => v.Asked ∧ (v.history.Serializable → v.Kept))
    hr ip ⟨.new, fun _ => .new⟩ fun v v' h hlt hm => ⟨h.1.move hlt hm, fun hs => by
      have hbefore : v.history.Serializable := fun d hd => hs d (hm.given.subset hd)
      exact (h.2 hbefore).move h.1 hs hlt hm⟩
  replace hkept : (s.view ip).Kept := hkept hversion
  refine ⟨hkept.given, hkept.transmits, ?_, hkept.dropped, hkept.known⟩
  obtain ⟨decided, hfates, hdecided⟩ := hkept.queue
  have hfates : (s.history ip).fates = _ := hfates
  rw [hfates, List.filter_append, List.filter_eq_nil_iff.mpr fun x hx => by simp [hdecided x hx],
    List.nil_append]
  unfold waitingSince
  rw [List.filter_map, List.map_map]
  simp [Function.comp_def, Fate.isQueued]
  rfl

/-- One datagram waits until its host is heard, and one is dropped. -/
theorem conservation_two : ∃ s : Session, (s.history 7).transmitted.length = 1 ∧
    (s.history 8).fates = [({}, .dropped 0 5001)] ∧ Conserved s 7 ∧ Conserved s 8 := by
  obtain ⟨s, hs, htransmitted, hfates, h7, h8⟩ := Machine.exists_reaches Session.next
    (Session.new { b₅ := 1 } { ipv4Numeric := 1 }) (Session.Within (· < 2 ^ 64))
    (fun s => (s.history 7).transmitted.length = 1 ∧
      (s.history 8).fates = [({}, .dropped 0 5001)] ∧
      (∀ dgram ∈ (s.history 7).given, dgram.header.ver = 4) ∧
      ∀ dgram ∈ (s.history 8).given, dgram.header.ver = 4)
    [.sendDatagram {} { ipv4Numeric := 7 }, .sendDatagram {} { ipv4Numeric := 8 },
      .recvFrame replyFrame, .tick 5001]
    (by decide +kernel) (by decide +kernel)
  exact ⟨s, htransmitted, hfates, conservation _ _ s hs 7 h7, conservation _ _ s hs 8 h8⟩

/-- Two datagrams wait for the host 7, the second one of version 5. When the host is heard, the
first one is transmitted and the second one makes the call throw: the first one is transmitted and
queued, and the host is known and asked for. When it is heard again, the first one is transmitted a
second time. -/
theorem transmitted_and_queued :
    (∃ s, (Session.machine { b₅ := 1 } { ipv4Numeric := 1 }).Reaches
      (Session.Within (· < 2 ^ 64)) s ∧
      (s.history 7).transmitted.map (fun frame => Except.ok (ε := WireFault) frame.payload) =
        [IPv4Datagram.serialized {}] ∧
      s.interface.waiting 7 = [{}, { header := { ver := 5 } }] ∧
      s.interface.arpCache 7 ≠ none ∧ s.interface.pendingArpRequests 7 ≠ none) ∧
    ∃ s, (Session.machine { b₅ := 1 } { ipv4Numeric := 1 }).Reaches
      (Session.Within (· < 2 ^ 64)) s ∧
      (s.history 7).given = [{}, { header := { ver := 5 } }] ∧
      (s.history 7).transmitted.map (fun frame => Except.ok (ε := WireFault) frame.payload) =
        [IPv4Datagram.serialized {}, IPv4Datagram.serialized {}] := by
  constructor
  · exact Machine.exists_reaches Session.next (Session.new { b₅ := 1 } { ipv4Numeric := 1 })
      (Session.Within (· < 2 ^ 64))
      (fun s => (s.history 7).transmitted.map
          (fun frame => Except.ok (ε := WireFault) frame.payload) =
          [IPv4Datagram.serialized {}] ∧
        s.interface.waiting 7 = [{}, { header := { ver := 5 } }] ∧
        s.interface.arpCache 7 ≠ none ∧ s.interface.pendingArpRequests 7 ≠ none)
      [.sendDatagram {} { ipv4Numeric := 7 },
        .sendDatagram { header := { ver := 5 } } { ipv4Numeric := 7 }, .recvFrame replyFrame]
      (by decide +kernel) (by decide +kernel)
  · exact Machine.exists_reaches Session.next (Session.new { b₅ := 1 } { ipv4Numeric := 1 })
      (Session.Within (· < 2 ^ 64))
      (fun s => (s.history 7).given = [{}, { header := { ver := 5 } }] ∧
        (s.history 7).transmitted.map (fun frame => Except.ok (ε := WireFault) frame.payload) =
          [IPv4Datagram.serialized {}, IPv4Datagram.serialized {}])
      [.sendDatagram {} { ipv4Numeric := 7 },
        .sendDatagram { header := { ver := 5 } } { ipv4Numeric := 7 }, .recvFrame replyFrame,
        .recvFrame replyFrame]
      (by decide +kernel) (by decide +kernel)

end NetworkInterface

end Minnow
