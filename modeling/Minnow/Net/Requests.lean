import Minnow.Net.Session

/-!
# How often a next hop is asked for

A request is broadcast when a next hop is unknown and has no pending entry. The entry lives for the
5 seconds after the request, or until the next hop is heard, and then the mapping is known for
longer than that. So whatever is heard, there is an entry or a mapping as long as a request is
recent (`View.Asked`), and the next one comes later (`request_rate`).
-/

namespace Minnow

namespace NetworkInterface

/-- How long a pending entry lives. -/
def patience : Nat := 5000

/-- The requests for a next hop, its pending entry and its mapping. -/
structure View.Asked (v : View) : Prop where
  past : ∀ time ∈ v.history.requests, time ≤ v.now
  apart : v.history.requests.Pairwise fun a b => a + patience < b
  entry : ∀ queue age, v.pending = some (queue, age) → age ≤ patience ∧
    ∃ asked, v.history.requests.getLast? = some asked ∧ v.now = asked + age
  recent : ∀ time ∈ v.history.requests, v.now ≤ time + patience → v.pending ≠ none ∨
    ∃ dst ttl, v.cache = some (dst, ttl) ∧ time + 30000 ≤ v.now + ttl

variable {v v' : View} {s : Session} {ethernetAddress : EthernetAddress} {ipAddress : Address}
  {queue : List InternetDatagram} {age ms time : Nat}

theorem View.Asked.new : View.Asked {} where
  past _ h := absurd h List.not_mem_nil
  apart := List.Pairwise.nil
  entry _ _ h := absurd h (Option.some_ne_none _).symm
  recent _ h := absurd h List.not_mem_nil

/-- An entry is never old enough for a second request. -/
theorem View.Asked.no_entry (h : v.Asked) (hw : v.pending.all (·.2 > 5000) = true) :
    v.pending = none := by
  cases hp : v.pending with
  | none => rfl
  | some entry =>
    have hage := (h.entry entry.1 entry.2 hp).1
    rw [hp, Option.all_some, decide_eq_true_iff] at hw
    unfold patience at hage
    omega

/-- When a next hop is asked for, no request for it is recent. -/
theorem View.Asked.no_recent (h : v.Asked) (hc : v.cache = none) (hp : v.pending = none) :
    ∀ time ∈ v.history.requests, time + patience < v.now := by
  intro time ht
  by_contra hlt
  rcases h.recent time ht (Nat.le_of_not_lt hlt) with hpending | ⟨dst, ttl, hcache, -⟩
  · exact hpending hp
  · rw [hc] at hcache
    cases hcache

/-- The last request is the latest one. -/
theorem View.Asked.le_last (h : v.Asked) {asked : Nat}
    (hl : v.history.requests.getLast? = some asked) (ht : time ∈ v.history.requests) :
    time ≤ asked := by
  obtain ⟨before, hb⟩ := List.getLast?_eq_some_iff.mp hl
  have hapart := h.apart
  rw [hb] at hapart ht
  rcases List.mem_append.mp ht with ht | ht
  · have := (List.pairwise_append.mp hapart).2.2 time ht asked List.mem_cons_self
    omega
  · rw [List.mem_singleton.mp ht]

theorem tickPending_eq (hlt : age + ms < 2 ^ 64) : tickPending ms (queue, age) =
    if age + ms ≤ patience then some (queue, age + ms) else none := by
  unfold tickPending patience
  rw [add64_of_lt hlt]
  by_cases hle : age + ms ≤ 5000
  · rw [if_pos hle, if_neg (Nat.not_lt.mpr hle)]
  · rw [if_neg hle, if_pos (Nat.lt_of_not_le hle)]

/-- The pending entry after a tick. -/
theorem View.Asked.tick_pending (h : v.Asked) (hlt : v.now + ms < 2 ^ 64)
    (hp : v.pending = some (queue, age)) : v.pending.bind (tickPending ms) =
      if age + ms ≤ patience then some (queue, age + ms) else none := by
  obtain ⟨-, asked, -, hnow⟩ := h.entry queue age hp
  rw [hp, Option.bind_some, tickPending_eq (by omega)]

theorem View.Asked.request (h : v.Asked) (unknown : v.cache = none)
    (wanted : v.pending.all (·.2 > 5000) = true) (queue : List InternetDatagram)
    (history : History) (hh : history.requests = v.history.requests ++ [v.now]) :
    View.Asked { v with pending := some (queue, (v.pending.getD ([], 0)).2), history } := by
  have hp := h.no_entry wanted
  have hold := h.no_recent unknown hp
  refine ⟨?_, ?_, ?_, ?_⟩
  · intro time ht
    rw [hh] at ht
    rcases List.mem_append.mp ht with ht | ht
    · exact h.past time ht
    · rw [List.mem_singleton.mp ht]
  · rw [hh]
    refine List.pairwise_append.mpr ⟨h.apart, List.pairwise_singleton _ _, fun a ha b hb => ?_⟩
    rw [List.mem_singleton.mp hb]
    exact hold a ha
  · rintro _ _ ⟨⟩
    rw [hp, hh]
    exact ⟨Nat.zero_le _, v.now, List.getLast?_concat, rfl⟩
  · exact fun _ _ _ => .inl (Option.some_ne_none _)

theorem View.Asked.tick (h : v.Asked) (hlt : v.now + ms < 2 ^ 64) (history : History)
    (hh : history.requests = v.history.requests) :
    View.Asked {
      cache := v.cache.bind (tickCache ms)
      pending := v.pending.bind (tickPending ms)
      now := v.now + ms
      history } := by
  refine ⟨?_, hh ▸ h.apart, ?_, ?_⟩
  · intro time ht
    have := h.past time (hh ▸ ht)
    show time ≤ v.now + ms
    omega
  · intro queue age hp
    cases hv : v.pending with
    | none =>
      rw [hv] at hp
      cases hp
    | some entry =>
      obtain ⟨-, asked, hlast, hnow⟩ := h.entry entry.1 entry.2 hv
      have hp : v.pending.bind (tickPending ms) = some (queue, age) := hp
      rw [h.tick_pending hlt hv] at hp
      split at hp
      · rename_i hle
        obtain ⟨rfl, rfl⟩ := Prod.mk.inj (Option.some.inj hp)
        refine ⟨hle, asked, hh ▸ hlast, ?_⟩
        show v.now + ms = asked + (entry.2 + ms)
        omega
      · cases hp
  · intro time ht hrecent
    have hrecent : v.now + ms ≤ time + patience := hrecent
    rcases h.recent time (hh ▸ ht) (by omega) with hpending | ⟨dst, ttl, hcache, httl⟩
    · left
      obtain ⟨entry, hv⟩ := Option.ne_none_iff_exists'.mp hpending
      obtain ⟨-, asked, hlast, hnow⟩ := h.entry entry.1 entry.2 hv
      have hle := h.le_last hlast (hh ▸ ht)
      show v.pending.bind (tickPending ms) ≠ none
      rw [h.tick_pending hlt hv, if_pos (by omega)]
      exact Option.some_ne_none _
    · right
      refine ⟨dst, ttl - ms, ?_, ?_⟩
      · show v.cache.bind (tickCache ms) = _
        unfold patience at hrecent
        rw [hcache, Option.bind_some, tickCache, if_neg (by simp only; omega)]
      · show time + 30000 ≤ v.now + ms + (ttl - ms)
        omega

theorem View.Asked.move (h : v.Asked) (hlt : v'.now < 2 ^ 64) (hm : v.Move v') : v'.Asked := by
  cases hm with
  | other => exact h
  | transmit dgram frame ttl cached payload => exact ⟨h.past, h.apart, h.entry, h.recent⟩
  | request dgram unknown wanted => exact h.request unknown wanted _ _ rfl
  | wait dgram queue age unknown asked recent =>
    refine ⟨h.past, h.apart, ?_, fun _ _ _ => .inl (Option.some_ne_none _)⟩
    rintro _ _ ⟨⟩
    exact h.entry queue age asked
  | hear ethernetAddress frames payloads =>
    refine ⟨h.past, h.apart, fun _ _ hp => absurd hp (Option.some_ne_none _).symm, ?_⟩
    intro time ht _
    refine .inr ⟨ethernetAddress, 30000, rfl, ?_⟩
    have := h.past time ht
    show time + 30000 ≤ v.now + 30000
    omega
  | refuse dgram known version => exact ⟨h.past, h.apart, h.entry, h.recent⟩
  | interrupt ethernetAddress frames dgram waits version =>
    refine ⟨h.past, h.apart, h.entry, fun time ht _ => .inr ⟨ethernetAddress, 30000, rfl, ?_⟩⟩
    have := h.past time ht
    show time + 30000 ≤ v.now + 30000
    omega
  | tick ms => exact h.tick hlt _ rfl

/-- In every run of less than `2 ^ 64` milliseconds, the requests for an address are more than five
seconds apart, and an address for which datagrams wait was asked for in the last five seconds. -/
theorem request_rate (ethernetAddress : EthernetAddress) (ipAddress : Address) (s : Session)
    (hr : (Session.machine ethernetAddress ipAddress).Reaches
      (Session.Within (· < 2 ^ 64)) s) (ip : UInt32) :
    (s.history ip).requests.Pairwise (fun a b => a + 5000 < b) ∧
    (s.interface.waiting ip ≠ [] →
      ∃ time ∈ (s.history ip).requests, time ≤ s.now ∧ s.now ≤ time + 5000) := by
  have hasked : (s.view ip).Asked :=
    view_invariant hr ip .new fun _ _ h hlt hm => h.move hlt hm
  refine ⟨hasked.apart, fun hne => ?_⟩
  cases hp : s.interface.pendingArpRequests ip with
  | none =>
    unfold waiting at hne
    rw [hp] at hne
    exact absurd rfl hne
  | some entry =>
    obtain ⟨hage, asked, hlast, hnow⟩ := hasked.entry entry.1 entry.2 hp
    have hnow : s.now = asked + entry.2 := hnow
    unfold patience at hage
    exact ⟨asked, List.mem_of_getLast? hlast, by omega, by omega⟩

/-- Two datagrams for a host that is not heard, the second one after its entry has ended. -/
theorem request_rate_twice : ∃ s : Session, (s.history 7).requests = [0, 5001] ∧
    s.interface.waiting 7 = [{ header := { ttl := 9 } }] ∧
    (s.history 7).requests.Pairwise (fun a b => a + 5000 < b) := by
  obtain ⟨s, hs, hrequests, hwaiting⟩ := Machine.exists_reaches Session.next
    (Session.new { b₅ := 1 } { ipv4Numeric := 1 }) (Session.Within (· < 2 ^ 64))
    (fun s => (s.history 7).requests = [0, 5001] ∧
      s.interface.waiting 7 = [{ header := { ttl := 9 } }])
    [.sendDatagram {} { ipv4Numeric := 7 }, .tick 5001,
      .sendDatagram { header := { ttl := 9 } } { ipv4Numeric := 7 }]
    (by decide +kernel) (by decide +kernel)
  exact ⟨s, hrequests, hwaiting, (request_rate _ _ s hs 7).1⟩

end NetworkInterface

end Minnow
