import Minnow.Net.Routing
import Minnow.Lib.LatestMax

/-!
# The routes that were added

`addRoutes` makes a list of calls of `add_route`. Under a length and a prefix the table has the
route of the last call with these (`routes_addRoutes`). The lookup asks for one prefix of each
length, from the longest length on, so it finds the last of the longest routes that are stored where
it looks: `lookup_searched`. If no call has bits below its prefix, these are the routes that cover
the destination, and what is found is the longest match: `lookup_best`.
-/

namespace Minnow

/-- The arguments of a call of `add_route`. -/
structure RouteCall where
  routePrefix : UInt32
  prefixLength : UInt8
  nextHop : Option Address
  interfaceNum : Nat
  deriving DecidableEq

namespace RouteCall

/-- `next_dst`. -/
def route (c : RouteCall) : RouteToNext where
  nextHop := c.nextHop
  interfaceNum := c.interfaceNum

def run (c : RouteCall) (r : Router) : Router :=
  r.addRoute c.routePrefix c.prefixLength c.nextHop c.interfaceNum

/-- The upper bits of the route and of the destination are equal. -/
def Covers (dst : UInt32) (c : RouteCall) : Prop :=
  RoutingTable.SamePrefix c.prefixLength.toNat c.routePrefix dst

instance (dst : UInt32) (c : RouteCall) : Decidable (c.Covers dst) :=
  inferInstanceAs (Decidable (_ / _ = _ / _))

/-- The prefix fits into an address, the bits below it are zero, and the interface exists. -/
structure Proper (interfaces : Nat) (c : RouteCall) : Prop where
  short : c.prefixLength ≤ 32
  noHostBits : c.routePrefix.toNat % 2 ^ (32 - c.prefixLength.toNat) = 0
  valid : c.interfaceNum < interfaces

/-- The prefix fits into an address, and the bits below it are zero. -/
structure Canonical (c : RouteCall) : Prop where
  short : c.prefixLength ≤ 32
  noHostBits : c.routePrefix.toNat % 2 ^ (32 - c.prefixLength.toNat) = 0

instance (interfaces : Nat) (c : RouteCall) : Decidable (c.Proper interfaces) :=
  decidable_of_iff (c.prefixLength ≤ 32 ∧
      c.routePrefix.toNat % 2 ^ (32 - c.prefixLength.toNat) = 0 ∧ c.interfaceNum < interfaces)
    ⟨fun ⟨h₁, h₂, h₃⟩ => ⟨h₁, h₂, h₃⟩, fun ⟨h₁, h₂, h₃⟩ => ⟨h₁, h₂, h₃⟩⟩

/-- The call is the last one of those that have the longest prefix of all that cover `dst`. -/
def Best (calls : List RouteCall) (dst : UInt32) (c : RouteCall) : Prop :=
  LatestMax (Covers dst) (fun c => c.prefixLength.toNat) calls c

/-- The call is stored where the search for `dst` looks: under `dst` without its host bits. For the
length zero it looks under `dst` itself, and under zero if nothing is there. -/
def Searched (calls : List RouteCall) (dst : UInt32) (c : RouteCall) : Prop :=
  if c.prefixLength.toNat = 0 then c.routePrefix = dst ∨
    c.routePrefix = 0 ∧ ∀ d ∈ calls, d.prefixLength.toNat = 0 → d.routePrefix ≠ dst
  else c.routePrefix = RoutingTable.clearHostBits c.prefixLength.toFin dst

instance (calls : List RouteCall) (dst : UInt32) (c : RouteCall) :
    Decidable (Searched calls dst c) := by
  unfold Searched
  infer_instance

/-- The call is for this length and this prefix. -/
def isFor (prefixLength : Fin 256) (routePrefix : UInt32) (c : RouteCall) : Bool :=
  c.prefixLength.toFin == prefixLength && c.routePrefix == routePrefix

variable {calls : List RouteCall} {c : RouteCall} {dst routePrefix : UInt32}
  {prefixLength : Fin 256} {interfaces : Nat}

theorem isFor_iff : c.isFor prefixLength routePrefix = true ↔
    c.prefixLength.toFin = prefixLength ∧ c.routePrefix = routePrefix := by
  simp [isFor]

theorem Proper.canonical (h : c.Proper interfaces) : c.Canonical := ⟨h.short, h.noHostBits⟩

/-- Where the search looks there are routes that cover the destination only. -/
theorem Searched.covers (h : Searched calls dst c) : c.Covers dst := by
  unfold Searched at h
  unfold Covers
  split at h
  · rename_i h0
    rw [h0]
    exact RoutingTable.samePrefix_zero _ _
  · rw [h]
    exact RoutingTable.samePrefix_clearHostBits _ dst

theorem Canonical.covers_iff (h : c.Canonical) :
    c.Covers dst ↔ c.routePrefix = RoutingTable.clearHostBits c.prefixLength.toFin dst := by
  have hbits := h.noHostBits
  by_cases h0 : c.prefixLength.toFin = 0
  · have hzero : c.prefixLength.toNat = 0 := congrArg Fin.val h0
    rw [hzero, Nat.mod_eq_of_lt c.routePrefix.toNat_lt] at hbits
    rw [h0, RoutingTable.clearHostBits_zero]
    refine iff_of_true ?_ (UInt32.toNat_inj.mp hbits)
    unfold Covers
    rw [hzero]
    exact RoutingTable.samePrefix_zero _ _
  · have hclear := RoutingTable.clearHostBits_toNat h0 dst
    have hsplit := Nat.div_add_mod' c.routePrefix.toNat (2 ^ (32 - c.prefixLength.toNat))
    rw [hbits, Nat.add_zero] at hsplit
    rw [← UInt32.toNat_inj, hclear]
    constructor
    · intro hcovers
      have hcovers : c.routePrefix.toNat / _ = dst.toNat / _ := hcovers
      rw [← hsplit, hcovers]
      rfl
    · intro heq
      show c.routePrefix.toNat / _ = dst.toNat / _
      rw [heq]
      exact Nat.mul_div_cancel _ (Nat.two_pow_pos _)

theorem Canonical.routePrefix_eq_zero (h : c.Canonical) (h0 : c.prefixLength.toNat = 0) :
    c.routePrefix = 0 := by
  have hbits := h.noHostBits
  rw [h0, Nat.mod_eq_of_lt c.routePrefix.toNat_lt] at hbits
  exact UInt32.toNat_inj.mp hbits

/-- Without host bits the search looks where the routes are that cover the destination. -/
theorem Canonical.searched_iff (h : ∀ c ∈ calls, c.Canonical) (hc : c ∈ calls) :
    Searched calls dst c ↔ c.Covers dst := by
  refine ⟨Searched.covers, fun hcovers => ?_⟩
  unfold Searched
  split
  · rename_i h0
    have hzero := (h c hc).routePrefix_eq_zero h0
    by_cases hdst : dst = 0
    · exact .inl (hzero.trans hdst.symm)
    · refine .inr ⟨hzero, fun d hd hd0 => ?_⟩
      rw [(h d hd).routePrefix_eq_zero hd0]
      exact Ne.symm hdst
  · exact (h c hc).covers_iff.mp hcovers

end RouteCall

namespace RoutingTable

variable {t : RoutingTable} {entries : List (Fin 256 × Routes)} {dst : UInt32}
  {prefixLength : Fin 256} {route : RouteToNext}

theorem routes_set (t : RoutingTable) (prefixLength prefixLength' : Fin 256) (routes : Routes) :
    RoutingTable.routes (t.set prefixLength routes) prefixLength' =
      if prefixLength' = prefixLength then routes else t.routes prefixLength' := by
  unfold RoutingTable.routes
  rw [OrdMap.find?_set]
  split <;> rfl

theorem routes_of_mem {entry : Fin 256 × Routes} (h : entry ∈ t.entries) :
    t.routes entry.1 = entry.2 := by
  unfold routes
  rw [OrdMap.find?_eq_some.mpr ⟨h, rfl⟩]
  rfl

theorem mem_of_routes {routePrefix : UInt32} (h : t.routes prefixLength routePrefix = some route) :
    (prefixLength, t.routes prefixLength) ∈ t.entries := by
  cases hfind : t.entries.find? (·.1 == prefixLength) with
  | none =>
    unfold routes at h
    rw [hfind] at h
    cases h
  | some entry =>
    obtain ⟨hmem, rfl⟩ := OrdMap.find?_eq_some.mp hfind
    rw [routes_of_mem hmem]
    exact hmem

/-- What the search finds at one length. -/
def searchAt (dst : UInt32) (prefixLength : Fin 256) (routes : Routes) : Option RouteToNext :=
  if prefixLength.val = 0 then (routes dst).or (routes 0)
  else routes (clearHostBits prefixLength dst)

theorem lookupIn_eq (hs : ∀ entry ∈ entries, entry.1 ≤ 32) :
    lookupIn entries dst = .ok (entries.findSome? fun entry => searchAt dst entry.1 entry.2) := by
  induction entries with
  | nil => rfl
  | cons entry rest ih =>
    have hsearched : ∃ routePrefix, dstRoutePrefix entry.1 entry.2 dst = .ok routePrefix ∧
        entry.2 routePrefix = searchAt dst entry.1 entry.2 := by
      unfold dstRoutePrefix searchAt
      by_cases h0 : entry.1 = 0
      · have hval : entry.1.val = 0 := congrArg Fin.val h0
        rw [if_pos h0, if_pos hval]
        cases hdst : entry.2 dst with
        | none => exact ⟨0, rfl, rfl⟩
        | some route => exact ⟨dst, rfl, hdst⟩
      · have hval : ¬entry.1.val = 0 := fun h => h0 (Fin.ext h)
        rw [if_neg h0, if_neg hval, if_pos (hs entry List.mem_cons_self)]
        exact ⟨_, rfl, rfl⟩
    obtain ⟨routePrefix, hsearched, hat⟩ := hsearched
    unfold lookupIn
    rw [hsearched, ok_bind, hat, List.findSome?_cons]
    cases searchAt dst entry.1 entry.2 with
    | some route => rfl
    | none => exact ih fun x hx => hs x (List.mem_cons_of_mem _ hx)

theorem lookup_eq (hs : t.Short) (dst : UInt32) : t.lookup dst =
    .ok (t.entries.reverse.findSome? fun entry => searchAt dst entry.1 entry.2) :=
  lookupIn_eq fun entry h => hs entry (List.mem_reverse.mp h)

theorem mem_of_searchAt (h : searchAt dst prefixLength (t.routes prefixLength) = some route) :
    (prefixLength, t.routes prefixLength) ∈ t.entries := by
  unfold searchAt at h
  split at h
  · rcases Option.or_eq_some_iff.mp h with h | ⟨-, h⟩ <;> exact mem_of_routes h
  · exact mem_of_routes h

/-- The lookup finds what is found at a length, if nothing is found at a greater one. -/
theorem lookup_longest (hs : t.Short)
    (hroute : searchAt dst prefixLength (t.routes prefixLength) = some route)
    (hlonger : ∀ longer, prefixLength < longer → searchAt dst longer (t.routes longer) = none) :
    t.lookup dst = .ok (some route) := by
  obtain ⟨shorter, longer, hsplit⟩ := List.append_of_mem (mem_of_searchAt hroute)
  have hsorted := t.sorted
  rw [hsplit] at hsorted
  have hbehind := (List.pairwise_cons.mp (List.pairwise_append.mp hsorted).2.1).1
  rw [lookup_eq hs, List.findSome?_eq_some_iff.mpr]
  refine ⟨longer.reverse, (prefixLength, t.routes prefixLength), shorter.reverse, by simp [hsplit],
    hroute, fun entry h => ?_⟩
  have hentry : entry ∈ longer := List.mem_reverse.mp h
  have hmem : entry ∈ t.entries := by
    rw [hsplit]
    exact List.mem_append_right _ (List.mem_cons_of_mem _ hentry)
  rw [← routes_of_mem hmem]
  exact hlonger entry.1 (hbehind entry hentry)

theorem lookup_nothing (hs : t.Short)
    (hnone : ∀ prefixLength, searchAt dst prefixLength (t.routes prefixLength) = none) :
    t.lookup dst = .ok none := by
  rw [lookup_eq hs, List.findSome?_eq_none_iff.mpr]
  intro entry h
  rw [← routes_of_mem (List.mem_reverse.mp h)]
  exact hnone entry.1

end RoutingTable

namespace Router

open RoutingTable RouteCall

def addRoutes (r : Router) (calls : List RouteCall) : Router :=
  calls.foldl (fun r c => c.run r) r

variable {r : Router} {calls : List RouteCall} {c : RouteCall} {dst : UInt32} {n : Nat}

@[simp] theorem addRoutes_cons (r : Router) (c : RouteCall) (calls : List RouteCall) :
    r.addRoutes (c :: calls) = (c.run r).addRoutes calls := rfl

@[simp] theorem addRoutes_interfaces (r : Router) (calls : List RouteCall) :
    (r.addRoutes calls).interfaces = r.interfaces := by
  induction calls generalizing r with
  | nil => rfl
  | cons c calls ih => exact ih (c.run r)

theorem routes_run (r : Router) (c : RouteCall) (prefixLength : Fin 256) (routePrefix : UInt32) :
    (c.run r).routingTable.routes prefixLength routePrefix =
      if c.isFor prefixLength routePrefix then some c.route
      else r.routingTable.routes prefixLength routePrefix := by
  unfold RouteCall.run addRoute
  rw [routes_set]
  by_cases hlength : prefixLength = c.prefixLength.toFin
  · subst hlength
    by_cases hp : routePrefix = c.routePrefix
    · simp [isFor, RouteCall.route, hp]
    · simp [isFor, hp, Ne.symm hp]
  · have hother : c.isFor prefixLength routePrefix = false := by
      simp [isFor, Ne.symm hlength]
    rw [if_neg hlength, hother]
    rfl

/-- A call replaces what an earlier one has stored under the same length and the same prefix. -/
theorem routes_addRoutes (r : Router) (calls : List RouteCall) (prefixLength : Fin 256)
    (routePrefix : UInt32) :
    (r.addRoutes calls).routingTable.routes prefixLength routePrefix =
      ((calls.reverse.find? (isFor prefixLength routePrefix)).map RouteCall.route).or
        (r.routingTable.routes prefixLength routePrefix) := by
  induction calls generalizing r with
  | nil => rfl
  | cons c calls ih =>
    rw [addRoutes_cons, ih, routes_run, List.reverse_cons, List.find?_append]
    cases calls.reverse.find? (isFor prefixLength routePrefix) with
    | some later => rfl
    | none => cases hc : c.isFor prefixLength routePrefix <;> simp [hc]

theorem short_addRoutes (hs : r.routingTable.Short) (h : ∀ c ∈ calls, c.prefixLength ≤ 32) :
    (r.addRoutes calls).routingTable.Short := by
  induction calls generalizing r with
  | nil => exact hs
  | cons c calls ih =>
    refine ih (fun entry hentry => ?_) fun c hc => h c (List.mem_cons_of_mem _ hc)
    rcases (OrdMap.mem_set _ _ _ _).mp hentry with rfl | ⟨hentry, -⟩
    · exact UInt8.le_iff_toNat_le.mp (h c List.mem_cons_self)
    · exact hs entry hentry

/-! ## A router whose table consists of the routes that were added -/

/-- The router with these interfaces, after these calls. -/
def withRoutes (interfaces : List NetworkInterface) (calls : List RouteCall) : Router :=
  addRoutes { interfaces } calls

variable {interfaces : List NetworkInterface}

/-- What is stored comes from a call. -/
theorem routes_withRoutes (interfaces : List NetworkInterface) (calls : List RouteCall)
    (prefixLength : Fin 256) (routePrefix : UInt32) :
    (withRoutes interfaces calls).routingTable.routes prefixLength routePrefix =
      (calls.reverse.find? (isFor prefixLength routePrefix)).map RouteCall.route := by
  unfold withRoutes
  rw [routes_addRoutes]
  exact Option.or_none

theorem mem_of_routes_withRoutes {prefixLength : Fin 256} {routePrefix : UInt32}
    {route : RouteToNext} (h : (withRoutes interfaces calls).routingTable.routes prefixLength
      routePrefix = some route) :
    ∃ c ∈ calls, c.prefixLength.toFin = prefixLength ∧ c.routePrefix = routePrefix ∧
      c.route = route := by
  rw [routes_withRoutes] at h
  obtain ⟨c, hc, hroute⟩ := Option.map_eq_some_iff.mp h
  obtain ⟨hlength, hp⟩ := isFor_iff.mp (List.find?_some hc)
  exact ⟨c, List.mem_reverse.mp (List.mem_of_find?_eq_some hc), hlength, hp, hroute⟩

theorem valid_withRoutes (h : ∀ c ∈ calls, c.Proper interfaces.length) :
    Valid (withRoutes interfaces calls).routingTable
      (withRoutes interfaces calls).interfaces.length := by
  intro entry hentry routePrefix route hroute
  rw [← routes_of_mem hentry] at hroute
  obtain ⟨c, hc, -, -, rfl⟩ := mem_of_routes_withRoutes hroute
  unfold withRoutes
  rw [addRoutes_interfaces]
  exact (h c hc).valid

/-- What is found at a length comes from a call that is stored where the search looks. -/
theorem searched_of_searchAt {prefixLength : Fin 256} {route : RouteToNext}
    (hroute : searchAt dst prefixLength ((withRoutes interfaces calls).routingTable.routes
      prefixLength) = some route) :
    ∃ c ∈ calls, c.prefixLength.toFin = prefixLength ∧ Searched calls dst c := by
  unfold searchAt at hroute
  split at hroute
  · rename_i h0
    rcases Option.or_eq_some_iff.mp hroute with hroute | ⟨hnone, hroute⟩
    · obtain ⟨c, hc, rfl, hp, -⟩ := mem_of_routes_withRoutes hroute
      refine ⟨c, hc, rfl, ?_⟩
      rw [Searched, if_pos (show c.prefixLength.toNat = 0 from h0)]
      exact .inl hp
    · obtain ⟨c, hc, rfl, hp, -⟩ := mem_of_routes_withRoutes hroute
      refine ⟨c, hc, rfl, ?_⟩
      rw [Searched, if_pos (show c.prefixLength.toNat = 0 from h0)]
      refine .inr ⟨hp, fun d hd hd0 hdst => ?_⟩
      rw [routes_withRoutes, Option.map_eq_none_iff, List.find?_eq_none] at hnone
      exact hnone d (List.mem_reverse.mpr hd) (isFor_iff.mpr ⟨Fin.ext (hd0.trans h0.symm), hdst⟩)
  · rename_i h0
    obtain ⟨c, hc, rfl, hp, -⟩ := mem_of_routes_withRoutes hroute
    refine ⟨c, hc, rfl, ?_⟩
    rw [Searched, if_neg (show ¬c.prefixLength.toNat = 0 from h0)]
    exact hp

/-- The last one of the longest calls where the search looks is what the table has there. -/
theorem searchAt_latestMax
    (h : LatestMax (Searched calls dst) (fun c => c.prefixLength.toNat) calls c) :
    searchAt dst c.prefixLength.toFin ((withRoutes interfaces calls).routingTable.routes
      c.prefixLength.toFin) = some c.route := by
  have hpicked := h.picked
  -- all the calls for a prefix where the search looks are later or shorter ones
  have hstored : ∀ routePrefix, c.routePrefix = routePrefix →
      (∀ d : RouteCall, d.prefixLength.toFin = c.prefixLength.toFin → d.routePrefix = routePrefix →
        Searched calls dst d) →
      (withRoutes interfaces calls).routingTable.routes c.prefixLength.toFin routePrefix =
        some c.route := by
    intro routePrefix hp hall
    rw [routes_withRoutes, h.find?_reverse (isFor_iff.mpr ⟨rfl, hp⟩)]
    · rfl
    · intro d hd
      obtain ⟨hlength, hp⟩ := isFor_iff.mp hd
      exact ⟨hall d hlength hp, congrArg Fin.val hlength⟩
  unfold Searched at hpicked
  unfold searchAt
  split at hpicked
  · rename_i h0
    have hlength0 : ∀ d : RouteCall, d.prefixLength.toFin = c.prefixLength.toFin →
        d.prefixLength.toNat = 0 := fun d hlength => (congrArg Fin.val hlength).trans h0
    rw [if_pos (show c.prefixLength.toFin.val = 0 from h0)]
    rcases hpicked with hp | ⟨hp, hnone⟩
    · rw [hstored dst hp fun d hlength hp => by
        rw [Searched, if_pos (hlength0 d hlength)]
        exact .inl hp]
      rfl
    · have hdst : (withRoutes interfaces calls).routingTable.routes c.prefixLength.toFin dst =
          none := by
        rw [routes_withRoutes, List.find?_eq_none.mpr, Option.map_none]
        intro d hd hfor
        obtain ⟨hlength, hp⟩ := isFor_iff.mp hfor
        exact hnone d (List.mem_reverse.mp hd) (hlength0 d hlength) hp
      rw [hdst, hstored 0 hp fun d hlength hp => by
        rw [Searched, if_pos (hlength0 d hlength)]
        exact .inr ⟨hp, hnone⟩]
      rfl
  · rename_i h0
    rw [if_neg (show ¬c.prefixLength.toFin.val = 0 from h0)]
    refine hstored _ hpicked fun d hlength hp => ?_
    have hd0 : ¬d.prefixLength.toNat = 0 := fun h => h0 ((congrArg Fin.val hlength).symm.trans h)
    rw [Searched, if_neg hd0, hlength]
    exact hp

section

variable (hshort : ∀ c ∈ calls, c.prefixLength ≤ 32)

include hshort

theorem short_withRoutes : (withRoutes interfaces calls).routingTable.Short :=
  short_addRoutes (fun _ hentry => absurd hentry List.not_mem_nil) hshort

/-- The lookup finds the last one of the longest routes that are stored where it looks. -/
theorem lookup_searched
    (h : LatestMax (Searched calls dst) (fun c => c.prefixLength.toNat) calls c) :
    (withRoutes interfaces calls).routingTable.lookup dst = .ok (some c.route) := by
  refine lookup_longest (short_withRoutes hshort) (searchAt_latestMax h) fun longer hlt => ?_
  by_contra hsome
  obtain ⟨route, hroute⟩ := Option.ne_none_iff_exists'.mp hsome
  obtain ⟨d, hd, rfl, hsearched⟩ := searched_of_searchAt hroute
  exact absurd (h.le hd hsearched) (not_le.mpr hlt)

/-- The lookup finds nothing if no route is stored where it looks. -/
theorem lookup_unsearched (hnone : ∀ c ∈ calls, ¬Searched calls dst c) :
    (withRoutes interfaces calls).routingTable.lookup dst = .ok none := by
  refine lookup_nothing (short_withRoutes hshort) fun prefixLength => ?_
  by_contra hsome
  obtain ⟨route, hroute⟩ := Option.ne_none_iff_exists'.mp hsome
  obtain ⟨c, hc, -, hsearched⟩ := searched_of_searchAt hroute
  exact hnone c hc hsearched

end

section

variable (h : ∀ c ∈ calls, c.Canonical)

include h

/-- The lookup finds the last one of the longest routes that cover the destination. -/
theorem lookup_best (hbest : Best calls dst c) :
    (withRoutes interfaces calls).routingTable.lookup dst = .ok (some c.route) :=
  lookup_searched (fun c hc => (h c hc).short)
    (hbest.congr fun _ hc => (Canonical.searched_iff h hc).symm)

/-- The lookup finds nothing if no route covers the destination. -/
theorem lookup_uncovered (hnone : ∀ c ∈ calls, ¬c.Covers dst) :
    (withRoutes interfaces calls).routingTable.lookup dst = .ok none :=
  lookup_unsearched (fun c hc => (h c hc).short) fun c hc hsearched =>
    hnone c hc hsearched.covers

end

end Router

end Minnow
