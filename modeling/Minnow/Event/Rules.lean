import Mathlib.Data.List.Forall2
import Minnow.Event.EventLoop
import Minnow.Lib.Machine

/-!
# Rules of reasoning for the event loop

An `Outline` annotates a program that runs in the loop: `inv` is an invariant of the loop and the
world, `held r b` what the rule `r` may count on from the moment on when its interest was found to be
`b`, `armed r b` the same once `poll` has returned, and `idle r` what is known of a rule that was not
interested until the set-up is over. Without `mayFail` no descriptor fails.

`Outline.Valid` asks one condition for each thing that a call can do with a rule. Then
`Valid.waitNextEvent` is the rule for a call, and `Valid.reaches` the one for a run: the program
has to look at its rules one by one, never at the loops.
-/

namespace Minnow

namespace EventLoop

variable {σ : Type}

abbrev withRules (loop : EventLoop σ) (fdRules : List (FDRule σ)) : EventLoop σ :=
  { loop with fdRules }

abbrev withNonFdRules (loop : EventLoop σ) (nonFdRules : List (BasicRule σ)) : EventLoop σ :=
  { loop with nonFdRules }

structure Outline (σ : Type) where
  inv : EventLoop σ → World σ → Prop
  free : BasicRule σ → World σ → Prop := fun _ _ => True
  held : FDRule σ → Bool → World σ → Prop := fun _ _ _ => True
  armed : FDRule σ → Bool → World σ → Prop := held
  mayFail : Prop := True
  idle : FDRule σ → World σ → Prop := fun _ _ => True

namespace Outline

/-- Whatever a call does with a rule keeps the invariant, and what the other rules count on. -/
structure Valid (o : Outline σ) : Prop where
  /-- A rule without a descriptor is dropped. -/
  dropFree : ∀ {loop w pre r post}, o.inv (withNonFdRules loop (pre ++ r :: post)) w →
    w.cancelRequested r.id = true → o.inv (withNonFdRules loop (pre ++ post)) w
  /-- A rule without a descriptor gets its turn. -/
  noteFree : ∀ {loop w}, ∀ r ∈ loop.nonFdRules, o.inv loop w →
    w.cancelRequested r.id = false → o.free r w
  /-- A rule without a descriptor is served. -/
  serveFree : ∀ {loop w w'}, ∀ r ∈ loop.nonFdRules, o.inv loop w → o.free r w →
    r.interest w = true → r.callback w = .ok w' → o.inv loop w' ∧ o.free r w'
  /-- A rule is dropped. -/
  drop : ∀ {loop w pre r post}, o.inv (withRules loop (pre ++ r :: post)) w →
    w.cancelRequested r.id = true → o.inv (withRules loop (pre ++ post)) w
  /-- A rule is retired by the set-up. -/
  retire : ∀ {loop w w' pre r post}, o.inv (withRules loop (pre ++ r :: post)) w →
    w.cancelRequested r.id = false → r.Over w → r.cancel w = .ok w' →
    o.inv (withRules loop (pre ++ post)) w'
  heldRetire : ∀ {loop w w' pre r post b}, ∀ q ∈ pre,
    o.inv (withRules loop (pre ++ r :: post)) w → o.held q b w → r.Over w → r.cancel w = .ok w' →
    o.held q b w'
  idleRetire : ∀ {loop w w' pre r post}, ∀ q ∈ pre,
    o.inv (withRules loop (pre ++ r :: post)) w → o.idle q w → r.Over w → r.cancel w = .ok w' →
    o.idle q w'
  /-- A rule is asked for its interest. -/
  note : ∀ {loop w}, ∀ r ∈ loop.fdRules, o.inv loop w → w.cancelRequested r.id = false →
    ¬r.Over w → o.held r (r.interest w) w
  noteIdle : ∀ {loop w}, ∀ r ∈ loop.fdRules, o.inv loop w → r.interest w = false → o.idle r w
  /-- A rule is defunct. -/
  hangUp : ∀ {loop w w' pre r post b}, o.inv (withRules loop (pre ++ r :: post)) w →
    o.armed r b w → r.cancel w = .ok w' → o.inv (withRules loop (pre ++ post)) w'
  armedHangUp : ∀ {loop w w' pre r post b c}, ∀ q ∈ post,
    o.inv (withRules loop (pre ++ r :: post)) w → o.armed q b w → o.armed r c w →
    r.cancel w = .ok w' → o.armed q b w'
  /-- A rule fails. -/
  fail : ∀ {loop w w₁ w' pre r post b}, o.mayFail →
    o.inv (withRules loop (pre ++ r :: post)) w → o.armed r b w → r.error w = .ok w₁ →
    r.cancel w₁ = .ok w' → o.inv (withRules loop (pre ++ post)) w'
  armedFail : ∀ {loop w w₁ w' pre r post b c}, o.mayFail → ∀ q ∈ post,
    o.inv (withRules loop (pre ++ r :: post)) w → o.armed q b w → o.armed r c w →
    r.error w = .ok w₁ → r.cancel w₁ = .ok w' → o.armed q b w'
  /-- A rule is served. -/
  serve : ∀ {loop w w'}, ∀ r ∈ loop.fdRules, o.inv loop w → o.armed r true w →
    r.callback w = .ok w' → o.inv loop w'

/-- What happens while the process waits keeps the invariant, and what the rules count on. -/
structure Undisturbed (o : Outline σ) (kernel : Kernel σ) : Prop where
  inv : ∀ {loop w}, o.inv loop w → o.inv loop (kernel.wait w)
  armed : ∀ {w r b}, o.held r b w → o.armed r b (kernel.wait w)
  quiet : o.mayFail ∨ ∀ idx, kernel.revents idx &&& (pollErr ||| pollNval) = 0

/-- What was polled for a rule agrees with what it counts on. -/
abbrev Noted (o : Outline σ) (w : World σ) (rule : FDRule σ) (pollfd : PollFd) : Prop :=
  o.held rule (decide (pollfd.events ≠ 0)) w

/-- The same of what `poll` has returned. A descriptor fails only if it may. -/
abbrev Polled (o : Outline σ) (w : World σ) (rule : FDRule σ) (pollfd : PollFd) : Prop :=
  o.armed rule (decide (pollfd.events ≠ 0)) w ∧
    (pollfd.revents &&& (pollErr ||| pollNval) ≠ 0 → o.mayFail)

end Outline

theorem event_ne_zero (rule : FDRule σ) : rule.event ≠ 0 := by
  unfold FDRule.event
  split <;> decide

namespace Outline

variable {o : Outline σ} {loop loop' : EventLoop σ} {kernel : Kernel σ} {w w' : World σ}
  {pre rules kept : List (FDRule σ)} {free : BasicRule σ}
  {before frees nonFdRules : List (BasicRule σ)} {pollfds : List PollFd} {fired : Bool}
  {idx left : Nat} {categories : List String} {result : Result}

theorem Valid.rounds (hv : o.Valid) (hmem : free ∈ loop.nonFdRules) (hinv : o.inv loop w)
    (hfree : o.free free w) (h : rounds categories free left w = .ok w') : o.inv loop w' := by
  induction left generalizing w with
  | zero =>
    unfold EventLoop.rounds at h
    split at h
    · obtain ⟨_, -, h⟩ := bind_ok h
      cases h
    · exact Except.ok.inj h ▸ hinv
  | succ left ih =>
    unfold EventLoop.rounds at h
    split at h
    · rename_i hi
      obtain ⟨w₁, hc, h⟩ := bind_ok h
      obtain ⟨hinv₁, hfree₁⟩ := hv.serveFree free hmem hinv hfree hi hc
      exact ih hinv₁ hfree₁ h
    · exact Except.ok.inj h ▸ hinv

theorem Valid.serveNonFd (hv : o.Valid) (before : List (BasicRule σ))
    (hinv : o.inv (withNonFdRules loop (before ++ frees)) w)
    (h : serveNonFd categories frees w = .ok (fired, nonFdRules, w')) :
    o.inv (withNonFdRules loop (before ++ nonFdRules)) w' := by
  induction frees generalizing before nonFdRules with
  | nil =>
    obtain ⟨-, rfl, rfl⟩ := triple_ok h
    exact hinv
  | cons free frees ih =>
    rcases serveNonFd_cons h with ⟨hreq, hs⟩ | ⟨hreq, -, hr, -, rfl⟩ | ⟨rest, hs, rfl⟩
    · exact ih before (hv.dropFree hinv hreq) hs
    · have hmem : free ∈ before ++ free :: frees := List.mem_append_cons_self
      exact hv.rounds hmem hinv (hv.noteFree free hmem hinv hreq) hr
    · rw [List.append_cons] at hinv ⊢
      exact ih _ hinv hs

theorem Valid.setUp (hv : o.Valid) (loop : EventLoop σ) (pre : List (FDRule σ))
    (hinv : o.inv (withRules loop (pre ++ rules)) w)
    (h : setUp rules w = .ok (kept, pollfds, w')) :
    o.inv (withRules loop (pre ++ kept)) w' ∧ List.Forall₂ (o.Noted w') kept pollfds ∧
      List.Forall₂ (fun r p => p.events = 0 → o.idle r w') kept pollfds ∧
      ∀ q ∈ pre, (∀ b, o.held q b w → o.held q b w') ∧ (o.idle q w → o.idle q w') := by
  induction rules generalizing pre kept pollfds w with
  | nil =>
    obtain ⟨rfl, rfl, rfl⟩ := triple_ok h
    exact ⟨hinv, .nil, .nil, fun _ _ => ⟨fun _ => id, id⟩⟩
  | cons rule rules ih =>
    rcases setUp_cons h with
      ⟨hreq, hs⟩ | ⟨w₁, hover, hc, hreq, hs⟩ | ⟨rest, polled, hs, hover, hreq, rfl, rfl⟩
    · exact ih pre (hv.drop hinv hreq) hs
    · obtain ⟨hinv', hnoted, hidle, hpre⟩ := ih pre (hv.retire hinv hreq hover hc) hs
      exact ⟨hinv', hnoted, hidle, fun q hq =>
        ⟨fun b hb => (hpre q hq).1 b (hv.heldRetire q hq hinv hb hover hc),
          fun hi => (hpre q hq).2 (hv.idleRetire q hq hinv hi hover hc)⟩⟩
    · have hmem : rule ∈ pre ++ rule :: rules := List.mem_append_cons_self
      have hnote := hv.note rule hmem hinv hreq hover
      have hnoteIdle := hv.noteIdle rule hmem hinv
      rw [List.append_cons] at hinv
      obtain ⟨hinv', hnoted, hidle, hpre⟩ := ih _ hinv hs
      obtain ⟨hheld, hstays⟩ := hpre rule List.mem_append_cons_self
      rw [List.append_cons]
      refine ⟨hinv', .cons ?_ hnoted, .cons ?_ hidle, fun q hq => hpre q (List.mem_append_left _ hq)⟩
      · have hrule := hheld _ hnote
        unfold Noted
        cases hi : rule.interest w with
        | false => simpa [hi] using hrule
        | true => simpa [hi, event_ne_zero] using hrule
      · intro hz
        cases hi : rule.interest w with
        | false => exact hstays (hnoteIdle hi)
        | true =>
          rw [hi, if_pos rfl] at hz
          exact absurd hz (event_ne_zero rule)

theorem Valid.dispatch (hv : o.Valid) (loop : EventLoop σ) (pre : List (FDRule σ))
    (hinv : o.inv (withRules loop (pre ++ rules)) w)
    (hpolled : List.Forall₂ (o.Polled w) rules (pollfds.drop idx))
    (h : dispatch categories kernel pollfds idx rules w = .ok (kept, w')) :
    o.inv (withRules loop (pre ++ kept)) w' := by
  induction rules generalizing pre kept idx w with
  | nil =>
    obtain ⟨rfl, rfl⟩ := pair_ok h
    exact hinv
  | cons rule rules ih =>
    obtain ⟨p, hp, hcases⟩ := dispatch_cons h
    have hdrop : pollfds.drop idx = p :: pollfds.drop (idx + 1) :=
      List.drop_eq_getElem?_toList_append.trans (by rw [hp]; rfl)
    rw [hdrop] at hpolled
    obtain ⟨⟨hrule, hmay⟩, hpolled⟩ := List.forall₂_cons.mp hpolled
    -- what the rules behind this one count on
    have hmem : List.Forall₂ (fun q p => q ∈ rules ∧ o.Polled w q p) rules
        (pollfds.drop (idx + 1)) := (List.forall₂_and_left _ _).mpr ⟨fun _ => id, hpolled⟩
    have hbehind : ∀ w₁, (∀ q ∈ rules, ∀ b, o.armed q b w → o.armed q b w₁) →
        List.Forall₂ (o.Polled w₁) rules (pollfds.drop (idx + 1)) := fun w₁ hkept =>
      hmem.imp fun q p hq => ⟨hkept q hq.1 _ hq.2.1, hq.2.2⟩
    rcases hcases with
      ⟨w₁, w₂, hfails, he, hc, hs⟩ | ⟨w₁, hc, hs⟩ | ⟨hready, hc, rfl⟩ | ⟨rest, hs, rfl⟩
    · exact ih pre (hv.fail (hmay hfails) hinv hrule he hc)
        (hbehind w₂ fun q hq b hb => hv.armedFail (hmay hfails) q hq hinv hb hrule he hc) hs
    · exact ih pre (hv.hangUp hinv hrule hc)
        (hbehind w₁ fun q hq b hb => hv.armedHangUp q hq hinv hb hrule hc) hs
    · have hasked : p.events ≠ 0 := by
        intro hz
        simp [hz] at hready
      rw [decide_eq_true hasked] at hrule
      exact hv.serve rule List.mem_append_cons_self hinv hrule hc
    · rw [List.append_cons] at hinv ⊢
      exact ih _ hinv hpolled hs

theorem idle_of_all (h : List.Forall₂ (fun r p => p.events = 0 → o.idle r w) kept pollfds)
    (hall : ∀ p ∈ pollfds, p.events = 0) : ∀ rule ∈ kept, o.idle rule w := by
  induction h with
  | nil => exact fun _ hmem => absurd hmem List.not_mem_nil
  | cons hp _ ih =>
    obtain ⟨hzero, hall⟩ := List.forall_mem_cons.mp hall
    exact List.forall_mem_cons.mpr ⟨hp hzero, ih hall⟩

/-- `poll` leaves alone what is asked for. -/
theorem polled_of_noted (hk : o.Undisturbed kernel) (h : List.Forall₂ (o.Noted w) kept pollfds) :
    List.Forall₂ (o.Polled (kernel.wait w)) kept (poll kernel pollfds) := by
  obtain ⟨hlen, hget⟩ := List.forall₂_iff_get.mp h
  refine List.forall₂_iff_get.mpr ⟨by simp [poll, hlen], fun i h₁ h₂ => ⟨?_, ?_⟩⟩
  · have hheld := hget i h₁ (by simpa [poll] using h₂)
    unfold Noted at hheld
    simpa [poll] using hk.armed hheld
  · intro hfails
    rcases hk.quiet with hmay | hquiet
    · exact hmay
    · simp [poll, hquiet i] at hfails

/-- The rule for a call. At an `exit` no rule that stays was interested. -/
theorem Valid.waitNextEvent (hv : o.Valid) (hk : o.Undisturbed kernel) (hinv : o.inv loop w)
    (h : loop.waitNextEvent kernel w = .ok (result, loop', w')) :
    o.inv loop' w' ∧ (result = .exit → ∀ rule ∈ loop'.fdRules, o.idle rule w') := by
  obtain ⟨fired, nonFdRules, w₁, hfree, hcases⟩ := waitNextEvent_cases h
  have hinv₁ : o.inv (withNonFdRules loop nonFdRules) w₁ :=
    hv.serveNonFd [] hinv hfree
  rcases hcases with ⟨-, rfl, rfl, rfl⟩ | ⟨fdRules, pollfds, w₂, hset, hcases⟩
  · exact ⟨hinv₁, fun he => nomatch he⟩
  · obtain ⟨hinv₂, hnoted, hidle, -⟩ :=
      hv.setUp (withNonFdRules loop nonFdRules) [] hinv₁ hset
    rcases hcases with ⟨hall, -, rfl, rfl⟩ | ⟨rfl, rfl, rfl⟩ | ⟨kept, hdis, rfl, rfl⟩
    · exact ⟨hinv₂, fun _ => idle_of_all hidle fun p hp =>
        of_decide_eq_true (List.all_eq_true.mp hall p hp)⟩
    · exact ⟨hk.inv hinv₂, fun he => nomatch he⟩
    · have hpolled := polled_of_noted hk hnoted
      rw [← List.drop_zero (l := poll kernel pollfds)] at hpolled
      exact ⟨hv.dispatch (withNonFdRules loop nonFdRules) [] (hk.inv hinv₂) hpolled hdis,
        fun he => nomatch he⟩

end Outline

def step (s : EventLoop σ × World σ) (kernel : Kernel σ) :
    Except Exception (EventLoop σ × World σ) :=
  (s.1.waitNextEvent kernel s.2).map fun r => (r.2.1, r.2.2)

/-- The loop of a program: the calls one after the other, whatever the kernel does. -/
def machine (loop : EventLoop σ) (w : World σ) : Machine (EventLoop σ × World σ) (Kernel σ) :=
  .det (loop, w) step

/-- The rule for a run. -/
theorem Outline.Valid.reaches {o : Outline σ} {loop : EventLoop σ} {w : World σ}
    {s : EventLoop σ × World σ} {ok : EventLoop σ × World σ → Kernel σ → Prop} (hv : o.Valid)
    (hinit : o.inv loop w) (hk : ∀ s kernel, ok s kernel → o.Undisturbed kernel)
    (h : (machine loop w).Reaches ok s) : o.inv s.1 s.2 := by
  refine h.invariant_det (P := fun s => o.inv s.1 s.2) hinit fun s kernel s' hs hok hst => ?_
  obtain ⟨⟨result, loop', w'⟩, hwait, rfl⟩ := map_ok hst
  exact (hv.waitNextEvent (hk s kernel hok) hs hwait).1

end EventLoop

end Minnow
