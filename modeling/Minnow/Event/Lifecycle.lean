import Minnow.Event.Rules

/-!
# The life of a rule

What the loop calls of one rule, in which order, over a run. The rules write what is called into a
`log` (`Logged`), a list of hooks with the ids of their rules; nothing else is asked of them.

* `rule_lifecycle`: a rule gets its callback any number of times, then at most one `cancel`, which
  one `error` may come before. Behind that nothing of it is called.
* `cancelled_silent`: from the call on that finds the request of its handle, nothing of a rule is
  called, also not its `cancel`.
-/

namespace Minnow

/-- The functions of a rule that a call may run. -/
inductive Hook where
  | callback
  | cancel
  | error
  deriving DecidableEq

namespace EventLoop

variable {σ : Type} {log : World σ → List (Nat × Hook)} {loop : EventLoop σ} {w w' : World σ}
  {pre post : List (FDRule σ)} {before behind : List (BasicRule σ)} {r : FDRule σ}
  {free : BasicRule σ} {id i : Nat} {h : Hook} {l : List (Nat × Hook)}

/-- The rules write what is called into the log. -/
structure Logged (log : World σ → List (Nat × Hook)) (loop : EventLoop σ) : Prop where
  callback : ∀ r ∈ loop.fdRules, ∀ w w', r.callback w = .ok w' →
    log w' = log w ++ [(r.id, .callback)]
  cancel : ∀ r ∈ loop.fdRules, ∀ w w', r.cancel w = .ok w' → log w' = log w ++ [(r.id, .cancel)]
  error : ∀ r ∈ loop.fdRules, ∀ w w', r.error w = .ok w' → log w' = log w ++ [(r.id, .error)]
  free : ∀ r ∈ loop.nonFdRules, ∀ w w', r.callback w = .ok w' →
    log w' = log w ++ [(r.id, .callback)]

/-- The kernel calls nothing. -/
def Silent (log : World σ → List (Nat × Hook)) (kernel : Kernel σ) : Prop :=
  ∀ w, log (kernel.wait w) = log w

def ids (loop : EventLoop σ) : List Nat := loop.nonFdRules.map (·.id) ++ loop.fdRules.map (·.id)

/-- What was called of the rule `id`. -/
def calls (id : Nat) (l : List (Nat × Hook)) : List Hook := (l.filter (·.1 = id)).map (·.2)

theorem calls_append (id : Nat) (l l' : List (Nat × Hook)) :
    calls id (l ++ l') = calls id l ++ calls id l' := by
  unfold calls
  rw [List.filter_append, List.map_append]

theorem calls_map_self (id : Nat) (tail : List Hook) :
    calls id (tail.map fun h => (id, h)) = tail := by
  simp [calls, List.filter_map, Function.comp_def]

theorem calls_map_other (hid : i ≠ id) (tail : List Hook) :
    calls id (tail.map fun h => (i, h)) = [] := by
  simp [calls, List.filter_map, Function.comp_def, hid]

theorem Logged.withRules (hlog : Logged log (withRules loop (pre ++ r :: post))) :
    Logged log (withRules loop (pre ++ post)) := by
  have hsub := (List.Sublist.append_left (List.sublist_cons_self r post) pre).subset
  exact ⟨fun q hq => hlog.callback q (hsub hq), fun q hq => hlog.cancel q (hsub hq),
    fun q hq => hlog.error q (hsub hq), hlog.free⟩

theorem Logged.withNonFdRules (hlog : Logged log (withNonFdRules loop (before ++ free :: behind))) :
    Logged log (withNonFdRules loop (before ++ behind)) := by
  have hsub := (List.Sublist.append_left (List.sublist_cons_self free behind) before).subset
  exact ⟨hlog.callback, hlog.cancel, hlog.error, fun q hq => hlog.free q (hsub hq)⟩

/-- The callbacks of a rule that is in the loop. -/
def Fresh (l : List Hook) : Prop := ∃ n, l = List.replicate n .callback

/-- The ways in which a rule can leave the loop. -/
def Parting (tail : List Hook) : Prop := tail = [] ∨ tail = [.cancel] ∨ tail = [.error, .cancel]

/-- Each rule of the loop has had callbacks only, and each other one has left it once. -/
structure Living (log : World σ → List (Nat × Hook)) (loop : EventLoop σ) (w : World σ) : Prop where
  logged : Logged log loop
  nodup : (ids loop).Nodup
  fresh : ∀ id ∈ ids loop, Fresh (calls id (log w))
  parted : ∀ id, ∃ front tail, calls id (log w) = front ++ tail ∧ Fresh front ∧ Parting tail

/-- A rule leaves the loop. -/
theorem Living.leave {loop' : EventLoop σ} {tail : List Hook} (h : Living log loop w)
    (hlog : Logged log loop') (hids : (ids loop).Perm (i :: ids loop')) (htail : Parting tail)
    (hw : log w' = log w ++ tail.map fun h => (i, h)) : Living log loop' w' := by
  have hnodup := hids.nodup_iff.mp h.nodup
  obtain ⟨hnot, hnodup⟩ := List.nodup_cons.mp hnodup
  have hcalls : ∀ id, i ≠ id → calls id (log w') = calls id (log w) := fun id hid => by
    rw [hw, calls_append, calls_map_other hid, List.append_nil]
  refine ⟨hlog, hnodup, fun id hmem => ?_, fun id => ?_⟩
  · rw [hcalls id fun he => hnot (he ▸ hmem)]
    exact h.fresh id (hids.mem_iff.mpr (List.mem_cons_of_mem _ hmem))
  · by_cases hid : i = id
    · subst hid
      refine ⟨calls i (log w), tail, ?_, h.fresh i (hids.mem_iff.mpr List.mem_cons_self), htail⟩
      rw [hw, calls_append, calls_map_self]
    · rw [hcalls id hid]
      exact h.parted id

/-- A rule of the loop gets its callback. -/
theorem Living.serve (h : Living log loop w) (hi : i ∈ ids loop)
    (hw : log w' = log w ++ [(i, .callback)]) : Living log loop w' := by
  have hw : log w' = log w ++ [Hook.callback].map fun h => (i, h) := hw
  have hself : Fresh (calls i (log w')) := by
    obtain ⟨n, hn⟩ := h.fresh i hi
    refine ⟨n + 1, ?_⟩
    rw [hw, calls_append, calls_map_self, hn, List.replicate_succ']
  have hother : ∀ id, i ≠ id → calls id (log w') = calls id (log w) := fun id hid => by
    rw [hw, calls_append, calls_map_other hid, List.append_nil]
  refine ⟨h.logged, h.nodup, fun id hmem => ?_, fun id => ?_⟩
  · by_cases hid : i = id
    · exact hid ▸ hself
    · rw [hother id hid]
      exact h.fresh id hmem
  · by_cases hid : i = id
    · exact ⟨_, [], (List.append_nil _).symm, hid ▸ hself, .inl rfl⟩
    · rw [hother id hid]
      exact h.parted id

theorem ids_withRules (loop : EventLoop σ) (pre post : List (FDRule σ)) (r : FDRule σ) :
    (ids (withRules loop (pre ++ r :: post))).Perm (r.id :: ids (withRules loop (pre ++ post))) := by
  simp only [ids, List.map_append, List.map_cons, ← List.append_assoc]
  exact List.perm_middle

theorem ids_withNonFdRules (loop : EventLoop σ) (before behind : List (BasicRule σ))
    (free : BasicRule σ) :
    (ids (withNonFdRules loop (before ++ free :: behind))).Perm
      (free.id :: ids (withNonFdRules loop (before ++ behind))) := by
  simp only [ids, List.map_append, List.map_cons, List.append_assoc, List.cons_append]
  exact List.perm_middle

theorem mem_ids (hr : r ∈ loop.fdRules) : r.id ∈ ids loop :=
  List.mem_append_right _ (List.mem_map_of_mem hr)

theorem mem_ids_free (hr : free ∈ loop.nonFdRules) : free.id ∈ ids loop :=
  List.mem_append_left _ (List.mem_map_of_mem hr)

theorem living_valid (log : World σ → List (Nat × Hook)) :
    Outline.Valid (σ := σ) { inv := Living log } where
  dropFree hinv _ := Living.leave hinv hinv.logged.withNonFdRules (ids_withNonFdRules ..) (.inl rfl)
    (List.append_nil _).symm
  noteFree _ _ _ _ := trivial
  serveFree r hr hinv _ _ hc :=
    ⟨Living.serve hinv (mem_ids_free hr) (hinv.logged.free r hr _ _ hc), trivial⟩
  drop hinv _ := Living.leave hinv hinv.logged.withRules (ids_withRules ..) (.inl rfl)
    (List.append_nil _).symm
  retire hinv _ _ hc := Living.leave hinv hinv.logged.withRules (ids_withRules ..) (.inr (.inl rfl))
    (hinv.logged.cancel _ List.mem_append_cons_self _ _ hc)
  heldRetire _ _ _ _ _ _ := trivial
  idleRetire _ _ _ _ _ _ := trivial
  note _ _ _ _ _ := trivial
  noteIdle _ _ _ _ := trivial
  hangUp hinv _ hc := Living.leave hinv hinv.logged.withRules (ids_withRules ..) (.inr (.inl rfl))
    (hinv.logged.cancel _ List.mem_append_cons_self _ _ hc)
  armedHangUp _ _ _ _ _ _ := trivial
  fail _ hinv _ he hc := by
    refine Living.leave hinv hinv.logged.withRules (ids_withRules ..) (.inr (.inr rfl)) ?_
    rw [hinv.logged.cancel _ List.mem_append_cons_self _ _ hc,
      hinv.logged.error _ List.mem_append_cons_self _ _ he, List.append_assoc]
    rfl
  armedFail _ _ _ _ _ _ _ _ := trivial
  serve r hr hinv _ hc := Living.serve hinv (mem_ids hr) (hinv.logged.callback r hr _ _ hc)

/-- In every run of every program: a rule gets callbacks, then at most one `cancel`, maybe behind an
`error`, and nothing more. Of a rule that is still in the loop only the callback was called. -/
theorem rule_lifecycle (log : World σ → List (Nat × Hook)) (loop : EventLoop σ) (w : World σ)
    (s : EventLoop σ × World σ) (id : Nat) (hlog : Logged log loop) (hids : (ids loop).Nodup)
    (hempty : log w = []) (h : (machine loop w).Reaches (fun _ => Silent log) s) :
    ∃ n tail, calls id (log s.2) = List.replicate n .callback ++ tail ∧
      (tail = [] ∨ tail = [.cancel] ∨ tail = [.error, .cancel]) ∧
      (id ∈ ids s.1 → tail = []) := by
  have hinit : Living log loop w :=
    ⟨hlog, hids, fun id _ => ⟨0, by rw [hempty]; rfl⟩,
      fun id => ⟨[], [], by rw [hempty]; rfl, ⟨0, rfl⟩, .inl rfl⟩⟩
  have hinv : Living log s.1 s.2 := (living_valid log).reaches hinit (fun _ kernel hk => ?_) h
  · by_cases hmem : id ∈ ids s.1
    · obtain ⟨n, hcalls⟩ := hinv.fresh id hmem
      exact ⟨n, [], by rw [hcalls, List.append_nil], .inl rfl, fun _ => rfl⟩
    · obtain ⟨front, tail, hcalls, ⟨n, rfl⟩, htail⟩ := hinv.parted id
      exact ⟨n, tail, hcalls, htail, fun hm => absurd hm hmem⟩
  · refine ⟨fun {loop w} hl => ?_, fun hh => hh, .inl trivial⟩
    exact ⟨hl.logged, hl.nodup, hk w ▸ hl.fresh, hk w ▸ hl.parted⟩

/-- A rule that only reads its descriptor and writes the log. -/
def recorder (id : Nat) : FDRule (List (Nat × Hook)) where
  id := id
  categoryId := 0
  callback w := .ok { w with
    fds := Function.update w.fds id (w.fds id).registerRead
    state := w.state ++ [(id, .callback)] }
  fd := id
  direction := .input
  cancel w := .ok { w with state := w.state ++ [(id, .cancel)] }
  error w := .ok { w with state := w.state ++ [(id, .error)] }

def recorders : EventLoop (List (Nat × Hook)) where
  ruleCategories := ["recorder"]
  fdRules := [recorder 0, recorder 1]
  nextId := 2

theorem recorders_logged : Logged (fun w => w.state) recorders := by
  have hrule : ∀ r ∈ recorders.fdRules, ∃ id, r = recorder id := by
    intro r hr
    simp only [recorders, List.mem_cons, List.not_mem_nil, or_false] at hr
    rcases hr with rfl | rfl
    exacts [⟨0, rfl⟩, ⟨1, rfl⟩]
  refine ⟨fun r hr w w' hc => ?_, fun r hr w w' hc => ?_, fun r hr w w' hc => ?_, fun r hr => ?_⟩
  · obtain ⟨id, rfl⟩ := hrule r hr
    obtain rfl := Except.ok.inj hc
    rfl
  · obtain ⟨id, rfl⟩ := hrule r hr
    obtain rfl := Except.ok.inj hc
    rfl
  · obtain ⟨id, rfl⟩ := hrule r hr
    obtain rfl := Except.ok.inj hc
    rfl
  · exact absurd hr List.not_mem_nil

/-- Two calls: the first descriptor is readable, then it fails and the second one is readable. -/
theorem rule_lifecycle_failed : ∃ s : EventLoop (List (Nat × Hook)) × World (List (Nat × Hook)),
    s.2.state = [(0, .callback), (0, .error), (0, .cancel), (1, .callback)] ∧
    ∃ n tail, calls 0 s.2.state = List.replicate n .callback ++ tail ∧
      (tail = [] ∨ tail = [.cancel] ∨ tail = [.error, .cancel]) ∧ (0 ∈ ids s.1 → tail = []) := by
  obtain ⟨s, h, hs⟩ := Machine.exists_reaches step (recorders, ⟨fun _ => {}, fun _ => false, []⟩)
    (fun _ => Silent fun w => w.state)
    (fun s => s.2.state = [(0, .callback), (0, .error), (0, .cancel), (1, .callback)])
    [{ revents := fun i => if i = 0 then pollIn else 0 },
      { revents := fun i => if i = 0 then pollErr else pollIn }]
    (by decide) (.of_forall (by simp [Silent]))
  exact ⟨s, hs, rule_lifecycle (fun w => w.state) recorders _ s 0 recorders_logged (by decide) rfl h⟩

/-! ## Cancellation by the handle -/

/-- The function takes no request back. A handle can only make one. -/
def Steady (f : Callback σ) : Prop :=
  ∀ w w', f w = .ok w' → ∀ id, w.cancelRequested id = true → w'.cancelRequested id = true

structure Lasting (loop : EventLoop σ) : Prop where
  callback : ∀ r ∈ loop.fdRules, Steady r.callback
  cancel : ∀ r ∈ loop.fdRules, Steady r.cancel
  error : ∀ r ∈ loop.fdRules, Steady r.error
  free : ∀ r ∈ loop.nonFdRules, Steady r.callback

theorem Lasting.withRules (h : Lasting (withRules loop (pre ++ r :: post))) :
    Lasting (withRules loop (pre ++ post)) := by
  have hsub := (List.Sublist.append_left (List.sublist_cons_self r post) pre).subset
  exact ⟨fun q hq => h.callback q (hsub hq), fun q hq => h.cancel q (hsub hq),
    fun q hq => h.error q (hsub hq), h.free⟩

theorem Lasting.withNonFdRules (h : Lasting (withNonFdRules loop (before ++ free :: behind))) :
    Lasting (withNonFdRules loop (before ++ behind)) := by
  have hsub := (List.Sublist.append_left (List.sublist_cons_self free behind) before).subset
  exact ⟨h.callback, h.cancel, h.error, fun q hq => h.free q (hsub hq)⟩

/-- The request is made, and nothing was called since. -/
structure Cancelled (log : World σ → List (Nat × Hook)) (id : Nat) (past : List Hook)
    (loop : EventLoop σ) (w : World σ) : Prop where
  logged : Logged log loop
  lasting : Lasting loop
  requested : w.cancelRequested id = true
  silent : calls id (log w) = past

theorem Cancelled.withRules {past : List Hook}
    (hc : Cancelled log id past (withRules loop (pre ++ r :: post)) w) :
    Cancelled log id past (withRules loop (pre ++ post)) w :=
  ⟨hc.logged.withRules, hc.lasting.withRules, hc.requested, hc.silent⟩

/-- Something is called of another rule. -/
theorem Cancelled.other {past : List Hook} {f : Callback σ} (hc : Cancelled log id past loop w)
    (hsteady : Steady f) (hw : log w' = log w ++ [(i, h)]) (hid : i ≠ id) (hf : f w = .ok w') :
    Cancelled log id past loop w' :=
  ⟨hc.logged, hc.lasting, hsteady w w' hf id hc.requested,
    by rw [hw, calls_append, show calls id [(i, h)] = [] from calls_map_other hid [h],
      List.append_nil, hc.silent]⟩

theorem cancelled_valid (log : World σ → List (Nat × Hook)) (id : Nat) (past : List Hook) :
    Outline.Valid (σ := σ)
      { inv := Cancelled log id past, free := fun r _ => r.id ≠ id, held := fun r _ _ => r.id ≠ id }
    where
  dropFree hinv _ :=
    ⟨hinv.logged.withNonFdRules, hinv.lasting.withNonFdRules, hinv.requested, hinv.silent⟩
  noteFree r _ hinv hreq := fun he =>
    Bool.noConfusion (hreq.symm.trans ((congrArg _ he).trans hinv.requested))
  serveFree r hr hinv hid _ hc :=
    ⟨hinv.other (hinv.lasting.free r hr) (hinv.logged.free r hr _ _ hc) hid hc, hid⟩
  drop hinv _ := hinv.withRules
  retire hinv hreq _ hc := by
    refine (hinv.other (hinv.lasting.cancel _ List.mem_append_cons_self)
      (hinv.logged.cancel _ List.mem_append_cons_self _ _ hc) (fun he => ?_) hc).withRules
    exact Bool.noConfusion (hreq.symm.trans ((congrArg _ he).trans hinv.requested))
  heldRetire _ _ _ hid _ _ := hid
  idleRetire _ _ _ _ _ _ := trivial
  note r _ hinv hreq _ := fun he =>
    Bool.noConfusion (hreq.symm.trans ((congrArg _ he).trans hinv.requested))
  noteIdle _ _ _ _ := trivial
  hangUp hinv hid hc :=
    (hinv.other (hinv.lasting.cancel _ List.mem_append_cons_self)
      (hinv.logged.cancel _ List.mem_append_cons_self _ _ hc) hid hc).withRules
  armedHangUp _ _ _ hid _ _ := hid
  fail _ hinv hid he hc := by
    have hfails := hinv.other (hinv.lasting.error _ List.mem_append_cons_self)
      (hinv.logged.error _ List.mem_append_cons_self _ _ he) hid he
    exact (hfails.other (hfails.lasting.cancel _ List.mem_append_cons_self)
      (hfails.logged.cancel _ List.mem_append_cons_self _ _ hc) hid hc).withRules
  armedFail _ _ _ _ hid _ _ _ := hid
  serve r hr hinv hid hc :=
    hinv.other (hinv.lasting.callback r hr) (hinv.logged.callback r hr _ _ hc) hid hc

/-- What happens while the process waits takes no request back. -/
def Patient (log : World σ → List (Nat × Hook)) (kernel : Kernel σ) : Prop :=
  Silent log kernel ∧ Steady fun w => .ok (kernel.wait w)

/-- In every run from a state in which the handle of a rule has asked for its cancellation: nothing
of the rule is called, neither its callback nor its `cancel`. -/
theorem cancelled_silent (log : World σ → List (Nat × Hook)) (loop : EventLoop σ) (w : World σ)
    (s : EventLoop σ × World σ) (id : Nat) (hlog : Logged log loop) (hlasting : Lasting loop)
    (hreq : w.cancelRequested id = true)
    (h : (machine loop w).Reaches (fun _ => Patient log) s) :
    calls id (log s.2) = calls id (log w) := by
  have hinv : Cancelled log id (calls id (log w)) s.1 s.2 :=
    (cancelled_valid log id _).reaches ⟨hlog, hlasting, hreq, rfl⟩ (fun _ kernel hk => ?_) h
  · exact hinv.silent
  · refine ⟨fun {loop w} hl => ?_, fun hid => hid, .inl trivial⟩
    exact ⟨hl.logged, hl.lasting, hk.2 w _ rfl id hl.requested, hk.1 w ▸ hl.silent⟩

theorem recorders_lasting : Lasting recorders := by
  have hrule : ∀ r ∈ recorders.fdRules, r = recorder 0 ∨ r = recorder 1 := by
    simp [recorders]
  refine ⟨fun r hr w w' hc id hreq => ?_, fun r hr w w' hc id hreq => ?_,
    fun r hr w w' hc id hreq => ?_, fun r hr => absurd hr List.not_mem_nil⟩ <;>
  · rcases hrule r hr with rfl | rfl <;> obtain rfl := Except.ok.inj hc <;> exact hreq

/-- The descriptor of the first rule is readable, but its handle has asked for its cancellation. -/
theorem cancelled_silent_readable :
    ∃ s : EventLoop (List (Nat × Hook)) × World (List (Nat × Hook)),
      s.2.state = [(1, .callback)] ∧ calls 0 s.2.state = [] := by
  obtain ⟨s, h, hs⟩ := Machine.exists_reaches step
    (recorders, World.cancel ⟨fun _ => {}, fun _ => false, []⟩ 0)
    (fun _ => Patient fun w => w.state) (fun s => s.2.state = [(1, .callback)])
    [{ revents := fun _ => pollIn }] (by decide) (.of_forall (by
      intro kernel hk s
      obtain rfl := List.mem_singleton.mp hk
      exact ⟨fun _ => rfl, fun w w' hw id hreq => Except.ok.inj hw ▸ hreq⟩))
  exact ⟨s, hs, cancelled_silent (fun w => w.state) recorders _ s 0 recorders_logged
    recorders_lasting (by decide) h⟩

end EventLoop

end Minnow
