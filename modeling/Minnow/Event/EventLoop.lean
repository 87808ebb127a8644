import Minnow.Event.FileDescriptor

/-!
# The event loop (`util/eventloop.{hh,cc}`)

A rule asks for a descriptor to be readable or writable while it is interested, and has a callback
for each of what can come of it. A call of `waitNextEvent` serves the rules without a descriptor,
sets up what to poll, polls, and dispatches what `poll` has found.

The callbacks work on a `World`: the descriptors, the cancellations that were asked for, and the
state of the program that they capture. What the kernel does in a call is an argument of it
(`Kernel`), so a statement for every kernel is one for every behaviour of the descriptors.

A callback that adds rules is left out, and so are the texts on `cerr`.
-/

namespace Minnow

/-- What the callbacks see and change. -/
structure World (σ : Type) where
  fds : Nat → FDWrapper
  cancelRequested : Nat → Bool := fun _ => false
  state : σ

abbrev Callback (σ : Type) := World σ → Except Exception (World σ)

inductive Direction where
  | input
  | output
  deriving DecidableEq

/-- A rule; `id` is the object that its handle points to. -/
structure BasicRule (σ : Type) where
  id : Nat
  categoryId : Nat
  interest : World σ → Bool := fun _ => true
  callback : Callback σ

structure FDRule (σ : Type) extends BasicRule σ where
  fd : Nat
  direction : Direction
  cancel : Callback σ := .ok
  error : Callback σ := .ok

/-- The events of `poll`. -/
def pollIn : UInt16 := 1
def pollOut : UInt16 := 4
def pollErr : UInt16 := 8
def pollHup : UInt16 := 16
def pollNval : UInt16 := 32

structure PollFd where
  fd : Nat
  events : UInt16
  revents : UInt16 := 0
  deriving DecidableEq

/-- What `getsockopt` says of a descriptor. -/
inductive SocketError where
  | notSocket
  | failed
  | answered (length : Nat) (error : Nat)
  deriving DecidableEq

/-- What the kernel does in a call: what happens until `poll` returns, whether it fails, what it
reports of the descriptor at each index, and the errors of the sockets. -/
structure Kernel (σ : Type) where
  wait : World σ → World σ := id
  pollFails : Bool := false
  revents : Nat → UInt16
  socketError : Nat → SocketError := fun _ => .notSocket

structure EventLoop (σ : Type) where
  ruleCategories : List String := []
  fdRules : List (FDRule σ) := []
  nonFdRules : List (BasicRule σ) := []
  nextId : Nat := 0

namespace World

variable {σ : Type}

/-- `RuleHandle::cancel`. -/
def cancel (w : World σ) (id : Nat) : World σ :=
  { w with cancelRequested := Function.update w.cancelRequested id true }

end World

namespace FDRule

variable {σ : Type}

def serviceCount (rule : FDRule σ) (w : World σ) : UInt32 :=
  match rule.direction with
  | .input => (w.fds rule.fd).readCount
  | .output => (w.fds rule.fd).writeCount

def event (rule : FDRule σ) : UInt16 :=
  match rule.direction with
  | .input => pollIn
  | .output => pollOut

/-- The descriptor has nothing more for the rule. -/
def Over (rule : FDRule σ) (w : World σ) : Prop :=
  (rule.direction = .input ∧ (w.fds rule.fd).eof = true) ∨ (w.fds rule.fd).closed = true

instance (rule : FDRule σ) (w : World σ) : Decidable (rule.Over w) := by
  unfold Over
  infer_instance

end FDRule

namespace EventLoop

/-- `EventLoop::Result`. -/
inductive Result where
  | success
  | timeout
  | exit
  deriving DecidableEq

variable {σ : Type}

/-- The capacity that the constructor reserves for the categories. -/
def maxCategories : Nat := 64

def addCategory (loop : EventLoop σ) (name : String) : Except Exception (EventLoop σ × Nat) :=
  if loop.ruleCategories.length ≥ maxCategories then
    .error (.runtimeError "maximum categories reached")
  else
    .ok ({ loop with ruleCategories := loop.ruleCategories ++ [name] }, loop.ruleCategories.length)

/-- `add_rule` for a descriptor: the rule of the handle is the one with the `id` returned. -/
def addRule (loop : EventLoop σ) (categoryId : Nat) (fd : Nat) (direction : Direction)
    (callback : Callback σ) (interest : World σ → Bool := fun _ => true)
    (cancel : Callback σ := .ok) (error : Callback σ := .ok) :
    Except Exception (EventLoop σ × Nat) :=
  if categoryId ≥ loop.ruleCategories.length then .error (.outOfRange "bad category_id")
  else
    .ok ({ loop with
      fdRules := loop.fdRules ++
        [{ id := loop.nextId, categoryId, interest, callback, fd, direction, cancel, error }]
      nextId := loop.nextId + 1 }, loop.nextId)

/-- `add_rule` without a descriptor. -/
def addNonFdRule (loop : EventLoop σ) (categoryId : Nat) (callback : Callback σ)
    (interest : World σ → Bool := fun _ => true) : Except Exception (EventLoop σ × Nat) :=
  if categoryId ≥ loop.ruleCategories.length then .error (.outOfRange "bad category_id")
  else
    .ok ({ loop with
      nonFdRules := loop.nonFdRules ++ [{ id := loop.nextId, categoryId, interest, callback }]
      nextId := loop.nextId + 1 }, loop.nextId)

/-- `_rule_categories.at( category_id ).name`. -/
def categoryName (categories : List String) (id : Nat) : Except Exception String :=
  match categories[id]? with
  | some name => .ok name
  | none => .error (.outOfRange "vector::_M_range_check")

/-- The `while` of a rule without a descriptor, when `left` of its 128 rounds are left. -/
def rounds (categories : List String) (rule : BasicRule σ) : Nat → Callback σ
  | 0, w =>
    if rule.interest w then do
      let name ← categoryName categories rule.categoryId
      throw (.runtimeError ("EventLoop: busy wait detected: rule \"" ++ name ++
        "\" is still interested after 129 iterations"))
    else .ok w
  | left + 1, w =>
    if rule.interest w then do
      let w ← rule.callback w
      rounds categories rule left w
    else .ok w

/-- The loop over the rules without a descriptor: whether one has fired, and the rules that stay.
The rules behind one that fires wait for the next call. -/
def serveNonFd (categories : List String) :
    List (BasicRule σ) → World σ → Except Exception (Bool × List (BasicRule σ) × World σ)
  | [], w => .ok (false, [], w)
  | rule :: rules, w =>
    if w.cancelRequested rule.id then serveNonFd categories rules w
    else if rule.interest w then do
      let w ← rounds categories rule 128 w
      return (true, rule :: rules, w)
    else do
      let (fired, rules, w) ← serveNonFd categories rules w
      return (fired, rule :: rules, w)

/-- The loop that sets up `pollfds`: the rules that stay, and what is polled for each. A rule that is
not interested asks for no events. -/
def setUp : List (FDRule σ) → World σ → Except Exception (List (FDRule σ) × List PollFd × World σ)
  | [], w => .ok ([], [], w)
  | rule :: rules, w =>
    if w.cancelRequested rule.id then setUp rules w
    else if rule.direction = .input ∧ (w.fds rule.fd).eof then do
      let w ← rule.cancel w
      setUp rules w
    else if (w.fds rule.fd).closed then do
      let w ← rule.cancel w
      setUp rules w
    else do
      let events := if rule.interest w then rule.event else 0
      let (rules, pollfds, w) ← setUp rules w
      return (rule :: rules, { fd := rule.fd, events } :: pollfds, w)

/-- The look at the error of a socket. -/
def checkSocketError (kernel : Kernel σ) (name : Except Exception String) (fd : Nat) :
    Except Exception Unit :=
  match kernel.socketError fd with
  | .notSocket => do
    let _ ← name
  | .failed => throw (.unixError "getsockopt")
  | .answered length error =>
    if length ≠ 4 then
      throw (.runtimeError ("unexpected length from getsockopt: " ++ toString length))
    else if error ≠ 0 then do
      let _ ← name
    else return ()

/-- The loop over the results of `poll`, from the index `idx` on: the rules that stay. It ends with
the first callback. -/
def dispatch (categories : List String) (kernel : Kernel σ) (pollfds : List PollFd) :
    Nat → List (FDRule σ) → World σ → Except Exception (List (FDRule σ) × World σ)
  | _, [], w => .ok ([], w)
  | idx, rule :: rules, w => do
    let some pollfd := pollfds[idx]?
      | throw (.outOfRange "vector::_M_range_check")
    if pollfd.revents &&& (pollErr ||| pollNval) ≠ 0 then
      checkSocketError kernel (categoryName categories rule.categoryId) rule.fd
      let w ← rule.error w
      let w ← rule.cancel w
      dispatch categories kernel pollfds (idx + 1) rules w
    else
      let pollReady := pollfd.revents &&& pollfd.events ≠ 0
      let pollHup := pollfd.revents &&& pollHup ≠ 0
      if pollHup ∧ ((pollfd.events ≠ 0 ∧ ¬pollReady) ∨ rule.direction = .output) then
        let w ← rule.cancel w
        dispatch categories kernel pollfds (idx + 1) rules w
      else if pollReady then
        let countBefore := rule.serviceCount w
        let w ← rule.callback w
        if countBefore = rule.serviceCount w ∧ ¬(w.fds rule.fd).closed ∧ rule.interest w then
          let name ← categoryName categories rule.categoryId
          throw (.runtimeError ("EventLoop: busy wait detected: rule \"" ++ name ++
            "\" did not read/write fd and is still interested"))
        return (rule :: rules, w)
      else
        let (rules, w) ← dispatch categories kernel pollfds (idx + 1) rules w
        return (rule :: rules, w)

/-- What `poll` makes of its argument. -/
def poll (kernel : Kernel σ) (pollfds : List PollFd) : List PollFd :=
  pollfds.mapIdx fun idx pollfd => { pollfd with revents := kernel.revents idx }

def waitNextEvent (loop : EventLoop σ) (kernel : Kernel σ) (w : World σ) :
    Except Exception (Result × EventLoop σ × World σ) := do
  let (fired, nonFdRules, w) ← serveNonFd loop.ruleCategories loop.nonFdRules w
  let loop := { loop with nonFdRules }
  if fired then return (.success, loop, w)
  let (fdRules, pollfds, w) ← setUp loop.fdRules w
  let loop := { loop with fdRules }
  -- `something_to_poll` is set with the first rule that asks for events
  if pollfds.all (·.events = 0) then return (.exit, loop, w)
  let w := kernel.wait w
  if kernel.pollFails then throw (.unixError "poll")
  let pollfds := poll kernel pollfds
  if pollfds.all (·.revents = 0) then return (.timeout, loop, w)
  let (fdRules, w) ← dispatch loop.ruleCategories kernel pollfds 0 loop.fdRules w
  return (.success, { loop with fdRules }, w)

/-! ## What the loops do -/

section

variable {loop loop' : EventLoop σ} {kernel : Kernel σ} {categories : List String}
  {rule : FDRule σ} {rules kept : List (FDRule σ)} {pollfds : List PollFd} {idx : Nat}
  {free : BasicRule σ} {frees nonFdRules : List (BasicRule σ)} {fired : Bool} {w w' : World σ}
  {result : Result}

/-- A rule without a descriptor is dropped, is served, or is not interested. -/
theorem serveNonFd_cons
    (h : serveNonFd categories (free :: frees) w = .ok (fired, nonFdRules, w')) :
    (w.cancelRequested free.id = true ∧
      serveNonFd categories frees w = .ok (fired, nonFdRules, w')) ∨
    (w.cancelRequested free.id = false ∧ free.interest w = true ∧
      rounds categories free 128 w = .ok w' ∧ fired = true ∧ nonFdRules = free :: frees) ∨
    (∃ rest, serveNonFd categories frees w = .ok (fired, rest, w') ∧
      nonFdRules = free :: rest) := by
  unfold serveNonFd at h
  split at h
  · rename_i hreq
    exact .inl ⟨hreq, h⟩
  · rename_i hreq
    have hreq := Bool.eq_false_of_not_eq_true hreq
    split at h
    · rename_i hi
      obtain ⟨w₁, hr, h⟩ := bind_ok h
      obtain ⟨rfl, rfl, rfl⟩ := triple_ok h
      exact .inr (.inl ⟨hreq, hi, hr, rfl, rfl⟩)
    · obtain ⟨⟨fired', rest, w₁⟩, hs, h⟩ := bind_ok h
      obtain ⟨rfl, rfl, rfl⟩ := triple_ok h
      exact .inr (.inr ⟨rest, hs, rfl⟩)

/-- A rule is dropped at the request of its handle, is retired with its `cancel`, or is polled. -/
theorem setUp_cons (h : setUp (rule :: rules) w = .ok (kept, pollfds, w')) :
    (w.cancelRequested rule.id = true ∧ setUp rules w = .ok (kept, pollfds, w')) ∨
    (∃ w₁, rule.Over w ∧ rule.cancel w = .ok w₁ ∧ w.cancelRequested rule.id = false ∧
      setUp rules w₁ = .ok (kept, pollfds, w')) ∨
    (∃ rest polled, setUp rules w = .ok (rest, polled, w') ∧ ¬rule.Over w ∧
      w.cancelRequested rule.id = false ∧ kept = rule :: rest ∧
      pollfds = ⟨rule.fd, if rule.interest w then rule.event else 0, 0⟩ :: polled) := by
  unfold setUp at h
  split at h
  · rename_i hreq
    exact .inl ⟨hreq, h⟩
  · rename_i hreq
    have hreq := Bool.eq_false_of_not_eq_true hreq
    split at h
    · rename_i heof
      obtain ⟨w₁, hc, h⟩ := bind_ok h
      exact .inr (.inl ⟨w₁, .inl heof, hc, hreq, h⟩)
    · split at h
      · rename_i hclosed
        obtain ⟨w₁, hc, h⟩ := bind_ok h
        exact .inr (.inl ⟨w₁, .inr hclosed, hc, hreq, h⟩)
      · rename_i heof hclosed
        obtain ⟨⟨rest, polled, w₁⟩, hs, h⟩ := bind_ok h
        obtain ⟨rfl, rfl, rfl⟩ := triple_ok h
        exact .inr (.inr ⟨rest, polled, hs, fun ho => ho.elim heof hclosed, hreq, rfl, rfl⟩)

/-- A rule fails, is defunct, is served, or waits. -/
theorem dispatch_cons
    (h : dispatch categories kernel pollfds idx (rule :: rules) w = .ok (kept, w')) :
    ∃ p, pollfds[idx]? = some p ∧
      ((∃ w₁ w₂, p.revents &&& (pollErr ||| pollNval) ≠ 0 ∧ rule.error w = .ok w₁ ∧
          rule.cancel w₁ = .ok w₂ ∧
          dispatch categories kernel pollfds (idx + 1) rules w₂ = .ok (kept, w')) ∨
        (∃ w₁, rule.cancel w = .ok w₁ ∧
          dispatch categories kernel pollfds (idx + 1) rules w₁ = .ok (kept, w')) ∨
        (p.revents &&& p.events ≠ 0 ∧ rule.callback w = .ok w' ∧ kept = rule :: rules) ∨
        (∃ rest, dispatch categories kernel pollfds (idx + 1) rules w = .ok (rest, w') ∧
          kept = rule :: rest)) := by
  unfold dispatch at h
  cases hp : pollfds[idx]? with
  | none =>
    rw [hp] at h
    cases h
  | some p =>
    rw [hp] at h
    dsimp only at h
    refine ⟨p, rfl, ?_⟩
    split at h
    · rename_i hfails
      obtain ⟨-, -, h⟩ := bind_ok h
      obtain ⟨w₁, he, h⟩ := bind_ok h
      obtain ⟨w₂, hc, h⟩ := bind_ok h
      exact .inl ⟨w₁, w₂, hfails, he, hc, h⟩
    · split at h
      · obtain ⟨w₁, hc, h⟩ := bind_ok h
        exact .inr (.inl ⟨w₁, hc, h⟩)
      · split at h
        · rename_i hready
          obtain ⟨w₁, hcall, h⟩ := bind_ok h
          split at h
          · obtain ⟨_, -, h⟩ := bind_ok h
            cases h
          · obtain ⟨rfl, rfl⟩ := pair_ok h
            exact .inr (.inr (.inl ⟨hready, hcall, rfl⟩))
        · obtain ⟨⟨rest, w₁⟩, hs, h⟩ := bind_ok h
          obtain ⟨rfl, rfl⟩ := pair_ok h
          exact .inr (.inr (.inr ⟨rest, hs, rfl⟩))

/-- What a call comes to. -/
theorem waitNextEvent_cases
    (h : loop.waitNextEvent kernel w = .ok (result, loop', w')) :
    ∃ fired nonFdRules w₁,
      serveNonFd loop.ruleCategories loop.nonFdRules w = .ok (fired, nonFdRules, w₁) ∧
      ((fired = true ∧ result = .success ∧ loop' = { loop with nonFdRules } ∧ w' = w₁) ∨
        ∃ fdRules pollfds w₂, setUp loop.fdRules w₁ = .ok (fdRules, pollfds, w₂) ∧
          ((pollfds.all (·.events = 0) = true ∧ result = .exit ∧
              loop' = { loop with nonFdRules, fdRules } ∧ w' = w₂) ∨
            (result = .timeout ∧ loop' = { loop with nonFdRules, fdRules } ∧
              w' = kernel.wait w₂) ∨
            ∃ kept, dispatch loop.ruleCategories kernel (poll kernel pollfds) 0 fdRules
                (kernel.wait w₂) = .ok (kept, w') ∧ result = .success ∧
              loop' = { loop with nonFdRules, fdRules := kept })) := by
  unfold waitNextEvent at h
  obtain ⟨⟨fired, nonFdRules, w₁⟩, hfree, h⟩ := bind_ok h
  refine ⟨fired, nonFdRules, w₁, hfree, ?_⟩
  dsimp only at h
  split at h
  · rename_i hf
    obtain ⟨rfl, rfl, rfl⟩ := triple_ok h
    exact .inl ⟨hf, rfl, rfl, rfl⟩
  · obtain ⟨⟨fdRules, pollfds, w₂⟩, hset, h⟩ := bind_ok h
    refine .inr ⟨fdRules, pollfds, w₂, hset, ?_⟩
    dsimp only at h
    split at h
    · rename_i hall
      obtain ⟨rfl, rfl, rfl⟩ := triple_ok h
      exact .inl ⟨hall, rfl, rfl, rfl⟩
    · split at h
      · cases h
      · split at h
        · obtain ⟨rfl, rfl, rfl⟩ := triple_ok h
          exact .inr (.inl ⟨rfl, rfl, rfl⟩)
        · obtain ⟨⟨kept, w₃⟩, hd, h⟩ := bind_ok h
          obtain ⟨rfl, rfl, rfl⟩ := triple_ok h
          exact .inr (.inr ⟨kept, hd, rfl, rfl⟩)

end

end EventLoop

end Minnow
