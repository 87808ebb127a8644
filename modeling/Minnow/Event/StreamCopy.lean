import Minnow.Event.Rules
import Mathlib.Logic.Function.Basic

/-!
# The bidirectional stream copy (`apps/bidirectional_stream_copy.cc`)

Four rules copy standard input to a socket and the socket to standard output, each way through a
byte stream. The two ways differ in their descriptors and in how the sink is finished: the socket is
shut down, standard output is closed.

A `Copy` also records what has gone through the system calls: the bytes that the source has given,
the bytes that the sink has taken, and how often the sink was finished. What the system calls of a
call return (`Answers`) is arbitrary.
-/

namespace Minnow

inductive Way where
  | outbound
  | inbound
  deriving DecidableEq

def Way.other : Way → Way
  | outbound => inbound
  | inbound => outbound

/-- What the system calls of a callback return. -/
structure Answers where
  read : Answer Bytes := .again
  write : Answer Nat := .again
  shutdown : Answer Nat := .done 0
  close : Answer Nat := .done 0
  deriving DecidableEq

/-- `buffer_size`. -/
def Copy.bufferSize : Nat := 1048576

/-- One way: the stream, the flag that the sink is finished, and what was read, written and
finished. -/
structure Copy where
  stream : ByteStream := { capacity := Copy.bufferSize }
  shutdown : Bool := false
  given : Bytes := []
  taken : Bytes := []
  finishes : Nat := 0
  deriving DecidableEq

def Copy.close (c : Copy) : Copy := { c with stream := c.stream.close }

structure StreamCopy where
  copy : Way → Copy := fun _ => {}
  answers : Answers := {}

namespace StreamCopy

/-- The descriptors: `STDIN_FILENO`, `STDOUT_FILENO`, and the socket. -/
def input : Nat := 0
def output : Nat := 1
def socket : Nat := 2

def source : Way → Nat
  | .outbound => input
  | .inbound => socket

def sink : Way → Nat
  | .outbound => socket
  | .inbound => output

def set (s : StreamCopy) (k : Way) (c : Copy) : StreamCopy :=
  { s with copy := Function.update s.copy k c }

/-- `stream.writer().close()`, the `cancel` of every rule. -/
def closeStream (k : Way) : Callback StreamCopy := fun w =>
  .ok { w with state := w.state.set k (w.state.copy k).close }

/-- `outbound.set_error(); inbound.set_error();`, the `error` of every rule. -/
def setErrors : Callback StreamCopy := fun w =>
  .ok { w with state := { w.state with
    copy := fun k => { w.state.copy k with stream := (w.state.copy k).stream.setError } } }

/-- The callback of the rules 1 and 3. -/
def readSource (k : Way) : Callback StreamCopy := fun w => do
  let c := w.state.copy k
  let (fd, data) ← (w.fds (source k)).read c.stream.availableCapacity w.state.answers.read
  let stream := c.stream.push data
  let stream := if fd.eof then stream.close else stream
  return { w with
    fds := Function.update w.fds (source k) fd
    state := w.state.set k { c with stream, given := c.given ++ data } }

/-- The first half of the callback of the rules 2 and 4. -/
def copyOut (k : Way) : Callback StreamCopy := fun w => do
  let c := w.state.copy k
  if c.stream.bytesBuffered ≠ 0 then
    let (fd, n) ← (w.fds (sink k)).write c.stream.peek w.state.answers.write
    return { w with
      fds := Function.update w.fds (sink k) fd
      state := w.state.set k
        { c with stream := c.stream.pop n, taken := c.taken ++ c.stream.peek.take n } }
  else return w

/-- `socket.shutdown( SHUT_WR )` and `output.close()`. -/
def finish (k : Way) (fd : FDWrapper) (answers : Answers) : Except Exception FDWrapper :=
  match k with
  | .outbound => fd.shutdownWrite answers.shutdown
  | .inbound => fd.close answers.close

/-- The second half of the callback of the rules 2 and 4. -/
def finishOut (k : Way) : Callback StreamCopy := fun w => do
  let c := w.state.copy k
  if c.stream.isFinished then
    let fd ← finish k (w.fds (sink k)) w.state.answers
    return { w with
      fds := Function.update w.fds (sink k) fd
      state := w.state.set k { c with shutdown := true, finishes := c.finishes + 1 } }
  else return w

def writeSink (k : Way) : Callback StreamCopy := fun w => do
  let w ← copyOut k w
  finishOut k w

/-- The interest of the rules 1 and 3. -/
def wantsSource (k : Way) (w : World StreamCopy) : Bool :=
  let own := (w.state.copy k).stream
  let other := (w.state.copy k.other).stream
  !own.hasError && !other.hasError && decide (own.availableCapacity > 0) && !own.isClosed

/-- The interest of the rules 2 and 4. -/
def wantsSink (k : Way) (w : World StreamCopy) : Bool :=
  let c := w.state.copy k
  decide (c.stream.bytesBuffered ≠ 0) || (c.stream.isFinished && !c.shutdown)

def readRule (k : Way) : FDRule StreamCopy where
  id := match k with | .outbound => 0 | .inbound => 2
  categoryId := match k with | .outbound => 0 | .inbound => 2
  interest := wantsSource k
  callback := readSource k
  fd := source k
  direction := .input
  cancel := closeStream k
  error := setErrors

def writeRule (k : Way) : FDRule StreamCopy where
  id := match k with | .outbound => 1 | .inbound => 3
  categoryId := match k with | .outbound => 1 | .inbound => 3
  interest := wantsSink k
  callback := writeSink k
  fd := sink k
  direction := .output
  cancel := closeStream k
  error := setErrors

def rules : List (FDRule StreamCopy) :=
  [readRule .outbound, writeRule .outbound, readRule .inbound, writeRule .inbound]

/-- The texts that name the rules, in their order. -/
def ruleNames : List String :=
  ["read from stdin into outbound byte stream", "read from outbound byte stream into socket",
    "read from socket into inbound byte stream", "read from inbound byte stream into stdout"]

def eventLoop : EventLoop StreamCopy where
  ruleCategories := ruleNames
  fdRules := rules
  nextId := 4

/-- The calls of `add_rule` before the loop. -/
def addRules : Except Exception (EventLoop StreamCopy) :=
  (ruleNames.zip rules).foldlM (fun loop r => do
    let (loop, category) ← loop.addCategory r.1
    let (loop, _) ← loop.addRule category r.2.fd r.2.direction r.2.callback r.2.interest r.2.cancel
      r.2.error
    return loop) {}

theorem addRules_eq : addRules = .ok eventLoop := rfl

/-- The world when the loop is entered: nothing blocks, and the socket may have been used. -/
def start (socket : FDWrapper) : World StreamCopy where
  fds fd := if fd = StreamCopy.socket then { socket with nonBlocking := true }
    else { nonBlocking := true }
  state := {}

/-- The kernel answers the system calls, and does nothing else. -/
def Answering (kernel : Kernel StreamCopy) : Prop :=
  ∃ answers, kernel.wait = fun w => { w with state := { w.state with answers } }

/-! ## One way -/

end StreamCopy

namespace Copy

open StreamCopy

variable {c : Copy} {data : Bytes} {n : Nat}

/-- What the source has given is what the sink has taken and what is buffered. A sink is finished
once, when all of it is taken. -/
structure Faithful (c : Copy) : Prop where
  wf : c.stream.WF
  capacity : c.stream.capacity = bufferSize
  bytes : c.given = c.taken ++ c.stream.peek
  done : c.shutdown = true → c.stream.isFinished = true
  once : c.finishes = if c.shutdown then 1 else 0

theorem Faithful.new : Faithful {} where
  wf := .new (by decide)
  capacity := rfl
  bytes := rfl
  done h := nomatch h
  once := rfl

theorem Faithful.close (h : c.Faithful) : c.close.Faithful where
  wf := h.wf.close
  capacity := h.capacity
  bytes := h.bytes
  done hs := h.wf.close.isFinished_iff.mpr ⟨rfl, (h.wf.isFinished_iff.mp (h.done hs)).2⟩
  once := h.once

theorem Faithful.setError (h : c.Faithful) : Faithful { c with stream := c.stream.setError } where
  wf := ⟨h.wf.cap, h.wf.length, h.wf.stop, h.wf.fits, h.wf.pushed⟩
  capacity := h.capacity
  bytes := h.bytes
  done := h.done
  once := h.once

/-- All that was read fits: no more was asked for. -/
theorem Faithful.push (h : c.Faithful) (hopen : c.stream.closed = false)
    (hdata : data.length ≤ c.stream.availableCapacity) :
    Faithful { c with stream := c.stream.push data, given := c.given ++ data } where
  wf := h.wf.push data
  capacity := (c.stream.push_capacity data).trans h.capacity
  bytes := by
    show c.given ++ data = c.taken ++ (c.stream.push data).peek
    rw [ByteStream.push_peek h.wf, List.take_of_length_le hdata, h.bytes, List.append_assoc]
  done hs := by
    have := (h.wf.isFinished_iff.mp (h.done hs)).1
    exact Bool.noConfusion (hopen.symm.trans this)
  once := h.once

theorem Faithful.pop (h : c.Faithful) (n : Nat) :
    Faithful { c with stream := c.stream.pop n, taken := c.taken ++ c.stream.peek.take n } where
  wf := h.wf.pop n
  capacity := h.capacity
  bytes := by
    show c.given = c.taken ++ c.stream.peek.take n ++ (c.stream.pop n).peek
    rw [ByteStream.pop_peek h.wf, List.append_assoc, List.take_append_drop, h.bytes]
  done hs := by
    obtain ⟨hclosed, hempty⟩ := h.wf.isFinished_iff.mp (h.done hs)
    refine (h.wf.pop n).isFinished_iff.mpr ⟨hclosed, ?_⟩
    rw [ByteStream.pop_peek h.wf, hempty, List.drop_nil]
  once := h.once

theorem Faithful.finish (h : c.Faithful) (hfin : c.stream.isFinished = true)
    (hs : c.shutdown = false) :
    Faithful { c with shutdown := true, finishes := c.finishes + 1 } where
  wf := h.wf
  capacity := h.capacity
  bytes := h.bytes
  done _ := hfin
  once := by
    show c.finishes + 1 = 1
    rw [h.once, hs]
    rfl

theorem Faithful.taken_all (h : c.Faithful) (hfin : c.finishes = 1) : c.taken = c.given := by
  have hs : c.shutdown = true := by
    by_contra hs
    have := h.once
    rw [hfin, if_neg hs] at this
    cases this
  rw [h.bytes, (h.wf.isFinished_iff.mp (h.done hs)).2, List.append_nil]

end Copy

namespace StreamCopy

open EventLoop (Outline withRules)

variable {k j : Way} {w w' : World StreamCopy} {r q : FDRule StreamCopy}
  {loop : EventLoop StreamCopy} {pre post : List (FDRule StreamCopy)}

/-! ## The callbacks -/

@[simp] theorem set_copy_self (s : StreamCopy) (k : Way) (c : Copy) : (s.set k c).copy k = c :=
  Function.update_self ..

theorem set_copy_ne (s : StreamCopy) (c : Copy) (h : j ≠ k) : (s.set k c).copy j = s.copy j :=
  Function.update_of_ne h ..

/-- What holds of every way still holds when one of them goes on. -/
theorem forall_set {P : Copy → Prop} {s : StreamCopy} {c : Copy} (h : ∀ j, P (s.copy j))
    (hc : P c) : ∀ j, P ((s.set k c).copy j) := by
  intro j
  by_cases hj : j = k
  · rw [hj, set_copy_self]
    exact hc
  · rw [set_copy_ne s c hj]
    exact h j

/-- The descriptors that are open stay open. -/
theorem closed_update {fds : Nat → FDWrapper} {fd : Nat} {f : FDWrapper}
    (h : f.closed = (fds fd).closed) (n : Nat) :
    (Function.update fds fd f n).closed = (fds n).closed := by
  by_cases hn : n = fd
  · rw [hn, Function.update_self, h]
  · rw [Function.update_of_ne hn]

/-- A source that gives no more than was asked for. -/
theorem readSource_spec (hroom : 0 < (w.state.copy k).stream.availableCapacity)
    (h : readSource k w = .ok w') :
    ∃ data : Bytes, ∃ c : Copy, data.length ≤ (w.state.copy k).stream.availableCapacity ∧
      (c = { w.state.copy k with
          stream := (w.state.copy k).stream.push data, given := (w.state.copy k).given ++ data } ∨
        c = { w.state.copy k with
          stream := ((w.state.copy k).stream.push data).close
          given := (w.state.copy k).given ++ data }) ∧
      w'.state = w.state.set k c ∧ w'.cancelRequested = w.cancelRequested ∧
      ∀ n, (w'.fds n).closed = (w.fds n).closed := by
  obtain ⟨⟨fd, data⟩, hread, h⟩ := bind_ok h
  obtain rfl := Except.ok.inj h
  obtain ⟨hlen, hclosed⟩ : data.length ≤ (w.state.copy k).stream.availableCapacity ∧
      fd.closed = (w.fds (source k)).closed := by
    rcases FDWrapper.read_cases hread with ⟨-, rfl, rfl⟩ | ⟨-, hlen, hclosed, -⟩
    · exact ⟨Nat.zero_le _, rfl⟩
    · unfold FDWrapper.requested at hlen
      rw [if_neg (by omega)] at hlen
      exact ⟨hlen, hclosed⟩
  refine ⟨data, _, hlen, ?_, rfl, rfl, closed_update hclosed⟩
  dsimp only
  split
  · exact .inr rfl
  · exact .inl rfl

theorem copyOut_spec (h : copyOut k w = .ok w') :
    w' = w ∨ ∃ n, w'.state = w.state.set k { w.state.copy k with
        stream := (w.state.copy k).stream.pop n
        taken := (w.state.copy k).taken ++ (w.state.copy k).stream.peek.take n } ∧
      w'.cancelRequested = w.cancelRequested ∧ ∀ fd, (w'.fds fd).closed = (w.fds fd).closed := by
  unfold copyOut at h
  dsimp only at h
  split at h
  · obtain ⟨⟨fd, n⟩, hwrite, h⟩ := bind_ok h
    obtain rfl := Except.ok.inj h
    obtain ⟨-, -, rfl⟩ := FDWrapper.write_cases hwrite
    exact .inr ⟨n, rfl, rfl, closed_update rfl⟩
  · exact .inl (Except.ok.inj h).symm

theorem finish_closed {fd fd' : FDWrapper} {answers : Answers} (h : finish k fd answers = .ok fd') :
    fd'.closed = (fd.closed || decide (k = .inbound)) := by
  cases k with
  | outbound =>
    obtain ⟨_, -, h⟩ := bind_ok h
    obtain rfl := Except.ok.inj h
    simp [FDWrapper.registerWrite]
  | inbound =>
    obtain ⟨_, -, h⟩ := bind_ok h
    obtain rfl := Except.ok.inj h
    simp

theorem finishOut_spec (h : finishOut k w = .ok w') :
    w' = w ∨ ((w.state.copy k).stream.isFinished = true ∧
      w'.state = w.state.set k { w.state.copy k with
        shutdown := true, finishes := (w.state.copy k).finishes + 1 } ∧
      w'.cancelRequested = w.cancelRequested ∧
      ∀ n, (w'.fds n).closed = true → (w.fds n).closed = true ∨ (k = .inbound ∧ n = output)) := by
  unfold finishOut at h
  dsimp only at h
  split at h
  · rename_i hfin
    obtain ⟨fd, hf, h⟩ := bind_ok h
    obtain rfl := Except.ok.inj h
    refine .inr ⟨hfin, rfl, rfl, fun n hn => ?_⟩
    dsimp only at hn
    by_cases hs : n = sink k
    · rw [hs, Function.update_self, finish_closed hf, Bool.or_eq_true, decide_eq_true_eq] at hn
      rcases hn with hn | rfl
      · exact .inl (hs ▸ hn)
      · exact .inr ⟨rfl, hs⟩
    · rw [Function.update_of_ne hs] at hn
      exact .inl hn
  · exact .inl (Except.ok.inj h).symm

/-! ## The outline of the program -/

/-- In every state: each way is faithful, a sink is closed only if it was finished, and without the
rule that reads it a stream is closed. -/
structure Inv (loop : EventLoop StreamCopy) (w : World StreamCopy) : Prop where
  nonFdRules : loop.nonFdRules = []
  fdRules : loop.fdRules.Sublist rules
  requests : ∀ id, w.cancelRequested id = false
  faithful : ∀ k, (w.state.copy k).Faithful
  source : ∀ k, (w.fds (source k)).closed = false
  sink : ∀ k, (w.fds (sink k)).closed = true → (w.state.copy k).shutdown = true
  retired : ∀ k, readRule k ∉ loop.fdRules → (w.state.copy k).stream.closed = true

/-- The rule that reads finds room in a stream that is not closed, and the one that writes has not
finished its sink. -/
def Held (r : FDRule StreamCopy) (b : Bool) (w : World StreamCopy) : Prop :=
  b = true → ∀ k,
    (r = readRule k → 0 < (w.state.copy k).stream.availableCapacity ∧
      (w.state.copy k).stream.closed = false) ∧
    (r = writeRule k → (w.state.copy k).shutdown = false)

def outline : Outline StreamCopy where
  inv := Inv
  held := Held
  idle r w := r.interest w = false

theorem mem_rules (h : r ∈ rules) : ∃ k, r = readRule k ∨ r = writeRule k := by
  simp only [rules, List.mem_cons, List.not_mem_nil, or_false] at h
  rcases h with rfl | rfl | rfl | rfl
  exacts [⟨_, .inl rfl⟩, ⟨_, .inr rfl⟩, ⟨_, .inl rfl⟩, ⟨_, .inr rfl⟩]

theorem readRule_inj (h : readRule j = readRule k) : j = k := by
  have hid := congrArg (fun r => r.id) h
  cases j <;> cases k <;> first | rfl | exact absurd hid (by decide)

theorem readRule_ne_writeRule (j k : Way) : readRule j ≠ writeRule k := by
  intro h
  have hid := congrArg (fun r => r.id) h
  revert hid
  cases j <;> cases k <;> decide

/-- The rules stand in the order of their numbers. -/
theorem Inv.ordered (h : Inv (withRules loop (pre ++ r :: post)) w) :
    (∀ q ∈ pre, q.id < r.id) ∧ ∀ q ∈ post, r.id < q.id := by
  have hp : rules.Pairwise (fun a b => a.id < b.id) := by decide
  have hpair := hp.sublist h.fdRules
  rw [List.pairwise_append, List.pairwise_cons] at hpair
  exact ⟨fun q hq => hpair.2.2 q hq r List.mem_cons_self, hpair.2.1.1⟩

theorem Inv.mem (h : Inv loop w) (hr : r ∈ loop.fdRules) : ∃ k, r = readRule k ∨ r = writeRule k :=
  mem_rules (h.fdRules.subset hr)

/-- One way goes on: it stays faithful, and what is shut down or closed stays so. -/
theorem Inv.set {c : Copy} (h : Inv loop w) (hstate : w'.state = w.state.set k c)
    (hreq : w'.cancelRequested = w.cancelRequested) (hc : c.Faithful)
    (hshut : (w.state.copy k).shutdown = true → c.shutdown = true)
    (hclosed : (w.state.copy k).stream.closed = true → c.stream.closed = true)
    (hfds : ∀ n, (w'.fds n).closed = true →
      (w.fds n).closed = true ∨ (k = .inbound ∧ n = output ∧ c.shutdown = true)) :
    Inv loop w' := by
  refine ⟨h.nonFdRules, h.fdRules, hreq ▸ h.requests, hstate ▸ forall_set h.faithful hc,
    fun j => ?_, fun j hj => ?_, fun j hj => ?_⟩
  · refine Bool.eq_false_of_not_eq_true fun hj => ?_
    rcases hfds _ hj with hj | ⟨-, hj, -⟩
    · exact Bool.noConfusion ((h.source j).symm.trans hj)
    · cases j <;> exact absurd hj (by decide)
  · rw [hstate]
    by_cases hjk : j = k
    · subst hjk
      rw [set_copy_self]
      exact (hfds _ hj).elim (fun hj => hshut (h.sink j hj)) fun hj => hj.2.2
    · rw [set_copy_ne _ _ hjk]
      refine h.sink j ((hfds _ hj).resolve_right ?_)
      rintro ⟨rfl, hout, -⟩
      cases j
      · exact absurd hout (by decide)
      · exact hjk rfl
  · rw [hstate]
    by_cases hjk : j = k
    · subst hjk
      rw [set_copy_self]
      exact hclosed (h.retired j hj)
    · rw [set_copy_ne _ _ hjk]
      exact h.retired j hj

/-- A rule that is cancelled closes its stream. -/
theorem Inv.retire (h : Inv (withRules loop (pre ++ r :: post)) w) (hc : r.cancel w = .ok w') :
    Inv (withRules loop (pre ++ post)) w' := by
  obtain ⟨k, hr⟩ := h.mem List.mem_append_cons_self
  have hclose : closeStream k w = .ok w' := by rcases hr with rfl | rfl <;> exact hc
  obtain rfl := Except.ok.inj hclose
  have hset : Inv (withRules loop (pre ++ r :: post))
      { w with state := w.state.set k (w.state.copy k).close } :=
    h.set rfl rfl (h.faithful k).close id (fun _ => rfl) fun n => .inl
  refine { hset with
    fdRules := (List.Sublist.append_left (List.sublist_cons_self ..) pre).trans h.fdRules
    retired := fun j hj => ?_ }
  by_cases hjk : j = k
  · subst hjk
    simp [Copy.close, ByteStream.close]
  · have hne : readRule j ≠ r := by
      rcases hr with rfl | rfl
      · exact fun he => hjk (readRule_inj he)
      · exact readRule_ne_writeRule j k
    refine hset.retired j fun hmem => hj ?_
    have hmem : readRule j ∈ pre ++ r :: post := hmem
    simpa [hne] using hmem

/-- What `close` changes for the rule `q`: nothing, unless it is a rule of the same way. -/
theorem Held.closes {b : Bool} (h : Held q b w) (hc : closeStream k w = .ok w')
    (hne : b = true → q = readRule k → False) : Held q b w' := by
  intro hb j
  obtain ⟨hread, hwrite⟩ := h hb j
  obtain rfl := Except.ok.inj hc
  by_cases hjk : j = k
  · subst hjk
    exact ⟨fun hq => (hne hb hq).elim, fun hq => by simpa [Copy.close] using hwrite hq⟩
  · simpa [set_copy_ne _ _ hjk] using ⟨hread, hwrite⟩

theorem Held.fails {b : Bool} (h : Held q b w) (hc : setErrors w = .ok w') : Held q b w' := by
  intro hb j
  obtain rfl := Except.ok.inj hc
  exact h hb j

theorem Inv.fails (h : Inv loop w) (hc : setErrors w = .ok w') : Inv loop w' := by
  obtain rfl := Except.ok.inj hc
  exact { h with faithful := fun k => (h.faithful k).setError }

theorem Inv.reads (h : Inv loop w) (hroom : 0 < (w.state.copy k).stream.availableCapacity)
    (hopen : (w.state.copy k).stream.closed = false) (hc : readSource k w = .ok w') :
    Inv loop w' := by
  obtain ⟨data, c, hlen, hcases, hstate, hreq, hfds⟩ := readSource_spec hroom hc
  have hpush := (h.faithful k).push hopen hlen
  have hfaithful : c.Faithful ∧ c.shutdown = (w.state.copy k).shutdown := by
    rcases hcases with rfl | rfl
    · exact ⟨hpush, rfl⟩
    · exact ⟨hpush.close, rfl⟩
  exact h.set hstate hreq hfaithful.1 hfaithful.2.trans
    (fun hclosed => Bool.noConfusion (hopen.symm.trans hclosed)) fun n hn => .inl (hfds n ▸ hn)

/-- The two halves of the callback that writes. -/
theorem Inv.writes (h : Inv loop w) (hs : (w.state.copy k).shutdown = false)
    (hc : writeSink k w = .ok w') : Inv loop w' := by
  obtain ⟨w₁, hcopy, hfinish⟩ := bind_ok hc
  obtain ⟨h₁, hs₁⟩ : Inv loop w₁ ∧ (w₁.state.copy k).shutdown = false := by
    rcases copyOut_spec hcopy with rfl | ⟨n, hstate, hreq, hfds⟩
    · exact ⟨h, hs⟩
    · refine ⟨h.set hstate hreq ((h.faithful k).pop n) id id fun n hn => .inl (hfds n ▸ hn), ?_⟩
      rw [hstate, set_copy_self]
      exact hs
  rcases finishOut_spec hfinish with rfl | ⟨hfin, hstate, hreq, hfds⟩
  · exact h₁
  · exact h₁.set hstate hreq ((h₁.faithful k).finish hfin hs₁) (fun _ => rfl) id fun n hn =>
      (hfds n hn).imp id fun hout => ⟨hout.1, hout.2, rfl⟩

/-- A rule that is cancelled is one of the two of its way. -/
theorem Inv.cancel_eq (h : Inv loop w) (hr : r ∈ loop.fdRules) (hc : r.cancel w = .ok w') :
    ∃ k, (r = readRule k ∨ r = writeRule k) ∧ closeStream k w = .ok w' := by
  obtain ⟨k, hr⟩ := h.mem hr
  exact ⟨k, hr, by rcases hr with rfl | rfl <;> exact hc⟩

theorem Inv.error_eq (h : Inv loop w) (hr : r ∈ loop.fdRules) (hc : r.error w = .ok w') :
    setErrors w = .ok w' := by
  obtain ⟨k, rfl | rfl⟩ := h.mem hr <;> exact hc

/-- The sink of a stream that is not closed is open. -/
theorem Inv.not_over (h : Inv loop w) (hopen : (w.state.copy k).stream.closed = false) :
    ¬(writeRule k).Over w := by
  rintro (⟨hin, -⟩ | hclosed)
  · cases hin
  · have hfin := (h.faithful k).done (h.sink k hclosed)
    have := ((h.faithful k).wf.isFinished_iff.mp hfin).1
    exact Bool.noConfusion (hopen.symm.trans this)

/-- A source that is not asked for is not asked for once a stream is closed. -/
theorem wantsSource_close (h : wantsSource j w = false) (hc : closeStream k w = .ok w') :
    wantsSource j w' = false := by
  obtain rfl := Except.ok.inj hc
  have hcases : k = j ∨ k = j.other := by cases j <;> cases k <;> decide
  have hne : j.other ≠ j := by cases j <;> decide
  rcases hcases with rfl | rfl
  · simp [wantsSource, Copy.close, ByteStream.close, ByteStream.isClosed]
  · simpa [wantsSource, set_copy_ne _ _ hne.symm, Copy.close, ByteStream.close,
      ByteStream.hasError] using h

/-- The rules behind one that is cancelled go on: the one that reads stands before the one that
writes. -/
theorem Inv.held_behind {b : Bool} (h : Inv (withRules loop (pre ++ r :: post)) w)
    (hq : q ∈ post) (hheld : Held q b w) (hc : r.cancel w = .ok w') : Held q b w' := by
  have hlt := h.ordered.2 q hq
  obtain ⟨k, hr, hclose⟩ := h.cancel_eq List.mem_append_cons_self hc
  refine hheld.closes hclose fun _ hqk => ?_
  subst hqk
  rcases hr with rfl | rfl <;> cases k <;> exact absurd hlt (by decide)

/-- A sink that is asked for is not finished. -/
theorem Inv.unfinished (h : Inv loop w) (hwants : wantsSink k w = true) :
    (w.state.copy k).shutdown = false := by
  refine Bool.eq_false_of_not_eq_true fun hs => ?_
  have hempty := ((h.faithful k).wf.isFinished_iff.mp ((h.faithful k).done hs)).2
  have hlen := (h.faithful k).wf.peek_length
  rw [hempty, List.length_nil] at hlen
  simp [wantsSink, ByteStream.bytesBuffered, ← hlen, hs] at hwants

theorem outline_valid : outline.Valid where
  dropFree hinv := by
    have := hinv.nonFdRules
    simp at this
  noteFree _ _ _ _ := trivial
  serveFree r hr hinv := by
    rw [hinv.nonFdRules] at hr
    exact absurd hr List.not_mem_nil
  drop hinv hreq := Bool.noConfusion ((hinv.requests _).symm.trans hreq)
  retire hinv _ _ hc := hinv.retire hc
  heldRetire q hq hinv hheld hover hc := by
    have hlt := hinv.ordered.1 q hq
    obtain ⟨k, hr, hclose⟩ := hinv.cancel_eq List.mem_append_cons_self hc
    refine hheld.closes hclose fun hb hqk => ?_
    rcases hr with rfl | rfl
    · exact Nat.lt_irrefl _ (hqk ▸ hlt)
    · exact hinv.not_over ((hheld hb k).1 hqk).2 hover
  idleRetire q hq hinv hidle hover hc := by
    have hlt := hinv.ordered.1 q hq
    obtain ⟨k, hr, hclose⟩ := hinv.cancel_eq List.mem_append_cons_self hc
    obtain ⟨j, rfl | rfl⟩ := hinv.mem (List.mem_append_left _ hq)
    · exact wantsSource_close hidle hclose
    · -- the rule that reads stands before the one that writes
      have hjk : j ≠ k := by
        rintro rfl
        rcases hr with rfl | rfl <;> cases j <;> exact absurd hlt (by decide)
      obtain rfl := Except.ok.inj hclose
      have hidle : wantsSink j _ = false := hidle
      show wantsSink j _ = false
      simpa [wantsSink, set_copy_ne _ _ hjk] using hidle
  note r hr hinv _ _ hb k := by
    refine ⟨fun hrk => ?_, fun hrk => ?_⟩
    · subst hrk
      have hwants : wantsSource k _ = true := hb
      simp only [wantsSource, Bool.and_eq_true, decide_eq_true_eq, Bool.not_eq_true'] at hwants
      exact ⟨hwants.1.2, hwants.2⟩
    · subst hrk
      exact hinv.unfinished hb
  noteIdle _ _ _ := id
  hangUp hinv _ hc := hinv.retire hc
  armedHangUp q hq hinv hheld _ hc := hinv.held_behind hq hheld hc
  fail _ hinv _ he hc :=
    (hinv.fails (hinv.error_eq List.mem_append_cons_self he)).retire hc
  armedFail _ q hq hinv hheld _ he hc := by
    have hfails := hinv.error_eq List.mem_append_cons_self he
    exact (hinv.fails hfails).held_behind hq (hheld.fails hfails) hc
  serve r hr hinv hheld hc := by
    obtain ⟨k, rfl | rfl⟩ := hinv.mem hr
    · obtain ⟨hroom, hopen⟩ := (hheld rfl k).1 rfl
      exact hinv.reads hroom hopen hc
    · exact hinv.writes ((hheld rfl k).2 rfl) hc

theorem start_inv {fd : FDWrapper} (h : fd.closed = false) : Inv eventLoop (start fd) where
  nonFdRules := rfl
  fdRules := List.Sublist.refl _
  requests _ := rfl
  faithful _ := .new
  source k := by
    cases k with
    | outbound => rfl
    | inbound => exact h
  sink k hk := by
    cases k with
    | outbound => exact Bool.noConfusion (h.symm.trans hk)
    | inbound => cases hk
  retired k hk := by
    refine absurd ?_ hk
    cases k <;> simp [eventLoop, rules]

theorem undisturbed {kernel : Kernel StreamCopy} (h : Answering kernel) :
    outline.Undisturbed kernel := by
  obtain ⟨answers, hwait⟩ := h
  refine ⟨fun hinv => ?_, fun hheld => ?_, .inl trivial⟩
  · rw [hwait]
    exact ⟨hinv.nonFdRules, hinv.fdRules, hinv.requests, hinv.faithful, hinv.source, hinv.sink,
      hinv.retired⟩
  · rw [hwait]
    exact hheld

section

variable {fd : FDWrapper} {s : EventLoop StreamCopy × World StreamCopy}

/-- The runs of the program: the calls of `wait_next_event`, whatever `poll` and the system calls
return. -/
abbrev Run (fd : FDWrapper) : EventLoop StreamCopy × World StreamCopy → Prop :=
  (EventLoop.machine eventLoop (start fd)).Reaches fun _ => Answering

theorem Run.inv (hfd : fd.closed = false) (h : Run fd s) : Inv s.1 s.2 :=
  outline_valid.reaches (start_inv hfd) (fun _ _ => undisturbed) h

/-- In every run, each sink has taken a first part of what its source has given, in order; the rest
is in the stream, which is bounded. A sink is finished at most once, and only when it has taken
all. -/
theorem copied_in_order (fd : FDWrapper) (s : EventLoop StreamCopy × World StreamCopy) (k : Way)
    (hfd : fd.closed = false) (h : Run fd s) :
    (s.2.state.copy k).given = (s.2.state.copy k).taken ++ (s.2.state.copy k).stream.peek ∧
      (s.2.state.copy k).stream.peek.length ≤ Copy.bufferSize ∧
      (s.2.state.copy k).finishes ≤ 1 ∧
      ((s.2.state.copy k).finishes = 1 →
        (s.2.state.copy k).taken = (s.2.state.copy k).given) := by
  have hf := (h.inv hfd).faithful k
  refine ⟨hf.bytes, ?_, ?_, hf.taken_all⟩
  · rw [hf.wf.peek_length, ← hf.capacity]
    exact hf.wf.fits
  · rw [hf.once]
    split <;> decide

/-- The kernel that answers so, and reports these events for the rule at `idx`. -/
def serves (idx : Nat) (events : UInt16) (answers : Answers) : Kernel StreamCopy where
  wait w := { w with state := { w.state with answers } }
  revents i := if i = idx then events else 0

theorem run_of_serves {P : EventLoop StreamCopy × World StreamCopy → Prop}
    (fd : FDWrapper) (es : List (Nat × UInt16 × Answers))
    (h : Machine.Ends P EventLoop.step (eventLoop, start fd)
      (es.map fun e => serves e.1 e.2.1 e.2.2)) : ∃ s, Run fd s ∧ P s := by
  refine Machine.exists_reaches EventLoop.step (eventLoop, start fd) _ P _ h ?_
  refine .of_forall fun kernel hk _ => ?_
  obtain ⟨e, -, rfl⟩ := List.mem_map.mp hk
  exact ⟨e.2.2, rfl⟩

/-- Two bytes come in, and the socket takes one of them. -/
theorem copied_in_order_partly : ∃ s : EventLoop StreamCopy × World StreamCopy,
    (s.2.state.copy .outbound).taken = [97] ∧ (s.2.state.copy .outbound).given =
      (s.2.state.copy .outbound).taken ++ (s.2.state.copy .outbound).stream.peek := by
  obtain ⟨s, h, hs⟩ := run_of_serves (P := fun s => (s.2.state.copy .outbound).taken = [97]) {}
    [(0, pollIn, { read := .done [97, 98] }), (1, pollOut, { write := .done 1 })]
    (by decide +kernel)
  exact ⟨s, hs, (copied_in_order {} s .outbound rfl h).1⟩

/-- When the loop exits, each sink has taken all that its source has given, and it is finished or a
descriptor had an error; or the rule that writes to it was cancelled before that. -/
theorem exit_complete (fd : FDWrapper) (s : EventLoop StreamCopy × World StreamCopy)
    (kernel : Kernel StreamCopy) (loop : EventLoop StreamCopy) (w : World StreamCopy) (k : Way)
    (hfd : fd.closed = false) (h : Run fd s) (hk : Answering kernel)
    (hexit : s.1.waitNextEvent kernel s.2 = .ok (.exit, loop, w)) :
    ((w.state.copy k).taken = (w.state.copy k).given ∧
      ((w.state.copy k).finishes = 1 ∨ (w.state.copy k).stream.hasError = true ∨
        (w.state.copy k.other).stream.hasError = true)) ∨
    (writeRule k ∉ loop.fdRules ∧ (w.state.copy k).finishes = 0) := by
  obtain ⟨hinv, hidle⟩ := outline_valid.waitNextEvent (undisturbed hk) (h.inv hfd) hexit
  have hinv : Inv loop w := hinv
  have hf := hinv.faithful k
  by_cases hfin : (w.state.copy k).finishes = 1
  · exact .inl ⟨hf.taken_all hfin, .inl hfin⟩
  have hs : (w.state.copy k).shutdown = false := by
    refine Bool.eq_false_of_not_eq_true fun hs => hfin ?_
    rw [hf.once, if_pos hs]
  by_cases hrule : writeRule k ∈ loop.fdRules
  · have hsink : wantsSink k w = false := hidle rfl _ hrule
    simp only [wantsSink, hs, Bool.not_false, Bool.and_true, Bool.or_eq_false_iff,
      decide_eq_false_iff_not, not_not] at hsink
    obtain ⟨hbuf, hopen⟩ := hsink
    have hempty : (w.state.copy k).stream.peek = [] :=
      List.length_eq_zero_iff.mp (hf.wf.peek_length.trans hbuf)
    have hclosed : (w.state.copy k).stream.closed = false := by
      refine Bool.eq_false_of_not_eq_true fun hc => ?_
      exact Bool.noConfusion (hopen.symm.trans (hf.wf.isFinished_iff.mpr ⟨hc, hempty⟩))
    -- the rule that reads is there, and room is not what it lacks
    have hread : readRule k ∈ loop.fdRules := by
      by_contra hmem
      exact Bool.noConfusion (hclosed.symm.trans (hinv.retired k hmem))
    have hsource : wantsSource k w = false := hidle rfl _ hread
    have hroom : 0 < (w.state.copy k).stream.availableCapacity := by
      have hbuf : (w.state.copy k).stream.bufferSize = 0 := hbuf
      rw [hf.wf.availableCapacity_eq, hf.capacity, hbuf]
      decide
    refine .inl ⟨by rw [hf.bytes, hempty, List.append_nil], .inr ?_⟩
    cases he : (w.state.copy k).stream.hasError with
    | true => exact .inl rfl
    | false =>
      refine .inr ?_
      simpa [wantsSource, hroom, he, ByteStream.isClosed, hclosed] using hsource
  · refine .inr ⟨hrule, ?_⟩
    rw [hf.once, hs]
    rfl

/-- Each source gives a byte and ends, both sinks take it and are finished, and the loop exits. -/
theorem exit_complete_clean : ∃ (loop : EventLoop StreamCopy) (w : World StreamCopy),
    (w.state.copy .outbound).given = [97] ∧ (w.state.copy .outbound).finishes = 1 ∧
    (((w.state.copy .outbound).taken = (w.state.copy .outbound).given ∧
      ((w.state.copy .outbound).finishes = 1 ∨ (w.state.copy .outbound).stream.hasError = true ∨
        (w.state.copy .inbound).stream.hasError = true)) ∨
      (writeRule .outbound ∉ loop.fdRules ∧ (w.state.copy .outbound).finishes = 0)) := by
  obtain ⟨s, h, hs⟩ := run_of_serves (P := fun s =>
    (s.1.waitNextEvent (serves 0 0 {}) s.2).map (fun r => (r.1,
      (r.2.2.state.copy .outbound).given, (r.2.2.state.copy .outbound).finishes)) =
        .ok (.exit, [97], 1)) {}
    [(0, pollIn, { read := .done [97] }), (1, pollOut, { write := .done 1 }),
      (0, pollIn, { read := .done [] }), (0, pollOut, {}),
      (1, pollIn, { read := .done [98] }), (2, pollOut, { write := .done 1 }),
      (1, pollIn, { read := .done [] }), (1, pollOut, {})]
    (by decide +kernel)
  obtain ⟨⟨result, loop, w⟩, hexit, hw⟩ := map_ok hs
  obtain ⟨rfl, hgiven, hfin⟩ := triple_ok (congrArg (Except.ok (ε := Exception)) hw)
  exact ⟨loop, w, hgiven, hfin,
    exit_complete {} s (serves 0 0 {}) loop w .outbound rfl h ⟨{}, rfl⟩ hexit⟩

end

end StreamCopy

end Minnow
