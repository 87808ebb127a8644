import Minnow.Reassembler.Placed
import Minnow.Tcp.BeforeSyn
import Minnow.Tcp.Session

/-!
# What a receiver makes of the segments of one sender

`Slice` is where a segment lies in the stream that is written. `Delivered` relates a receiver to
the session of the sender at the other end: what it has pushed is a prefix of the bytes written,
what it has cached is in its place, and it closes only a stream that is complete.

`Delivered.receive` keeps it under any segment of the session, in any order and any number of
times, but for two kinds (`Harmless`): a segment before the SYN that falls into the window by its
raw number, and an empty SYN that is taken for the first byte.
-/

namespace Minnow

namespace TCPSender

/-! ## Where a segment lies -/

/-- The payload of the segment is what the stream has at index `i`. -/
structure Slice (s : Session) (m : TCPSenderMessage) (i : Nat) : Prop where
  syn : m.syn = true → i = 0 ∧ m.seqno = s.sender.isn
  seqno : m.syn = false → m.seqno = Wrap32.wrap (i + 1) s.sender.isn
  carries : Reassembler.Carries s.written s.sender.input.closed i m.payload m.fin
  length_pos : 0 < m.sequenceLength

theorem totalLength_of_plain {l : List TCPSenderMessage}
    (h : ∀ m ∈ l, m.syn = false ∧ m.fin = false) : totalLength l = (payloads l).length := by
  induction l with
  | nil => rfl
  | cons m l ih =>
    obtain ⟨⟨hs, hf⟩, hl⟩ := List.forall_mem_cons.mp h
    rw [totalLength_cons, ih hl, payloads_cons, List.length_append]
    unfold TCPSenderMessage.sequenceLength
    simp [hs, hf]

/-- The SYN takes one number and no other segment but the last has a flag. -/
theorem Cut.totalLength_eq {isn : Wrap32} {pre post : List TCPSenderMessage}
    {m : TCPSenderMessage} (h : Cut isn (pre ++ m :: post)) (hne : pre ≠ []) :
    totalLength pre = (payloads pre).length + 1 := by
  obtain ⟨m₀, rest, rfl⟩ := List.exists_cons_of_ne_nil hne
  have hfin : ∀ x ∈ m₀ :: rest, x.fin = false := by
    intro x hx
    obtain ⟨a, b, hab⟩ := List.append_of_mem hx
    refine Bool.eq_false_iff.mpr fun hf => ?_
    have := h.fin a x (b ++ m :: post) (by rw [hab]; simp) hf
    simp at this
  have hsyn₀ : m₀.syn = true := (h.syn [] m₀ (rest ++ m :: post) rfl).mpr rfl
  have hsyn : ∀ x ∈ rest, x.syn = false := by
    intro x hx
    obtain ⟨a, b, hab⟩ := List.append_of_mem hx
    refine Bool.eq_false_iff.mpr fun hs => ?_
    have := (h.syn (m₀ :: a) x (b ++ m :: post) (by rw [hab]; simp)).mp hs
    exact List.cons_ne_nil _ _ this
  have hrest := totalLength_of_plain fun x hx =>
    ⟨hsyn x hx, hfin x (List.mem_cons_of_mem _ hx)⟩
  rw [totalLength_cons, hrest, payloads_cons, List.length_append]
  unfold TCPSenderMessage.sequenceLength
  rw [hsyn₀, hfin m₀ List.mem_cons_self, Bool.toNat_true, Bool.toNat_false]
  omega

/-- The SYN and the FIN are the only numbers that are not bytes. -/
theorem Segmented.absSeqno_le {s : TCPSender} {sent : List TCPSenderMessage} {written : Bytes}
    (h : Segmented s sent written) : s.absSeqno ≤ written.length + 2 := by
  have hw : (payloads sent).length ≤ written.length := by
    rw [h.bytes, List.length_append]
    omega
  rw [h.absSeqno]
  rcases List.eq_nil_or_concat sent with rfl | ⟨init, m, rfl⟩
  · exact Nat.zero_le _
  rw [List.concat_eq_append] at *
  have hm : totalLength [m] = m.syn.toNat + m.payload.length + m.fin.toNat := rfl
  have hs := Bool.toNat_le m.syn
  have hf := Bool.toNat_le m.fin
  rw [payloads_append, payloads_singleton, List.length_append] at hw
  rw [totalLength_append]
  by_cases hinit : init = []
  · rw [hinit, totalLength_nil]
    omega
  · have hsyn : m.syn = false := Bool.eq_false_iff.mpr fun hs =>
      hinit ((h.cut.syn init m [] rfl).mp hs)
    rw [h.cut.totalLength_eq hinit]
    rw [hsyn, Bool.toNat_false] at hm
    omega

/-- Segments that start with the SYN use more numbers than they carry bytes. -/
theorem Segmented.payloads_lt {s : TCPSender} {l r : List TCPSenderMessage} {written : Bytes}
    (h : Segmented s (l ++ r) written) (hne : l ≠ []) : (payloads l).length < totalLength l := by
  obtain ⟨m, rest, rfl⟩ := List.exists_cons_of_ne_nil hne
  have hsyn : m.syn = true := (h.cut.syn [] m (rest ++ r) rfl).mpr rfl
  have hrest := payloads_length_le rest
  rw [totalLength_cons, payloads_cons, List.length_append]
  unfold TCPSenderMessage.sequenceLength
  rw [hsyn, Bool.toNat_true]
  omega

/-- A segment lies behind the payloads of those before it. -/
theorem Session.slice_at {s : Session} {m : TCPSenderMessage} {pre post : List TCPSenderMessage}
    (h : s.Good) (hs : s.sent = pre ++ m :: post) : Slice s m (payloads pre).length := by
  replace h : Segmented s.sender s.sent s.written := h
  have hm : m ∈ s.sent := hs ▸ List.mem_append_right _ List.mem_cons_self
  have hsyn := h.cut.syn pre m post hs
  have hwritten : s.written =
      payloads pre ++ (m.payload ++ (payloads post ++ s.sender.input.peek)) := by
    rw [h.bytes, hs, payloads_append, payloads_cons]
    simp only [List.append_assoc]
  refine ⟨?_, ?_, ⟨?_, ?_, ?_⟩, h.cut.length_pos m hm⟩
  · intro hm
    have hseq := h.cut.seqno pre m post hs
    rw [hsyn.mp hm] at hseq ⊢
    exact ⟨rfl, by rw [hseq]; exact Wrap32.wrap_zero _⟩
  · intro hm
    have hne : pre ≠ [] := fun hnil => by
      rw [hsyn.mpr hnil] at hm
      simp at hm
    have hcut := h.cut
    rw [hs] at hcut
    rw [h.cut.seqno pre m post hs, hcut.totalLength_eq hne]
  · intro k b hk
    have hlt := (List.getElem?_eq_some_iff.mp hk).1
    rw [hwritten, List.getElem?_append_right (Nat.le_add_right _ _), Nat.add_sub_cancel_left,
      List.getElem?_append_left hlt]
    exact hk
  · rw [hwritten]
    simp only [List.length_append]
    omega
  · intro hf
    obtain ⟨hc, hempty⟩ := h.drained (h.finSet.mpr ⟨m, hm, hf⟩)
    refine ⟨hc, ?_⟩
    rw [hwritten, h.cut.fin pre m post hs hf, hempty]
    simp [payloads]

theorem Session.slice {s : Session} {m : TCPSenderMessage} (h : s.Good) (hm : m ∈ s.sent) :
    ∃ i, Slice s m i := by
  obtain ⟨pre, post, hs⟩ := List.append_of_mem hm
  exact ⟨_, Session.slice_at h hs⟩

/-- How a session goes on: nothing that was sent or written is taken back. -/
structure Grows (s s' : Session) : Prop where
  isn : s'.sender.isn = s.sender.isn
  sent : s.sent <+: s'.sent
  written : s.written <+: s'.written
  closed : s.sender.input.closed = true →
    s'.sender.input.closed = true ∧ s'.written = s.written

theorem Session.grows {s : Session} {op : Op} (h : s.Good) (hok : s.Orderly op) :
    Grows s (s.step op) := by
  have hisn := isn_step s h op
  have hrefl := List.prefix_refl s.sent
  cases op with
  | write data =>
    refine ⟨hisn, hrefl, List.prefix_append _ _, fun hc => ?_⟩
    rw [show s.sender.input.closed = false from hok] at hc
    simp at hc
  | close => exact ⟨hisn, hrefl, List.prefix_refl _, fun _ => ⟨rfl, rfl⟩⟩
  | push =>
    exact ⟨hisn, List.prefix_append _ _, List.prefix_refl _, fun hc =>
      ⟨(Segmented.pushed h).closed.trans hc, rfl⟩⟩
  | tick ms =>
    refine ⟨hisn, hrefl, List.prefix_refl _, fun hc => ⟨?_, rfl⟩⟩
    show (s.sender.tick ms).1.input.closed = true
    rw [tick_eq]
    exact hc
  | receive stale msg =>
    refine ⟨hisn, hrefl, List.prefix_refl _, fun hc => ⟨?_, rfl⟩⟩
    show (s.sender.receive stale msg).input.closed = true
    rcases s.sender.receive_cases stale msg with ⟨-, error, he⟩ | ⟨-, hr⟩
    · rw [he]
      exact hc
    · rw [hr.input]
      exact hc

end TCPSender

namespace TCPReceiver

open TCPSender (Session Slice)
open Reassembler (Placed Carries Behind)

/-- The receiver against the session at the other end; `popped` are the bytes that its reader
has. -/
structure Delivered (capacity : Nat) (s : Session) (t : TCPReceiver) (popped : Bytes) : Prop where
  placed : Placed s.written s.sender.input.closed t.reassembler popped
  outputCapacity : t.output.capacity = capacity
  noError : t.output.hasError = false
  before : t.synSet = false → ∃ a, t = { new capacity with ackno := a }
  after : t.synSet = true → s.sent ≠ [] ∧ t.initialSeqno = s.sender.isn ∧
    ∃ n, t.ackno = some (Wrap32.wrap n s.sender.isn) ∧ 1 ≤ n ∧
      n ≤ 1 + t.bytesPushed + t.isClosed.toNat
  streamSeqno : t.streamSeqno = t.bytesPushed

/-- The segment is not taken for what it is not: before the SYN it lies beyond the window by its
raw number, and a SYN without payload is not taken for the first byte. -/
def Harmless (t : TCPReceiver) (message : TCPSenderMessage) : Prop :=
  (t.synSet = false → message.syn = false → Ignorable t.output.capacity message) ∧
    (message.syn = true → message.payload = [] → t.bytesPushed = 0 → t.reassembler.Behind)

instance (t : TCPReceiver) (message : TCPSenderMessage) : Decidable (Harmless t message) := by
  unfold Harmless
  infer_instance

section

variable {capacity : Nat} {s s' : Session} {t t' : TCPReceiver} {popped : Bytes}
  {message : TCPSenderMessage} {i : Nat}

/-- The index that the receiver works out for a segment. -/
theorem Delivered.streamFirstSeqno_eq (h : Delivered capacity s t popped)
    (hroom : s.written.length + capacity < 2 ^ 31) (hm : Slice s message i)
    (hsyn : t.synSet = true ∨ message.syn = true) :
    (t.takeFlags message).streamFirstSeqno message = i := by
  have hset : (t.takeFlags message).synSet = true := by
    show (t.synSet || message.syn) = true
    rcases hsyn with hs | hs <;> simp [hs]
  have hstream : (t.takeFlags message).streamSeqno = t.bytesPushed := h.streamSeqno
  have hpushed : t.bytesPushed ≤ s.written.length := h.placed.pushed_le
  have hstop := hm.carries.stop_le
  unfold streamFirstSeqno
  dsimp only
  rw [hset, hstream]
  cases hs : message.syn with
  | true =>
    obtain ⟨rfl, hseq⟩ := hm.syn hs
    have hinit : (t.takeFlags message).initialSeqno = message.seqno := by
      unfold takeFlags
      simp [hs]
    have hback : (message.seqno.add 1).add (2 ^ 32 - 1) = Wrap32.wrap 0 message.seqno := by
      rw [← Wrap32.wrap_zero message.seqno, Wrap32.wrap_add, Wrap32.wrap_add, Wrap32.wrap_zero]
      exact Wrap32.wrap_inj.mpr (by decide)
    rw [if_pos rfl, if_pos rfl, hinit, hback]
    exact Wrap32.unwrap_wrap _ (by omega) (by omega) (by omega) (by omega)
  | false =>
    have hinit : (t.takeFlags message).initialSeqno = s.sender.isn := by
      have := (h.after (hsyn.resolve_right (by simp [hs]))).2.1
      unfold takeFlags
      simp [hs, this]
    have hback : (Wrap32.wrap (i + 1) s.sender.isn).add (2 ^ 32 - 1) =
        Wrap32.wrap i s.sender.isn := by
      rw [Wrap32.wrap_add]
      exact Wrap32.wrap_inj.mpr (by omega)
    rw [if_neg Bool.false_ne_true, if_pos rfl, hinit, hm.seqno hs, hback]
    exact Wrap32.unwrap_wrap _ (by omega) (by omega) (by omega) (by omega)

theorem Delivered.new (hcap : capacity < 2 ^ 64) (isn : Wrap32) (sendCapacity rto : Nat) :
    Delivered capacity (.new sendCapacity isn rto) (.new capacity) [] where
  placed := .new hcap [] _
  outputCapacity := rfl
  noError := rfl
  before _ := ⟨none, rfl⟩
  after h := Bool.noConfusion h
  streamSeqno := rfl

/-- A segment without payload at index `0` is the SYN, or all of an empty stream. -/
theorem Delivered.behind (h : Delivered capacity s t popped) (hm : Slice s message 0)
    (hd : message.payload = []) (hs : message.syn = false) : t.reassembler.Behind := by
  have hfin : message.fin = true := by
    have := hm.length_pos
    unfold TCPSenderMessage.sequenceLength at this
    by_contra hf
    rw [hd, hs, Bool.eq_false_iff.mpr hf] at this
    exact absurd this (Nat.lt_irrefl 0)
  obtain ⟨-, hstop⟩ := hm.carries.last hfin
  rw [hd] at hstop
  refine ⟨fun x hx hone => ?_, fun ⟨hf, hset⟩ => ?_⟩
  · by_contra hne
    have hpos := List.length_pos_iff.mpr hne
    have hstored : Reassembler.Stored t.reassembler.cache.entries 1 x.2.2[0] :=
      ⟨x, hx, by omega, by rw [hone]; exact List.getElem?_eq_getElem hpos⟩
    have := (List.getElem?_eq_some_iff.mp (h.placed.stored _ _ hstored)).1
    simp only [List.length_nil] at hstop
    omega
  · have := (h.placed.finish hf).2
    simp only [List.length_nil] at hstop
    omega

/-- The ackno counts the SYN, what is pushed, and the end at most. -/
theorem acknowledge_ackno (t : TCPReceiver) (hs : t.synSet = true) :
    ∃ n, t.acknowledge.ackno = some (Wrap32.wrap n t.initialSeqno) ∧ 1 ≤ n ∧
      n ≤ 1 + t.bytesPushed + t.isClosed.toNat := by
  unfold acknowledge
  rw [hs, Bool.toNat_true]
  refine ⟨_, rfl, ?_⟩
  have := Bool.toNat_le t.finSet
  cases t.isClosed with
  | true =>
    rw [if_pos rfl, Bool.toNat_true]
    omega
  | false =>
    rw [if_neg Bool.false_ne_true, Bool.toNat_false]
    omega

/-- A segment of the session leaves the receiver in order, and takes nothing back. -/
theorem Delivered.receive (h : Delivered capacity s t popped) (hgood : s.Good)
    (hroom : s.written.length + capacity < 2 ^ 31) (hcap : 1 ≤ capacity) (hsent : message ∈ s.sent)
    (hrst : message.rst = false) (hok : Harmless t message) :
    ∃ t', t.receive message = .ok t' ∧ Delivered capacity s t' popped ∧
      t.bytesPushed ≤ t'.bytesPushed ∧ (t.isClosed = true → t'.isClosed = true) := by
  obtain ⟨i, hm⟩ := TCPSender.Session.slice hgood hsent
  by_cases hsyn : t.synSet = true ∨ message.syn = true
  · have hindex := h.streamFirstSeqno_eq hroom hm hsyn
    obtain ⟨r', hr', hplaced, hcap', herr', hle, hclosed⟩ := h.placed.insert_ok hm.carries
      (by rw [show t.reassembler.output.capacity = capacity from h.outputCapacity]; exact hroom)
      (by rw [show t.reassembler.output.capacity = capacity from h.outputCapacity]; exact hcap)
      (fun h0 hd hp => by
        subst h0
        cases hs : message.syn with
        | true => exact hok.2 hs hd hp
        | false => exact h.behind hm hd hs)
    have hset : (t.synSet || message.syn) = true := by
      rcases hsyn with hs | hs <;> simp [hs]
    have hinit : (t.takeFlags message).initialSeqno = s.sender.isn := by
      show (if message.syn then message.seqno else t.initialSeqno) = _
      split
      · rename_i hs
        exact (hm.syn hs).2
      · rename_i hs
        exact (h.after (hsyn.resolve_right hs)).2.1
    have hreceive : t.receive message =
        .ok { t.takeFlags message with reassembler := r' }.acknowledge := by
      have hcond : (message.rst || t.output.hasError) = false := by
        rw [hrst, h.noError, Bool.or_self]
      unfold TCPReceiver.receive
      rw [hcond, if_neg Bool.false_ne_true]
      dsimp only
      rw [hindex]
      show (t.reassembler.insert i message.payload message.fin >>= _) = _
      rw [hr']
      rfl
    have hack := acknowledge_ackno { t.takeFlags message with reassembler := r' } hset
    refine ⟨_, hreceive, ⟨hplaced, hcap'.trans h.outputCapacity, herr'.trans h.noError,
      fun hs => ?_, fun _ => ⟨List.ne_nil_of_mem hsent, hinit, hinit ▸ hack⟩, rfl⟩, hle, hclosed⟩
    exact absurd (hset.symm.trans hs) Bool.noConfusion
  · rw [not_or, Bool.not_eq_true, Bool.not_eq_true] at hsyn
    obtain ⟨a, rfl⟩ := h.before hsyn.1
    have hlt : capacity < 2 ^ 64 := by omega
    obtain ⟨a', ha'⟩ := receive_ignorable hlt hsyn.2 hrst (hok.1 hsyn.1 hsyn.2) a
    refine ⟨_, ha', ⟨h.placed, h.outputCapacity, h.noError, fun _ => ⟨a', rfl⟩,
      fun hs => Bool.noConfusion hs, h.streamSeqno⟩, Nat.le_refl _, id⟩

theorem Delivered.read (h : Delivered capacity s t popped) (len : Nat) :
    Delivered capacity s (t.read len) (popped ++ t.output.peek.take len) where
  placed := h.placed.pop len
  outputCapacity := h.outputCapacity
  noError := h.noError
  before hs := by
    obtain ⟨a, rfl⟩ := h.before hs
    have hpop : ({ capacity } : ByteStream).pop len = { capacity } := by
      unfold ByteStream.pop
      simp [ByteStream.bytesBuffered, show sub64 0 0 = 0 by decide]
    refine ⟨a, ?_⟩
    show TCPReceiver.mk { output := ({ capacity } : ByteStream).pop len } .. = _
    rw [hpop]
    rfl
  after := h.after
  streamSeqno := h.streamSeqno

/-- The session goes on. -/
theorem Delivered.extend (h : Delivered capacity s t popped) (hs : TCPSender.Grows s s') :
    Delivered capacity s' t popped where
  placed := h.placed.extend hs.written hs.closed
  outputCapacity := h.outputCapacity
  noError := h.noError
  before := h.before
  after hsyn := by
    obtain ⟨hne, hisn, n, hn⟩ := h.after hsyn
    rw [hs.isn]
    exact ⟨fun hnil => hne (List.prefix_nil.mp (hnil ▸ hs.sent)), hisn, n, hn⟩
  streamSeqno := h.streamSeqno

/-- What the receiver reports: a number that it has pushed up to, or a window of some bytes. -/
theorem Delivered.send (h : Delivered capacity s t popped) (hcap : 1 ≤ capacity)
    (hlt : capacity < 2 ^ 64) : (t.send.ackno = none → t.send.windowSize ≠ 0) ∧
      ∀ a ∈ t.send.ackno, s.sent ≠ [] ∧ ∃ n, a = Wrap32.wrap n s.sender.isn ∧ 1 ≤ n ∧
        n ≤ 1 + t.bytesPushed + t.isClosed.toNat := by
  cases hs : t.synSet with
  | true =>
    obtain ⟨hne, -, n, hack, hn⟩ := h.after hs
    have hsend : t.send.ackno = some (Wrap32.wrap n s.sender.isn) := by
      unfold TCPReceiver.send
      rw [hs, if_pos rfl, hack]
    rw [hsend]
    refine ⟨fun hnone => absurd hnone (Option.some_ne_none _), fun a ha => ⟨hne, n, ?_, hn⟩⟩
    exact (Option.some.inj ha).symm
  | false =>
    obtain ⟨a, rfl⟩ := h.before hs
    refine ⟨fun _ => ?_, fun a ha => absurd ha (Option.not_mem_none a)⟩
    have ha : ({ capacity } : ByteStream).availableCapacity = capacity :=
      (ByteStream.WF.new hlt).availableCapacity_eq
    show UInt16.ofNat (min (sub64 65535 0) ({ capacity } : ByteStream).availableCapacity) ≠ 0
    rw [ha, show sub64 65535 0 = 65535 by decide]
    intro hz
    have := congrArg UInt16.toNat hz
    rw [toNat_ofNat16 (by omega)] at this
    have hzero : (0 : UInt16).toNat = 0 := rfl
    omega

end

end TCPReceiver

end Minnow
