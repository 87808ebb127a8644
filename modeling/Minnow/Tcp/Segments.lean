import Minnow.Lib.Machine
import Minnow.Tcp.Sender

/-!
# The segments that a sender transmits

`Round` says all that one round of the loop in `push` does; everything about `push` comes from it.
The list of the segments that `push` has transmitted so far is the ghost `sent` of a `Session`, next
to the bytes that were written (`written`). `Segmented` is the invariant: the segments are cut from
the stream one behind the other, and `send_buffer_` is a suffix of them with their positions.

It holds for any receiver messages, since `receive` only erases a prefix of the buffer.
-/

namespace Minnow

namespace TCPSender

/-! ## One round of the loop -/

/-- The state of the loop between two rounds. -/
structure Ready (p : Pushing) : Prop where
  input : p.sender.input.WF
  streamBytes : p.streamBytes = p.sender.input.peek
  message : p.message = p.sender.makeEmptyMessage

/-- The effect of a round that transmits `m`. -/
structure Round (p p' : Pushing) (m : TCPSenderMessage) : Prop where
  seqno : m.seqno = if p.sender.synSet then p.sender.seqno else p.sender.isn
  syn : m.syn = !p.sender.synSet
  rst : m.rst = p.sender.input.error
  payload : m.payload = p.sender.input.peek.take m.payload.length
  payload_le : m.payload.length ≤ maxPayloadSize
  fin : m.fin = true → p.sender.finSet = false ∧ p.sender.input.closed = true ∧
    p'.sender.input.peek = []
  length_pos : 0 < m.sequenceLength
  length_le : 0 < p.tempReceiveWindow.toNat → m.sequenceLength ≤ p.tempReceiveWindow.toNat
  transmitted : p'.transmitted = p.transmitted ++ [m]
  window : p'.tempReceiveWindow = p.tempReceiveWindow - UInt16.ofNat m.sequenceLength
  streamBytes : p'.streamBytes = p'.sender.input.peek
  message : p'.message = p'.sender.makeEmptyMessage
  sender : p'.sender = { p.sender with
    input := p.sender.input.pop m.payload.length
    sendBuffer := p.sender.sendBuffer ++ [(p.sender.absSeqno, m)]
    absSeqno := p.sender.absSeqno + m.sequenceLength
    seqno := m.seqno.add m.sequenceLength
    receiveWindow := p.sender.receiveWindow - UInt16.ofNat m.sequenceLength
    currentRTO := if p.sender.synSet then p.sender.currentRTO else p.sender.initialRTOMs
    synSet := true
    finSet := p.sender.finSet || m.fin }

namespace Pushing

variable {p : Pushing}

theorem addSyn_eq (p : Pushing) : p.addSyn = { p with
    sender := { p.sender with
      synSet := true
      currentRTO := if p.sender.synSet then p.sender.currentRTO else p.sender.initialRTOMs
      seqno := if p.sender.synSet then p.sender.seqno else p.sender.isn }
    message := { p.message with syn := p.message.syn || !p.sender.synSet } } := by
  obtain ⟨⟨input, isn, rtoMs, buffer, abs, seqno, w, wMax, n, rto, timer, ack, full, synSet,
    finSet⟩,
    window, bytes, message, sent⟩ := p
  unfold addSyn
  cases synSet <;> simp

/-- Popping nothing and taking nothing is what the skipped branch does. -/
theorem addPayload_eq (hw : p.sender.input.WF) (hm : p.message.payload = []) :
    p.addPayload = { p with
      sender := { p.sender with input := p.sender.input.pop p.availablePayloadSize }
      message := { p.message with payload := p.streamBytes.take p.availablePayloadSize } } := by
  unfold addPayload
  split
  · rfl
  · rename_i h
    rw [Nat.eq_zero_of_not_pos h, ByteStream.pop_zero hw, List.take_zero, ← hm]

/-- The test for a FIN. -/
def finNow (p : Pushing) : Bool :=
  p.tempReceiveWindow.toNat > p.message.sequenceLength && p.sender.input.isClosed &&
    !p.sender.finSet && p.sender.input.isFinished

theorem addFin_eq (p : Pushing) : p.addFin = { p with
    sender := { p.sender with finSet := p.sender.finSet || p.finNow }
    message := { p.message with fin := p.message.fin || p.finNow } } := by
  have hif : p.addFin = if p.finNow then { p with
      sender := { p.sender with finSet := true }
      message := { p.message with fin := true } } else p := rfl
  rw [hif]
  cases p.finNow <;> simp

end Pushing

/-- The payload leaves room for the SYN. -/
theorem availablePayloadSize_le {p : Pushing} (h : 0 < p.tempReceiveWindow.toNat) :
    p.message.syn.toNat + p.availablePayloadSize ≤ p.tempReceiveWindow.toNat := by
  have hw := p.tempReceiveWindow.toNat_lt
  have hs : p.message.syn.toNat ≤ 1 := Bool.toNat_le _
  unfold Pushing.availablePayloadSize
  rw [sub64_of_le (by omega) (by omega)]
  omega

/-- There is room and something to send, so the segment is not empty. -/
theorem availablePayloadSize_pos {p : Pushing} (h : 0 < p.tempReceiveWindow.toNat)
    (hs : p.message.syn = false) (hb : p.streamBytes ≠ []) : 0 < p.availablePayloadSize := by
  have hw := p.tempReceiveWindow.toNat_lt
  have hl := List.length_pos_iff.mpr hb
  unfold Pushing.availablePayloadSize maxPayloadSize
  rw [hs, Bool.toNat_false, sub64_of_le (Nat.zero_le _) (by omega)]
  omega

/-- Once the SYN is sent, the loop goes on while there is room and something to send. -/
theorem guard_iff (p : Pushing) (hs : p.sender.synSet = true) : p.guard = true ↔
    0 < p.tempReceiveWindow.toNat ∧ (p.streamBytes ≠ [] ∨
      p.sender.input.closed = true ∧ p.sender.finSet = false) := by
  have hwin : p.tempReceiveWindow > 0 ↔ 0 < p.tempReceiveWindow.toNat := UInt16.lt_iff_toNat_lt
  unfold Pushing.guard ByteStream.isClosed
  simp only [hs, Bool.not_true, Bool.or_false, Bool.or_eq_true, Bool.and_eq_true,
    decide_eq_true_eq, Bool.not_eq_true', List.isEmpty_eq_false_iff, hwin]
  tauto

/-- The segment of a round has `n` bytes, and a FIN if `f` says so. -/
structure Composed (p : Pushing) (n : Nat) (f : Bool) : Prop where
  le : n ≤ p.streamBytes.length
  le_max : n ≤ maxPayloadSize
  room : 0 < p.tempReceiveWindow.toNat →
    (!p.sender.synSet).toNat + n ≤ p.tempReceiveWindow.toNat
  pos : 0 < p.tempReceiveWindow.toNat → p.sender.synSet = true → p.streamBytes ≠ [] → 0 < n
  fin : f = true ↔ (!p.sender.synSet).toNat + n < p.tempReceiveWindow.toNat ∧
    p.sender.input.closed = true ∧ p.sender.finSet = false ∧
    (p.sender.input.pop n).isFinished = true
  body : p.body = Pushing.transmit { p with
    sender := { p.sender with
      input := p.sender.input.pop n
      synSet := true
      currentRTO := if p.sender.synSet then p.sender.currentRTO else p.sender.initialRTOMs
      seqno := if p.sender.synSet then p.sender.seqno else p.sender.isn
      finSet := p.sender.finSet || f }
    message := { p.message with
      syn := !p.sender.synSet
      payload := p.streamBytes.take n
      fin := f } }

/-- What the three steps before the transmission make of the message. -/
theorem Ready.composed {p : Pushing} (h : Ready p) : ∃ n f, Composed p n f := by
  obtain ⟨hw, -, hm⟩ := h
  have hmsyn : p.message.syn = false := by rw [hm]; rfl
  have hmfin : p.message.fin = false := by rw [hm]; rfl
  have hmpay : p.message.payload = [] := by rw [hm]; rfl
  have hsyn : p.addSyn.message.syn = !p.sender.synSet := by
    rw [Pushing.addSyn_eq, hmsyn]; rfl
  have hwin : p.addSyn.tempReceiveWindow = p.tempReceiveWindow := by rw [Pushing.addSyn_eq]
  have hbytes : p.addSyn.streamBytes = p.streamBytes := by rw [Pushing.addSyn_eq]
  have hroom := availablePayloadSize_le (p := p.addSyn)
  have hpos := availablePayloadSize_pos (p := p.addSyn)
  have hmax : p.addSyn.availablePayloadSize ≤ maxPayloadSize := Nat.min_le_right _ _
  have hle : p.addSyn.availablePayloadSize ≤ p.streamBytes.length := by
    rw [← hbytes]
    exact Nat.le_trans (Nat.min_le_left _ _) (Nat.min_le_right _ _)
  have hpay := Pushing.addPayload_eq (p := p.addSyn) (by rw [Pushing.addSyn_eq]; exact hw)
    (by rw [Pushing.addSyn_eq]; exact hmpay)
  rw [hsyn, hwin] at hroom hpos
  rw [hbytes] at hpos
  generalize p.addSyn.availablePayloadSize = n at *
  have hlen : (p.streamBytes.take n).length = n := List.length_take_of_le hle
  have hbody : p.body = p.addSyn.addPayload.addFin.transmit := rfl
  rw [hpay, Pushing.addFin_eq, Pushing.addSyn_eq, hmsyn, Bool.false_or] at hbody
  dsimp only at hbody
  rw [hmfin, Bool.false_or] at hbody
  generalize hf : Pushing.finNow _ = f at hbody
  refine ⟨n, f, hle, hmax, hroom, fun hp hs hne => hpos hp (by rw [hs]; rfl) hne, ?_, hbody⟩
  rw [← hf]
  unfold Pushing.finNow TCPSenderMessage.sequenceLength ByteStream.isClosed
  simp [hlen, and_assoc]

/-- The loop goes on, so the segment is not empty. -/
theorem Composed.length_pos {p : Pushing} {n : Nat} {f : Bool} (hc : Composed p n f)
    (h : Ready p) (hg : p.guard = true) : 0 < (!p.sender.synSet).toNat + n + f.toNat := by
  cases hs : p.sender.synSet with
  | false =>
    simp only [Bool.not_false, Bool.toNat_true]
    omega
  | true =>
    obtain ⟨hwin, hmore⟩ := (guard_iff p hs).mp hg
    by_cases hne : p.streamBytes = []
    · -- nothing is left but the FIN
      obtain ⟨hclosed, hfs⟩ := hmore.resolve_left (not_not_intro hne)
      have hn : n = 0 := by
        have := hc.le
        rw [hne, List.length_nil] at this
        omega
      have hft : f = true := by
        refine hc.fin.mpr ⟨by rw [hs, hn]; exact hwin, hclosed, hfs, ?_⟩
        rw [hn, ByteStream.pop_zero h.input, h.input.isFinished_iff]
        exact ⟨hclosed, h.streamBytes ▸ hne⟩
      rw [hft, Bool.toNat_true]
      omega
    · have := hc.pos hwin hs hne
      omega

theorem Composed.length_le {p : Pushing} {n : Nat} {f : Bool} (hc : Composed p n f)
    (h : 0 < p.tempReceiveWindow.toNat) :
    (!p.sender.synSet).toNat + n + f.toNat ≤ p.tempReceiveWindow.toNat := by
  have hroom := hc.room h
  cases hf : f with
  | false => exact hroom
  | true =>
    have := (hc.fin.mp hf).1
    rw [Bool.toNat_true]
    omega

/-- A round of the loop transmits one segment. -/
theorem body_round {p : Pushing} (h : Ready p) (hg : p.guard = true) :
    ∃ m, Round p p.body m := by
  obtain ⟨n, f, hc⟩ := h.composed
  have hpos := hc.length_pos h hg
  have hmle := hc.length_le
  have hlen : (p.streamBytes.take n).length = n := List.length_take_of_le hc.le
  have hseqno : p.message.seqno = if p.sender.synSet then p.sender.seqno else p.sender.isn := by
    rw [h.message]; rfl
  have hrst : p.message.rst = p.sender.input.error := by rw [h.message]; rfl
  rw [hc.body]
  obtain ⟨m, hm⟩ : ∃ m : TCPSenderMessage, m = { p.message with
      syn := !p.sender.synSet
      payload := p.streamBytes.take n
      fin := f } := ⟨_, rfl⟩
  have hmlen : m.sequenceLength = (!p.sender.synSet).toNat + n + f.toNat := by
    rw [hm]
    unfold TCPSenderMessage.sequenceLength
    rw [hlen]
  have hmn : m.payload.length = n := by rw [hm]; exact hlen
  have hmseqno : m.seqno = p.message.seqno := by rw [hm]
  have hmfin : m.fin = f := by rw [hm]
  unfold Pushing.transmit
  dsimp only
  rw [← hm, if_pos (by rw [hmlen]; exact hpos)]
  refine ⟨m, hmseqno.trans hseqno, by rw [hm], by rw [hm]; exact hrst, ?_, ?_, fun hf => ?_,
    by rw [hmlen]; exact hpos, by rw [hmlen]; exact hmle, rfl, rfl, rfl, rfl, ?_⟩
  · rw [hmn, hm, ← h.streamBytes]
  · rw [hmn]
    exact hc.le_max
  · obtain ⟨-, hclosed, hfs, hd⟩ := hc.fin.mp (hmfin ▸ hf)
    exact ⟨hfs, hclosed, ((h.input.pop n).isFinished_iff.mp hd).2⟩
  · rw [hmn, hmseqno, hseqno, hmfin]

/-! ## The segments of a run -/

/-- The sequence numbers that a list of segments uses. -/
def totalLength (sent : List TCPSenderMessage) : Nat := (sent.map (·.sequenceLength)).sum

/-- The bytes that a list of segments carries. -/
def payloads (sent : List TCPSenderMessage) : Bytes := sent.flatMap (·.payload)

/-- The segments with their positions, the first at `n`. -/
def positions : Nat → List TCPSenderMessage → List (Nat × TCPSenderMessage)
  | _, [] => []
  | n, m :: rest => (n, m) :: positions (n + m.sequenceLength) rest

@[simp] theorem totalLength_nil : totalLength [] = 0 := rfl

@[simp] theorem totalLength_cons (m : TCPSenderMessage) (sent : List TCPSenderMessage) :
    totalLength (m :: sent) = m.sequenceLength + totalLength sent := rfl

@[simp] theorem totalLength_append (l l' : List TCPSenderMessage) :
    totalLength (l ++ l') = totalLength l + totalLength l' := by
  unfold totalLength
  rw [List.map_append, List.sum_append]

@[simp] theorem payloads_cons (m : TCPSenderMessage) (sent : List TCPSenderMessage) :
    payloads (m :: sent) = m.payload ++ payloads sent := List.flatMap_cons

@[simp] theorem payloads_append (l l' : List TCPSenderMessage) :
    payloads (l ++ l') = payloads l ++ payloads l' := List.flatMap_append

@[simp] theorem payloads_singleton (m : TCPSenderMessage) : payloads [m] = m.payload :=
  List.flatMap_singleton _ _

theorem payloads_length_le (sent : List TCPSenderMessage) :
    (payloads sent).length ≤ totalLength sent := by
  induction sent with
  | nil => exact Nat.le_refl 0
  | cons m sent ih =>
    have hm : m.payload.length ≤ m.sequenceLength := by
      unfold TCPSenderMessage.sequenceLength
      omega
    rw [payloads_cons, List.length_append, totalLength_cons]
    omega

theorem totalLength_pos {out : List TCPSenderMessage} (h : ∀ m ∈ out, 0 < m.sequenceLength)
    (hne : out ≠ []) : 0 < totalLength out := by
  cases out with
  | nil => exact absurd rfl hne
  | cons m out =>
    have := h m List.mem_cons_self
    rw [totalLength, List.map_cons, List.sum_cons]
    omega

theorem positions_append (n : Nat) (l l' : List TCPSenderMessage) :
    positions n (l ++ l') = positions n l ++ positions (n + totalLength l) l' := by
  induction l generalizing n with
  | nil => rfl
  | cons m l ih =>
    rw [List.cons_append, positions, ih, positions, List.cons_append, totalLength_cons,
      Nat.add_assoc]

/-- The segments cut a stream of sequence numbers from `0` on, SYN first and FIN last. -/
structure Cut (isn : Wrap32) (sent : List TCPSenderMessage) : Prop where
  seqno : ∀ pre m post, sent = pre ++ m :: post → m.seqno = Wrap32.wrap (totalLength pre) isn
  syn : ∀ pre m post, sent = pre ++ m :: post → (m.syn = true ↔ pre = [])
  fin : ∀ pre m post, sent = pre ++ m :: post → m.fin = true → post = []
  payload_le : ∀ m ∈ sent, m.payload.length ≤ maxPayloadSize
  length_pos : ∀ m ∈ sent, 0 < m.sequenceLength

theorem Cut.nil (isn : Wrap32) : Cut isn [] :=
  ⟨fun pre m post h => by simp at h, fun pre m post h => by simp at h,
    fun pre m post h => by simp at h, fun m h => absurd h List.not_mem_nil,
    fun m h => absurd h List.not_mem_nil⟩

/-- A splitting of a list with one more element is at that element, or is one of the list. -/
theorem append_singleton_cases {α : Type} {l pre post : List α} {x y : α}
    (h : l ++ [x] = pre ++ y :: post) :
    pre = l ∧ y = x ∧ post = [] ∨ ∃ post', post = post' ++ [x] ∧ l = pre ++ y :: post' := by
  rcases List.append_eq_append_iff.mp h with ⟨c, rfl, hc⟩ | ⟨c, rfl, hc⟩
  · cases c with
    | nil => exact .inl ⟨List.append_nil _, (List.cons.inj hc).1.symm, (List.cons.inj hc).2.symm⟩
    | cons z c => simp at hc
  · cases c with
    | nil => exact .inl ⟨(List.append_nil _).symm, (List.cons.inj hc).1, (List.cons.inj hc).2⟩
    | cons z c =>
      obtain ⟨rfl, rfl⟩ := List.cons.inj hc
      exact .inr ⟨c, rfl, rfl⟩

theorem Cut.snoc {isn : Wrap32} {sent : List TCPSenderMessage} {m : TCPSenderMessage}
    (h : Cut isn sent) (hfin : ∀ x ∈ sent, x.fin = false)
    (hseqno : m.seqno = Wrap32.wrap (totalLength sent) isn) (hsyn : m.syn = true ↔ sent = [])
    (hle : m.payload.length ≤ maxPayloadSize) (hpos : 0 < m.sequenceLength) :
    Cut isn (sent ++ [m]) := by
  refine ⟨?_, ?_, ?_, ?_, ?_⟩
  · intro pre x post he
    rcases append_singleton_cases he with ⟨rfl, rfl, -⟩ | ⟨post', -, hs⟩
    · exact hseqno
    · exact h.seqno pre x post' hs
  · intro pre x post he
    rcases append_singleton_cases he with ⟨rfl, rfl, -⟩ | ⟨post', -, hs⟩
    · exact hsyn
    · exact h.syn pre x post' hs
  · intro pre x post he hx
    rcases append_singleton_cases he with ⟨-, -, hp⟩ | ⟨post', -, hs⟩
    · exact hp
    · have := hfin x (hs ▸ List.mem_append_right _ List.mem_cons_self)
      rw [hx] at this
      simp at this
  · intro x hx
    rcases List.mem_append.mp hx with hx | hx
    · exact h.payload_le x hx
    · exact List.mem_singleton.mp hx ▸ hle
  · intro x hx
    rcases List.mem_append.mp hx with hx | hx
    · exact h.length_pos x hx
    · exact List.mem_singleton.mp hx ▸ hpos

/-- `sent` are the segments that the sender has transmitted from the bytes `written`. -/
structure Segmented (s : TCPSender) (sent : List TCPSenderMessage) (written : Bytes) : Prop where
  cut : Cut s.isn sent
  input : s.input.WF
  absSeqno : s.absSeqno = totalLength sent
  seqno : s.synSet = true → s.seqno = Wrap32.wrap s.absSeqno s.isn
  synSet : s.synSet = true ↔ sent ≠ []
  finSet : s.finSet = true ↔ ∃ m ∈ sent, m.fin = true
  drained : s.finSet = true → s.input.closed = true ∧ s.input.peek = []
  bytes : written = payloads sent ++ s.input.peek
  popped : s.input.bytesPopped = (payloads sent).length
  buffer : s.sendBuffer <:+ positions 0 sent

section

variable {s : TCPSender} {sent : List TCPSenderMessage} {written : Bytes} {p p' : Pushing}
  {m : TCPSenderMessage}

theorem Segmented.new {capacity : Nat} (h : capacity < 2 ^ 64) (isn : Wrap32) (rto : Nat) :
    Segmented (.new capacity isn rto) [] [] where
  cut := .nil isn
  input := .new h
  absSeqno := rfl
  seqno h := absurd h Bool.false_ne_true
  synSet := iff_of_false Bool.false_ne_true fun h => h rfl
  finSet := iff_of_false Bool.false_ne_true fun ⟨_, hm, _⟩ => List.not_mem_nil hm
  drained h := absurd h Bool.false_ne_true
  bytes := rfl
  popped := rfl
  buffer := List.suffix_refl []

theorem Round.payload_length_le (hr : Round p p' m) :
    m.payload.length ≤ p.sender.input.peek.length := by
  have := congrArg List.length hr.payload
  rw [List.length_take] at this
  omega

theorem Round.input (hr : Round p p' m) :
    p'.sender.input = p.sender.input.pop m.payload.length := by
  rw [hr.sender]

/-- The payload and what is left of the stream are what there was. -/
theorem Round.peek (hw : p.sender.input.WF) (hr : Round p p' m) :
    p.sender.input.peek = m.payload ++ p'.sender.input.peek := by
  calc p.sender.input.peek
      = p.sender.input.peek.take m.payload.length ++ p.sender.input.peek.drop m.payload.length :=
        (List.take_append_drop _ _).symm
    _ = m.payload ++ p'.sender.input.peek := by
        rw [← hr.payload, hr.input, ByteStream.pop_peek hw]

/-- After the FIN there is nothing left to transmit. -/
theorem Segmented.not_finSet (h : Segmented p.sender sent written) (hr : Round p p' m) :
    p.sender.finSet = false := Bool.eq_false_iff.mpr fun hset => by
  obtain ⟨x, hx, -⟩ := h.finSet.mp hset
  have hs : p.sender.synSet = true := h.synSet.mpr (List.ne_nil_of_mem hx)
  have hmf : m.fin = false := Bool.eq_false_iff.mpr fun hmf => by
    have := (hr.fin hmf).1
    rw [hset] at this
    simp at this
  have hle := hr.payload_length_le
  have hpos := hr.length_pos
  unfold TCPSenderMessage.sequenceLength at hpos
  rw [(h.drained hset).2] at hle
  rw [hr.syn, hs, hmf, Nat.le_zero.mp hle] at hpos
  exact absurd hpos (Nat.lt_irrefl 0)

theorem Segmented.round_seqno (h : Segmented p.sender sent written) (hr : Round p p' m) :
    m.seqno = Wrap32.wrap (totalLength sent) p.sender.isn := by
  rw [hr.seqno, ← h.absSeqno]
  split
  · rename_i hs
    exact h.seqno hs
  · rename_i hs
    have hnil : sent = [] := not_not.mp (mt h.synSet.mpr hs)
    rw [h.absSeqno, hnil, totalLength_nil, Wrap32.wrap_zero]

/-- A round adds its segment. -/
theorem Segmented.round (h : Segmented p.sender sent written) (hr : Round p p' m) :
    Segmented p'.sender (sent ++ [m]) written := by
  have hw := h.input
  have hnofin := h.not_finSet hr
  have hseqno := h.round_seqno hr
  have hsyn : m.syn = true ↔ sent = [] := by
    rw [hr.syn, Bool.not_eq_true', ← Bool.not_eq_true, h.synSet, not_not]
  have hfins : ∀ x ∈ sent, x.fin = false := fun x hx => Bool.eq_false_iff.mpr fun hxf => by
    have := h.finSet.mpr ⟨x, hx, hxf⟩
    rw [hnofin] at this
    simp at this
  have habs : p'.sender.absSeqno = p.sender.absSeqno + m.sequenceLength := by rw [hr.sender]
  have hisn : p'.sender.isn = p.sender.isn := by rw [hr.sender]
  have hfinSet : p'.sender.finSet = m.fin := by
    rw [hr.sender]
    show (p.sender.finSet || m.fin) = m.fin
    rw [hnofin, Bool.false_or]
  refine ⟨?_, ?_, ?_, ?_, ?_, ?_, ?_, ?_, ?_, ?_⟩
  · rw [hisn]
    exact h.cut.snoc hfins hseqno hsyn hr.payload_le hr.length_pos
  · rw [hr.input]
    exact hw.pop _
  · rw [habs, h.absSeqno, totalLength_append]
    rfl
  · intro _
    rw [habs, hisn, h.absSeqno, hr.sender, ← Wrap32.wrap_add, ← hseqno]
  · rw [hr.sender]
    exact iff_of_true rfl (List.append_ne_nil_of_right_ne_nil _ (List.cons_ne_nil _ _))
  · rw [hfinSet]
    constructor
    · intro hm
      exact ⟨m, List.mem_append_right _ (List.mem_singleton.mpr rfl), hm⟩
    · rintro ⟨x, hx, hxf⟩
      rcases List.mem_append.mp hx with hx | hx
      · rw [hfins x hx] at hxf
        simp at hxf
      · exact List.mem_singleton.mp hx ▸ hxf
  · intro hm
    obtain ⟨-, hc, he⟩ := hr.fin (hfinSet ▸ hm)
    exact ⟨by rw [hr.input]; exact hc, he⟩
  · rw [h.bytes, payloads_append, payloads_singleton, hr.peek hw, List.append_assoc]
  · rw [hr.input, ByteStream.pop_bytesPopped, h.popped, payloads_append, payloads_singleton,
      List.length_append, ByteStream.bytesBuffered, ← hw.peek_length,
      Nat.min_eq_left hr.payload_length_le]
  · have hbuf : p'.sender.sendBuffer = p.sender.sendBuffer ++ [(p.sender.absSeqno, m)] := by
      rw [hr.sender]
    obtain ⟨pre, hpre⟩ := h.buffer
    rw [hbuf, positions_append, Nat.zero_add, ← h.absSeqno, ← hpre]
    exact ⟨pre, (List.append_assoc _ _ _).symm⟩

end

/-! ## The whole loop -/

/-- The effect of a push that transmits `segments`, besides `Segmented`. -/
structure Pushed (s s' : TCPSender) (segments : List TCPSenderMessage) : Prop where
  isn : s'.isn = s.isn
  maxReceiveWindow : s'.maxReceiveWindow = s.maxReceiveWindow
  receiverFull : s'.receiverFull = s.receiverFull
  closed : s'.input.closed = s.input.closed
  error : s'.input.error = s.input.error
  rst : ∀ m ∈ segments, m.rst = s.input.error
  sendBuffer : s'.sendBuffer = s.sendBuffer ++ positions s.absSeqno segments
  absSeqno : s'.absSeqno = s.absSeqno + totalLength segments
  receiveWindow : s'.receiveWindow = s.receiveWindow - UInt16.ofNat (totalLength segments)
  fits : 0 < s.pushWindow.toNat → totalLength segments ≤ s.pushWindow.toNat

/-- The invariant of the loop in `push`. -/
structure Pushing.Inv (s : TCPSender) (sent : List TCPSenderMessage) (written : Bytes)
    (p : Pushing) : Prop where
  ready : Ready p
  segmented : Segmented p.sender (sent ++ p.transmitted) written
  pushed : Pushed s p.sender p.transmitted
  window : p.tempReceiveWindow = s.pushWindow - UInt16.ofNat (totalLength p.transmitted)
  idle : p.transmitted = [] → p = s.pushing

/-- The rounds that are left at most: one for the SYN, each byte and the FIN. -/
def Pushing.left (p : Pushing) : Nat :=
  (!p.sender.synSet).toNat + p.sender.input.bufferSize + (!p.sender.finSet).toNat

theorem Round.left_lt {p p' : Pushing} {m : TCPSenderMessage} (hw : p.sender.input.WF)
    (h : Round p p' m) : p'.left < p.left := by
  have hlen : p.sender.input.bufferSize = m.payload.length + p'.sender.input.bufferSize := by
    have hw' : p'.sender.input.WF := by
      rw [h.input]
      exact hw.pop _
    rw [← hw.peek_length, ← hw'.peek_length, h.peek hw, List.length_append]
  have hpos := h.length_pos
  have hfin : m.fin = true → p.sender.finSet = false := fun hm => (h.fin hm).1
  have hs : p'.sender.synSet = true := by rw [h.sender]
  have hf : p'.sender.finSet = (p.sender.finSet || m.fin) := by rw [h.sender]
  unfold TCPSenderMessage.sequenceLength at hpos
  rw [h.syn] at hpos
  unfold Pushing.left
  rw [hs, hf, hlen]
  cases hsyn : p.sender.synSet <;> cases hfs : p.sender.finSet <;> cases hm : m.fin <;>
    simp_all <;> omega

section

variable {s : TCPSender} {sent : List TCPSenderMessage} {written : Bytes} {p : Pushing}

theorem Pushing.Inv.start (h : Segmented s sent written) :
    Pushing.Inv s sent written s.pushing where
  ready := ⟨h.input, rfl, rfl⟩
  segmented := by
    show Segmented s (sent ++ []) written
    rwa [List.append_nil]
  pushed := ⟨rfl, rfl, rfl, rfl, rfl, fun m hm => absurd hm List.not_mem_nil,
    (List.append_nil _).symm, rfl, (UInt16.sub_zero _).symm,
    fun _ => Nat.zero_le _⟩
  window := (UInt16.sub_zero _).symm
  idle _ := rfl

theorem Pushing.Inv.round (h : Pushing.Inv s sent written p) (hg : p.guard = true) :
    Pushing.Inv s sent written p.body ∧ p.body.left < p.left := by
  obtain ⟨m, hr⟩ := body_round h.ready hg
  have hp := h.pushed
  have hlen : totalLength p.body.transmitted =
      totalLength p.transmitted + m.sequenceLength := by
    rw [hr.transmitted, totalLength_append]
    rfl
  have hseg : Segmented p.body.sender (sent ++ p.body.transmitted) written := by
    rw [hr.transmitted, ← List.append_assoc]
    exact h.segmented.round hr
  refine ⟨⟨⟨hseg.input, hr.streamBytes, hr.message⟩, hseg, ?_, ?_, fun hnil => ?_⟩,
    hr.left_lt h.ready.input⟩
  · have hsender := hr.sender
    generalize p.body.sender = s' at *
    subst hsender
    refine ⟨hp.isn, hp.maxReceiveWindow, hp.receiverFull, hp.closed, hp.error, fun x hx => ?_, ?_,
      ?_, ?_, fun hpos => ?_⟩
    · rw [hr.transmitted] at hx
      rcases List.mem_append.mp hx with hx | hx
      · exact hp.rst x hx
      · rw [List.mem_singleton.mp hx, hr.rst]
        exact hp.error
    · show p.sender.sendBuffer ++ [(p.sender.absSeqno, m)] = _
      rw [hp.sendBuffer, hr.transmitted, positions_append, ← hp.absSeqno, List.append_assoc]
      rfl
    · show p.sender.absSeqno + m.sequenceLength = _
      rw [hlen, hp.absSeqno, Nat.add_assoc]
    · show p.sender.receiveWindow - UInt16.ofNat m.sequenceLength = _
      rw [hlen, sub_ofNat_add, hp.receiveWindow]
    · -- with nothing left of the window the loop only goes on for the SYN
      have hfits := hp.fits hpos
      have htemp : p.tempReceiveWindow.toNat =
          s.pushWindow.toNat - totalLength p.transmitted := by
        rw [h.window, toNat_sub_ofNat hfits]
      have hroom : 0 < p.tempReceiveWindow.toNat := by
        by_cases hnil : p.transmitted = []
        · rw [htemp, hnil]
          exact hpos
        · have hsyn : p.sender.synSet = true :=
            h.segmented.synSet.mpr (List.append_ne_nil_of_right_ne_nil _ hnil)
          exact ((guard_iff p hsyn).mp hg).1
      have := hr.length_le hroom
      omega
  · rw [hr.window, h.window, hlen, sub_ofNat_add]
  · rw [hr.transmitted] at hnil
    exact absurd hnil (List.append_ne_nil_of_right_ne_nil _ (List.cons_ne_nil _ _))

/-- The loop ends before its fuel does, and keeps its invariant. -/
theorem pushed_inv (h : Segmented s sent written) :
    Pushing.Inv s sent written s.pushed ∧ s.pushed.guard = false := by
  refine loop_spec (Pushing.Inv s sent written) Pushing.left (fun p hp hg => hp.round hg)
    (.start h) ?_
  have h₁ := Bool.toNat_le (!s.synSet)
  have h₂ := Bool.toNat_le (!s.finSet)
  show (!s.synSet).toNat + s.input.bufferSize + (!s.finSet).toNat ≤ s.input.bufferSize + 2
  omega

/-- A push adds its segments. -/
theorem Segmented.push (h : Segmented s sent written) :
    Segmented s.push.1 (sent ++ s.push.2) written :=
  (pushed_inv h).1.segmented

theorem Segmented.pushed (h : Segmented s sent written) : Pushed s s.push.1 s.push.2 :=
  (pushed_inv h).1.pushed

/-- After a push there is no room, or nothing to send. -/
theorem Segmented.push_done (h : Segmented s sent written) : s.pushed.guard = false :=
  (pushed_inv h).2

/-- A push with something to do transmits. -/
theorem Segmented.push_transmits (h : Segmented s sent written) (hg : s.pushing.guard = true) :
    s.push.2 ≠ [] := by
  intro hnil
  obtain ⟨hinv, hdone⟩ := pushed_inv h
  rw [hinv.idle hnil, hg] at hdone
  simp at hdone

end

/-! ## A push of any sender

What follows needs no history of the sender, only that its stream is well formed. -/

/-- What a push that transmits `segments` leaves as it was, and what it does to the buffer. -/
structure Extended (s s' : TCPSender) (segments : List TCPSenderMessage) : Prop where
  input : s'.input.WF
  initialRTOMs : s'.initialRTOMs = s.initialRTOMs
  timer : s'.timer = s.timer
  preAbsAckno : s'.preAbsAckno = s.preAbsAckno
  numConsecutiveRetran : s'.numConsecutiveRetran = s.numConsecutiveRetran
  receiverFull : s'.receiverFull = s.receiverFull
  sendBuffer : s'.sendBuffer = s.sendBuffer ++ positions s.absSeqno segments
  absSeqno : s'.absSeqno = s.absSeqno + totalLength segments
  length_pos : ∀ m ∈ segments, 0 < m.sequenceLength
  syn : s'.synSet = s.synSet ∧ s'.currentRTO = s.currentRTO ∨
    s.synSet = false ∧ s'.synSet = true ∧ s'.currentRTO = s.initialRTOMs

/-- What a push transmits is outstanding, behind what was. -/
theorem Extended.outstanding {s s' : TCPSender} {segments out : List TCPSenderMessage} {n : Nat}
    (hx : Extended s s' segments) (hbuf : s.sendBuffer = positions n out)
    (habs : s.absSeqno = n + totalLength out) :
    s'.sendBuffer = positions n (out ++ segments) ∧
      s'.absSeqno = n + totalLength (out ++ segments) := by
  constructor
  · rw [hx.sendBuffer, hbuf, habs, positions_append]
  · rw [hx.absSeqno, habs, totalLength_append, Nat.add_assoc]

theorem Extended.round {s : TCPSender} {p p' : Pushing} {m : TCPSenderMessage}
    (h : Extended s p.sender p.transmitted) (hr : Round p p' m) :
    Extended s p'.sender p'.transmitted := by
  rw [hr.sender, hr.transmitted]
  refine ⟨h.input.pop _, h.initialRTOMs, h.timer, h.preAbsAckno, h.numConsecutiveRetran,
    h.receiverFull, ?_, ?_, fun x hx => ?_, ?_⟩
  · dsimp only
    rw [h.sendBuffer, h.absSeqno, positions_append, List.append_assoc]
    rfl
  · dsimp only
    rw [h.absSeqno, totalLength_append, Nat.add_assoc]
    rfl
  · rcases List.mem_append.mp hx with hx | hx
    · exact h.length_pos x hx
    · exact List.mem_singleton.mp hx ▸ hr.length_pos
  · -- the first round of all sets the SYN and starts the RTO
    dsimp only
    rcases h.syn with ⟨hs, hrto⟩ | ⟨hs, hs', hrto⟩
    · cases hp : p.sender.synSet with
      | true => exact .inl ⟨hs.symm.trans hp |>.symm, hrto⟩
      | false => exact .inr ⟨hs.symm.trans hp, rfl, h.initialRTOMs⟩
    · exact .inr ⟨hs, rfl, by rw [hs', if_pos rfl]; exact hrto⟩

/-- The rule for the loop in `push`: it ends, and what holds at first and is kept by each round that
transmits holds then. -/
theorem push_loop {s : TCPSender} (h : s.input.WF) {P : Pushing → Prop} (hstart : P s.pushing)
    (hround : ∀ p m, P p → p.guard = true → Round p p.body m → P p.body) :
    P s.pushed ∧ s.pushed.guard = false := by
  have hready : Ready s.pushing := ⟨h, rfl, rfl⟩
  have h₁ := Bool.toNat_le (!s.synSet)
  have h₂ := Bool.toNat_le (!s.finSet)
  have hloop : (Ready s.pushed ∧ P s.pushed) ∧ s.pushed.guard = false := by
    refine loop_spec (fun p => Ready p ∧ P p) Pushing.left (fun p hp hg => ?_) ⟨hready, hstart⟩ ?_
    · obtain ⟨m, hr⟩ := body_round hp.1 hg
      have hinput : p.body.sender.input.WF := by
        rw [hr.input]
        exact hp.1.input.pop _
      exact ⟨⟨⟨hinput, hr.streamBytes, hr.message⟩, hround p m hp.2 hg hr⟩, hr.left_lt hp.1.input⟩
    · show (!s.synSet).toNat + s.input.bufferSize + (!s.finSet).toNat ≤ s.input.bufferSize + 2
      omega
  exact ⟨hloop.1.2, hloop.2⟩

/-- Every push ends, with the SYN sent. -/
theorem push_extended {s : TCPSender} (h : s.input.WF) :
    Extended s s.push.1 s.push.2 ∧ s.push.1.synSet = true := by
  have hstart : Extended s s.pushing.sender s.pushing.transmitted :=
    ⟨h, rfl, rfl, rfl, rfl, rfl, (List.append_nil _).symm, rfl,
      fun m hm => absurd hm List.not_mem_nil, .inl ⟨rfl, rfl⟩⟩
  obtain ⟨hext, hdone⟩ := push_loop h (P := fun p => Extended s p.sender p.transmitted) hstart
    fun _ _ hp _ hr => hp.round hr
  refine ⟨hext, ?_⟩
  unfold Pushing.guard at hdone
  rw [Bool.or_eq_false_iff, Bool.not_eq_false'] at hdone
  exact hdone.2

end TCPSender

end Minnow
