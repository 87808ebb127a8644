import Minnow.Tcp.Receiver

/-!
# The ackno is anchored at the first SYN

The ackno should always be the number of the first SYN, plus one for it, plus one for each byte
pushed, plus one for the end once the stream is closed. `Tracked` keeps the number of the first SYN
next to a receiver (`isn`); `position` is the absolute number that the ackno stands for.

Two kinds of segments break the anchor. A later SYN with another number moves the zero point, and
a FIN that is recorded before the SYN closes the stream without being counted. `Anchors` rules them
out, and then `ackno_anchored` holds in every run, for all other segments and all reads.
-/

namespace Minnow

namespace TCPReceiver

/-- The absolute number of the next sequence number needed. -/
def position (t : TCPReceiver) : Nat := 1 + t.bytesPushed + t.isClosed.toNat

/-- A receiver and the number of the first SYN that it took. -/
structure Tracked where
  receiver : TCPReceiver
  isn : Option Wrap32 := none
  deriving DecidableEq

/-- The segment is a reset or comes after an error, so it is not processed. -/
def Tracked.ignores (s : Tracked) (message : TCPSenderMessage) : Bool :=
  message.rst || s.receiver.output.hasError

/-- The number of the first SYN, once the segment is processed. -/
def Tracked.firstSyn (s : Tracked) (message : TCPSenderMessage) : Option Wrap32 :=
  if s.isn.isNone && message.syn then some message.seqno else s.isn

def Tracked.step (s : Tracked) (op : Op) : Except Fault Tracked := do
  let receiver ← s.receiver.step op
  match op with
  | .receive message =>
    return { receiver, isn := if s.ignores message then s.isn else s.firstSyn message }
  | .read _ => return { s with receiver }

/-- A SYN repeats the number of the first one, and before it no FIN is recorded. -/
def Anchors (s : Tracked) : Op → Prop
  | .receive message => s.ignores message = false →
      (∀ i ∈ s.isn, message.syn = true → message.seqno = i) ∧
        (s.isn = none → message.syn = false → message.fin = true →
          s.receiver.reassembler.marksEnd (s.receiver.streamFirstSeqno message)
            message.payload.length = false)
  | .read _ => True

instance (s : Tracked) : ∀ op, Decidable (Anchors s op)
  | .receive _ => by
    unfold Anchors
    infer_instance
  | .read _ => .isTrue trivial

/-- The fields that are updated one by one are consistent. -/
structure Consistent (s : Tracked) : Prop where
  synSet : s.receiver.synSet = s.isn.isSome
  closed : s.receiver.isClosed = true → s.receiver.reassembler.finish = true
  finish : s.receiver.reassembler.finish = true → s.receiver.finSet = true
  anchored : ∀ i ∈ s.isn, s.receiver.initialSeqno = i ∧
    s.receiver.ackno = some (Wrap32.wrap s.receiver.position i)

section

variable {capacity : Nat} {s s' : Tracked} {message : TCPSenderMessage} {op : Op}

theorem Consistent.new (capacity : Nat) : Consistent { receiver := .new capacity } where
  synSet := rfl
  closed h := absurd h Bool.false_ne_true
  finish h := absurd h Bool.false_ne_true
  anchored i hi := by cases hi

/-- What a segment does to a tracked receiver. -/
theorem Tracked.step_receive (h : s.step (.receive message) = .ok s') :
    (s.ignores message = true ∧ s' = { s with receiver := s.receiver.abort }) ∨
      s.ignores message = false ∧
      ∃ r', s.receiver.reassembler.insert
          ((s.receiver.takeFlags message).streamFirstSeqno message) message.payload
          message.fin = .ok r' ∧
        s' = { receiver := { s.receiver.takeFlags message with reassembler := r' }.acknowledge
               isn := s.firstSyn message } := by
  obtain ⟨t', ht', hs'⟩ := bind_ok h
  obtain rfl := Except.ok.inj hs'
  rcases receive_cases ht' with ⟨hig, rfl⟩ | ⟨hig, r', hins, rfl⟩
  · exact .inl ⟨hig, by rw [show s.ignores message = true from hig, if_pos rfl]⟩
  · exact .inr ⟨hig, r', hins, by
      rw [show s.ignores message = false from hig, if_neg Bool.false_ne_true]⟩

theorem Tracked.firstSyn_isSome (s : Tracked) (message : TCPSenderMessage) :
    (s.firstSyn message).isSome = (s.isn.isSome || message.syn) := by
  unfold firstSyn
  cases s.isn <;> cases message.syn <;> rfl

theorem Tracked.firstSyn_cases {i : Wrap32} (h : i ∈ s.firstSyn message) :
    s.isn = some i ∨ s.isn = none ∧ message.syn = true ∧ message.seqno = i := by
  unfold firstSyn at h
  cases hi : s.isn with
  | some j =>
    rw [hi] at h
    exact .inl h
  | none =>
    rw [hi] at h
    cases hm : message.syn with
    | false =>
      rw [hm] at h
      cases h
    | true =>
      rw [hm] at h
      exact .inr ⟨rfl, rfl, Option.some.inj h⟩

theorem takeFlags_of_no_syn {t : TCPReceiver} (ht : t.synSet = false)
    (hm : message.syn = false) : t.takeFlags message = t := by
  obtain ⟨r, i, syn, fin, a, n, rst⟩ := t
  obtain rfl : syn = false := ht
  unfold takeFlags
  simp [hm]

/-- A FIN that the reassembler has recorded is counted. -/
theorem Consistent.finish_of_insert {r' : Reassembler} (h : Consistent s)
    (hig : s.ignores message = false) (hok : Anchors s (.receive message))
    (hfinish : r'.finish = (s.receiver.reassembler.finish || message.fin &&
      s.receiver.reassembler.marksEnd ((s.receiver.takeFlags message).streamFirstSeqno message)
        message.payload.length)) (hf : r'.finish = true) :
    (s.receiver.takeFlags message).finSet = true := by
  show (s.receiver.finSet || message.fin && (s.receiver.synSet || message.syn)) = true
  rw [hfinish, Bool.or_eq_true] at hf
  rcases hf with hf | hf
  · rw [h.finish hf, Bool.true_or]
  · obtain ⟨hfm, hmark⟩ := Bool.and_eq_true_iff.mp hf
    cases hsyn : s.receiver.synSet || message.syn with
    | true => rw [hfm, Bool.and_self, Bool.or_true]
    | false =>
      -- without a SYN the FIN would not have been recorded
      obtain ⟨hs, hm⟩ := Bool.or_eq_false_iff.mp hsyn
      have hnone : s.isn = none := by
        rw [← Option.isNone_iff_eq_none, ← Option.isSome_eq_false_iff, ← h.synSet, hs]
      rw [takeFlags_of_no_syn hs hm, (hok hig).2 hnone hm hfm] at hmark
      simp at hmark

theorem Consistent.receive (h : Consistent s) (hok : Anchors s (.receive message))
    (hst : s.step (.receive message) = .ok s') : Consistent s' := by
  rcases Tracked.step_receive hst with ⟨-, rfl⟩ | ⟨hig, r', hins, rfl⟩
  · -- an error changes no field that the ackno depends on
    exact ⟨h.synSet, h.closed, h.finish, h.anchored⟩
  · obtain ⟨hkept, hfinish⟩ := Reassembler.insert_kept hins
    have hclosed : r'.output.closed = true → r'.finish = true := fun hc => by
      rcases hkept.finish hc with hc | hf
      · rw [hfinish, show s.receiver.reassembler.finish = true from h.closed hc, Bool.true_or]
      · exact hf
    have hfinSet := h.finish_of_insert hig hok hfinish
    have hsynSet : (s.receiver.takeFlags message).synSet = (s.firstSyn message).isSome := by
      rw [Tracked.firstSyn_isSome, ← h.synSet]
      rfl
    refine ⟨hsynSet, hclosed, hfinSet, fun i hi => ?_⟩
    replace hi : i ∈ s.firstSyn message := hi
    have hinit : (s.receiver.takeFlags message).initialSeqno = i := by
      show (if message.syn then message.seqno else s.receiver.initialSeqno) = i
      rcases Tracked.firstSyn_cases hi with hisn | ⟨-, hm, hseq⟩
      · split
        · rename_i hm
          exact (hok hig).1 i hisn hm
        · exact (h.anchored i hisn).1
      · rw [if_pos hm, hseq]
    refine ⟨hinit, congrArg some ?_⟩
    show Wrap32.wrap (if r'.output.isClosed then _ else _)
      (s.receiver.takeFlags message).initialSeqno =
      Wrap32.wrap (1 + r'.bytesPushed + r'.output.isClosed.toNat) i
    rw [hinit, hsynSet, Option.isSome_iff_exists.mpr ⟨i, hi⟩]
    show Wrap32.wrap (if _ then r'.bytesPushed + 1 + _ else r'.bytesPushed + 1) i = _
    cases hc : r'.output.isClosed with
    | true =>
      rw [if_pos rfl, show (TCPReceiver.finSet _) = true from hfinSet (hclosed hc)]
      congr 1
      simp only [Bool.toNat_true]
      omega
    | false =>
      rw [if_neg Bool.false_ne_true]
      congr 1
      simp only [Bool.toNat_false]
      omega

theorem Consistent.step (h : Consistent s) (hok : Anchors s op) (hst : s.step op = .ok s') :
    Consistent s' := by
  cases op with
  | receive message => exact h.receive hok hst
  | read len =>
    obtain ⟨t', ht', hs'⟩ := bind_ok hst
    obtain rfl := Except.ok.inj hs'
    obtain rfl := Except.ok.inj ht'
    exact ⟨h.synSet, h.closed, h.finish, h.anchored⟩

/-- No operation takes the position back, or forgets the first SYN. -/
theorem position_step (hst : s.step op = .ok s') :
    s.receiver.position ≤ s'.receiver.position ∧ ∀ i ∈ s.isn, i ∈ s'.isn := by
  cases op with
  | receive message =>
    rcases Tracked.step_receive hst with ⟨-, rfl⟩ | ⟨-, r', hins, rfl⟩
    · exact ⟨Nat.le_refl _, fun i hi => hi⟩
    · have hkept := (Reassembler.insert_kept hins).1
      refine ⟨?_, fun i hi => ?_⟩
      · show 1 + s.receiver.reassembler.bytesPushed + s.receiver.reassembler.output.closed.toNat ≤
          1 + r'.bytesPushed + r'.output.closed.toNat
        have hle := hkept.pushed_le
        cases hc : s.receiver.reassembler.output.closed with
        | true =>
          rw [hkept.closed hc]
          omega
        | false =>
          simp only [Bool.toNat_false]
          omega
      · show i ∈ s.firstSyn message
        unfold Tracked.firstSyn
        rw [Option.mem_def.mp hi]
        rfl
  | read len =>
    obtain ⟨t', ht', hs'⟩ := bind_ok hst
    obtain rfl := Except.ok.inj hs'
    obtain rfl := Except.ok.inj ht'
    exact ⟨Nat.le_refl _, fun i hi => hi⟩

def Tracked.machine (capacity : Nat) : Machine Tracked Op :=
  .det { receiver := .new capacity } Tracked.step

/-- In every run whose segments keep the anchor: the ackno that is reported is the one of the first
SYN plus the SYN, the bytes pushed and the end once the stream is closed; and from there on that
position never goes back. -/
theorem ackno_anchored (capacity : Nat) (s : Tracked)
    (h : (Tracked.machine capacity).Reaches Anchors s) :
    s.receiver.send.ackno = s.isn.map (Wrap32.wrap (1 + s.receiver.bytesPushed +
        s.receiver.isClosed.toNat)) ∧
      ∀ t, (Tracked.machine capacity).Runs Anchors s t →
        s.receiver.position ≤ t.receiver.position ∧ ∀ i ∈ s.isn, i ∈ t.isn := by
  constructor
  · have hc : Consistent s :=
      h.invariant_det (.new capacity) fun _ _ _ hs hok hst => hs.step hok hst
    show (if s.receiver.synSet then s.receiver.ackno else none) = _
    rw [hc.synSet]
    cases hi : s.isn with
    | none => rfl
    | some i => exact (hc.anchored i hi).2
  · intro t ht
    refine ht.rel (R := fun s t => s.receiver.position ≤ t.receiver.position ∧
      ∀ i ∈ s.isn, i ∈ t.isn) h (fun s => ⟨Nat.le_refl _, fun i hi => hi⟩) (fun s t u hst htu => ?_)
      fun s op s' _ _ hst => position_step hst
    exact ⟨Nat.le_trans hst.1 htu.1, fun i hi => htu.2 i (hst.2 i hi)⟩

/-- A duplicate SYN and out-of-order data with a FIN. -/
theorem ackno_anchored_out_of_order : ∃ s, (Tracked.machine 8).Reaches Anchors s ∧
    s.receiver.send.ackno = some ⟨14⟩ := by
  obtain ⟨s, h, hi, hp, hc⟩ := Machine.exists_reaches Tracked.step { receiver := .new 8 } Anchors
    (fun s => s.isn = some ⟨10⟩ ∧ s.receiver.bytesPushed = 2 ∧ s.receiver.isClosed = true)
    [.receive { seqno := ⟨10⟩, syn := true },
      .receive { seqno := ⟨12⟩, payload := [98], fin := true },
      .receive { seqno := ⟨10⟩, syn := true, payload := [97] }, .read 1]
    (by decide +kernel) (by decide +kernel)
  refine ⟨s, h, ?_⟩
  rw [(ackno_anchored 8 s h).1, hi, hp, hc]
  decide +kernel

/-- A second SYN with another number moves the ackno. -/
theorem ackno_moved : ∃ s, (Tracked.machine 8).Reaches (fun _ _ => True) s ∧
    s.isn = some ⟨0⟩ ∧ s.receiver.send.ackno ≠ s.isn.map (Wrap32.wrap (1 +
      s.receiver.bytesPushed + s.receiver.isClosed.toNat)) := by
  obtain ⟨s, h, hi, hne⟩ := Machine.exists_reaches Tracked.step { receiver := .new 8 }
    (fun _ _ => True)
    (fun s => s.isn = some ⟨0⟩ ∧ s.receiver.send.ackno ≠ s.isn.map (Wrap32.wrap (1 +
      s.receiver.bytesPushed + s.receiver.isClosed.toNat)))
    [.receive { syn := true }, .receive { seqno := ⟨100⟩, syn := true }]
    (by decide +kernel) (by decide +kernel)
  exact ⟨s, h, hi, hne⟩

end

end TCPReceiver

end Minnow
