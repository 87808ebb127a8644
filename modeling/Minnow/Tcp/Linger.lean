import Minnow.Tcp.Delivery
import Minnow.Tcp.Peer

/-!
# One of two peers lingers

`Pair` is two peers and a network that keeps every message that was ever sent, in each direction. A
delivery gives one of them to the peer at the other end, so messages may be lost, delayed,
duplicated and reordered.

A peer stops lingering when its inbound stream is closed and its outbound stream is not finished. An
inbound stream is only closed by a FIN, and a sender sends its FIN when its stream is finished
(`Segmented.drained`). So the peer whose inbound stream is closed has a peer with its FIN sent
(`Causal`), and of two peers that both stopped the second would have sent its FIN before its stream
was finished.
-/

namespace Minnow

open TCPSender (Session Segmented Grows positions)

namespace TCPSender

theorem Grows.trans {s t u : Session} (h : Grows s t) (h' : Grows t u) : Grows s u where
  isn := h'.isn.trans h.isn
  sent := h.sent.trans h'.sent
  written := h.written.trans h'.written
  closed hc :=
    have ht := h.closed hc
    have hu := h'.closed ht.1
    ⟨hu.1, hu.2.trans ht.2⟩

theorem Grows.refl (s : Session) : Grows s s where
  isn := rfl
  sent := List.prefix_refl _
  written := List.prefix_refl _
  closed hc := ⟨hc, rfl⟩

/-- What is sent stays sent. -/
theorem Grows.finSet {s t : Session} (h : Grows s t) (hs : s.Good) (ht : t.Good)
    (hf : s.sender.finSet = true) : t.sender.finSet = true := by
  obtain ⟨m, hm, hfin⟩ := (Segmented.finSet hs).mp hf
  exact (Segmented.finSet ht).mpr ⟨m, h.sent.subset hm, hfin⟩

end TCPSender

namespace Conversation

variable {c c' : Conversation} {op : Op} {out : List TCPMessage}

/-- The peer has sent its FIN. -/
def FinSent (c : Conversation) : Prop := c.peer.sender.finSet = true

/-- The inbound stream is over, or its end is known. -/
def EndSeen (c : Conversation) : Prop :=
  c.peer.receiver.isClosed = true ∨ c.peer.receiver.reassembler.finish = true

/-- What a step of a peer does that matters to the other. -/
structure Follows (c c' : Conversation) (op : Op) (out : List TCPMessage) : Prop where
  good : c'.session.Good
  finSent : c.FinSent → c'.FinSent
  fins : ∀ m ∈ out, m.sender.fin = true → c'.FinSent
  endSeen : c'.EndSeen → c.EndSeen ∨ ∃ stale msg, op = .receive stale msg ∧ msg.sender.fin = true
  linger : c'.peer.lingerAfterStreamsFinish = false →
    c.peer.lingerAfterStreamsFinish = false ∨ c'.EndSeen ∧ ¬c'.FinSent

/-- A step that moves the sender only. -/
theorem Follows.ofSender (hg : c.session.Good) (hg' : c'.session.Good)
    (hgrow : Grows c.session c'.session) (hr : c'.peer.receiver = c.peer.receiver)
    (hl : c'.peer.lingerAfterStreamsFinish = c.peer.lingerAfterStreamsFinish)
    (hout : ∀ m ∈ out, m.sender ∈ c'.sent) : Follows c c' op out where
  good := hg'
  finSent := hgrow.finSet hg hg'
  fins m hm hfin := (Segmented.finSet hg').mpr ⟨_, hout m hm, hfin⟩
  endSeen h := .inl (by
    unfold EndSeen at h ⊢
    rwa [hr] at h)
  linger h := .inl (hl ▸ h)

/-- A step that is one step of the sender. -/
theorem Follows.ofStep (o : TCPSender.Op) (hg : c.session.Good) (hok : c.session.Orderly o)
    (hs : c'.session = c.session.step o) (hr : c'.peer.receiver = c.peer.receiver)
    (hl : c'.peer.lingerAfterStreamsFinish = c.peer.lingerAfterStreamsFinish)
    (hout : ∀ m ∈ out, m.sender ∈ c'.sent) : Follows c c' op out :=
  .ofSender hg (hs ▸ hg.step hok) (hs ▸ Session.grows hg hok) hr hl hout

theorem push_sent {m : TCPMessage} (hm : m ∈ c.push.2) : m.sender ∈ c.push.1.sent := by
  obtain ⟨segment, hseg, rfl⟩ := List.mem_map.mp hm
  exact List.mem_append_right _ hseg

/-- A tick sends what was sent before. -/
theorem tick_sent (hg : c.session.Good) {ms : Nat} {m : TCPMessage} (hm : m ∈ (c.peer.tick ms).2) :
    m.sender ∈ c.sent := by
  have hseg : Segmented c.peer.sender c.sent c.written := hg
  obtain ⟨segment, hmem, rfl⟩ := List.mem_map.mp hm
  rcases TCPSender.tick_retransmits c.peer.sender ms with hnil | ⟨x, rest, hbuf, hx⟩
  · rw [hnil] at hmem
    exact absurd hmem List.not_mem_nil
  · rw [hx] at hmem
    obtain rfl := List.mem_singleton.mp hmem
    refine TCPSender.mem_positions (n := 0) (hseg.buffer.subset ?_)
    rw [hbuf]
    exact List.mem_cons_self

/-- A receiver sees the end of its stream with a FIN only. -/
theorem endSeen_receive {t t' : TCPReceiver} {m : TCPSenderMessage} (h : t.receive m = .ok t')
    (hend : t'.isClosed = true ∨ t'.reassembler.finish = true) :
    (t.isClosed = true ∨ t.reassembler.finish = true) ∨ m.fin = true := by
  rcases TCPReceiver.receive_cases h with ⟨-, rfl⟩ | ⟨-, r', hins, rfl⟩
  · exact .inl hend
  · obtain ⟨hk, hfin⟩ := Reassembler.insert_kept hins
    have hfinish : r'.finish = true → t.reassembler.finish = true ∨ m.fin = true := fun hf => by
      rw [hfin] at hf
      simp only [Bool.or_eq_true, Bool.and_eq_true] at hf
      exact hf.imp_right And.left
    rcases hend with hc | hf
    · rcases hk.finish hc with hc | hf
      · exact .inl (.inl hc)
      · exact (hfinish hf).imp_left .inr
    · exact (hfinish hf).imp_left .inr

/-- A sender that has sent its FIN has finished its stream. -/
theorem FinSent.isFinished (h : c.FinSent) (hg : c.session.Good) :
    c.peer.sender.input.isFinished = true :=
  (Segmented.input hg).isFinished_iff.mpr (Segmented.drained hg h)

theorem Follows.receive {stale : Wrap32} {msg : TCPMessage} (hg : c.session.Good)
    (hst : c.receive stale msg = .ok (c', out)) : Follows c c' (.receive stale msg) out := by
  rcases receive_cases hst with ⟨-, rfl, rfl⟩ | ⟨ha, p', hans, rfl⟩
  · exact .ofSender hg hg (.refl _) rfl rfl fun m hm => absurd hm List.not_mem_nil
  · have hmid : (c.session.step (.receive stale msg.receiver)).Good := hg.step trivial
    have hg' : ((c.session.step (.receive stale msg.receiver)).step .push).Good :=
      hmid.step trivial
    have hfirst : Grows c.session (c.session.step (.receive stale msg.receiver)) :=
      Session.grows hg trivial
    have hgrow : Grows c.session ((c.session.step (.receive stale msg.receiver)).step .push) :=
      hfirst.trans (Session.grows hmid trivial)
    rw [← session_receive hans] at hg' hgrow
    refine ⟨hg', hgrow.finSet hg hg', fun m hm hfin => ?_, fun hend => ?_, fun hl => ?_⟩
    · rw [hans.out] at hm
      obtain ⟨segment, hmem, rfl⟩ := List.mem_map.mp hm
      rcases List.mem_append.mp hmem with hmem | hmem
      · exact (Segmented.finSet hg').mpr ⟨segment, List.mem_append_right _ hmem, hfin⟩
      · -- the empty message has no FIN
        split at hmem
        · obtain rfl := List.mem_singleton.mp hmem
          exact absurd hfin Bool.false_ne_true
        · exact absurd hmem List.not_mem_nil
    · exact (endSeen_receive hans.receiver hend).imp_right fun hfin => ⟨stale, msg, rfl, hfin⟩
    · rw [show p'.lingerAfterStreamsFinish = _ from hans.linger] at hl
      rw [Bool.and_eq_false_iff, Bool.not_eq_false', Bool.and_eq_true, Bool.not_eq_true'] at hl
      refine hl.imp_right fun ⟨hclosed, hopen⟩ => ⟨.inl hclosed, fun hf => ?_⟩
      rw [FinSent.isFinished hf hg'] at hopen
      simp at hopen

theorem Follows.step (hg : c.session.Good) (hok : Orderly c op) (hst : c.step op = .ok (c', out)) :
    Follows c c' op out := by
  have hnil : ∀ m ∈ ([] : List TCPMessage), m.sender ∈ c'.sent := fun m hm =>
    absurd hm List.not_mem_nil
  cases op with
  | write data =>
    obtain ⟨rfl, rfl⟩ := pair_ok hst
    exact .ofStep (.write data) hg hok rfl rfl rfl hnil
  | close =>
    obtain ⟨rfl, rfl⟩ := pair_ok hst
    exact .ofStep .close hg trivial rfl rfl rfl hnil
  | shutdown =>
    obtain ⟨rfl, rfl⟩ := pair_ok hst
    have hmid : (c.session.step .close).Good := hg.step trivial
    have hg' : ((c.session.step .close).step .push).Good := hmid.step trivial
    have hfirst : Grows c.session (c.session.step .close) := Session.grows hg trivial
    have hgrow : Grows c.session ((c.session.step .close).step .push) :=
      hfirst.trans (Session.grows hmid trivial)
    exact .ofSender hg hg' hgrow rfl rfl fun m hm => push_sent hm
  | push =>
    obtain ⟨rfl, rfl⟩ := pair_ok hst
    exact .ofStep .push hg trivial rfl rfl rfl fun m hm => push_sent hm
  | tick ms =>
    obtain ⟨rfl, rfl⟩ := pair_ok hst
    exact .ofStep (.tick ms) hg trivial rfl rfl rfl fun m hm => tick_sent hg hm
  | receive stale msg => exact .receive hg hst
  | read len =>
    obtain ⟨rfl, rfl⟩ := pair_ok hst
    exact ⟨hg, id, fun m hm => absurd hm List.not_mem_nil, fun h => .inl h, fun h => .inl h⟩

end Conversation

/-! ## Two peers -/

inductive Side where
  | a
  | b
  deriving DecidableEq

def Side.other : Side → Side
  | .a => .b
  | .b => .a

theorem Side.other_other (x : Side) : x.other.other = x := by cases x <;> rfl

theorem Side.other_ne (x : Side) : x.other ≠ x := by cases x <;> decide

theorem Side.eq_or_other (x y : Side) : y = x ∨ y = x.other := by
  cases x <;> cases y <;> decide

/-- Two peers, and all that each of them has sent. -/
structure Pair where
  conv : Side → Conversation
  network : Side → List TCPMessage

namespace Pair

/-- A peer takes a step. -/
structure Op where
  side : Side
  op : Conversation.Op
  deriving DecidableEq

def step (p : Pair) (e : Op) : Except Fault Pair := do
  let (c, out) ← (p.conv e.side).step e.op
  return {
    conv := Function.update p.conv e.side c
    network := Function.update p.network e.side (p.network e.side ++ out) }

def new (cfg : Side → TCPConfig) : Pair where
  conv x := .new (cfg x)
  network _ := []

def machine (cfg : Side → TCPConfig) : Machine Pair Op := .det (.new cfg) step

/-- A peer receives only what the other one has sent. -/
def Delivers (p : Pair) (x : Side) : Conversation.Op → Prop
  | .receive _ msg => msg ∈ p.network x.other
  | _ => True

instance (p : Pair) (x : Side) : ∀ op, Decidable (Delivers p x op)
  | .receive _ _ => by
    unfold Delivers
    infer_instance
  | .write _ | .close | .shutdown | .push | .tick _ | .read _ => .isTrue trivial

/-- No application writes after its close. -/
def Orderly (p : Pair) (e : Op) : Prop := (p.conv e.side).Orderly e.op ∧ p.Delivers e.side e.op

instance (p : Pair) (e : Op) : Decidable (Orderly p e) := by
  unfold Orderly
  infer_instance

def lingers (p : Pair) (x : Side) : Bool := (p.conv x).peer.lingerAfterStreamsFinish

/-- The FIN comes first: before the end of the other's inbound stream, and before the other stops
lingering. -/
structure Causal (p : Pair) : Prop where
  good : ∀ x, (p.conv x).session.Good
  fins : ∀ x, ∀ m ∈ p.network x, m.sender.fin = true → (p.conv x).FinSent
  ends : ∀ x, (p.conv x).EndSeen → (p.conv x.other).FinSent
  stopped : ∀ x, p.lingers x = false → (p.conv x.other).FinSent
  one : ∃ x, p.lingers x = true

variable {cfg : Side → TCPConfig} {p p' : Pair} {e : Op}

theorem Causal.new (hcap : ∀ x, (cfg x).sendCapacity < 2 ^ 64) : Causal (.new cfg) where
  good x := .new (hcap x) (cfg x).isn (cfg x).rtTimeout.toNat
  fins _ _ hm := absurd hm List.not_mem_nil
  ends _ h := (h.elim (absurd · Bool.false_ne_true) (absurd · Bool.false_ne_true))
  stopped _ h := absurd (show true = false from h) Bool.false_ne_true.symm
  one := ⟨.a, rfl⟩

theorem step_cases (h : p.step e = .ok p') : ∃ c out,
    (p.conv e.side).step e.op = .ok (c, out) ∧ p'.conv e.side = c ∧
    p'.conv e.side.other = p.conv e.side.other ∧
    p'.network e.side = p.network e.side ++ out ∧
    p'.network e.side.other = p.network e.side.other := by
  obtain ⟨⟨c, out⟩, hst, h⟩ := bind_ok h
  obtain rfl := Except.ok.inj h
  exact ⟨c, out, hst, Function.update_self .., Function.update_of_ne e.side.other_ne ..,
    Function.update_self .., Function.update_of_ne e.side.other_ne ..⟩

theorem Causal.step (h : p.Causal) (hok : Orderly p e) (hst : p.step e = .ok p') : p'.Causal := by
  obtain ⟨c, out, hc, hself, hother, hnet, hnet'⟩ := step_cases hst
  obtain ⟨x, op⟩ := e
  have hf := Conversation.Follows.step (h.good x) hok.1 hc
  dsimp only at hself hother hnet hnet'
  have hends : c.EndSeen → (p.conv x.other).FinSent := fun hend => by
    rcases hf.endSeen hend with hend | ⟨stale, msg, rfl, hfin⟩
    · exact h.ends x hend
    · exact h.fins x.other msg hok.2 hfin
  have hstop : c.peer.lingerAfterStreamsFinish = false → (p.conv x.other).FinSent := fun hl =>
    (hf.linger hl).elim (h.stopped x) fun hl => hends hl.1
  refine ⟨fun y => ?_, fun y m hm hfin => ?_, fun y hend => ?_, fun y hl => ?_, ?_⟩
  · rcases x.eq_or_other y with rfl | rfl
    · rw [hself]
      exact hf.good
    · rw [hother]
      exact h.good _
  · rcases x.eq_or_other y with rfl | rfl
    · rw [hnet] at hm
      rw [hself]
      rcases List.mem_append.mp hm with hm | hm
      · exact hf.finSent (h.fins _ m hm hfin)
      · exact hf.fins m hm hfin
    · rw [hnet'] at hm
      rw [hother]
      exact h.fins _ m hm hfin
  · rcases x.eq_or_other y with rfl | rfl
    · rw [hself] at hend
      rw [hother]
      exact hends hend
    · rw [hother] at hend
      rw [Side.other_other, hself]
      exact hf.finSent (x.other_other ▸ h.ends _ hend)
  · unfold lingers at hl
    rcases x.eq_or_other y with rfl | rfl
    · rw [hself] at hl
      rw [hother]
      exact hstop hl
    · rw [hother] at hl
      rw [Side.other_other, hself]
      exact hf.finSent (x.other_other ▸ h.stopped _ hl)
  · by_cases hb : p.lingers x.other = true
    · refine ⟨x.other, ?_⟩
      unfold lingers
      rwa [hother]
    · -- the other has stopped, so the FIN of this peer is sent and it stops no more
      have hb := Bool.eq_false_of_not_eq_true hb
      have hfin : c.FinSent := hf.finSent (x.other_other ▸ h.stopped _ hb)
      have hx : p.lingers x = true := by
        obtain ⟨y, hy⟩ := h.one
        rcases x.eq_or_other y with rfl | rfl
        · exact hy
        · rw [hb] at hy
          simp at hy
      refine ⟨x, ?_⟩
      unfold lingers
      rw [hself]
      by_contra hl
      rcases hf.linger (Bool.eq_false_of_not_eq_true hl) with hl | ⟨-, hno⟩
      · exact Bool.false_ne_true (hl.symm.trans hx)
      · exact hno hfin

theorem causal (hcap : ∀ x, (cfg x).sendCapacity < 2 ^ 64)
    (h : (machine cfg).Reaches Orderly p) : p.Causal :=
  h.invariant_det (.new hcap) fun _ _ _ hp hok hst => hp.step hok hst

/-- In every interleaving of two peers over such a network, one of them lingers. -/
theorem one_lingers (cfg : Side → TCPConfig) (p : Pair) (hcap : ∀ x, (cfg x).sendCapacity < 2 ^ 64)
    (h : (machine cfg).Reaches Orderly p) :
    ¬((p.conv .a).peer.lingerAfterStreamsFinish = false ∧
      (p.conv .b).peer.lingerAfterStreamsFinish = false) := by
  rintro ⟨ha, hb⟩
  obtain ⟨x, hx⟩ := (causal hcap h).one
  cases x with
  | a => exact Bool.false_ne_true (ha.symm.trans hx)
  | b => exact Bool.false_ne_true (hb.symm.trans hx)

/-- One side closes, the other hears of it and stops lingering. -/
theorem one_lingers_stopped : ∃ p : Pair, p.lingers .b = false ∧ p.lingers .a = true := by
  obtain ⟨p, h, hb⟩ := Machine.exists_reaches step (.new fun _ => { isn := ⟨7⟩ }) Orderly
    (fun p => (p.conv .b).peer.lingerAfterStreamsFinish = false)
    [⟨.a, .push⟩,
      ⟨.b, .receive ⟨7⟩ ⟨{ seqno := ⟨7⟩, syn := true }, { windowSize := 64000 }⟩⟩,
      ⟨.a, .receive ⟨0⟩ ⟨{ seqno := ⟨7⟩, syn := true },
        { ackno := some ⟨8⟩, windowSize := 64000 }⟩⟩,
      ⟨.a, .shutdown⟩,
      ⟨.b, .receive ⟨0⟩ ⟨{ seqno := ⟨8⟩, fin := true },
        { ackno := some ⟨8⟩, windowSize := 64000 }⟩⟩]
    (by decide +kernel) (by decide +kernel)
  have hone := one_lingers (fun _ => { isn := ⟨7⟩ }) p (fun _ => by decide) h
  exact ⟨p, hb, by_contra fun ha => hone ⟨Bool.eq_false_of_not_eq_true ha, hb⟩⟩

end Pair

end Minnow
