import Minnow.Net.Internet
import Minnow.Tcp.Credit

/-!
# TCP over the internet (`apps/endtoend.cc`)

Two peers whose adapters are hosts of an `Internet`, with any routers and links between them. What a
peer transmits is written by its adapter, frame by frame; what the adapter reads is given to the
peer.

`EndToEnd.duplex` forgets the internet: of what is on the links it keeps the messages that were
written. Each step is a step of two peers over a network of messages, or none that these can see
(`Inv.step`), so the guarantees of `Duplex` hold of the bytes that went through datagrams, frames
and routers (`internet_refines`).
-/

namespace Minnow

/-! ## What peers transmit -/

namespace Conversation

variable {c c' : Conversation} {op : Op} {out : List TCPMessage}

/-- A receiver that has taken a reset has raised an error. -/
theorem step_rst (hst : c.step op = .ok (c', out))
    (herr : c'.peer.receiver.output.hasError = false) (hrst : c.peer.receiver.rst = false) :
    c'.peer.receiver.rst = false := by
  cases op with
  | write data | close | shutdown | push | tick ms | read len =>
    obtain ⟨rfl, rfl⟩ := pair_ok hst
    exact hrst
  | receive stale msg =>
    rcases receive_cases hst with ⟨-, rfl, rfl⟩ | ⟨-, p', hans, rfl⟩
    · exact hrst
    · have herr : p'.receiver.output.hasError = false := herr
      show p'.receiver.rst = false
      rcases TCPReceiver.receive_cases hans.receiver with ⟨-, ht⟩ | ⟨-, r', -, ht⟩
      · rw [ht] at herr
        cases herr
      · rw [ht]
        exact hrst

end Conversation

namespace Duplex

variable {cfg : Side → TCPConfig} {d d' : Duplex} {e : Op} {x : Side} {m : TCPMessage}

/-- A segment is none that resets, and it fits into a frame. -/
theorem segment_small (hfits : ∀ x, Fits (cfg x)) (h : (machine cfg).Reaches Permitted d)
    (hm : m ∈ d.pair.network x) :
    m.sender.rst = false ∧ m.sender.payload.length ≤ maxPayloadSize := by
  have hx := linked hfits h x
  have hseg : TCPSender.Segmented (d.peer x).sender (d.conv x).sent (d.written x) := hx.carried.good
  by_cases hlen : 0 < m.sender.sequenceLength
  · have hsent : m.sender ∈ (d.conv x).sent := by
      refine hx.carried.segments _ (List.mem_filter.mpr ⟨List.mem_map_of_mem hm, ?_⟩)
      exact decide_eq_true hlen
    exact ⟨hx.carried.rst _ hsent, hseg.cut.payload_le _ hsent⟩
  · have hblank := hx.blank m hm (by omega)
    rw [hblank.fields.2.1]
    exact ⟨hblank.rst, Nat.zero_le _⟩

/-- No receiver has taken a reset, and no report is one. -/
structure Quiet (d : Duplex) (x : Side) : Prop where
  receiver : (d.peer x).receiver.rst = false
  reports : ∀ m ∈ d.pair.network x, m.receiver.rst = false

theorem quiet (hfits : ∀ x, Fits (cfg x)) (h : (machine cfg).Reaches Permitted d) :
    ∀ x, Quiet d x := by
  refine h.invariant_of (P := fun d => ∀ x, Quiet d x) ?_ ?_
  · rintro _ rfl x
    exact ⟨rfl, fun m hm => absurd hm List.not_mem_nil⟩
  · intro d e d' hr hquiet hok hst
    have hr' : (machine cfg).Reaches Permitted d' := hr.step hok hst
    obtain ⟨x, op⟩ := e
    obtain ⟨c, out, hc, hm⟩ := moves_of_step hst
    have herr : c.peer.receiver.output.hasError = false := by
      rw [← hm.conv]
      exact ((linked hfits hr').back x).carried.delivered.noError
    have hrst := Conversation.step_rst hc herr (hquiet x).receiver
    intro y
    rcases x.eq_or_other y with rfl | rfl
    · refine ⟨(congrArg (fun c => c.peer.receiver.rst) hm.conv).trans hrst, fun m hmem => ?_⟩
      rw [hm.network] at hmem
      rcases List.mem_append.mp hmem with hmem | hmem
      · exact (hquiet _).reports m hmem
      · rw [Conversation.step_reports hc m hmem]
        exact Bool.or_eq_false_iff.mpr ⟨hrst, herr⟩
    · refine ⟨(congrArg (fun c => c.peer.receiver.rst) hm.other).trans (hquiet _).receiver, ?_⟩
      rw [hm.otherNetwork]
      exact (hquiet _).reports

/-- A message is what is read of it. -/
theorem merged_eq (hfits : ∀ x, Fits (cfg x)) (h : (machine cfg).Reaches Permitted d)
    (hm : m ∈ d.pair.network x) : m.merged = m := by
  have hsender := (segment_small hfits h hm).1
  have hreceiver := (quiet hfits h x).reports m hm
  obtain ⟨⟨seqno, syn, payload, fin, rst⟩, ⟨ackno, windowSize, rst'⟩⟩ := m
  simp only at hsender hreceiver
  subst hsender hreceiver
  rfl

end Duplex

/-! ## The peers and their hosts -/

structure EndToEnd (ρ κ : Type) where
  net : Internet Side ρ κ
  conv : Side → Conversation
  read : Side → Bytes := fun _ => []

namespace EndToEnd

open Internet (Traced)

/-- A `route` is the arrival of a frame at a router, an `arrive` one at a host. An absent ackno reads
as `stale`. -/
inductive Op (ρ : Type) where
  | app (x : Side) (op : Conversation.Op)
  | arrive (x : Side) (stale : Wrap32) (bytes : Bytes)
  | tick (x : Side) (ms : Nat)
  | route (y : ρ) (k : Nat) (bytes : Bytes)
  | tickRouter (y : ρ) (k ms : Nat)

/-- The steps of an application. -/
def Own : Conversation.Op → Prop
  | .receive _ _ => False
  | .write _ | .close | .shutdown | .push | .tick _ | .read _ => True

instance : ∀ op, Decidable (Own op)
  | .receive _ _ => .isFalse id
  | .write _ | .close | .shutdown | .push | .tick _ | .read _ => .isTrue trivial

variable {ρ κ : Type} [DecidableEq ρ] [DecidableEq κ]

/-- The peer transmits: each message is written by the adapter. -/
def transmit (c : Cable Side ρ κ) (x : Side) (net : Internet Side ρ κ) (out : List TCPMessage) :
    Except WireFault (Internet Side ρ κ) :=
  out.foldlM (fun net msg => net.step c (.write x msg)) net

/-- The peer takes a step. -/
def act (c : Cable Side ρ κ) (s : EndToEnd ρ κ) (x : Side) (op : Conversation.Op) :
    Except (Fault ⊕ WireFault) (EndToEnd ρ κ) := do
  let (conv, out) ← ((s.conv x).step op).mapError .inl
  let net ← (transmit c x s.net out).mapError .inr
  return {
    net
    conv := Function.update s.conv x conv
    read := Function.update s.read x (s.read x ++ Duplex.taken (s.conv x) op) }

/-- The messages that are read in a step. -/
def arrivals (net net' : Internet Side ρ κ) : List TCPMessage :=
  (net'.got.drop net.got.length).map fun g => g.msg

/-- What the adapter has read is given to the peer. -/
def hear (c : Cable Side ρ κ) (s : EndToEnd ρ κ) (x : Side) (stale : Wrap32) :
    List TCPMessage → Except (Fault ⊕ WireFault) (EndToEnd ρ κ)
  | [] => return s
  | msg :: _ => s.act c x (.receive stale msg)

/-- A step of the internet that the peers have no part in. -/
def pass (c : Cable Side ρ κ) (s : EndToEnd ρ κ) (op : Internet.Op Side ρ) :
    Except (Fault ⊕ WireFault) (EndToEnd ρ κ) := do
  let net ← (s.net.step c op).mapError .inr
  return { s with net }

def step (c : Cable Side ρ κ) (s : EndToEnd ρ κ) :
    Op ρ → Except (Fault ⊕ WireFault) (EndToEnd ρ κ)
  | .app x op => s.act c x op
  | .arrive x stale bytes => do
    let s' ← s.pass c (.read x bytes)
    s'.hear c x stale (arrivals s.net s'.net)
  | .tick x ms => s.pass c (.tick x ms)
  | .route y k bytes => s.pass c (.route y k bytes)
  | .tickRouter y k ms => s.pass c (.tickRouter y k ms)

def machine (c : Cable Side ρ κ) (start : EndToEnd ρ κ) : Machine (EndToEnd ρ κ) (Op ρ) :=
  .det start (step c)

/-- The peers, and the messages that each of them has written. -/
def duplex (s : EndToEnd ρ κ) : Duplex where
  pair := {
    conv := s.conv
    network := fun x => (s.net.wrote.filter fun e => e.host = x).map fun e => e.msg }
  read := s.read

/-- What is read of these bytes is sound where it arrives. -/
def SoundArrival (c : Cable Side ρ κ) (s : EndToEnd ρ κ) (x : Side) (stale : Wrap32)
    (bytes : Bytes) : Prop :=
  match s.net.step c (.read x bytes) with
  | .ok net => ∀ msg ∈ arrivals s.net net, s.duplex.Sound x (.receive stale msg)
  | .error _ => True

instance (c : Cable Side ρ κ) (s : EndToEnd ρ κ) (x : Side) (stale : Wrap32) (bytes : Bytes) :
    Decidable (SoundArrival c s x stale bytes) := by
  unfold SoundArrival
  split <;> infer_instance

/-- The application does what `Duplex` permits, a link delivers what was transmitted on it, and a
message that is read is sound where it arrives. -/
def Permitted (c : Cable Side ρ κ) (s : EndToEnd ρ κ) : Op ρ → Prop
  | .app x op => Own op ∧ s.duplex.Permitted ⟨x, op⟩
  | .arrive x stale bytes => s.net.Permitted c (.read x bytes) ∧ SoundArrival c s x stale bytes
  | .tick x ms => s.net.Permitted c (.tick x ms)
  | .route y k bytes => s.net.Permitted c (.route y k bytes)
  | .tickRouter y k ms => s.net.Permitted c (.tickRouter y k ms)

instance (c : Cable Side ρ κ) (s : EndToEnd ρ κ) : ∀ op, Decidable (Permitted c s op)
  | .app _ _ | .arrive _ _ _ | .tick _ _ | .route _ _ _ | .tickRouter _ _ _ => by
    unfold Permitted
    infer_instance

end EndToEnd

/-! ## Addresses -/

/-- The adapter of the host at `x` has both addresses. -/
def Configured (address : Side → Address) (x : Side) (a : TCPOverIPv4Adapter) : Prop :=
  a = ⟨⟨address x, address x.other⟩, false⟩

/-- It listens on its port, and does not know its peer. -/
structure Listening (address : Side → Address) (x : Side) (a : TCPOverIPv4Adapter) : Prop where
  listening : a.listening = true
  port : a.config.source.port = (address x).port
  destination : a.config.destination = {}

/-- The two addresses are different, and no port is the one of an address that is not set. -/
structure Distinct (address : Side → Address) : Prop where
  ne : ∀ x, address x.other ≠ address x
  port : ∀ x, (address x).port ≠ 0

/-- The adapter is one of the two kinds, and what it wrote with both addresses it wrote since it has
them. -/
structure Addressed {ρ κ : Type} (address : Side → Address) (net : Internet Side ρ κ) : Prop where
  host : ∀ x, Configured address x (net.host x).adapter ∨ Listening address x (net.host x).adapter
  wrote : ∀ e ∈ net.wrote, (Configured address e.host e.adapter ∧
    Configured address e.host (net.host e.host).adapter) ∨ Listening address e.host e.adapter

section

variable {address : Side → Address} {x : Side} {a b b' : TCPOverIPv4Adapter}

/-- What is read was written by the other host, and now both have both addresses. -/
theorem Distinct.takes {y : Side} (hd : Distinct address)
    (ha : Configured address y a ∨ Listening address y a)
    (hb : Configured address x b ∨ Listening address x b)
    (hown : y = x → Configured address y a → Configured address x b) (h : b.Takes a b') :
    y = x.other ∧ Configured address x b' := by
  have hport : b.config.source.port = (address x).port := by
    rcases hb with rfl | hb
    · rfl
    · exact hb.port
  rcases ha with rfl | ha
  · have hsource : b'.config.source = address y.other := h.source
    rcases x.eq_or_other y with rfl | rfl
    · -- its own message would be from the peer's address
      obtain rfl := hown rfl rfl
      obtain rfl := h.kept rfl
      exact absurd hsource.symm (hd.ne _)
    · refine ⟨rfl, ?_⟩
      have hdestination : b'.config.destination = address x.other := h.destination
      rw [Side.other_other] at hsource
      obtain ⟨⟨source, destination⟩, listening⟩ := b'
      obtain rfl := hsource
      obtain rfl := hdestination
      obtain rfl := h.listening
      rfl
  · have hnone : b'.config.source.port = 0 := by
      rw [h.source, ha.destination]
    exact absurd (hport.symm.trans (h.port.symm.trans hnone)) (hd.port x)

/-- Nothing was written, and no adapter has changed. -/
theorem Addressed.of_eq {ρ κ : Type} {net net' : Internet Side ρ κ} (h : Addressed address net)
    (hwrote : net'.wrote = net.wrote) (hhost : ∀ y, (net'.host y).adapter = (net.host y).adapter) :
    Addressed address net' where
  host y := hhost y ▸ h.host y
  wrote e he := by
    rw [hhost]
    exact h.wrote e (hwrote ▸ he)

end

namespace EndToEnd

section

variable {ρ κ : Type} [DecidableEq ρ] [DecidableEq κ] {address : Side → Address}
  {cfg : Side → TCPConfig} {c : Cable Side ρ κ} {net net' : Internet Side ρ κ}
  {s s' start : EndToEnd ρ κ} {x : Side} {op : Op ρ}

theorem mapError_ok {ε ε' α : Type} {f : ε → ε'} {y : Except ε α} {a : α}
    (h : y.mapError f = .ok a) : y = .ok a := by
  cases y with
  | error e => cases h
  | ok b => exact congrArg Except.ok (Except.ok.inj h)

/-! ## Steps -/

theorem transmit_keeps {out : List TCPMessage} (h : net.Inv) (ha : Addressed address net)
    (hsmall : ∀ m ∈ out, m.sender.payload.length ≤ FDWrapper.readBufferSize)
    (hst : transmit c x net out = .ok net') : net'.Inv ∧ Addressed address net' ∧
      net'.wrote = net.wrote ++ out.map fun msg => ⟨x, (net.host x).adapter, msg⟩ := by
  induction out generalizing net with
  | nil =>
    obtain rfl := Except.ok.inj hst
    exact ⟨h, ha, by simp⟩
  | cons msg out ih =>
    unfold transmit at hst
    rw [List.foldlM_cons] at hst
    obtain ⟨net₁, hwrite, hst⟩ := bind_ok hst
    obtain ⟨hmsg, hsmall⟩ := List.forall_mem_cons.mp hsmall
    obtain ⟨hwrote, hhost⟩ := Internet.write_cases hwrite
    have ha₁ : Addressed address net₁ := by
      refine ⟨fun y => hhost y ▸ ha.host y, fun e he => ?_⟩
      rw [hhost]
      rw [hwrote] at he
      rcases List.mem_append.mp he with he | he
      · exact ha.wrote e he
      · obtain rfl := List.mem_singleton.mp he
        exact (ha.host x).imp_left fun hc => ⟨hc, hc⟩
    obtain ⟨hinv, ha', hwrote'⟩ := ih (h.write hmsg hwrite) ha₁ hsmall hst
    refine ⟨hinv, ha', ?_⟩
    rw [hwrote', hwrote, hhost]
    simp

/-- The internet and the adapters are in order, and the peers are in a run of `Duplex`. -/
structure Inv (cfg : Side → TCPConfig) (address : Side → Address) (s : EndToEnd ρ κ) : Prop where
  net : s.net.Inv
  addressed : Addressed address s.net
  duplex : (Duplex.machine cfg).Reaches Duplex.Permitted s.duplex

omit [DecidableEq ρ] [DecidableEq κ] in
/-- A step of a peer is one of `Duplex`. -/
theorem act_duplex {op : Conversation.Op} {conv : Conversation} {out : List TCPMessage}
    (hconv : (s.conv x).step op = .ok (conv, out))
    (hwrote : net.wrote = s.net.wrote ++ out.map fun msg => ⟨x, (s.net.host x).adapter, msg⟩) :
    s.duplex.step ⟨x, op⟩ = .ok (duplex {
      net
      conv := Function.update s.conv x conv
      read := Function.update s.read x (s.read x ++ Duplex.taken (s.conv x) op) }) := by
  have hnetwork : Function.update s.duplex.pair.network x (s.duplex.pair.network x ++ out) =
      fun y => (net.wrote.filter fun e => e.host = y).map fun e => e.msg := by
    funext y
    rcases x.eq_or_other y with rfl | rfl
    · simp [duplex, hwrote, List.filter_map, Function.comp_def]
    · rw [Function.update_of_ne x.other_ne, hwrote]
      simp [duplex, List.filter_map, Function.comp_def, x.other_ne.symm]
  show Except.bind (Except.bind ((s.conv x).step op) _) _ = _
  rw [hconv]
  show Except.ok (Duplex.mk ⟨_, _⟩ _) = Except.ok (Duplex.mk ⟨_, _⟩ _)
  rw [← hnetwork]
  rfl

theorem Inv.act {op : Conversation.Op} (h : Inv cfg address s)
    (hfits : ∀ x, Duplex.Fits (cfg x)) (hok : s.duplex.Permitted ⟨x, op⟩)
    (hst : s.act c x op = .ok s') : Inv cfg address s' := by
  obtain ⟨⟨conv, out⟩, hconv, hst⟩ := bind_ok hst
  obtain ⟨net, hnet, hst⟩ := bind_ok hst
  obtain rfl := Except.ok.inj hst
  have hconv : (s.duplex.conv x).step op = .ok (conv, out) := mapError_ok hconv
  -- what is transmitted fits, since the step is one of `Duplex`
  obtain ⟨d, hd, hm⟩ := Duplex.step_moves (e := ⟨x, op⟩) hconv
  have hd' : (Duplex.machine cfg).Reaches Duplex.Permitted d := h.duplex.step hok hd
  have hsmall : ∀ m ∈ out, m.sender.payload.length ≤ FDWrapper.readBufferSize := by
    intro m hmem
    have hx : m ∈ d.pair.network x := by
      rw [hm.network]
      exact List.mem_append_right _ hmem
    have hle := (Duplex.segment_small hfits hd' hx).2
    unfold maxPayloadSize at hle
    unfold FDWrapper.readBufferSize
    omega
  obtain ⟨hinv, haddressed, hwrote⟩ :=
    transmit_keeps h.net h.addressed hsmall (mapError_ok hnet)
  exact ⟨hinv, haddressed, h.duplex.step hok (act_duplex hconv hwrote)⟩

omit [DecidableEq ρ] [DecidableEq κ] in
/-- What is written stays the same, so the peers see nothing of the step. -/
theorem duplex_of_wrote (h : net.wrote = s.net.wrote) : duplex { s with net } = s.duplex := by
  unfold duplex
  dsimp only
  rw [h]

omit [DecidableEq ρ] [DecidableEq κ] in
theorem Inv.still (h : Inv cfg address s) (hinv : net.Inv) (hwrote : net.wrote = s.net.wrote)
    (hhost : ∀ y, (net.host y).adapter = (s.net.host y).adapter) :
    Inv cfg address { s with net } where
  net := hinv
  addressed := h.addressed.of_eq hwrote hhost
  duplex := by
    rw [duplex_of_wrote hwrote]
    exact h.duplex

/-- A step of the internet in which no adapter writes or reads. -/
theorem Inv.pass {op : Internet.Op Side ρ} (h : Inv cfg address s) (hok : s.net.Permitted c op)
    (hstill : ∀ net, s.net.step c op = .ok net → net.wrote = s.net.wrote ∧
      ∀ y, (net.host y).adapter = (s.net.host y).adapter)
    (hst : s.pass c op = .ok s') : Inv cfg address s' := by
  obtain ⟨net, hnet, hst⟩ := bind_ok hst
  obtain rfl := Except.ok.inj hst
  have hnet := mapError_ok hnet
  obtain ⟨hwrote, hhost⟩ := hstill net hnet
  exact h.still (h.net.step hok hnet) hwrote hhost

omit [DecidableEq ρ] [DecidableEq κ] in
/-- The adapter has taken a message: it has both addresses from then on. -/
theorem Inv.taken (h : Inv cfg address s) (hinv : net.Inv) (hwrote : net.wrote = s.net.wrote)
    (hothers : ∀ y, y ≠ x → net.host y = s.net.host y)
    (hconfigured : Configured address x (net.host x).adapter) :
    Inv cfg address { s with net } where
  net := hinv
  addressed := by
    refine ⟨fun y => ?_, fun e he => ?_⟩
    · by_cases hy : y = x
      · exact hy ▸ .inl hconfigured
      · rw [hothers y hy]
        exact h.addressed.host y
    · refine (h.addressed.wrote e (hwrote ▸ he)).imp_left fun ⟨hc, hnow⟩ => ⟨hc, ?_⟩
      by_cases hy : e.host = x
      · exact hy ▸ hconfigured
      · rw [hothers _ hy]
        exact hnow
  duplex := by
    rw [duplex_of_wrote hwrote]
    exact h.duplex

/-- A frame arrives at a host. -/
theorem Inv.arrive {stale : Wrap32} {bytes : Bytes} (h : Inv cfg address s)
    (hdistinct : Distinct address) (hfits : ∀ x, Duplex.Fits (cfg x))
    (hok : s.Permitted c (.arrive x stale bytes))
    (hst : s.step c (.arrive x stale bytes) = .ok s') : Inv cfg address s' := by
  obtain ⟨hmem, hsound⟩ := hok
  obtain ⟨s₁, hpass, hst⟩ := bind_ok hst
  obtain ⟨net, hread, hpass⟩ := bind_ok hpass
  obtain rfl := Except.ok.inj hpass
  have hread := mapError_ok hread
  unfold SoundArrival at hsound
  rw [hread] at hsound
  dsimp only at hsound
  obtain ⟨hwrote, hothers, hgot⟩ := Internet.read_cases h.net hmem hread
  have hinv := h.net.read hmem hread
  rcases hgot with ⟨hgot, hadapter⟩ | ⟨e, he, hgot, htakes⟩
  · have harrivals : arrivals s.net net = [] := by simp [arrivals, hgot]
    rw [harrivals] at hst
    obtain rfl := Except.ok.inj hst
    refine h.still hinv hwrote fun y => ?_
    by_cases hy : y = x
    · rw [hy, hadapter]
    · rw [hothers y hy]
  · have harrivals : arrivals s.net net = [e.msg.merged] := by simp [arrivals, hgot]
    have haddressed := h.addressed.wrote e he
    have hown : e.host = x → Configured address e.host e.adapter →
        Configured address x (s.net.host x).adapter := by
      rintro rfl hc
      rcases haddressed with ⟨-, hnow⟩ | hlisten
      · exact hnow
      · have hboth := hlisten.listening
        rw [hc] at hboth
        cases hboth
    obtain ⟨hfrom, hconfigured⟩ := hdistinct.takes (haddressed.imp_left And.left)
      (h.addressed.host x) hown htakes
    -- the message is one of the other peer
    have hmsg : e.msg ∈ s.duplex.pair.network x.other :=
      List.mem_map_of_mem (List.mem_filter.mpr ⟨he, decide_eq_true hfrom⟩)
    rw [Duplex.merged_eq hfits h.duplex hmsg] at harrivals
    rw [harrivals] at hst hsound
    refine (h.taken hinv hwrote hothers hconfigured).act hfits ?_ hst
    rw [duplex_of_wrote hwrote]
    exact ⟨⟨trivial, hmsg⟩, trivial, hsound _ List.mem_cons_self⟩

theorem Inv.step (h : Inv cfg address s) (hdistinct : Distinct address)
    (hfits : ∀ x, Duplex.Fits (cfg x)) (hok : s.Permitted c op) (hst : s.step c op = .ok s') :
    Inv cfg address s' := by
  cases op with
  | app x op => exact h.act hfits hok.2 hst
  | arrive x stale bytes => exact h.arrive hdistinct hfits hok hst
  | tick x ms =>
    refine h.pass (show s.net.Permitted c (.tick x ms) from hok) (fun net hnet => ?_) hst
    obtain rfl := Except.ok.inj hnet
    exact ⟨rfl, (Function.forall_update_iff s.net.host fun y a =>
      a.adapter = (s.net.host y).adapter).mpr ⟨rfl, fun y _ => rfl⟩⟩
  | route y k bytes =>
    refine h.pass (show s.net.Permitted c (.route y k bytes) from hok) (fun net hnet => ?_) hst
    obtain ⟨⟨r, frames⟩, -, hnet⟩ := bind_ok hnet
    obtain rfl := Except.ok.inj hnet
    exact ⟨rfl, fun _ => rfl⟩
  | tickRouter y k ms =>
    refine h.pass (show s.net.Permitted c (.tickRouter y k ms) from hok) (fun net hnet => ?_) hst
    obtain rfl := Except.ok.inj hnet
    exact ⟨rfl, fun _ => rfl⟩

/-- New peers, adapters of the two kinds, and an internet in which nothing has happened. -/
structure Starts (cfg : Side → TCPConfig) (address : Side → Address) (s : EndToEnd ρ κ) : Prop where
  net : s.net.Fresh
  host : ∀ x, Configured address x (s.net.host x).adapter ∨
    Listening address x (s.net.host x).adapter
  conv : ∀ x, s.conv x = .new (cfg x)
  read : ∀ x, s.read x = []

omit [DecidableEq ρ] [DecidableEq κ] in
theorem Starts.inv (h : Starts cfg address s) : Inv cfg address s where
  net := h.net.inv
  addressed := ⟨h.host, by simp [h.net.wrote]⟩
  duplex := by
    refine .init (show s.duplex = .new cfg from ?_)
    unfold duplex
    rw [h.net.wrote, funext h.conv, funext h.read]
    rfl

theorem inv (hdistinct : Distinct address) (hfits : ∀ x, Duplex.Fits (cfg x))
    (hstart : Starts cfg address start) (h : (machine c start).Reaches (Permitted c) s) :
    Inv cfg address s :=
  h.invariant_det hstart.inv fun _ _ _ hinv hok hst => hinv.step hdistinct hfits hok hst

/-- In every run of two peers over hosts, routers and links, whatever their topology is: the peers
are in a run over a network of messages, so at each of them what has arrived is a prefix of what the
other application has written, and all of it once the inbound stream is closed. -/
theorem internet_refines (c : Cable Side ρ κ) (cfg : Side → TCPConfig) (address : Side → Address)
    (start s : EndToEnd ρ κ) (hdistinct : Distinct address) (hfits : ∀ x, Duplex.Fits (cfg x))
    (hstart : Starts cfg address start) (h : (machine c start).Reaches (Permitted c) s) :
    (Duplex.machine cfg).Reaches Duplex.Permitted s.duplex ∧
      ∀ x, s.duplex.received x <+: s.duplex.written x.other ∧
        ((s.conv x).peer.receiver.isClosed = true →
          s.duplex.received x = s.duplex.written x.other) := by
  have hduplex := (inv hdistinct hfits hstart h).duplex
  refine ⟨hduplex, fun x => ?_⟩
  obtain ⟨hbegins, hwhole⟩ := Duplex.received_of_other hfits hduplex x
  exact ⟨hbegins, fun hclosed => (hwhole hclosed).2⟩

end

/-! ## The client and the server -/

/-- What `program_body` sets up, for a client with the port 5000. -/
def clientServer : EndToEnd Side (Fin 3) where
  net := .endToEnd 5000
  conv x := .new { isn := if x = .a then ⟨7⟩ else ⟨50⟩ }

def clientServerAddress : Side → Address
  | .a => ⟨0xc0a80032, 5000⟩
  | .b => ⟨0xac100064, 1234⟩

/-- The host at `x` gets the frame with the number `n` of its link. -/
def hears (x : Side) (n : Nat) (s : EndToEnd Side (Fin 3)) : Op Side :=
  .arrive x ⟨0⟩ ((s.net.wire (Internet.endToEndCable.host x)).getD n [])

/-- The interface `k` of the router at `y` does. -/
def passes (y : Side) (k n : Nat) (s : EndToEnd Side (Fin 3)) : Op Side :=
  .route y k ((s.net.wire (Internet.endToEndCable.router y k)).getD n [])

/-- A SYN gets to the server, its answer back to the client, and then two bytes to the server. -/
def bytesArrive : List (EndToEnd Side (Fin 3) → Op Side) :=
  [fun _ => .app .a .push, passes .a 0 0, hears .a 1, passes .a 0 2, passes .b 1 0, passes .a 1 1,
    passes .b 1 2, hears .b 0, passes .b 0 1, hears .b 2, passes .b 0 3, passes .a 1 3, hears .a 3,
    fun _ => .app .a (.write [104, 105]), fun _ => .app .a .push, passes .a 0 5, passes .b 1 4,
    hears .b 4]

theorem internet_refines_closed : ∃ s : EndToEnd Side (Fin 3),
    s.duplex.received .b = [104, 105] ∧ s.duplex.received .b <+: s.duplex.written .a := by
  obtain ⟨s, h, hgot⟩ := Machine.exists_reaches_choosing (step Internet.endToEndCable) clientServer
    (Permitted Internet.endToEndCable) (fun s => s.duplex.received .b = [104, 105]) bytesArrive
    (by decide +kernel) (by decide +kernel)
  obtain ⟨-, hreceived⟩ := internet_refines Internet.endToEndCable
    (fun x => { isn := if x = .a then ⟨7⟩ else ⟨50⟩ }) clientServerAddress clientServer s
    ⟨Side.rec (by decide) (by decide), Side.rec (by decide) (by decide)⟩ (fun _ => .default _)
    ⟨Internet.endToEnd_fresh 5000, Side.rec (.inl rfl) (.inr ⟨rfl, rfl, rfl⟩), fun _ => rfl,
      fun _ => rfl⟩ h
  exact ⟨s, hgot, (hreceived .b).1⟩

end EndToEnd

end Minnow
