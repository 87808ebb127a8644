import Minnow.Lib.Except

/-!
# Labelled transition systems and their runs

`Machine σ ε` is a transition system with states `σ` and labels `ε`. A run is guarded: `ok s e`
is asked of every step where it is taken, so `M.Reaches ok` is the set of states that a run
whose steps all satisfy `ok` can reach, and `fun _ _ => True` gives the plain reachable states.

* `Reaches.invariant`: what holds at first and is kept by each allowed step holds in every state
  reached. `Reaches.invariant_of` may use that the state before the step is reached too.
* `Reaches.embed` takes the runs of one machine for runs of another one.
* `Runs` is a run between two states. `Runs.rel` lifts a preorder from one step to a run, and
  `Runs.progress` finds a run to a goal.
* `det` is the machine of a step function that may fail; `Reaches.invariant_det` and, for one that
  does not, `Reaches.invariant_total` are its invariant rules. `exec` runs a list of labels;
  `exists_runs`, `exists_reaches` and `exists_reaches_choosing` turn a computed list of steps into
  a run.
-/

namespace Minnow

/-- A transition system: its initial states and its labelled steps. -/
structure Machine (σ ε : Type) where
  init : σ → Prop
  step : σ → ε → σ → Prop

namespace Machine

variable {σ ε : Type} {M : Machine σ ε} {ok : σ → ε → Prop}

/-- `s` is reached by a run from an initial state whose steps all satisfy `ok`. -/
inductive Reaches (M : Machine σ ε) (ok : σ → ε → Prop) : σ → Prop where
  | init {s : σ} : M.init s → Reaches M ok s
  | step {s s' : σ} {e : ε} : Reaches M ok s → ok s e → M.step s e s' → Reaches M ok s'

/-- `t` is reached from `s` by steps that all satisfy `ok`. -/
inductive Runs (M : Machine σ ε) (ok : σ → ε → Prop) (s : σ) : σ → Prop where
  | refl : Runs M ok s s
  | tail {t u : σ} {e : ε} : Runs M ok s t → ok t e → M.step t e u → Runs M ok s u

/-- The invariant rule. The step case may use that the state before it is reached. -/
theorem Reaches.invariant_of {P : σ → Prop} {s : σ} (h : M.Reaches ok s)
    (hinit : ∀ s, M.init s → P s)
    (hstep : ∀ s e s', M.Reaches ok s → P s → ok s e → M.step s e s' → P s') : P s := by
  induction h with
  | init hi => exact hinit _ hi
  | step hr hok hs ih => exact hstep _ _ _ hr ih hok hs

theorem Reaches.invariant {P : σ → Prop} {s : σ} (h : M.Reaches ok s)
    (hinit : ∀ s, M.init s → P s)
    (hstep : ∀ s e s', P s → ok s e → M.step s e s' → P s') : P s :=
  h.invariant_of hinit fun s e s' _ => hstep s e s'

/-- A run whose steps satisfy more is a run whose steps satisfy less. -/
theorem Reaches.mono {ok' : σ → ε → Prop} {s : σ} (h : M.Reaches ok s)
    (hle : ∀ s e, ok s e → ok' s e) : M.Reaches ok' s := by
  induction h with
  | init hi => exact .init hi
  | step _ hok hst ih => exact .step ih (hle _ _ hok) hst

/-- A machine whose steps are steps of another one reaches nothing else. -/
theorem Reaches.embed {τ : Type} {N : Machine σ τ} {ok' : σ → τ → Prop} {s : σ}
    (h : N.Reaches ok' s) (hinit : ∀ s, N.init s → M.init s)
    (hstep : ∀ s t s', ok' s t → N.step s t s' → ∃ e, ok s e ∧ M.step s e s') : M.Reaches ok s := by
  induction h with
  | init hi => exact .init (hinit _ hi)
  | step _ hok hst ih =>
    obtain ⟨e, he, hst'⟩ := hstep _ _ _ hok hst
    exact .step ih he hst'

theorem Runs.single {s t : σ} {e : ε} (hok : ok s e) (hst : M.step s e t) : M.Runs ok s t :=
  .tail .refl hok hst

theorem Runs.trans {s t u : σ} (h : M.Runs ok s t) (h' : M.Runs ok t u) : M.Runs ok s u := by
  induction h' with
  | refl => exact h
  | tail _ hok hst ih => exact .tail ih hok hst

theorem Runs.reaches {s t : σ} (h : M.Runs ok s t) (hs : M.Reaches ok s) : M.Reaches ok t := by
  induction h with
  | refl => exact hs
  | tail _ hok hst ih => exact .step ih hok hst

/-- A reflexive, transitive relation that every allowed step from a reached state respects holds
between the ends of a run. -/
theorem Runs.rel {R : σ → σ → Prop} {s t : σ} (h : M.Runs ok s t) (hs : M.Reaches ok s)
    (hrefl : ∀ s, R s s) (htrans : ∀ s t u, R s t → R t u → R s u)
    (hstep : ∀ s e s', M.Reaches ok s → ok s e → M.step s e s' → R s s') : R s t := by
  induction h with
  | refl => exact hrefl _
  | tail hr hok hst ih => exact htrans _ _ _ ih (hstep _ _ _ (hr.reaches hs) hok hst)

/-- The progress rule: a run leads to the goal if from every state outside of it one gets there, or
takes the measure down. -/
theorem Runs.progress {P : σ → Prop} {s : σ} (μ : σ → Nat)
    (h : ∀ t, M.Runs ok s t → ¬P t → ∃ u, M.Runs ok t u ∧ (P u ∨ μ u < μ t)) :
    ∃ t, M.Runs ok s t ∧ P t := by
  suffices hrun : ∀ n t, M.Runs ok s t → μ t = n → ∃ u, M.Runs ok s u ∧ P u from
    hrun _ s .refl rfl
  intro n
  induction n using Nat.strongRecOn with
  | ind n ih =>
    rintro t ht rfl
    by_cases hP : P t
    · exact ⟨t, ht, hP⟩
    obtain ⟨u, hu, hgoal | hlt⟩ := h t ht hP
    · exact ⟨u, ht.trans hu, hgoal⟩
    · exact ih _ hlt u (ht.trans hu) rfl

/-! ## Machines of a step function -/

section

variable {φ : Type} {step : σ → ε → Except φ σ} {start : σ}

/-- The machine that steps by a function; a step that fails is not taken. -/
def det (start : σ) (step : σ → ε → Except φ σ) : Machine σ ε where
  init s := s = start
  step s e s' := step s e = .ok s'

/-- The invariant rule for a step function. -/
theorem Reaches.invariant_det {P : σ → Prop} {s : σ} (h : (det start step).Reaches ok s)
    (hinit : P start) (hstep : ∀ s e s', P s → ok s e → step s e = .ok s' → P s') : P s := by
  refine h.invariant (fun s hs => ?_) hstep
  obtain rfl : s = start := hs
  exact hinit

/-- The invariant rule for a step function that does not fail. -/
theorem Reaches.invariant_total {P : σ → Prop} {s : σ} {next : σ → ε → σ}
    (h : (det start fun s e => (.ok (next s e) : Except φ σ)).Reaches ok s) (hinit : P start)
    (hstep : ∀ s e, P s → ok s e → P (next s e)) : P s := by
  refine h.invariant_det hinit fun s e s' hs hok hst => ?_
  obtain rfl := Except.ok.inj hst
  exact hstep s e hs hok

/-- The state after a list of labels. -/
def exec (step : σ → ε → Except φ σ) (s : σ) (es : List ε) : Except φ σ := es.foldlM step s

/-- The list runs to its end, in a state where `P` holds. -/
def Ends (P : σ → Prop) (step : σ → ε → Except φ σ) (s : σ) (es : List ε) : Prop :=
  match exec step s es with
  | .ok s' => P s'
  | .error _ => False

instance {P : σ → Prop} [DecidablePred P] (s : σ) (es : List ε) : Decidable (Ends P step s es) := by
  unfold Ends
  split <;> infer_instance

/-- Every label of the list is allowed where it is taken. -/
def Allowed (ok : σ → ε → Prop) (step : σ → ε → Except φ σ) : σ → List ε → Prop
  | _, [] => True
  | s, e :: es => ok s e ∧
    match step s e with
    | .ok s' => Allowed ok step s' es
    | .error _ => True

instance [∀ s e, Decidable (ok s e)] : ∀ s es, Decidable (Allowed ok step s es)
  | _, [] => .isTrue trivial
  | s, e :: es =>
    match h : step s e with
    | .ok s' =>
      have := instDecidableAllowed s' es
      decidable_of_iff (ok s e ∧ Allowed ok step s' es) (by rw [Allowed, h])
    | .error _ => decidable_of_iff (ok s e) (by rw [Allowed, h, and_true])

theorem Allowed.of_forall {es : List ε} {s : σ} (h : ∀ e ∈ es, ∀ s, ok s e) :
    Allowed ok step s es := by
  induction es generalizing s with
  | nil => trivial
  | cons e es ih =>
    obtain ⟨he, hes⟩ := List.forall_mem_cons.mp h
    rw [Allowed]
    refine ⟨he s, ?_⟩
    split
    · exact ih hes
    · trivial

theorem Runs.exec {es : List ε} {t s s' : σ} (hr : (det start step).Runs ok t s)
    (h : exec step s es = .ok s') (hok : Allowed ok step s es) :
    (det start step).Runs ok t s' := by
  induction es generalizing s with
  | nil =>
    obtain rfl : s = s' := Except.ok.inj h
    exact hr
  | cons e es ih =>
    rw [Machine.exec, List.foldlM_cons] at h
    rw [Allowed] at hok
    obtain ⟨s₁, hs, h⟩ := bind_ok h
    rw [hs] at hok
    exact ih (.tail hr hok.1 hs) h hok.2

theorem Ends.exec_eq {P : σ → Prop} {es : List ε} {s : σ} (h : Ends P step s es) :
    ∃ t, exec step s es = .ok t ∧ P t := by
  unfold Ends at h
  split at h
  · rename_i t ht
    exact ⟨t, ht, h⟩
  · exact h.elim

/-- A list of allowed labels that runs to its end is a run. -/
theorem exists_runs (start : σ) {P : σ → Prop} {es : List ε} {s : σ} (h : Ends P step s es)
    (hok : Allowed ok step s es) : ∃ t, (det start step).Runs ok s t ∧ P t := by
  obtain ⟨t, ht, hP⟩ := h.exec_eq
  exact ⟨t, Runs.exec .refl ht hok, hP⟩

theorem exists_reaches (step : σ → ε → Except φ σ) (start : σ) (ok : σ → ε → Prop) (P : σ → Prop)
    (es : List ε) (h : Ends P step start es) (hok : Allowed ok step start es) :
    ∃ s, (det start step).Reaches ok s ∧ P s := by
  obtain ⟨s, hs, hP⟩ := exists_runs start h hok
  exact ⟨s, hs.reaches (.init rfl), hP⟩

/-- The same for labels that depend on the state where they are taken. -/
theorem exists_reaches_choosing (step : σ → ε → Except φ σ) (start : σ) (ok : σ → ε → Prop)
    (P : σ → Prop) (choices : List (σ → ε))
    (h : Ends P (fun s choose => step s (choose s)) start choices)
    (hok : Allowed (fun s choose => ok s (choose s)) (fun s choose => step s (choose s)) start
      choices) : ∃ s, (det start step).Reaches ok s ∧ P s := by
  obtain ⟨s, hs, hP⟩ := exists_reaches (fun s choose => step s (choose s)) start _ P choices h hok
  exact ⟨s, hs.embed (fun _ => id) fun s choose _ hok hst => ⟨choose s, hok, hst⟩, hP⟩

attribute [irreducible] Ends Allowed

end

end Machine

end Minnow
