/-!
# While loops

`loop guard body fuel s` is `while ( guard ) body` cut after `fuel` rounds. `loop_spec` turns a
proof about it into one about a round: an invariant, and a measure that each round makes smaller.
Fuel that covers the measure is enough, so the result is the one of the loop without a cut: the
guard is false there.
-/

namespace Minnow

def loop {σ : Type} (guard : σ → Bool) (body : σ → σ) : Nat → σ → σ
  | 0, s => s
  | fuel + 1, s => if guard s then loop guard body fuel (body s) else s

/-- A loop that has nothing to do does nothing. -/
theorem loop_of_done {σ : Type} {guard : σ → Bool} {body : σ → σ} {s : σ} (h : guard s = false)
    (fuel : Nat) : loop guard body fuel s = s := by
  cases fuel with
  | zero => rfl
  | succ fuel =>
    unfold loop
    rw [h, if_neg Bool.false_ne_true]

theorem loop_spec {σ : Type} {guard : σ → Bool} {body : σ → σ} (inv : σ → Prop) (m : σ → Nat)
    (step : ∀ s, inv s → guard s = true → inv (body s) ∧ m (body s) < m s) {fuel : Nat} {s : σ}
    (hs : inv s) (hm : m s ≤ fuel) :
    inv (loop guard body fuel s) ∧ guard (loop guard body fuel s) = false := by
  induction fuel generalizing s with
  | zero =>
    refine ⟨hs, Bool.eq_false_iff.mpr fun hg => ?_⟩
    have := (step s hs hg).2
    omega
  | succ fuel ih =>
    unfold loop
    cases hg : guard s with
    | false =>
      rw [if_neg Bool.false_ne_true]
      exact ⟨hs, hg⟩
    | true =>
      rw [if_pos rfl]
      obtain ⟨hinv, hlt⟩ := step s hs hg
      exact ih hinv (by omega)

end Minnow
