import Mathlib.Logic.Basic

/-!
# Runs of a labelled transition system

A system is a predicate on initial states and a partial step function; a run may
moreover be restricted to steps that meet a condition. `Run.invariant` is the
induction every safety property goes through, and `Run.mono` relaxes the condition,
so that an invariant of all runs is available in every restricted one.
-/

namespace KernelR.Foundations

variable {σ α : Type*} {init : σ → Prop} {step : σ → α → Option σ} {ok ok' : σ → α → σ → Prop}

/-- The states reached by runs all of whose steps meet `ok`. -/
inductive Run (init : σ → Prop) (step : σ → α → Option σ) (ok : σ → α → σ → Prop) : σ → Prop
  | start {s : σ} : init s → Run init step ok s
  | next {s s' : σ} {a : α} : Run init step ok s → step s a = some s' → ok s a s' →
      Run init step ok s'

namespace Run

theorem mono {s : σ} (h : Run init step ok s) (himp : ∀ s a s', ok s a s' → ok' s a s') :
    Run init step ok' s := by
  induction h with
  | start hinit => exact .start hinit
  | next _ hstep hok ih => exact .next ih hstep (himp _ _ _ hok)

theorem map {β : Type*} {step' : σ → β → Option σ} {ok'' : σ → β → σ → Prop} {s : σ}
    (h : Run init step ok s) (g : α → β)
    (hg : ∀ s a s', step s a = some s' → ok s a s' →
      step' s (g a) = some s' ∧ ok'' s (g a) s') : Run init step' ok'' s := by
  induction h with
  | start hinit => exact .start hinit
  | next _ hstep hok ih =>
    obtain ⟨hstep', hok'⟩ := hg _ _ _ hstep hok
    exact .next ih hstep' hok'

/-- **Invariants.**  What holds initially and is kept by every step holds in every
state reached; the step may use that its first state is reached by a run. -/
theorem invariant {I : σ → Prop} (hinit : ∀ s, init s → I s)
    (hstep : ∀ s a s', Run init step ok s → I s → step s a = some s' → ok s a s' → I s') {s : σ}
    (h : Run init step ok s) : I s := by
  induction h with
  | start hs => exact hinit _ hs
  | next hrun hs hok ih => exact hstep _ _ _ hrun ih hs hok

end Run

/-- Execute a list of labels as long as the steps meet the condition. -/
def exec (step : σ → α → Option σ) (ok : σ → α → σ → Prop) [∀ s a s', Decidable (ok s a s')] :
    σ → List α → Option σ
  | s, [] => some s
  | s, a :: l => (step s a).bind fun s' => if ok s a s' then exec step ok s' l else none

/-- An execution from a state of a run goes on with the run. -/
theorem Run.exec [∀ s a s', Decidable (ok s a s')] {s s' : σ} {l : List α}
    (h : Run init step ok s) (hl : exec step ok s l = some s') : Run init step ok s' := by
  induction l generalizing s with
  | nil => exact Option.some.inj hl ▸ h
  | cons a l ih =>
    obtain ⟨t, ht, hrest⟩ := Option.bind_eq_some_iff.mp hl
    obtain ⟨hok, hrest⟩ := Option.ite_none_right_eq_some.mp hrest
    exact ih (.next h ht hok) hrest

end KernelR.Foundations
