import Mathlib.Data.List.Basic
import Mathlib.Tactic.Common

/-!
# Permits, sleepers and wake-ups on the way

A gate hands out permits. Whoever finds none goes to sleep in a queue; whoever puts a
permit back wakes the oldest sleeper afterwards, in a step of its own. A permit is not
handed over: between the two steps somebody else can take it, and the one that was woken
then goes to sleep again.

`Gate.Covered` is why nobody is forgotten. As long as somebody sleeps, every free permit
is matched by a wake-up that is still to come or by one that was woken and has yet to try.
-/

namespace KernelR.Foundations

open List

variable {τ κ : Type*}

/-- A gate, with the wake-ups that are on the way. -/
structure Gate (τ κ : Type*) where
  permits : ℕ
  /-- those asleep, the oldest first -/
  waiters : List τ
  /-- those that were taken out of the queue and have not tried again -/
  woken : List τ
  /-- those that have put a permit back and have not woken anybody for it -/
  adding : List κ

namespace Gate

/-- As long as somebody sleeps, the free permits are matched by wake-ups on the way. -/
def Covered (g : Gate τ κ) : Prop :=
  g.waiters ≠ [] → g.permits ≤ g.adding.length + g.woken.length

theorem Covered.of_no_waiters {g : Gate τ κ} (h : g.waiters = []) : g.Covered :=
  fun hne => absurd h hne

/-- **No lost wake-up**: if somebody sleeps while a permit is free, then somebody is about
to wake a sleeper, or somebody woken is about to try. -/
theorem Covered.on_the_way {g : Gate τ κ} (h : g.Covered) (hwait : g.waiters ≠ [])
    (hfree : 0 < g.permits) : g.adding ≠ [] ∨ g.woken ≠ [] := by
  by_contra hnone
  obtain ⟨hadding, hwoken⟩ := not_or.mp hnone
  have hcover := h hwait
  rw [not_not.mp hadding, not_not.mp hwoken, length_nil, length_nil] at hcover
  omega

variable [DecidableEq τ] [DecidableEq κ]

/-- What can happen at a gate. -/
inductive Step (g : Gate τ κ) : Gate τ κ → Prop
  /-- a permit is taken, by one that was woken or by a newcomer -/
  | take (t : τ) : 0 < g.permits →
      Step g { g with permits := g.permits - 1, woken := g.woken.erase t }
  /-- there is no permit: go to sleep, perhaps once more -/
  | park (t : τ) : g.permits = 0 →
      Step g { g with waiters := g.waiters ++ [t], woken := g.woken.erase t }
  /-- a permit is put back; a counter of bounded width may lose some -/
  | add (c : κ) (p : ℕ) : p ≤ g.permits + 1 →
      Step g { g with permits := p, adding := c :: g.adding }
  /-- the oldest sleeper is woken for a permit -/
  | wake (c : κ) (t : τ) (rest : List τ) : c ∈ g.adding → g.waiters = t :: rest →
      Step g { g with waiters := rest, woken := t :: g.woken, adding := g.adding.erase c }
  /-- nobody sleeps -/
  | wakeNobody (c : κ) : c ∈ g.adding → g.waiters = [] →
      Step g { g with adding := g.adding.erase c }

/-- **Every step keeps the permits covered.** -/
theorem Covered.step {g g' : Gate τ κ} (h : g.Covered) (hstep : Step g g') : g'.Covered := by
  cases hstep with
  | take t hfree =>
    intro hwait
    have hcover := h hwait
    have herase : g.woken.length ≤ (g.woken.erase t).length + 1 := by
      rw [length_erase]
      split <;> omega
    show g.permits - 1 ≤ g.adding.length + (g.woken.erase t).length
    omega
  | park t hnone =>
    intro _
    show g.permits ≤ _
    omega
  | add c p hp =>
    intro hwait
    have hcover := h hwait
    show p ≤ (c :: g.adding).length + g.woken.length
    rw [length_cons]
    omega
  | wake c t rest hc hqueue =>
    intro _
    -- the wake-up that was to come is now a woken sleeper
    have hcover := h (by rw [hqueue]; exact cons_ne_nil t rest)
    have herase := length_erase_of_mem hc
    have hpos := length_pos_of_mem hc
    show g.permits ≤ (g.adding.erase c).length + (t :: g.woken).length
    rw [herase, length_cons]
    omega
  | wakeNobody c hc hnil => exact .of_no_waiters hnil

end Gate

end KernelR.Foundations
