import Mathlib.Data.Set.Insert
import Mathlib.Logic.Function.Basic
import Mathlib.Data.List.Nodup

/-!
# Waiting in one of many queues

A family of queues in which those wait that are in a given set, each of them in one
place. `Enrolled.push` lets one more wait, and `Enrolled.release` lets the first ones
of a queue go.
-/

namespace KernelR.Foundations

open List Function

variable {ι α : Type*} {queue : ι → List α} {waiting : Set α}

/-- Those in `waiting` are the ones in the queues, each in one place. -/
structure Enrolled (queue : ι → List α) (waiting : Set α) : Prop where
  mem_iff : ∀ a, a ∈ waiting ↔ ∃ i, a ∈ queue i
  nodup : ∀ i, (queue i).Nodup
  unique : ∀ {a i j}, a ∈ queue i → a ∈ queue j → i = j

namespace Enrolled

theorem mem (h : Enrolled queue waiting) {a : α} {i : ι} (ha : a ∈ queue i) : a ∈ waiting :=
  (h.mem_iff a).mpr ⟨i, ha⟩

variable [DecidableEq ι]

/-- **Waiting**: one that does not wait yet goes to the end of a queue. -/
theorem push (h : Enrolled queue waiting) {a : α} (ha : a ∉ waiting) (i : ι) :
    Enrolled (update queue i (queue i ++ [a])) (insert a waiting) := by
  have hmem : ∀ b j, b ∈ update queue i (queue i ++ [a]) j ↔
      b ∈ queue j ∨ (j = i ∧ b = a) := by
    intro b j
    by_cases hj : j = i
    · subst hj
      rw [update_self, mem_append, mem_singleton]
      exact or_congr_right (by simp)
    · rw [update_of_ne hj]
      simp [hj]
  refine ⟨fun b => ?_, fun j => ?_, fun {b j j'} hb hb' => ?_⟩
  · rw [Set.mem_insert_iff, h.mem_iff]
    constructor
    · rintro (rfl | ⟨j, hj⟩)
      · exact ⟨i, (hmem b i).mpr (Or.inr ⟨rfl, rfl⟩)⟩
      · exact ⟨j, (hmem b j).mpr (Or.inl hj)⟩
    · rintro ⟨j, hj⟩
      rcases (hmem b j).mp hj with hj | ⟨-, rfl⟩
      · exact Or.inr ⟨j, hj⟩
      · exact Or.inl rfl
  · by_cases hj : j = i
    · subst hj
      rw [update_self]
      refine nodup_append.mpr ⟨h.nodup j, nodup_singleton a, ?_⟩
      intro b hb c hc
      rw [mem_singleton.mp hc]
      exact fun hba => ha (hba ▸ h.mem hb)
    · rw [update_of_ne hj]
      exact h.nodup j
  · rcases (hmem b j).mp hb with hj | ⟨rfl, rfl⟩
    · rcases (hmem b j').mp hb' with hj' | ⟨-, rfl⟩
      · exact h.unique hj hj'
      · exact absurd (h.mem hj) ha
    · rcases (hmem b j').mp hb' with hj' | ⟨rfl, -⟩
      · exact absurd (h.mem hj') ha
      · rfl

/-- **Going**: the first ones of a queue wait no more. -/
theorem release (h : Enrolled queue waiting) {i : ι} {l rest : List α} (hi : queue i = l ++ rest) :
    Enrolled (update queue i rest) {a | a ∈ waiting ∧ a ∉ l} := by
  have hnodup := h.nodup i
  rw [hi] at hnodup
  obtain ⟨-, hrest, hdisj⟩ := nodup_append.mp hnodup
  have hmem : ∀ b j, b ∈ update queue i rest j ↔ b ∈ queue j ∧ b ∉ l := by
    intro b j
    by_cases hj : j = i
    · subst hj
      rw [update_self, hi, mem_append]
      constructor
      · exact fun hb => ⟨Or.inr hb, fun hl => hdisj b hl b hb rfl⟩
      · exact fun hb => hb.1.resolve_left hb.2
    · rw [update_of_ne hj]
      refine (and_iff_left_of_imp fun hb hl => hj (h.unique hb ?_)).symm
      rw [hi]
      exact mem_append_left _ hl
  refine ⟨fun b => ?_, fun j => ?_, fun {b j j'} hb hb' => ?_⟩
  · simp only [Set.mem_ofPred_eq, h.mem_iff, hmem, exists_and_right]
  · by_cases hj : j = i
    · subst hj
      rw [update_self]
      exact hrest
    · rw [update_of_ne hj]
      exact h.nodup j
  · exact h.unique ((hmem b j).mp hb).1 ((hmem b j').mp hb').1

end Enrolled

end KernelR.Foundations
