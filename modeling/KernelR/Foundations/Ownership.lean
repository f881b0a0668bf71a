import Mathlib.Data.List.Basic

/-!
# Resources with one owner

`Owned own used`: `own` says which resource an owner holds, if any; every resource
that is held is in use, and no two owners hold the same one. The moves are stated
for any assignment `own'` that holds no more than the move allows, so that an owner
may always let go of a resource without giving it back.
-/

namespace KernelR.Foundations

variable {ι α : Type*} {own own' : ι → Option α} {used : List α} {i j : ι} {x : α}

/-- Every resource has at most one owner, and is in use if it has one. -/
structure Owned (own : ι → Option α) (used : List α) : Prop where
  used : ∀ {i x}, own i = some x → x ∈ used
  unique : ∀ {i j x}, own i = some x → own j = some x → i = j

namespace Owned

theorem mono (h : Owned own used) (hown : ∀ {k y}, own' k = some y → own k = some y) :
    Owned own' used where
  used hk := h.used (hown hk)
  unique hk hl := h.unique (hown hk) (hown hl)

theorem acquire (h : Owned own used) (hx : x ∉ used)
    (hown : ∀ {k y}, own' k = some y → k = i ∧ y = x ∨ own k = some y) :
    Owned own' (x :: used) where
  used hk := by
    rcases hown hk with ⟨-, rfl⟩ | hk
    · exact List.mem_cons_self
    · exact List.mem_cons_of_mem _ (h.used hk)
  unique hk hl := by
    rcases hown hk with ⟨rfl, rfl⟩ | hk
    · rcases hown hl with ⟨rfl, -⟩ | hl
      · rfl
      · exact absurd (h.used hl) hx
    · rcases hown hl with ⟨rfl, rfl⟩ | hl
      · exact absurd (h.used hk) hx
      · exact h.unique hk hl

theorem transfer (h : Owned own used) (hi : own i = some x)
    (hown : ∀ {k y}, own' k = some y → k = j ∧ y = x ∨ k ≠ i ∧ own k = some y) :
    Owned own' used where
  used hk := by
    rcases hown hk with ⟨-, rfl⟩ | ⟨-, hk⟩
    · exact h.used hi
    · exact h.used hk
  unique hk hl := by
    rcases hown hk with ⟨rfl, rfl⟩ | ⟨hki, hk⟩
    · rcases hown hl with ⟨rfl, -⟩ | ⟨hli, hl⟩
      · rfl
      · exact absurd (h.unique hl hi) hli
    · rcases hown hl with ⟨rfl, rfl⟩ | ⟨-, hl⟩
      · exact absurd (h.unique hk hi) hki
      · exact h.unique hk hl

theorem release [DecidableEq α] (h : Owned own used) (hi : own i = some x)
    (hown : ∀ {k y}, own' k = some y → k ≠ i ∧ own k = some y) :
    Owned own' (used.erase x) where
  used hk := by
    obtain ⟨hki, hk⟩ := hown hk
    refine (List.mem_erase_of_ne ?_).mpr (h.used hk)
    rintro rfl
    exact hki (h.unique hk hi)
  unique hk hl := h.unique (hown hk).2 (hown hl).2

end Owned

end KernelR.Foundations
