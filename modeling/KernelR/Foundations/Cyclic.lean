import Mathlib.Data.Nat.ModEq
import Mathlib.Data.List.Basic
import Mathlib.Tactic.Common

/-!
# A stretch of a sequence in a cyclic buffer

Element `i` of a sequence is kept in cell `i % n` of a buffer of `n` cells. `Holds` says
that the buffer has the elements from `lo` to `hi`. A stretch that is shorter than the
buffer uses no cell twice, so that an element can be put behind it or taken from its front
without touching the others.
-/

namespace KernelR.Foundations

variable {α : Type*} {n i j lo hi : ℕ}

/-- Positions less than one round apart have different cells. -/
theorem mod_ne_of_lt_of_lt_add (hlt : i < j) (hround : j < i + n) : i % n ≠ j % n := by
  intro heq
  have hdvd : n ∣ j - i := (Nat.modEq_iff_dvd' hlt.le).mp heq
  have hle := Nat.le_of_dvd (Nat.sub_pos_of_lt hlt) hdvd
  omega

/-- The cell behind the last one of a stretch is its first one exactly when the stretch
fills all cells but one. -/
theorem succ_mod_eq_mod_iff (hle : lo ≤ hi) (hround : hi < lo + n) :
    (hi % n + 1) % n = lo % n ↔ hi - lo = n - 1 := by
  rw [Nat.mod_add_mod]
  constructor
  · intro heq
    by_contra hne
    exact mod_ne_of_lt_of_lt_add (n := n) (Nat.lt_succ_of_le hle) (by omega) heq.symm
  · intro hfull
    rw [show hi + 1 = lo + n by omega, Nat.add_mod_right]

namespace Cyclic

/-- The cells of the buffer have the elements `lo`, …, `hi - 1` of the sequence. -/
def Holds (n : ℕ) (buffer : ℕ → Option α) (xs : List α) (lo hi : ℕ) : Prop :=
  ∀ i, lo ≤ i → i < hi → buffer (i % n) = xs[i]?

variable {buffer : ℕ → Option α} {xs : List α}

theorem Holds.update (h : Holds n buffer xs lo hi) {k : ℕ} {a : Option α}
    (hfree : ∀ i, lo ≤ i → i < hi → i % n ≠ k) :
    Holds n (Function.update buffer k a) xs lo hi := by
  intro i hlo hhi
  rw [Function.update_of_ne (hfree i hlo hhi)]
  exact h i hlo hhi

theorem Holds.write (h : Holds n buffer xs lo hi) (hround : hi < lo + n) (a : Option α) :
    Holds n (Function.update buffer (hi % n) a) xs lo hi :=
  h.update fun i hlo hhi => mod_ne_of_lt_of_lt_add hhi (by omega)

/-- The stretch gets longer by an element that is in its cell already. -/
theorem Holds.push (h : Holds n buffer xs lo xs.length) {a : α}
    (ha : buffer (xs.length % n) = some a) :
    Holds n buffer (xs ++ [a]) lo (xs ++ [a]).length := by
  intro i hlo hhi
  rw [List.length_append, List.length_singleton] at hhi
  by_cases hi : i = xs.length
  · rw [hi, ha, List.getElem?_concat_length]
  · have hlt : i < xs.length := by omega
    rw [List.getElem?_append_left hlt]
    exact h i hlo hlt

/-- The first element goes, and its cell gets another content. -/
theorem Holds.pop (h : Holds n buffer xs lo hi) (hround : hi ≤ lo + n) (a : Option α) :
    Holds n (Function.update buffer (lo % n) a) xs (lo + 1) hi := by
  have hrest : Holds n buffer xs (lo + 1) hi := fun i hlo => h i (by omega)
  exact hrest.update fun i hlo hhi => (mod_ne_of_lt_of_lt_add (i := lo) hlo (by omega)).symm

end Cyclic

end KernelR.Foundations
