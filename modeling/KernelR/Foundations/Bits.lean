import Mathlib.Tactic
import Mathlib.Data.Nat.Bitwise

/-!
# Machine-word arithmetic on naturals

The handful of word operations the allocators and the tree use — masking with a
complement, flipping one bit, counting zeros, rounding to a power of two — as
functions on `ℕ`, each with the arithmetic reading its clients work with.

`x & !m` is written `andNot x m`: clearing bits never looks above the word, so no
width is needed. The zero counts are those of a 64-bit word.
-/

namespace KernelR.Foundations

open Option

/-- `x & !m`: the bits of `m` cleared in `x`. -/
def andNot (x m : ℕ) : ℕ := x - (x &&& m)

/-- Masking off the low `k` bits rounds down to a multiple of `2 ^ k`. -/
theorem andNot_low (x k : ℕ) : andNot x (2 ^ k - 1) = x / 2 ^ k * 2 ^ k := by
  rw [andNot, Nat.and_two_pow_sub_one_eq_mod]
  have := Nat.div_add_mod' x (2 ^ k)
  omega

theorem andNot_low_dvd (x k : ℕ) : 2 ^ k ∣ andNot x (2 ^ k - 1) := by
  rw [andNot_low]
  exact Nat.dvd_mul_left _ _

variable {a k w x : ℕ}

theorem andNot_low_of_dvd (h : 2 ^ k ∣ x) : andNot x (2 ^ k - 1) = x := by
  rw [andNot_low]
  exact Nat.div_mul_cancel h

/-- Flipping bit `k` of a multiple of `2 ^ k` moves to the other half of the
enclosing run of length `2 ^ (k + 1)`. -/
theorem xor_two_pow_of_dvd (h : 2 ^ k ∣ a) :
    a ^^^ 2 ^ k = if a / 2 ^ k % 2 = 0 then a + 2 ^ k else a - 2 ^ k := by
  obtain ⟨q, rfl⟩ := h
  have hpos : 0 < 2 ^ k := Nat.two_pow_pos k
  have hshift : 2 ^ k * q ^^^ 2 ^ k = 2 ^ k * (q ^^^ 1) := by
    have hd := Nat.shiftLeft_xor_distrib (a := q) (b := 1) (i := k)
    rw [Nat.shiftLeft_eq, Nat.shiftLeft_eq, Nat.shiftLeft_eq, Nat.one_mul,
      Nat.mul_comm q, Nat.mul_comm (q ^^^ 1)] at hd
    exact hd.symm
  rw [hshift, Nat.mul_div_cancel_left _ hpos]
  split_ifs with hq
  · rw [Nat.xor_one_of_even (Nat.even_iff.mpr hq), Nat.mul_add, Nat.mul_one]
  · rw [Nat.xor_one_of_odd (Nat.odd_iff.mpr (by omega)), Nat.mul_sub, Nat.mul_one]

/-- Clearing bit `k` of a multiple of `2 ^ k` moves to the start of the enclosing
run of length `2 ^ (k + 1)`. -/
theorem andNot_two_pow_of_dvd (h : 2 ^ k ∣ a) :
    andNot a (2 ^ k) = if a / 2 ^ k % 2 = 0 then a else a - 2 ^ k := by
  obtain ⟨q, rfl⟩ := h
  have hpos : 0 < 2 ^ k := Nat.two_pow_pos k
  have hshift : 2 ^ k * q &&& 2 ^ k = 2 ^ k * (q % 2) := by
    have hd := Nat.shiftLeft_and_distrib (a := q) (b := 1) (i := k)
    rw [Nat.shiftLeft_eq, Nat.shiftLeft_eq, Nat.shiftLeft_eq, Nat.one_mul,
      Nat.and_one_is_mod, Nat.mul_comm q, Nat.mul_comm (q % 2)] at hd
    exact hd.symm
  rw [andNot, hshift, Nat.mul_div_cancel_left _ hpos]
  split_ifs with hq
  · rw [hq, Nat.mul_zero, Nat.sub_zero]
  · rw [show q % 2 = 1 by omega, Nat.mul_one]

/-- Two multiples of `2 ^ k` lie in the same aligned run of length `2 ^ (k + 1)`
exactly when they are equal or each other's flip of bit `k`. -/
theorem div_two_pow_succ_eq_iff {a b k : ℕ} (ha : 2 ^ k ∣ a) (hb : 2 ^ k ∣ b) :
    a / 2 ^ (k + 1) = b / 2 ^ (k + 1) ↔ a = b ∨ a ^^^ 2 ^ k = b := by
  rw [xor_two_pow_of_dvd ha]
  obtain ⟨p, rfl⟩ := ha
  obtain ⟨q, rfl⟩ := hb
  have hpos : 0 < 2 ^ k := Nat.two_pow_pos k
  have hhalf : ∀ r, 2 ^ k * r / 2 ^ (k + 1) = r / 2 := fun r => by
    rw [Nat.pow_succ, Nat.mul_div_mul_left _ _ hpos]
  have hcancel : ∀ r, 2 ^ k * r = 2 ^ k * q ↔ r = q := fun r => Nat.mul_right_inj hpos.ne'
  rw [hhalf, hhalf, hcancel, Nat.mul_div_cancel_left _ hpos]
  split_ifs with hp
  · rw [show 2 ^ k * p + 2 ^ k = 2 ^ k * (p + 1) by ring, hcancel]
    omega
  · rw [show 2 ^ k * p - 2 ^ k = 2 ^ k * (p - 1) by rw [Nat.mul_sub, Nat.mul_one], hcancel]
    omega

theorem xor_xor_cancel (a m : ℕ) : a ^^^ m ^^^ m = a := by
  rw [Nat.xor_assoc, Nat.xor_self, Nat.xor_zero]

theorem xor_two_pow_ne (a k : ℕ) : a ^^^ 2 ^ k ≠ a := by
  intro h
  have hzero : 2 ^ k = 0 := by
    rw [← Nat.zero_xor (2 ^ k), ← Nat.xor_self a, Nat.xor_assoc, h]
  exact (Nat.two_pow_pos k).ne' hzero

theorem two_pow_dvd_xor (h : 2 ^ k ∣ a) : 2 ^ k ∣ a ^^^ 2 ^ k := by
  rw [xor_two_pow_of_dvd h]
  split_ifs
  · exact Nat.dvd_add h dvd_rfl
  · exact Nat.dvd_sub h dvd_rfl

/-! ### Masks -/

theorem or_and_mask (x y m : BitVec w) : (x ||| y) &&& m = (x &&& m) ||| (y &&& m) := by
  ext i
  simp only [BitVec.getElem_and, BitVec.getElem_or, Bool.and_or_distrib_right]

/-- A word is what a mask lets through and what it does not. -/
theorem and_mask_or_and_not (x m : BitVec w) : (x &&& m) ||| (x &&& ~~~m) = x := by
  ext i hi
  simp only [BitVec.getElem_and, BitVec.getElem_or, BitVec.getElem_not]
  cases x[i] <;> cases m[i] <;> rfl

theorem and_not_mask_of_and_eq_zero {x m : BitVec w} (h : x &&& m = 0#w) : ~~~m &&& x = x := by
  have hx := and_mask_or_and_not x m
  rw [h, BitVec.zero_or] at hx
  rw [BitVec.and_comm, hx]

theorem toNat_and_not_low (x : BitVec w) (k : ℕ) :
    (x &&& ~~~BitVec.ofNat w (2 ^ k - 1)).toNat = x.toNat / 2 ^ k * 2 ^ k := by
  have hshift : x &&& ~~~BitVec.ofNat w (2 ^ k - 1) = x >>> k <<< k := by
    refine BitVec.eq_of_getLsbD_eq fun j hj => ?_
    rw [BitVec.getLsbD_and, BitVec.getLsbD_not, BitVec.getLsbD_ofNat, BitVec.getLsbD_shiftLeft,
      BitVec.getLsbD_ushiftRight, Nat.testBit_two_pow_sub_one, decide_eq_true hj, Bool.true_and,
      Bool.true_and, Bool.true_and]
    rcases Nat.lt_or_ge j k with hlow | hhigh
    · rw [decide_eq_true hlow, Bool.not_true, Bool.and_false, Bool.false_and]
    · rw [decide_eq_false (Nat.not_lt.mpr hhigh), Bool.not_false, Bool.and_true, Bool.true_and,
        Nat.add_sub_cancel' hhigh]
  rw [hshift, BitVec.toNat_shiftLeft, BitVec.toNat_ushiftRight, Nat.shiftRight_eq_div_pow,
    Nat.shiftLeft_eq, Nat.mod_eq_of_lt ((Nat.div_mul_le_self _ _).trans_lt x.isLt)]

theorem and_eq_right_iff_or_eq_left {x y : BitVec w} : x &&& y = y ↔ x ||| y = x := by
  constructor
  · intro h
    rw [← h]
    ext k hk
    rw [BitVec.getElem_or, BitVec.getElem_and]
    cases x[k] with
    | false => rfl
    | true => rfl
  · intro h
    rw [← h]
    ext k hk
    rw [BitVec.getElem_and, BitVec.getElem_or]
    cases y[k] with
    | false => exact Bool.and_false _
    | true => rw [Bool.or_true, Bool.and_true]

theorem or_eq_zero_left {x y : BitVec w} (h : x ||| y = 0#w) : x = 0#w := by
  ext i hi
  have hbit := congrArg (fun z : BitVec w => z.getLsbD i) h
  simp only [BitVec.getLsbD_or, BitVec.getLsbD_zero, Bool.or_eq_false_iff] at hbit
  rw [← BitVec.getLsbD_eq_getElem, hbit.1, BitVec.getElem_zero]

/-! ### Zero counts -/

/-- `u64::trailing_zeros`: the index of the lowest set bit, `64` if there is none. -/
def trailingZeros (x : ℕ) : ℕ := ((List.range 64).find? x.testBit).getD 64

/-- `u64::leading_zeros`. -/
def leadingZeros (x : ℕ) : ℕ := if x = 0 then 64 else 63 - x.log2

/-- `usize::next_power_of_two`: the least power of two that is at least `n`. -/
def nextPowerOfTwo (n : ℕ) : ℕ := if n ≤ 1 then 1 else 2 ^ ((n - 1).log2 + 1)

theorem two_pow_dvd_of_testBit (h : ∀ j < k, x.testBit j = false) : 2 ^ k ∣ x := by
  refine Nat.dvd_of_mod_eq_zero (Nat.eq_of_testBit_eq fun i => ?_)
  rw [Nat.testBit_mod_two_pow, Nat.zero_testBit]
  by_cases hi : i < k
  · simp [h i hi]
  · simp [hi]

/-- A word is a multiple of two to the number of its trailing zeros. -/
theorem two_pow_trailingZeros_dvd (x : ℕ) : 2 ^ trailingZeros x ∣ x := by
  refine two_pow_dvd_of_testBit fun j hj => ?_
  unfold trailingZeros at hj
  cases hf : (List.range 64).find? x.testBit with
  | none =>
    rw [hf, getD_none] at hj
    simpa using List.find?_eq_none.mp hf j (List.mem_range.mpr hj)
  | some i =>
    rw [hf, getD_some] at hj
    have hspec := List.find?_range_eq_some.mp hf
    simpa using hspec.2.2 j hj

/-- The number of trailing zeros is the largest such exponent. -/
theorem le_trailingZeros (hk : k ≤ 64) (h : 2 ^ k ∣ x) : k ≤ trailingZeros x := by
  unfold trailingZeros
  cases hf : (List.range 64).find? x.testBit with
  | none => exact hk
  | some i =>
    have hspec := List.find?_range_eq_some.mp hf
    by_contra hlt
    rw [getD_some, not_le] at hlt
    obtain ⟨q, rfl⟩ := h
    have hbit := hspec.1
    rw [Nat.testBit_two_pow_mul, decide_eq_false (Nat.not_le.mpr hlt), Bool.false_and] at hbit
    cases hbit

theorem trailingZeros_two_pow (hk : k < 64) : trailingZeros (2 ^ k) = k := by
  have hf : (List.range 64).find? (2 ^ k).testBit = some k := by
    refine List.find?_range_eq_some.mpr ⟨?_, List.mem_range.mpr hk, fun j hj => ?_⟩
    · simp
    · simpa [Nat.testBit_two_pow] using Nat.ne_of_gt hj
  rw [trailingZeros, hf, getD_some]

theorem le_nextPowerOfTwo (n : ℕ) : n ≤ nextPowerOfTwo n := by
  unfold nextPowerOfTwo
  split_ifs with h
  · exact h
  · have := Nat.lt_log2_self (n := n - 1)
    omega

/-- `next_power_of_two` stays below any power of two the argument stays below. -/
theorem nextPowerOfTwo_le {n k : ℕ} (h : n ≤ 2 ^ k) : nextPowerOfTwo n ≤ 2 ^ k := by
  unfold nextPowerOfTwo
  split_ifs with h1
  · exact Nat.one_le_two_pow
  · refine Nat.pow_le_pow_right (by norm_num) ?_
    have hlog : (n - 1).log2 < k := (Nat.log2_lt (by omega)).mpr (by omega)
    omega

theorem nextPowerOfTwo_eq_two_pow (n : ℕ) : ∃ k, nextPowerOfTwo n = 2 ^ k := by
  unfold nextPowerOfTwo
  split_ifs
  · exact ⟨0, rfl⟩
  · exact ⟨_, rfl⟩

/-- A sum in a 64-bit word, where an overflow panics. -/
def checkedAdd (x y : ℕ) : Option ℕ := if x + y < 2 ^ 64 then some (x + y) else none

theorem checkedAdd_eq_some {x y z : ℕ} : checkedAdd x y = some z ↔ x + y = z ∧ z < 2 ^ 64 := by
  rw [checkedAdd, ite_none_right_eq_some, Option.some.injEq]
  constructor
  · rintro ⟨hlt, rfl⟩
    exact ⟨rfl, hlt⟩
  · rintro ⟨rfl, hlt⟩
    exact ⟨hlt, rfl⟩

end KernelR.Foundations
