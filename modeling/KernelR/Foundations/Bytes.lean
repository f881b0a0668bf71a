import Mathlib.Data.List.Basic
import Mathlib.Data.Nat.Basic
import Mathlib.Data.Nat.Digits.Defs
import Mathlib.Tactic.Common

/-!
# Cells of memory and digits of numbers

`cells mem a n` are the `n` cells from address `a` on, and `At mem a l` says that the list
`l` is in memory there. `digits b w x` are the last `w` digits of `x` to the base `b`,
the most significant one first, and `digitValue` reads them back.

`byteOf w i` is byte `i` of a 64-bit word, the least significant one first, and `setByte`
replaces it. `leBytes w x` are the bytes of a number in this order, and `leValue` reads them back.
-/

namespace KernelR.Foundations

open List

variable {β : Type*} {mem : ℕ → β}

/-! ### Cells -/

/-- The cells from an address on. -/
def cells (mem : ℕ → β) (a n : ℕ) : List β := (List.range n).map fun i => mem (a + i)

@[simp]
theorem length_cells (mem : ℕ → β) (a n : ℕ) : (cells mem a n).length = n := by
  rw [cells, length_map, length_range]

theorem cells_add (mem : ℕ → β) (a m n : ℕ) :
    cells mem a (m + n) = cells mem a m ++ cells mem (a + m) n := by
  rw [cells, range_add, map_append, map_map]
  refine congrArg _ (map_congr_left fun i _ => ?_)
  exact congrArg mem (Nat.add_assoc a m i).symm

theorem cells_succ (mem : ℕ → β) (a n : ℕ) :
    cells mem a (n + 1) = mem a :: cells mem (a + 1) n := by
  rw [Nat.add_comm, cells_add]
  rfl

/-- The list is in memory at the address. -/
def At (mem : ℕ → β) (a : ℕ) (l : List β) : Prop := cells mem a l.length = l

theorem at_append {a : ℕ} {l l' : List β} :
    At mem a (l ++ l') ↔ At mem a l ∧ At mem (a + l.length) l' := by
  rw [At, length_append, cells_add]
  constructor
  · exact fun h => append_inj h (length_cells mem a l.length)
  · rintro ⟨hl, hl'⟩
    exact congrArg₂ (· ++ ·) hl hl'

theorem At.cells_eq {a n : ℕ} {l : List β} (h : At mem a l) (hn : l.length = n) :
    cells mem a n = l := hn ▸ h

theorem At.head {a : ℕ} {b : β} {l : List β} (h : At mem a (b :: l)) : mem a = b := by
  rw [At, length_cons, cells_succ] at h
  exact (List.cons.inj h).1

theorem At.get {a i : ℕ} {b : β} {l : List β} (h : At mem a l) (hi : l[i]? = some b) :
    mem (a + i) = b := by
  have hlt : i < l.length := (List.getElem?_eq_some_iff.mp hi).1
  rw [← h.cells_eq rfl, cells, List.getElem?_map, List.getElem?_range hlt] at hi
  exact Option.some.inj hi

theorem At.left {a : ℕ} {l l' : List β} (h : At mem a (l ++ l')) : At mem a l := (at_append.mp h).1

theorem At.right {a : ℕ} {l l' : List β} (h : At mem a (l ++ l')) : At mem (a + l.length) l' :=
  (at_append.mp h).2

theorem At.cells_drop {a : ℕ} {l : List β} (h : At mem a l) {i n : ℕ}
    (hle : i + n ≤ l.length) : cells mem (a + i) n = (l.drop i).take n := by
  obtain ⟨rest, hrest⟩ := Nat.exists_eq_add_of_le hle
  have hsplit : l = cells mem a i ++ (cells mem (a + i) n ++ cells mem (a + (i + n)) rest) := by
    rw [← append_assoc, ← cells_add, ← cells_add, ← hrest]
    exact h.symm
  conv_rhs => rw [hsplit]
  rw [drop_left' (length_cells mem a i), take_left' (length_cells _ _ n)]

theorem at_getD (base : ℕ) (l : List β) (d : β) : At (fun i => l.getD (i - base) d) base l := by
  refine ext_getElem (length_cells _ _ _) fun i hi hi' => ?_
  simp [cells, List.getElem?_eq_getElem hi']

/-! ### Digits -/

/-- The last `w` digits of a number, the most significant one first. -/
def digits (b : ℕ) : ℕ → ℕ → List ℕ
  | 0, _ => []
  | w + 1, x => digits b w (x / b) ++ [x % b]

/-- Reading digits from the left, after a number that was read already. -/
def digitValue (b : ℕ) : List ℕ → ℕ → ℕ
  | [], r => r
  | d :: ds, r => digitValue b ds (r * b + d)

@[simp]
theorem length_digits (b w x : ℕ) : (digits b w x).length = w := by
  induction w generalizing x with
  | zero => rfl
  | succ w ih => rw [digits, length_append, ih, length_singleton]

theorem digits_lt {b : ℕ} (hb : 0 < b) (w x : ℕ) : ∀ d ∈ digits b w x, d < b := by
  induction w generalizing x with
  | zero => exact fun d hd => absurd hd not_mem_nil
  | succ w ih =>
    intro d hd
    rcases mem_append.mp hd with hd | hd
    · exact ih (x / b) d hd
    · rw [mem_singleton.mp hd]
      exact Nat.mod_lt x hb

theorem digitValue_append (b : ℕ) (ds es : List ℕ) (r : ℕ) :
    digitValue b (ds ++ es) r = digitValue b es (digitValue b ds r) := by
  induction ds generalizing r with
  | nil => rfl
  | cons d ds ih => exact ih (r * b + d)

/-- Reading the digits of a number gives the number, up to the digits left out. -/
theorem digitValue_digits (b w x : ℕ) : digitValue b (digits b w x) 0 = x % b ^ w := by
  induction w generalizing x with
  | zero => rw [Nat.pow_zero, Nat.mod_one]; rfl
  | succ w ih =>
    rw [digits, digitValue_append, ih]
    show x / b % b ^ w * b + x % b = x % b ^ (w + 1)
    rw [Nat.pow_succ', Nat.mod_mul, Nat.mul_comm, Nat.add_comm]

/-! ### Numbers in memory -/

/-- The number that bytes stand for, the least significant one first. -/
def leValue (bytes : List UInt8) : ℕ := Nat.ofDigits 256 (bytes.map UInt8.toNat)

/-- The last `w` bytes of a number, the least significant one first. -/
def leBytes : ℕ → ℕ → List UInt8
  | 0, _ => []
  | w + 1, x => UInt8.ofNat x :: leBytes w (x / 256)

@[simp]
theorem length_leBytes (w x : ℕ) : (leBytes w x).length = w := by
  induction w generalizing x with
  | zero => rfl
  | succ w ih => rw [leBytes, length_cons, ih]

/-- Reading the bytes of a number gives the number, up to the bytes left out. -/
theorem leValue_leBytes (w x : ℕ) : leValue (leBytes w x) = x % 256 ^ w := by
  induction w generalizing x with
  | zero => rw [Nat.pow_zero, Nat.mod_one]; rfl
  | succ w ih =>
    have hbyte : (UInt8.ofNat x).toNat = x % 256 := UInt8.toNat_ofNat'
    rw [leBytes, leValue, map_cons, Nat.ofDigits_cons, hbyte, Nat.pow_succ', Nat.mod_mul]
    exact congrArg (x % 256 + 256 * ·) (ih (x / 256))

/-! ### Bytes of words -/

/-- Byte `i` of a word. -/
def byteOf (w : BitVec 64) (i : ℕ) : BitVec 8 := (w >>> (8 * i)).setWidth 8

/-- The word with another byte `i`. -/
def setByte (w : BitVec 64) (i : ℕ) (b : BitVec 8) : BitVec 64 :=
  (w &&& ~~~(0xFF#64 <<< (8 * i))) ||| (b.setWidth 64 <<< (8 * i))

theorem getLsbD_byteMask (k : ℕ) : (0xFF#64).getLsbD k = decide (k < 8) := by
  rw [show 0xFF#64 = (BitVec.allOnes 8).setWidth 64 from rfl, BitVec.getLsbD_setWidth,
    BitVec.getLsbD_allOnes]
  by_cases hk : k < 8
  · simp [hk, show k < 64 by omega]
  · simp [hk]

theorem byteOf_setByte (w : BitVec 64) {i j : ℕ} (hi : i < 8) (hj : j < 8) (b : BitVec 8) :
    byteOf (setByte w i b) j = if j = i then b else byteOf w j := by
  apply BitVec.eq_of_getLsbD_eq
  intro k hk
  have hlt : 8 * j + k < 64 := by omega
  have hleft : (byteOf (setByte w i b) j).getLsbD k =
      (w.getLsbD (8 * j + k) && !(decide (8 * i ≤ 8 * j + k) && decide (8 * j + k - 8 * i < 8)) ||
        (decide (8 * i ≤ 8 * j + k) && b.getLsbD (8 * j + k - 8 * i))) := by
    simp only [byteOf, setByte, BitVec.getLsbD_setWidth, BitVec.getLsbD_ushiftRight,
      BitVec.getLsbD_or, BitVec.getLsbD_and, BitVec.getLsbD_not, BitVec.getLsbD_shiftLeft,
      getLsbD_byteMask, hk, hlt, decide_true, Bool.true_and]
    by_cases hle : 8 * i ≤ 8 * j + k
    · simp [hle, Nat.not_lt.mpr hle, show 8 * j + k - 8 * i < 64 by omega]
    · simp [hle, Nat.lt_of_not_le hle]
  rw [hleft]
  by_cases hji : j = i
  · subst hji
    simp [hk]
  · rw [if_neg hji]
    have hright : (byteOf w j).getLsbD k = w.getLsbD (8 * j + k) := by
      simp only [byteOf, BitVec.getLsbD_setWidth, BitVec.getLsbD_ushiftRight, hk, decide_true,
        Bool.true_and]
    rw [hright]
    rcases Nat.lt_or_gt_of_ne hji with hlt' | hgt
    · simp [show ¬ 8 * i ≤ 8 * j + k by omega]
    · have hout : b.getLsbD (8 * j + k - 8 * i) = false := BitVec.getLsbD_of_ge _ _ (by omega)
      simp [hout, show ¬ 8 * j + k - 8 * i < 8 by omega]

end KernelR.Foundations
