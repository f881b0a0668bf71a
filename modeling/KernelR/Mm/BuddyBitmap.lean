import KernelR.Mm.Buddy

/-!
# The bitmap of the buddy allocator

`toggle_bit` lays the pair bits of the eleven orders out as a geometric series:
order `o` has the bits from `bitOffset S o` to `bitOffset S (o + 1)`, half as
many as the order below it. `calculate_bitmap_size` chooses the size `S` in a
different place and from a different formula.

The first part proves that the layout is sound for every address below
`S * 2 ^ 15`: each pair has a bit of its own, inside the bitmap. The second part
asks for which memory sizes `calculate_bitmap_size` provides that much room.
-/

namespace KernelR.Mm

open Foundations

namespace BuddyAllocator

/-! ### The geometric layout -/

theorem bitOffset_succ (S o : ℕ) : bitOffset S (o + 1) = bitOffset S o + (S * 8) >>> (o + 1) := by
  simp [bitOffset, List.range_succ]

theorem share_eq (t : ℕ) {o : ℕ} (ho : o ≤ 10) : (4096 * t * 8) >>> (o + 1) = t * 2 ^ (14 - o) := by
  have hpow : 4096 * 8 = 2 ^ (14 - o) * 2 ^ (o + 1) := by
    rw [← Nat.pow_add, show 14 - o + (o + 1) = 15 by omega]
  have hmul : 4096 * t * 8 = t * 2 ^ (14 - o) * 2 ^ (o + 1) := by
    rw [Nat.mul_assoc t, ← hpow]
    omega
  rw [Nat.shiftRight_eq_div_pow, hmul, Nat.mul_div_cancel _ (Nat.two_pow_pos _)]

/-- The shares of the orders below `o` leave exactly `2 ^ (15 - o)` parts free. -/
theorem bitOffset_add (t : ℕ) {o : ℕ} (ho : o ≤ 11) :
    bitOffset (4096 * t) o + t * 2 ^ (15 - o) = t * 2 ^ 15 := by
  induction o with
  | zero => simp [bitOffset]
  | succ o ih =>
    have hstep := ih (by omega)
    have hhalf : 2 ^ (15 - o) = 2 ^ (14 - o) + 2 ^ (14 - o) := by
      rw [show 15 - o = (14 - o) + 1 by omega, Nat.pow_succ]
      omega
    rw [hhalf, Nat.mul_add] at hstep
    rw [bitOffset_succ, share_eq t (by omega), show 15 - (o + 1) = 14 - o by omega]
    omega

theorem bitOffset_mono (S : ℕ) {o o' : ℕ} (h : o ≤ o') : bitOffset S o ≤ bitOffset S o' := by
  induction o', h using Nat.le_induction with
  | base => exact le_rfl
  | succ k _ ih =>
    rw [bitOffset_succ]
    exact ih.trans (Nat.le_add_right _ _)

theorem pairIndex_lt {t o p : ℕ} (ho : o ≤ 10) (hp : p < 4096 * t * 2 ^ 15) :
    p >>> (12 + o + 1) < t * 2 ^ (14 - o) := by
  have hpow : 4096 * 2 ^ 15 = 2 ^ (14 - o) * 2 ^ (12 + o + 1) := by
    rw [← Nat.pow_add, show 14 - o + (12 + o + 1) = 27 by omega]
    norm_num
  have hmul : 4096 * t * 2 ^ 15 = t * 2 ^ (14 - o) * 2 ^ (12 + o + 1) := by
    rw [Nat.mul_assoc t, ← hpow]
    ring
  rw [Nat.shiftRight_eq_div_pow]
  exact Nat.div_lt_of_lt_mul (by rw [Nat.mul_comm, ← hmul]; exact hp)

section Layout

variable {S o o' p p' : ℕ} (hS : 4096 ∣ S) (ho : o ≤ 10) (hp : p < S * 2 ^ 15)

include hS ho hp

/-- Every bit of an order lies before the next order's first bit. -/
theorem bitIndex_lt_bitOffset : bitIndex S o p < bitOffset S (o + 1) := by
  obtain ⟨t, rfl⟩ := hS
  have hidx := pairIndex_lt ho hp
  rw [bitIndex, bitOffset_succ, share_eq t ho]
  omega

/-- The byte of a pair bit is inside the bitmap: `toggle_bit` does not panic. -/
theorem bitIndex_byte_lt : bitIndex S o p / 8 < S := by
  have hlt := bitIndex_lt_bitOffset hS ho hp
  obtain ⟨t, rfl⟩ := hS
  have hall := bitOffset_add t (o := o + 1) (by omega)
  have hle : bitOffset (4096 * t) (o + 1) ≤ t * 2 ^ 15 := by omega
  omega

/-- **Two pairs never share a bit.** -/
theorem bitIndex_inj (ho' : o' ≤ 10) (hp' : p' < S * 2 ^ 15)
    (h : bitIndex S o p = bitIndex S o' p') :
    o = o' ∧ p >>> (12 + o + 1) = p' >>> (12 + o + 1) := by
  have hlt := bitIndex_lt_bitOffset hS ho hp
  have hlt' := bitIndex_lt_bitOffset hS ho' hp'
  have hge : bitOffset S o ≤ bitIndex S o p := Nat.le_add_left _ _
  have hge' : bitOffset S o' ≤ bitIndex S o' p' := Nat.le_add_left _ _
  have heq : o = o' := by
    rcases lt_trichotomy o o' with hoo | hoo | hoo
    · have := bitOffset_mono S (show o + 1 ≤ o' from hoo)
      omega
    · exact hoo
    · have := bitOffset_mono S (show o' + 1 ≤ o from hoo)
      omega
  subst heq
  refine ⟨rfl, ?_⟩
  unfold bitIndex at h
  omega

end Layout

/-! ### Reading and flipping bits -/

/-- Bit `i` of the bitmap. -/
def bit (s : BuddyAllocator) (i : ℕ) : Bool := (s.bitmap (i / 8)).getLsbD (i % 8)

/-- The state with bit `i` flipped. -/
def flipBit (s : BuddyAllocator) (i : ℕ) : BuddyAllocator :=
  { s with
    bitmap := Function.update s.bitmap (i / 8) (s.bitmap (i / 8) ^^^ (1#8 <<< (i % 8))) }

theorem flipBit_removeBlock (s : BuddyAllocator) (i o b : ℕ) :
    (s.flipBit i).removeBlock o b = (s.removeBlock o b).flipBit i := rfl

private theorem getLsbD_mask {k j : ℕ} (hk : k < 8) : (1#8 <<< k).getLsbD j = decide (j = k) := by
  simp only [BitVec.getLsbD_shiftLeft, BitVec.getLsbD_one]
  by_cases hj : j = k
  · subst hj
    simp [hk]
  · rcases Nat.lt_or_gt_of_ne hj with hlt | hgt
    · simp [hlt, hj]
    · simp [show ¬ j < k by omega, hj, show j - k ≠ 0 by omega]

/-- `byte & mask == 0` after the flip says that the bit was set before it. -/
private theorem flipped_and_mask_eq_zero (b : BitVec 8) {k : ℕ} (hk : k < 8) :
    decide ((b ^^^ (1#8 <<< k)) &&& (1#8 <<< k) = 0#8) = b.getLsbD k := by
  cases hb : b.getLsbD k with
  | true =>
    rw [decide_eq_true_iff]
    apply BitVec.eq_of_getLsbD_eq
    intro j _
    rw [BitVec.getLsbD_and, BitVec.getLsbD_xor, getLsbD_mask hk]
    by_cases hj : j = k
    · subst hj
      simp [hb]
    · simp [hj]
  | false =>
    rw [decide_eq_false_iff_not]
    intro hzero
    have hbit := congrArg (fun v => BitVec.getLsbD v k) hzero
    simp [getLsbD_mask hk, hb] at hbit

/-- `toggle_bit` inside the bitmap: the pair's bit is flipped, and the result
tells whether it was set. -/
theorem toggleBit_eq {s : BuddyAllocator} {o addr : ℕ}
    (h : bitIndex s.bitmapSize o (addr - s.baseAddr) / 8 < s.bitmapSize) :
    s.toggleBit o addr =
      some (s.flipBit (bitIndex s.bitmapSize o (addr - s.baseAddr)),
        s.bit (bitIndex s.bitmapSize o (addr - s.baseAddr))) := by
  simp only [toggleBit]
  rw [if_neg (by omega), flipped_and_mask_eq_zero _ (Nat.mod_lt _ (by norm_num))]
  rfl

/-- `toggle_bit` at the direct-map address of the physical address `p`. -/
theorem toggleBit_phys {s : BuddyAllocator} {o p : ℕ}
    (h : bitIndex s.bitmapSize o p / 8 < s.bitmapSize) :
    s.toggleBit o (p + s.baseAddr) =
      some (s.flipBit (bitIndex s.bitmapSize o p), s.bit (bitIndex s.bitmapSize o p)) := by
  rw [toggleBit_eq] <;> rw [Nat.add_sub_cancel]
  exact h

theorem toggleBit_some {s s' : BuddyAllocator} {o addr : ℕ} {r : Bool}
    (h : s.toggleBit o addr = some (s', r)) :
    bitIndex s.bitmapSize o (addr - s.baseAddr) / 8 < s.bitmapSize ∧
      s' = s.flipBit (bitIndex s.bitmapSize o (addr - s.baseAddr)) := by
  by_cases hin : bitIndex s.bitmapSize o (addr - s.baseAddr) / 8 < s.bitmapSize
  · rw [toggleBit_eq hin] at h
    simp only [Option.some.injEq, Prod.mk.injEq] at h
    exact ⟨hin, h.1.symm⟩
  · simp only [toggleBit] at h
    rw [if_pos (by omega)] at h
    cases h

theorem bit_flipBit (s : BuddyAllocator) (i j : ℕ) :
    (s.flipBit i).bit j = (s.bit j ^^ decide (i = j)) := by
  unfold bit flipBit
  dsimp only
  by_cases hbyte : j / 8 = i / 8
  · rw [hbyte, Function.update_self, BitVec.getLsbD_xor, getLsbD_mask (Nat.mod_lt _ (by norm_num))]
    congr 1
    rw [decide_eq_decide]
    omega
  · rw [Function.update_of_ne hbyte, decide_eq_false (show ¬ i = j by rintro rfl; exact hbyte rfl)]
    simp

/-- Two flips that produce the same bitmap flipped the same bit. -/
theorem flipBit_injective (s : BuddyAllocator) {i j : ℕ}
    (h : (s.flipBit i).bitmap = (s.flipBit j).bitmap) : i = j := by
  have hbit : (s.flipBit i).bit i = (s.flipBit j).bit i := by
    unfold bit
    rw [h]
  rw [bit_flipBit, bit_flipBit] at hbit
  by_contra hne
  rw [decide_eq_true rfl, decide_eq_false (Ne.symm hne)] at hbit
  revert hbit
  cases s.bit i <;> decide

end BuddyAllocator

/-! ### Does the computed size give the layout its room?

The layout needs `h ≤ S * 2 ^ 15`: one bit for each of the `h / 2 ^ 13` pairs of
order 0 in the *first half* of the bitmap. `calculate_bitmap_size` reserves
`h / 2 ^ 16` bytes, one bit for each order-0 pair and none for the other orders,
and only its rounding up to whole pages makes the layout fit on small machines. -/

/-- No two toggles at physical block addresses below `h` flip the same bit of a
bitmap sized for `h`, unless they name the same pair of the same order. -/
def NoBitAliasing (h : ℕ) : Prop :=
  ∀ s : BuddyAllocator, s.bitmapSize = calculateBitmapSize h →
    ∀ o₁ o₂ a₁ a₂ : ℕ, o₁ ≤ 10 → o₂ ≤ 10 → a₁ < h → a₂ < h →
      2 ^ (12 + o₁) ∣ a₁ → 2 ^ (12 + o₂) ∣ a₂ →
      ∀ (s₁ s₂ : BuddyAllocator) (r₁ r₂ : Bool),
        s.toggleBit o₁ (a₁ + s.baseAddr) = some (s₁, r₁) →
        s.toggleBit o₂ (a₂ + s.baseAddr) = some (s₂, r₂) →
        s₁.bitmap = s₂.bitmap →
        o₁ = o₂ ∧ a₁ >>> (12 + o₁ + 1) = a₂ >>> (12 + o₁ + 1)

open BuddyAllocator

/-- The size is the number of order-0 pairs in bytes, rounded up to pages. -/
theorem calculateBitmapSize_eq (h : ℕ) :
    calculateBitmapSize h = (h / 2 ^ 16 + 4095) / 4096 * 4096 := by
  unfold calculateBitmapSize
  rw [Nat.shiftRight_eq_div_pow]
  exact andNot_low _ 12

theorem calculateBitmapSize_dvd (h : ℕ) : 4096 ∣ calculateBitmapSize h := by
  rw [calculateBitmapSize_eq]
  exact Nat.dvd_mul_left _ _

/-- Above 128 MiB the order-0 bits of the top of memory do not fit into the first
half of the bitmap. -/
theorem calculateBitmapSize_short {h : ℕ} (hh : 2 ^ 27 < h) :
    0 < calculateBitmapSize h ∧ calculateBitmapSize h * 2 ^ 15 < h := by
  rw [calculateBitmapSize_eq]
  omega

/-- The pair of order 0 just past the first half of a bitmap has the bit of the
first pair of order 1. -/
theorem bitIndex_past_half (S : ℕ) : bitIndex S 0 (S * 2 ^ 15) = bitIndex S 1 0 := by
  have hzero : bitOffset S 0 = 0 := rfl
  simp only [bitIndex, bitOffset_succ, hzero, Nat.shiftRight_eq_div_pow]
  omega

theorem bitIndex_one_byte_lt {S : ℕ} (hpos : 0 < S) : bitIndex S 1 0 / 8 < S := by
  have hzero : bitOffset S 0 = 0 := rfl
  simp only [bitIndex, bitOffset_succ, hzero, Nat.shiftRight_eq_div_pow]
  omega

/-- Above 128 MiB there is a collision: the first order-0 pair past the first
half of the bitmap against the first pair of order 1. -/
theorem not_noBitAliasing {h : ℕ} (hh : 2 ^ 27 < h) : ¬ NoBitAliasing h := by
  intro hno
  obtain ⟨hpos, hshort⟩ := calculateBitmapSize_short hh
  let s : BuddyAllocator :=
    { freeList := fun _ => 0, bitmap := fun _ => 0#8, bitmapSize := calculateBitmapSize h,
      baseAddr := physOffset, mem := fun _ => ⟨0, 0⟩ }
  have hbound : bitIndex s.bitmapSize 1 0 / 8 < s.bitmapSize := bitIndex_one_byte_lt hpos
  have hidx : bitIndex s.bitmapSize 0 (s.bitmapSize * 2 ^ 15) = bitIndex s.bitmapSize 1 0 :=
    bitIndex_past_half _
  have ht₁ := toggleBit_phys (s := s) (o := 0) (p := s.bitmapSize * 2 ^ 15)
    (by rw [hidx]; exact hbound)
  have ht₂ := toggleBit_phys (s := s) (o := 1) (p := 0) hbound
  rw [hidx] at ht₁
  have halias := hno s rfl 0 1 (s.bitmapSize * 2 ^ 15) 0 (by norm_num) (by norm_num) hshort
    (by omega) (Nat.dvd_mul_left_of_dvd (by norm_num) _) (Nat.dvd_zero _) _ _ _ _ ht₁ ht₂ rfl
  exact absurd halias.1 (by norm_num)

/-- **Exactly up to 128 MiB** the bits of different pairs are different. -/
theorem noBitAliasing_iff (h : ℕ) : NoBitAliasing h ↔ h ≤ 2 ^ 27 := by
  constructor
  · intro hno
    by_contra hgt
    exact not_noBitAliasing (Nat.lt_of_not_le hgt) hno
  · intro hle s hS o₁ o₂ a₁ a₂ ho₁ ho₂ ha₁ ha₂ _ _ s₁ s₂ r₁ r₂ ht₁ ht₂ hsame
    obtain ⟨hb₁, rfl⟩ := toggleBit_some ht₁
    obtain ⟨_, rfl⟩ := toggleBit_some ht₂
    have hidx := flipBit_injective s hsame
    simp only [Nat.add_sub_cancel] at hidx
    obtain ⟨t, ht⟩ : 4096 ∣ s.bitmapSize := hS ▸ calculateBitmapSize_dvd h
    -- a bitmap of no bytes has no bit to flip, so there is at least one page
    have hroom : h ≤ s.bitmapSize * 2 ^ 15 := by omega
    exact bitIndex_inj ⟨t, ht⟩ ho₁ (by omega) ho₂ (by omega) hidx

/-- With 512 MiB of memory the pair of order 0 at 256 MiB and the first pair of
order 1 share a bit. -/
theorem bit_aliasing_at_512_mib :
    calculateBitmapSize (2 ^ 29) = 8192 ∧
      bitIndex 8192 0 (2 ^ 28) = bitIndex 8192 1 0 ∧ ¬ NoBitAliasing (2 ^ 29) :=
  ⟨by decide, by decide, not_noBitAliasing (by norm_num)⟩

/-! ### Is every bit inside the bitmap?

Whatever the order, the bits of the addresses below `S * 2 ^ 16` are inside a bitmap of `S`
bytes and those above are not. `calculate_bitmap_size` divides by `2 ^ 16` before it rounds
up, and so forgets a last piece of memory that is smaller. -/

/-- No toggle at a physical address below `h` panics, with a bitmap sized for `h`. -/
def BitmapInBounds (h : ℕ) : Prop :=
  ∀ s : BuddyAllocator, s.bitmapSize = calculateBitmapSize h →
    ∀ o p : ℕ, o ≤ 10 → p < h → (s.toggleBit o (p + s.baseAddr)).isSome

/-- The shares of the orders from `o` on are as large as twice the share of `o`, which makes
the bound the same for all of them. -/
theorem bitIndex_byte_lt_iff {S o p : ℕ} (hS : 4096 ∣ S) (ho : o ≤ 10) :
    bitIndex S o p / 8 < S ↔ p < S * 2 ^ 16 := by
  obtain ⟨t, rfl⟩ := hS
  have hall := bitOffset_add t (o := o) (by omega)
  have hshare : t * 2 ^ (15 - o) * 2 ^ (12 + o + 1) = 4096 * t * 2 ^ 16 := by
    rw [Nat.mul_assoc, ← Nat.pow_add, show 15 - o + (12 + o + 1) = 28 by omega]
    ring
  have hpair : p >>> (12 + o + 1) < t * 2 ^ (15 - o) ↔ p < 4096 * t * 2 ^ 16 := by
    rw [Nat.shiftRight_eq_div_pow, Nat.div_lt_iff_lt_mul (Nat.two_pow_pos _), hshare]
  rw [← hpair, bitIndex]
  omega

theorem toggleBit_isSome_iff {s : BuddyAllocator} {o p : ℕ} :
    (s.toggleBit o (p + s.baseAddr)).isSome ↔ bitIndex s.bitmapSize o p / 8 < s.bitmapSize := by
  constructor
  · intro hsome
    obtain ⟨⟨s', r⟩, hrun⟩ := Option.isSome_iff_exists.mp hsome
    have hin := (toggleBit_some hrun).1
    rwa [Nat.add_sub_cancel] at hin
  · intro hin
    rw [toggleBit_phys hin]
    rfl

/-- **The bitmap is large enough exactly if the last 256 MiB that memory reaches into are used
to the full or for at least 64 KiB.** -/
theorem bitmapInBounds_iff (h : ℕ) :
    BitmapInBounds h ↔ h % 2 ^ 28 = 0 ∨ 2 ^ 16 ≤ h % 2 ^ 28 := by
  have hroom : h ≤ calculateBitmapSize h * 2 ^ 16 ↔ h % 2 ^ 28 = 0 ∨ 2 ^ 16 ≤ h % 2 ^ 28 := by
    rw [calculateBitmapSize_eq]
    omega
  rw [← hroom]
  constructor
  · intro hin
    by_contra hshort
    let s : BuddyAllocator :=
      { freeList := fun _ => 0, bitmap := fun _ => 0#8, bitmapSize := calculateBitmapSize h,
        baseAddr := physOffset, mem := fun _ => ⟨0, 0⟩ }
    have hlast := toggleBit_isSome_iff.mp
      (hin s rfl 0 (calculateBitmapSize h * 2 ^ 16) (Nat.zero_le _) (not_le.mp hshort))
    rw [bitIndex_byte_lt_iff (calculateBitmapSize_dvd h) (Nat.zero_le _)] at hlast
    exact absurd hlast (lt_irrefl _)
  · intro hle s hS o p ho hp
    have hdvd : 4096 ∣ s.bitmapSize := hS ▸ calculateBitmapSize_dvd h
    rw [toggleBit_isSome_iff, bitIndex_byte_lt_iff hdvd ho, hS]
    exact hp.trans_le hle

/-- With 256 MiB and one frame of memory, the bitmap has one page and the bit of the last frame
is the first one behind it. -/
theorem bitmap_out_of_bounds :
    calculateBitmapSize 0x10001000 = 4096 ∧ bitIndex 4096 0 0x10000000 / 8 = 4096 ∧
      ¬ BitmapInBounds 0x10001000 := by
  refine ⟨by decide, by decide, ?_⟩
  intro hin
  let s : BuddyAllocator :=
    { freeList := fun _ => 0, bitmap := fun _ => 0#8, bitmapSize := 4096,
      baseAddr := physOffset, mem := fun _ => ⟨0, 0⟩ }
  have hlast := toggleBit_isSome_iff.mp
    (hin s (by decide) 0 0x10000000 (Nat.zero_le _) (by norm_num))
  exact absurd hlast (by decide)

end KernelR.Mm
