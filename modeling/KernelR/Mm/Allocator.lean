import KernelR.Mm.Buddy
import KernelR.Mm.Slab

/-!
# The kernel heap

`mm/allocator.rs`: the global allocator routes a request, by the size of its
layout alone, to a slab class or to the buddy allocator, and `dealloc` computes
the same route again. `Layout.source` names that route; the lemmas of this module
say that it is a block big enough for the layout and aligned to it.

`alloc` and `dealloc` run under the heap's lock and take the frame allocator's, so
both are modelled as functions of the two allocators. `none` is a panic in one of
them; a null pointer is `0`.
-/

namespace KernelR.Mm

open Option Foundations

/-- `core::alloc::Layout`: the alignment is a power of two and the size rounded up
to it does not exceed `isize::MAX`. -/
structure Layout where
  size : ℕ
  align : ℕ
  isPow : ∃ k, align = 2 ^ k
  fits : (size + align - 1) / align * align < 2 ^ 63
deriving DecidableEq

/-- Slab caches, and the window of virtual addresses their pages come from. -/
structure HeapAllocator where
  slab : SlabAllocator
  virtualBumpPtr : ℕ
  heapEnd : ℕ

/-- Round `addr` up to a multiple of `align`, in 64-bit arithmetic. -/
def alignTo (addr align : ℕ) : ℕ := andNot ((addr + align - 1) % 2 ^ 64) (align - 1)

namespace HeapAllocator

/-- An allocator without a window. -/
def new (next : ℕ → ℕ) : HeapAllocator := ⟨SlabAllocator.new next, 0, 0⟩

/-- Install the window `[heapStart, heapStart + heapSize)`. -/
def init (self : HeapAllocator) (heapStart heapSize : ℕ) : HeapAllocator :=
  { self with virtualBumpPtr := heapStart, heapEnd := heapStart + heapSize }

/-- The next page of the window; `none` when it is used up. -/
def allocateVirtualPage (self : HeapAllocator) : HeapAllocator × Option ℕ :=
  if self.virtualBumpPtr + 4096 > self.heapEnd then (self, none)
  else ({ self with virtualBumpPtr := self.virtualBumpPtr + 4096 }, some self.virtualBumpPtr)

/-- `GlobalAlloc::alloc`, without its lock. That a page of the heap is mapped when it is first
written to is the work of `Interrupts.pageFaultHandler`. -/
def alloc (self : HeapAllocator) (buddy : BuddyAllocator) (layout : Layout) :
    Option (HeapAllocator × BuddyAllocator × ℕ) :=
  let size := alignTo layout.size layout.align
  match SlabAllocator.listIndex size with
  | some index =>
    match self.slab.alloc size with
    | (slab, some ptr) => some ({ self with slab := slab }, buddy, ptr)
    | (slab, none) =>
      match allocateVirtualPage { self with slab := slab } with
      | (heap, some newPage) =>
        some ({ heap with slab := heap.slab.populateCache index newPage }, buddy, newPage)
      | (heap, none) => some (heap, buddy, 0)
  | none =>
    let pageAlignedSize := alignTo size 4096
    if pageAlignedSize > 4 * 1024 * 1024 then some (self, buddy, 0)
    else do
      let order := sizeToOrder pageAlignedSize
      let (buddy, ptr) ← buddy.alloc order
      some (self, buddy, ptr.getD 0)

/-- `GlobalAlloc::dealloc`, without its lock. -/
def dealloc (self : HeapAllocator) (buddy : BuddyAllocator) (ptr : ℕ) (layout : Layout) :
    Option (HeapAllocator × BuddyAllocator) :=
  let size := alignTo layout.size layout.align
  if (SlabAllocator.listIndex size).isSome then do
    let slab ← self.slab.free ptr size
    some ({ self with slab := slab }, buddy)
  else do
    let pageAlignedSize := alignTo size 4096
    let order := sizeToOrder pageAlignedSize
    let buddy ← buddy.free ptr order
    some (self, buddy)

end HeapAllocator

/-! ### Rounding -/

/-- Where the sum does not wrap, `align_to` is the least multiple of `align` that
is not below `addr`. -/
theorem alignTo_spec {addr k : ℕ} (h : addr + 2 ^ k - 1 < 2 ^ 64) :
    2 ^ k ∣ alignTo addr (2 ^ k) ∧ addr ≤ alignTo addr (2 ^ k) ∧
      alignTo addr (2 ^ k) = (addr + 2 ^ k - 1) / 2 ^ k * 2 ^ k := by
  have heq : alignTo addr (2 ^ k) = (addr + 2 ^ k - 1) / 2 ^ k * 2 ^ k := by
    rw [alignTo, Nat.mod_eq_of_lt h, andNot_low]
  refine ⟨heq ▸ Nat.dvd_mul_left _ _, ?_, heq⟩
  have hpos : 0 < 2 ^ k := Nat.two_pow_pos k
  have hdiv := Nat.div_add_mod' (addr + 2 ^ k - 1) (2 ^ k)
  have hmod := Nat.mod_lt (addr + 2 ^ k - 1) hpos
  rw [heq]
  omega

theorem alignTo_page {addr : ℕ} (h : addr + 4095 < 2 ^ 64) :
    alignTo addr 4096 = (addr + 4095) / 4096 * 4096 :=
  (alignTo_spec (k := 12) h).2.2

theorem le_sizeToOrder {size : ℕ} (h : size ≤ 4 * 1024 * 1024) :
    sizeToOrder size ≤ 10 ∧ size ≤ 2 ^ (12 + sizeToOrder size) := by
  refine ⟨Nat.min_le_right _ _, ?_⟩
  have hpages : (size + 4095) >>> 12 = (size + 4095) / 4096 := Nat.shiftRight_eq_div_pow _ _
  obtain ⟨k, hk⟩ := nextPowerOfTwo_eq_two_pow ((size + 4095) / 4096)
  have hle : (size + 4095) / 4096 ≤ 2 ^ 10 := by omega
  have hk10 : k ≤ 10 := by
    have hpow := nextPowerOfTwo_le hle
    rw [hk] at hpow
    exact (Nat.pow_le_pow_iff_right (by norm_num)).mp hpow
  have horder : sizeToOrder size = k := by
    rw [sizeToOrder, hpages, hk, trailingZeros_two_pow (by omega)]
    exact Nat.min_eq_left hk10
  have hnext := le_nextPowerOfTwo ((size + 4095) / 4096)
  rw [hk] at hnext
  rw [horder, Nat.pow_add]
  omega

/-! ### Routes -/

/-- Where a request is served from. -/
inductive Source where
  | slab (index : ℕ)
  | frame (order : ℕ)
deriving DecidableEq, Repr

namespace Source

/-- The size of the blocks of a source. -/
def blockSize : Source → ℕ
  | slab index => Mm.blockSize index
  | frame order => 2 ^ (12 + order)

/-- The class or the order exists. -/
def Valid : Source → Prop
  | slab index => index < 9
  | frame order => order ≤ 10

end Source

namespace Layout

/-- The size that decides the route. -/
def paddedSize (layout : Layout) : ℕ := alignTo layout.size layout.align

/-- The route both `alloc` and `dealloc` compute; `none` is refused. -/
def source (layout : Layout) : Option Source :=
  match SlabAllocator.listIndex layout.paddedSize with
  | some index => some (.slab index)
  | none =>
    if alignTo layout.paddedSize 4096 > 4 * 1024 * 1024 then none
    else some (.frame (sizeToOrder (alignTo layout.paddedSize 4096)))

/-- The padded size holds the layout and is a multiple of its alignment. -/
theorem paddedSize_spec {layout : Layout} (h : 0 < layout.size) :
    layout.align ∣ layout.paddedSize ∧ layout.size ≤ layout.paddedSize ∧
      layout.paddedSize < 2 ^ 63 := by
  obtain ⟨size, align, ⟨k, rfl⟩, fits⟩ := layout
  dsimp only at h fits ⊢
  have hpos : 0 < 2 ^ k := Nat.two_pow_pos k
  -- a non-empty layout rounds up to at least one unit of its alignment
  have hunit : 1 ≤ (size + 2 ^ k - 1) / 2 ^ k := (Nat.one_le_div_iff hpos).mpr (by omega)
  have halign : 2 ^ k ≤ (size + 2 ^ k - 1) / 2 ^ k * 2 ^ k := Nat.le_mul_of_pos_left _ hunit
  have hdiv := Nat.div_add_mod' (size + 2 ^ k - 1) (2 ^ k)
  have hmod := Nat.mod_lt (size + 2 ^ k - 1) hpos
  have hsum : size + 2 ^ k - 1 < 2 ^ 64 := by omega
  obtain ⟨hdvd, hle, heq⟩ := alignTo_spec hsum
  exact ⟨hdvd, hle, by rw [paddedSize, heq]; exact fits⟩

/-- Blocks of the route hold the layout, and their size is a multiple of its
alignment. -/
theorem source_spec {layout : Layout} (h : 0 < layout.size) {src : Source}
    (hsrc : layout.source = some src) :
    src.Valid ∧ layout.size ≤ src.blockSize ∧ layout.align ∣ src.blockSize := by
  obtain ⟨hdvd, hle, hlt⟩ := paddedSize_spec h
  -- both the alignment and the block size are powers of two, so `≤` is enough
  have hpow : ∀ m, layout.paddedSize ≤ 2 ^ m → layout.align ∣ 2 ^ m := by
    intro m hm
    obtain ⟨k, hk⟩ := layout.isPow
    have hkm : layout.align ≤ 2 ^ m := (Nat.le_of_dvd (h.trans_le hle) hdvd).trans hm
    rw [hk] at hkm ⊢
    exact pow_dvd_pow 2 ((Nat.pow_le_pow_iff_right (by norm_num)).mp hkm)
  unfold source at hsrc
  cases hindex : SlabAllocator.listIndex layout.paddedSize with
  | some i =>
    rw [hindex] at hsrc
    cases hsrc
    obtain ⟨hi, hfit⟩ := listIndex_some hindex
    refine ⟨hi, hle.trans hfit, ?_⟩
    rw [blockSize_eq hi] at hfit
    rw [Source.blockSize, blockSize_eq hi]
    exact hpow _ hfit
  | none =>
    rw [hindex] at hsrc
    dsimp only at hsrc
    split_ifs at hsrc with hbig
    cases hsrc
    obtain ⟨ho, hfit⟩ := le_sizeToOrder (Nat.le_of_not_lt hbig)
    have hpage : layout.paddedSize ≤ alignTo layout.paddedSize 4096 :=
      (alignTo_spec (k := 12) (by omega)).2.1
    exact ⟨ho, hle.trans (hpage.trans hfit), hpow _ (hpage.trans hfit)⟩

theorem listIndex_of_source {layout : Layout} {i : ℕ} (h : layout.source = some (.slab i)) :
    SlabAllocator.listIndex layout.paddedSize = some i := by
  unfold source at h
  cases hindex : SlabAllocator.listIndex layout.paddedSize with
  | some j =>
    rw [hindex] at h
    obtain rfl : j = i := by simpa using h
    rfl
  | none =>
    rw [hindex] at h
    dsimp only at h
    split_ifs at h
    cases h

theorem order_of_source {layout : Layout} {o : ℕ} (h : layout.source = some (.frame o)) :
    SlabAllocator.listIndex layout.paddedSize = none ∧
      ¬ alignTo layout.paddedSize 4096 > 4 * 1024 * 1024 ∧
      sizeToOrder (alignTo layout.paddedSize 4096) = o := by
  unfold source at h
  cases hindex : SlabAllocator.listIndex layout.paddedSize with
  | some j =>
    rw [hindex] at h
    cases h
  | none =>
    rw [hindex] at h
    dsimp only at h
    split_ifs at h with hbig
    exact ⟨rfl, hbig, by simpa using h⟩

end Layout

/-! ### The two operations, route by route -/

namespace HeapAllocator

variable {self : HeapAllocator} {buddy : BuddyAllocator} {layout : Layout}

/-- A class with a free block hands out the head of its list. -/
theorem alloc_hit {i : ℕ} (hsrc : layout.source = some (.slab i))
    (hhead : self.slab.listHeads i ≠ 0) :
    self.alloc buddy layout =
      some (⟨⟨Function.update self.slab.listHeads i (self.slab.next (self.slab.listHeads i)),
        self.slab.next⟩, self.virtualBumpPtr, self.heapEnd⟩, buddy, self.slab.listHeads i) := by
  have hindex := Layout.listIndex_of_source hsrc
  rw [Layout.paddedSize] at hindex
  simp only [alloc, hindex, SlabAllocator.alloc, ne_eq, hhead, not_false_eq_true, if_true]

/-- An empty class is refilled with the next page of the window, whose first
block is handed out. -/
theorem alloc_miss {i : ℕ} (hsrc : layout.source = some (.slab i))
    (hhead : self.slab.listHeads i = 0) (hroom : self.virtualBumpPtr + 4096 ≤ self.heapEnd) :
    self.alloc buddy layout =
      some (⟨self.slab.populateCache i self.virtualBumpPtr, self.virtualBumpPtr + 4096,
        self.heapEnd⟩, buddy, self.virtualBumpPtr) := by
  have hindex := Layout.listIndex_of_source hsrc
  rw [Layout.paddedSize] at hindex
  have hpage : ¬ self.virtualBumpPtr + 4096 > self.heapEnd := Nat.not_lt.mpr hroom
  simp only [alloc, hindex, SlabAllocator.alloc, hhead, ne_eq, not_true_eq_false, if_false,
    allocateVirtualPage, hpage]

/-- An empty class and a used-up window: null, and nothing changes. -/
theorem alloc_full {i : ℕ} (hsrc : layout.source = some (.slab i))
    (hhead : self.slab.listHeads i = 0) (hroom : ¬ self.virtualBumpPtr + 4096 ≤ self.heapEnd) :
    self.alloc buddy layout = some (self, buddy, 0) := by
  have hindex := Layout.listIndex_of_source hsrc
  rw [Layout.paddedSize] at hindex
  have hpage : self.virtualBumpPtr + 4096 > self.heapEnd := Nat.not_le.mp hroom
  simp only [alloc, hindex, SlabAllocator.alloc, hhead, ne_eq, not_true_eq_false, if_false,
    allocateVirtualPage, hpage, if_true]

theorem alloc_frame {o : ℕ} (hsrc : layout.source = some (.frame o)) {buddy' : BuddyAllocator}
    {ptr : Option ℕ} (hrun : buddy.alloc o = some (buddy', ptr)) :
    self.alloc buddy layout = some (self, buddy', ptr.getD 0) := by
  obtain ⟨hindex, hbig, rfl⟩ := Layout.order_of_source hsrc
  rw [Layout.paddedSize] at hindex hbig hrun
  simp only [alloc, hindex, hbig, if_false, hrun, bind_eq_bind, bind_some]

theorem alloc_refused (hsrc : layout.source = none) :
    self.alloc buddy layout = some (self, buddy, 0) := by
  unfold Layout.source at hsrc
  cases hindex : SlabAllocator.listIndex layout.paddedSize with
  | some j =>
    rw [hindex] at hsrc
    cases hsrc
  | none =>
    rw [hindex] at hsrc
    dsimp only at hsrc
    split_ifs at hsrc with hbig
    rw [Layout.paddedSize] at hindex hbig
    simp only [alloc, hindex, hbig, if_true]

/-- A slab block goes back to the front of the list of its class. -/
theorem dealloc_slab {i ptr : ℕ} (hsrc : layout.source = some (.slab i)) :
    self.dealloc buddy ptr layout =
      some (⟨⟨Function.update self.slab.listHeads i ptr,
        Function.update self.slab.next ptr (self.slab.listHeads i)⟩,
        self.virtualBumpPtr, self.heapEnd⟩, buddy) := by
  have hindex := Layout.listIndex_of_source hsrc
  rw [Layout.paddedSize] at hindex
  simp only [dealloc, hindex, isSome_some, if_true, SlabAllocator.free, bind_eq_bind, bind_some]

/-- A large block goes back to the buddy allocator, under the order it was taken
with. -/
theorem dealloc_frame {o ptr : ℕ} (hsrc : layout.source = some (.frame o))
    {buddy' : BuddyAllocator} (hrun : buddy.free ptr o = some buddy') :
    self.dealloc buddy ptr layout = some (self, buddy') := by
  obtain ⟨hindex, -, rfl⟩ := Layout.order_of_source hsrc
  rw [Layout.paddedSize] at hindex hrun
  simp only [dealloc, hindex, isSome_none, Bool.false_eq_true, if_false, hrun,
    bind_eq_bind, bind_some]

end HeapAllocator

end KernelR.Mm
