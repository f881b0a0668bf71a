import KernelR.Foundations.Extent
import KernelR.Foundations.LinkedList

/-!
# The slab allocator

`mm/slab.rs`: nine classes of small blocks, each with an intrusive singly linked
free list. A class that runs empty is refilled with a page: `populate_cache`
links the page's blocks, hands out the first one implicitly and installs the rest
as the new list.

`SlabInv` accounts for every block ever carved: the blocks on the lists and the
blocks held by clients are, as a multiset, the blocks of the pages. The class of
a block is that of the page it was carved from; nothing at run time records it.
-/

namespace KernelR.Mm

open Function Foundations

/-- `BLOCK_SIZES`. -/
def blockSizes : List ℕ := [8, 16, 32, 64, 128, 256, 512, 1024, 2048]

/-- `BLOCK_SIZES[i]`. -/
def blockSize (i : ℕ) : ℕ := blockSizes.getD i 0

/-- The list heads, together with the `ListNode` words of the memory the
allocator threads its lists through. -/
structure SlabAllocator where
  listHeads : ℕ → ℕ
  next : ℕ → ℕ

namespace SlabAllocator

/-- All lists empty, over whatever the memory holds. -/
def new (next : ℕ → ℕ) : SlabAllocator := ⟨fun _ => 0, next⟩

/-- The first class whose blocks hold `size` bytes. -/
def listIndex (size : ℕ) : Option ℕ :=
  if size > blockSize (blockSizes.length - 1) then none
  else (List.range blockSizes.length).find? fun i => decide (size ≤ blockSize i)

/-- Pop a block of the class of `size`; `none` is a cache miss or an oversized
request. -/
def alloc (self : SlabAllocator) (size : ℕ) : SlabAllocator × Option ℕ :=
  match listIndex size with
  | none => (self, none)
  | some index =>
    let head := self.listHeads index
    if head ≠ 0 then
      ({ self with listHeads := Function.update self.listHeads index (self.next head) },
        some head)
    else (self, none)

/-- The loop of `populate_cache`: `n` times, point `currentPtr` at the following
block and move there. -/
def linkBlocks (blockSize : ℕ) : ℕ → (ℕ → ℕ) → ℕ → (ℕ → ℕ) × ℕ
  | 0, next, currentPtr => (next, currentPtr)
  | n + 1, next, currentPtr =>
    let nextPtr := currentPtr + blockSize
    linkBlocks blockSize n (Function.update next currentPtr nextPtr) nextPtr

/-- Cut the page at `pagePtr` into blocks of class `index`. The first block is
the caller's; the rest replaces the free list of the class. -/
def populateCache (self : SlabAllocator) (index pagePtr : ℕ) : SlabAllocator :=
  let numBlocks := 4096 / blockSize index
  let linked := linkBlocks (blockSize index) (numBlocks - 1) self.next pagePtr
  { next := Function.update linked.1 linked.2 0
    listHeads := Function.update self.listHeads index (pagePtr + blockSize index) }

/-- Push the block back on the list of its class; `none` is the panic on an
oversized block. -/
def free (self : SlabAllocator) (ptr size : ℕ) : Option SlabAllocator :=
  match listIndex size with
  | none => none
  | some index =>
    let head := self.listHeads index
    some
      { next := Function.update self.next ptr head
        listHeads := Function.update self.listHeads index ptr }

end SlabAllocator

/-! ### Classes -/

variable {i size : ℕ}

theorem blockSize_eq (hi : i < 9) : blockSize i = 2 ^ (3 + i) := by
  interval_cases i <;> rfl

theorem blockSize_pos (hi : i < 9) : 0 < blockSize i := by
  rw [blockSize_eq hi]
  exact Nat.two_pow_pos _

theorem blocks_fill_page (hi : i < 9) : 4096 / blockSize i * blockSize i = 4096 := by
  interval_cases i <;> rfl

theorem two_le_blocks (hi : i < 9) : 2 ≤ 4096 / blockSize i := by
  interval_cases i <;> decide

theorem listIndex_some (h : SlabAllocator.listIndex size = some i) :
    i < 9 ∧ size ≤ blockSize i := by
  unfold SlabAllocator.listIndex at h
  split_ifs at h
  obtain ⟨hle, hmem, -⟩ := List.find?_range_eq_some.mp h
  exact ⟨List.mem_range.mp hmem, of_decide_eq_true hle⟩

/-! ### Runs of blocks -/

/-- The addresses of `n` consecutive blocks from `a`. -/
def blocksFrom (size : ℕ) : ℕ → ℕ → List ℕ
  | 0, _ => []
  | n + 1, a => a :: blocksFrom size n (a + size)

theorem mem_blocksFrom {size n a x : ℕ} : x ∈ blocksFrom size n a ↔ ∃ k < n, x = a + k * size := by
  induction n generalizing a with
  | zero => simp [blocksFrom]
  | succ n ih =>
    rw [blocksFrom, List.mem_cons, ih]
    constructor
    · rintro (rfl | ⟨k, hk, rfl⟩)
      · exact ⟨0, Nat.succ_pos n, by simp⟩
      · exact ⟨k + 1, Nat.succ_lt_succ hk, by ring⟩
    · rintro ⟨k, hk, rfl⟩
      cases k with
      | zero => exact Or.inl (by simp)
      | succ k => exact Or.inr ⟨k, Nat.lt_of_succ_lt_succ hk, by ring⟩

theorem coverCount_blocksFrom (size n a x : ℕ) :
    coverCount ((blocksFrom size n a).map fun b => ⟨b, size⟩) x = Extent.hit ⟨a, n * size⟩ x := by
  induction n generalizing a with
  | zero =>
    have hempty : ¬ (a ≤ x ∧ x < a + 0 * size) := by omega
    rw [Extent.hit, if_neg hempty]
    rfl
  | succ n ih =>
    rw [blocksFrom, List.map_cons, coverCount_cons, ih, ← Extent.hit_split,
      Nat.succ_mul, Nat.add_comm size]

/-- The linking loop writes only inside the run and ends at its last block. -/
theorem linkBlocks_spec : ∀ (n : ℕ) (next : ℕ → ℕ) (a : ℕ),
      (SlabAllocator.linkBlocks size n next a).2 = a + n * size ∧
        ∀ x ∉ blocksFrom size n a, (SlabAllocator.linkBlocks size n next a).1 x = next x := by
  intro n
  induction n with
  | zero => intro next a; exact ⟨by simp [SlabAllocator.linkBlocks], fun _ _ => rfl⟩
  | succ n ih =>
    intro next a
    obtain ⟨hlast, hframe⟩ := ih (update next a (a + size)) (a + size)
    constructor
    · rw [SlabAllocator.linkBlocks, hlast]
      ring
    · intro x hx
      rw [blocksFrom, List.mem_cons, not_or] at hx
      rw [SlabAllocator.linkBlocks, hframe x hx.2, update_of_ne hx.1]

/-- Together with the terminating write, nothing outside the run is written. -/
theorem linkBlocks_frame (n : ℕ) (next : ℕ → ℕ) (a : ℕ) {x : ℕ}
    (hx : x ∉ blocksFrom size (n + 1) a) :
    update (SlabAllocator.linkBlocks size n next a).1
      (SlabAllocator.linkBlocks size n next a).2 0 x = next x := by
  obtain ⟨hlast, hframe⟩ := linkBlocks_spec n next a
  rw [mem_blocksFrom] at hx
  have hne : x ≠ (SlabAllocator.linkBlocks size n next a).2 := by
    rw [hlast]
    exact fun h => hx ⟨n, Nat.lt_succ_self n, h⟩
  have hnot : x ∉ blocksFrom size n a := by
    rw [mem_blocksFrom]
    exact fun ⟨k, hk, h⟩ => hx ⟨k, Nat.lt_succ_of_lt hk, h⟩
  rw [update_of_ne hne, hframe x hnot]

theorem linkBlocks_chain (hsize : 0 < size) :
    ∀ (n : ℕ) (next : ℕ → ℕ) {a : ℕ}, a ≠ 0 →
      SChain (update (SlabAllocator.linkBlocks size n next a).1
        (SlabAllocator.linkBlocks size n next a).2 0) a (blocksFrom size (n + 1) a) := by
  intro n
  induction n with
  | zero =>
    intro next a ha
    refine ⟨rfl, ha, ?_⟩
    simp [SlabAllocator.linkBlocks, blocksFrom, SChain]
  | succ n ih =>
    intro next a ha
    have hrest := ih (update next a (a + size)) (a := a + size) (by omega)
    obtain ⟨hlast, hframe⟩ := linkBlocks_spec n (update next a (a + size)) (a + size)
    rw [SlabAllocator.linkBlocks, blocksFrom]
    refine ⟨rfl, ha, ?_⟩
    -- the link of `a` itself is not touched by the rest of the loop
    have hnot : a ∉ blocksFrom size n (a + size) := by
      rw [mem_blocksFrom]
      rintro ⟨k, -, hk⟩
      omega
    have hne : a ≠ (SlabAllocator.linkBlocks size n
        (update next a (a + size)) (a + size)).2 := by
      rw [hlast]
      omega
    rw [update_of_ne hne, hframe a hnot, update_self]
    exact hrest

end KernelR.Mm
