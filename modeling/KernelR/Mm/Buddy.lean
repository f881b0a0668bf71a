import KernelR.Foundations.Bits
import KernelR.Foundations.LinkedList

/-!
# The buddy frame allocator

`mm/buddy.rs`, function by function. A block of order `n` is `4096 * 2 ^ n`
bytes; free blocks of one order form an intrusive doubly linked list whose links
are the first words of the blocks themselves, and one bitmap bit per pair of
buddies records whether exactly one of the two is free.

The memory the allocator works on is part of the state: `mem` holds the
`FreeBlock` header at each address and `bitmap` the bytes behind the bitmap
pointer, which `init` requires to be exclusively owned. Pointers are addresses
with `0` for null. The only panic of the module is the bounds check of
`toggle_bit`; functions that reach it return an `Option`, `none` being the panic.
(`add_free_region` also panics, by underflow, on a range whose length is not a
whole number of pages.)
-/

namespace KernelR.Mm

open Foundations

/-- The header of a free block, stored in its first bytes. -/
abbrev FreeBlock := Link ℕ

/-- The number of block orders, `MAX_ORDER`: order 0 (4 KiB) to order 10 (4 MiB). -/
def maxOrder : ℕ := 11

/-- `PHYS_OFFSET`, where the direct map of physical memory starts. -/
def physOffset : ℕ := 0xFFFF800000000000

/-- The allocator together with the memory it owns: the free blocks' headers and
the bytes of the bitmap. -/
structure BuddyAllocator where
  freeList : ℕ → ℕ
  bitmap : ℕ → BitVec 8
  bitmapSize : ℕ
  baseAddr : ℕ
  mem : ℕ → FreeBlock

/-- The least order whose blocks hold `sizeInBytes`, capped at 10. -/
def sizeToOrder (sizeInBytes : ℕ) : ℕ :=
  let pages := (sizeInBytes + 4095) >>> 12
  min (trailingZeros (nextPowerOfTwo pages)) 10

/-- The size of the bitmap, in bytes, for physical memory up to
`highestPhysicalAddress`. -/
def calculateBitmapSize (highestPhysicalAddress : ℕ) : ℕ :=
  let rawBytes := highestPhysicalAddress >>> 16
  andNot (rawBytes + 4095) (4096 - 1)

namespace BuddyAllocator

/-- `init`: install a bitmap and empty every free list. The bitmap is a field here, so its
pointer is left out. -/
def init (self : BuddyAllocator) (bitmap : ℕ → BitVec 8) (bitmapSize baseAddr : ℕ) :
    BuddyAllocator :=
  { self with
    bitmap := bitmap
    bitmapSize := bitmapSize
    baseAddr := baseAddr
    freeList := fun _ => 0 }

/-- Insert `block` at the head of the free list of `order`. -/
def pushBlock (self : BuddyAllocator) (order block : ℕ) : BuddyAllocator :=
  let head := self.freeList order
  let mem := Function.update self.mem block ⟨head, 0⟩
  let mem := if head ≠ 0 then Function.update mem head { mem head with prev := block } else mem
  { self with mem := mem, freeList := Function.update self.freeList order block }

/-- Unlink `block` from the free list of `order`, wherever it stands. -/
def removeBlock (self : BuddyAllocator) (order block : ℕ) : BuddyAllocator :=
  let next := (self.mem block).next
  let prev := (self.mem block).prev
  let freeList := if prev ≠ 0 then self.freeList else Function.update self.freeList order next
  let mem :=
    if prev ≠ 0 then Function.update self.mem prev { self.mem prev with next := next }
    else self.mem
  let mem :=
    if (mem block).next ≠ 0 then
      Function.update mem (mem block).next { mem (mem block).next with prev := (mem block).prev }
    else mem
  { self with mem := mem, freeList := freeList }

/-- The first bit of an order's share of the bitmap: order 0 has half of the
bits, order 1 a quarter, and so on. -/
def bitOffset (bitmapSize order : ℕ) : ℕ :=
  (List.range order).foldl (fun offset i => offset + (bitmapSize * 8) >>> (i + 1)) 0

/-- The bit of the buddy pair of `order` that contains the physical address. -/
def bitIndex (bitmapSize order physAddr : ℕ) : ℕ :=
  physAddr >>> (12 + order + 1) + bitOffset bitmapSize order

/-- `toggle_bit`: flip the bit of the pair that contains `addr`; the result says whether the
bit is now zero. Outside of the bitmap the source panics. -/
def toggleBit (self : BuddyAllocator) (order addr : ℕ) : Option (BuddyAllocator × Bool) :=
  let physAddr := addr - self.baseAddr
  let index := bitIndex self.bitmapSize order physAddr
  let byteIndex := index / 8
  let mask : BitVec 8 := 1#8 <<< (index % 8)
  if byteIndex ≥ self.bitmapSize then none
  else
    let byte := self.bitmap byteIndex ^^^ mask
    some ({ self with bitmap := Function.update self.bitmap byteIndex byte },
      decide (byte &&& mask = 0#8))

/-- The order `add_free_region` carves next at `start`: the largest that fits the
rest of the range and that the address is aligned to. `none` is the underflow of
`63 - leading_zeros` when less than a page is left. -/
def carveOrder (start stop : ℕ) : Option ℕ :=
  let remainingPages := (stop - start) >>> 12
  if leadingZeros remainingPages > 63 then none
  else
    let maxFitOrder := 63 - leadingZeros remainingPages
    let maxAlignOrder := if start = 0 then 10 else trailingZeros start - 12
    some (min (min maxFitOrder maxAlignOrder) 10)

/-- The loop of `add_free_region`. Each round advances by at least a page, so
the length of the range bounds the number of rounds. -/
def addFreeRegionLoop : ℕ → BuddyAllocator → ℕ → ℕ → Option BuddyAllocator
  | 0, self, start, stop => if start < stop then none else some self
  | fuel + 1, self, start, stop =>
    if start < stop then do
      let order ← carveOrder start stop
      let self := self.pushBlock order start
      let (self, _) ← self.toggleBit order start
      addFreeRegionLoop fuel self (start + 1 <<< (12 + order)) stop
    else some self

/-- `add_free_region`: feed the range `[start, stop)` into the allocator. A unit of fuel for each
byte is enough for every range of pages. -/
def addFreeRegion (self : BuddyAllocator) (start stop : ℕ) : Option BuddyAllocator :=
  addFreeRegionLoop (stop - start) self start stop

/-- The splitting loop of `alloc`: halve the block at `block` from order
`currOrder` down to `order`, freeing the upper halves. -/
def splitBlock (self : BuddyAllocator) (block order : ℕ) : ℕ → Option BuddyAllocator
  | 0 => some self
  | currOrder + 1 =>
    if currOrder + 1 > order then do
      let halfBlockSize := 1 <<< (12 + currOrder)
      let buddyAddr := block + halfBlockSize
      let self := self.pushBlock currOrder buddyAddr
      let (self, _) ← self.toggleBit currOrder buddyAddr
      splitBlock self block order currOrder
    else some self

/-- The search of `alloc` through the higher orders. -/
def allocHigher (self : BuddyAllocator) (order : ℕ) :
    List ℕ → Option (BuddyAllocator × Option ℕ)
  | [] => some (self, none)
  | ord :: rest =>
    let block := self.freeList ord
    if block ≠ 0 then do
      let self := self.removeBlock ord block
      let (self, _) ← self.toggleBit ord block
      let self ← self.splitBlock block order ord
      some (self, some block)
    else self.allocHigher order rest

/-- Allocate a block of `order`; the inner `none` is "out of memory". -/
def alloc (self : BuddyAllocator) (order : ℕ) : Option (BuddyAllocator × Option ℕ) :=
  let order := min order (maxOrder - 1)
  let block := self.freeList order
  if block ≠ 0 then do
    let self := self.removeBlock order block
    let (self, _) ← self.toggleBit order block
    some (self, some block)
  else self.allocHigher order (List.range' (order + 1) (maxOrder - (order + 1)))

/-- The merging loop of `free`; it climbs at most `maxOrder` orders. -/
def freeLoop : ℕ → BuddyAllocator → ℕ → ℕ → Option BuddyAllocator
  | 0, _, _, _ => none
  | fuel + 1, self, addr, order =>
    if order < maxOrder - 1 then do
      let (self, buddyIsFree) ← self.toggleBit order addr
      if buddyIsFree then
        let size := 1 <<< (12 + order)
        let buddyAddr := addr ^^^ size
        let self := self.removeBlock order buddyAddr
        freeLoop fuel self (andNot addr size) (order + 1)
      else some (self.pushBlock order addr)
    else some (self.pushBlock order addr)

/-- Return the block at `addr` of the given `order`. -/
def free (self : BuddyAllocator) (addr order : ℕ) : Option BuddyAllocator :=
  freeLoop maxOrder self (andNot addr 0xFFF) (min order (maxOrder - 1))

/-- The blocks `free` unlinks, each with the state it is unlinked in and the
order whose list it is taken from. -/
def freeUnlinks : ℕ → BuddyAllocator → ℕ → ℕ → List (BuddyAllocator × ℕ × ℕ)
  | 0, _, _, _ => []
  | fuel + 1, self, addr, order =>
    if order < maxOrder - 1 then
      match self.toggleBit order addr with
      | some (self, true) =>
        let size := 1 <<< (12 + order)
        let buddyAddr := addr ^^^ size
        (self, order, buddyAddr) ::
          freeUnlinks fuel (self.removeBlock order buddyAddr) (andNot addr size) (order + 1)
      | _ => []
    else []

/-- The inner loop of `count_free_memory`: the length of the chain at `curr`,
`none` when `fuel` links are not enough to reach its end. -/
def countList (mem : ℕ → FreeBlock) : ℕ → ℕ → Option ℕ
  | 0, curr => if curr = 0 then some 0 else none
  | fuel + 1, curr =>
    if curr = 0 then some 0 else (countList mem fuel (mem curr).next).map (· + 1)

/-- `count_free_memory`: the bytes on the free lists. A chain that does not end within the fuel
has no result. -/
def countFreeMemory (self : BuddyAllocator) (fuel : ℕ) : Option ℕ :=
  (List.range maxOrder).foldlM (fun totalFree order => do
    let blockCount ← countList self.mem fuel (self.freeList order)
    some (totalFree + blockCount * (4096 <<< order))) 0

/-! ### What each operation leaves alone -/

theorem pushBlock_mem (s : BuddyAllocator) (o b : ℕ) :
    (s.pushBlock o b).mem = linkPush s.mem (s.freeList o) b := rfl

theorem pushBlock_freeList (s : BuddyAllocator) (o b : ℕ) :
    (s.pushBlock o b).freeList = Function.update s.freeList o b := rfl

/-- The memory after an unlink is the library's `linkBypass`. -/
theorem removeBlock_mem (s : BuddyAllocator) (o b : ℕ) :
    (s.removeBlock o b).mem = linkBypass s.mem b := rfl

theorem removeBlock_freeList (s : BuddyAllocator) (o b : ℕ) : (s.removeBlock o b).freeList =
      Function.update s.freeList o (headAfterBypass s.mem (s.freeList o) b) := by
  unfold removeBlock headAfterBypass
  dsimp only
  split_ifs
  · rw [Function.update_eq_self]
  · rfl

end BuddyAllocator

end KernelR.Mm
