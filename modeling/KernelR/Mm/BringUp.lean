import KernelR.Mm.BuddyRuns

/-!
# Bringing up physical memory

`init_physical_memory` of `memory.rs`: take frames for the bitmap with the bump allocator,
reserve them, initialise the buddy allocator and feed it every frame of usable memory that
is not reserved, in runs that are as long as possible.

The kernel is built with overflow checks. A sum that does not fit into a `usize` panics,
as do a full table of reservations and a bump allocator without room; all of these are
`none`. The loops run on fuel, one unit for each byte that is left; a round takes a whole
frame at least.

What is fed does not depend on the bitmap, which may be too small for the memory there is.
So the allocator is compared with one whose bitmap is large enough for any memory
(`FreeExactly`), and that one is known to work.
-/

namespace KernelR.Mm

open List Option Foundations BuddyAllocator

/-- `MemoryMapEntry`, without the field that is reserved. -/
structure MemoryMapEntry where
  baseAddr : ℕ
  length : ℕ
  typ : ℕ
deriving DecidableEq, Repr

/-- `ReservedRegion`, without its name, which is only printed. -/
structure ReservedRegion where
  start : ℕ
  stop : ℕ
deriving DecidableEq, Repr

/-- `MAX_RESERVED` -/
def maxReserved : ℕ := 32

/-- `reserve_region`. The table is a list; when it is full the source panics. -/
def reserveRegion (regions : List ReservedRegion) (start stop : ℕ) :
    Option (List ReservedRegion) :=
  if regions.length < maxReserved then some (regions ++ [⟨start, stop⟩]) else none

/-- `is_reserved`: the test of one region after the other. -/
def overlapsReserved (regions : List ReservedRegion) (physAddr endAddr : ℕ) : Bool :=
  regions.any fun region => physAddr < region.stop && endAddr > region.start

/-- `is_reserved` -/
def isReserved (regions : List ReservedRegion) (physAddr size : ℕ) : Option Bool :=
  (checkedAdd physAddr size).map (overlapsReserved regions physAddr)

/-! ### The bump allocator -/

/-- `BumpAllocator` -/
structure BumpAllocator where
  nextFreeFrame : ℕ
  memoryMap : List MemoryMapEntry
deriving DecidableEq, Repr

/-- `allocate_contiguous_frames`: the first of these frames that is reserved. -/
def firstReserved (regions : List ReservedRegion) (candidate : ℕ) :
    List ℕ → Option (Option ℕ)
  | [] => some none
  | i :: rest => do
      let checkAddr ← checkedAdd candidate (i * 4096)
      if ← isReserved regions checkAddr 4096 then some (some checkAddr)
      else firstReserved regions candidate rest

/-- `allocate_contiguous_frames`: the search in one region. -/
def searchFrames (regions : List ReservedRegion) (count regionEnd : ℕ) :
    ℕ → ℕ → Option (Option ℕ)
  | 0, _ => none
  | fuel + 1, candidate => do
      let stop ← checkedAdd candidate (count * 4096)
      if stop ≤ regionEnd then
        match ← firstReserved regions candidate (List.range count) with
        | none => some (some candidate)
        | some checkAddr => do
            let next ← checkedAdd checkAddr 4096
            searchFrames regions count regionEnd fuel (andNot next 4095)
      else some none

namespace BumpAllocator

/-- `allocate_contiguous_frames`: where the search in a region starts. -/
def firstCandidate (self : BumpAllocator) (mem : MemoryMapEntry) : Option ℕ :=
  (checkedAdd (max self.nextFreeFrame mem.baseAddr) 4095).map (andNot · 4095)

/-- `allocate_contiguous_frames`: the loop over the memory map. -/
def allocateFrom (self : BumpAllocator) (regions : List ReservedRegion) (count : ℕ) :
    List MemoryMapEntry → Option (Option ℕ × BumpAllocator)
  | [] => some (none, self)
  | mem :: rest =>
    if mem.typ = 1 then do
      let regionEnd ← checkedAdd mem.baseAddr mem.length
      let candidate ← self.firstCandidate mem
      match ← searchFrames regions count regionEnd (regionEnd + 2) candidate with
      | some found =>
        some (some found, { self with nextFreeFrame := found + count * 4096 })
      | none => allocateFrom self regions count rest
    else allocateFrom self regions count rest

/-- `allocate_contiguous_frames`. The inner `none` is a lack of memory; the outer one is a sum
that does not fit into 64 bits, on which the kernel panics. -/
def allocateContiguousFrames (self : BumpAllocator) (regions : List ReservedRegion)
    (count : ℕ) : Option (Option ℕ × BumpAllocator) :=
  if count * 4096 < 2 ^ 64 then self.allocateFrom regions count self.memoryMap else none

end BumpAllocator

/-! ### Feeding the buddy allocator -/

/-- `init_physical_memory`: the end of a run of frames that are not reserved. -/
def findChunkEnd (regions : List ReservedRegion) (regionEnd : ℕ) : ℕ → ℕ → Option ℕ
  | 0, chunkEnd => if chunkEnd < regionEnd then none else some chunkEnd
  | fuel + 1, chunkEnd =>
    if chunkEnd < regionEnd then do
      if ← isReserved regions chunkEnd 4096 then some chunkEnd
      else do
        let next ← checkedAdd chunkEnd 4096
        findChunkEnd regions regionEnd fuel next
    else some chunkEnd

/-- `init_physical_memory`: the loop over one region. -/
def feedRegion (regions : List ReservedRegion) (regionEnd : ℕ) :
    ℕ → BuddyAllocator → ℕ → Option BuddyAllocator
  | 0, buddy, chunkStart => if chunkStart < regionEnd then none else some buddy
  | fuel + 1, buddy, chunkStart =>
    if chunkStart < regionEnd then do
      if ← isReserved regions chunkStart 4096 then do
        let next ← checkedAdd chunkStart 4096
        feedRegion regions regionEnd fuel buddy next
      else do
        let chunkEnd ← findChunkEnd regions regionEnd (regionEnd - chunkStart) chunkStart
        let virtStart ← checkedAdd chunkStart physOffset
        let virtEnd ← checkedAdd chunkEnd physOffset
        let buddy ← buddy.addFreeRegion virtStart virtEnd
        feedRegion regions regionEnd fuel buddy chunkEnd
    else some buddy

/-- `init_physical_memory`: the loop over the memory map. -/
def feedMap (regions : List ReservedRegion) :
    List MemoryMapEntry → BuddyAllocator → Option BuddyAllocator
  | [], buddy => some buddy
  | mem :: rest, buddy =>
    if mem.typ = 1 then do
      let above ← checkedAdd mem.baseAddr 4095
      let stop ← checkedAdd mem.baseAddr mem.length
      let regionStart := andNot above 4095
      let regionEnd := andNot stop 4095
      let buddy ← feedRegion regions regionEnd (regionEnd - regionStart) buddy regionStart
      feedMap regions rest buddy
    else feedMap regions rest buddy

/-- What `init_physical_memory` leaves behind. -/
structure Memory where
  buddy : BuddyAllocator
  regions : List ReservedRegion
  bump : BumpAllocator

/-- `init_physical_memory`: the frames of the bitmap, which are then reserved. -/
def reserveBitmap (m : Memory) (bitmapSize : ℕ) : Option (Memory × ReservedRegion) := do
  let framesForBitmap := (bitmapSize + 4095) / 4096
  let (found, bump) ← m.bump.allocateContiguousFrames m.regions framesForBitmap
  let bitmapPhysAddr ← found
  let _ ← checkedAdd bitmapPhysAddr physOffset
  let bitmapPhysEnd ← checkedAdd bitmapPhysAddr (framesForBitmap * 4096)
  let regions ← reserveRegion m.regions bitmapPhysAddr bitmapPhysEnd
  some ({ m with regions, bump }, ⟨bitmapPhysAddr, bitmapPhysEnd⟩)

/-- `init_physical_memory`; the second component is the region of the bitmap. What it prints is
left out, with the count of the free frames that is made for it. -/
def initPhysicalMemory (m : Memory) (highestAddr : ℕ) (memoryMap : List MemoryMapEntry) :
    Option (Memory × ReservedRegion) := do
  let bitmapSize := calculateBitmapSize highestAddr
  let (m, bitmap) ← reserveBitmap m bitmapSize
  let buddy := m.buddy.init (fun _ => 0#8) bitmapSize physOffset
  let buddy ← feedMap m.regions memoryMap buddy
  some ({ m with buddy }, bitmap)

/-! ### Reserved frames -/

/-- No byte of the frame at a physical address is in a reserved region. -/
def Unreserved (regions : List ReservedRegion) (p : ℕ) : Prop :=
  ∀ r ∈ regions, ∀ x, p ≤ x → x < p + 4096 → ¬(r.start ≤ x ∧ x < r.stop)

/-- The region has a byte, or it starts at a frame; the test for an overlap is right for
these. -/
def ReservedRegion.Proper (r : ReservedRegion) : Prop := r.start < r.stop ∨ 4096 ∣ r.start

variable {regions : List ReservedRegion}

theorem overlapsReserved_eq_false (hproper : ∀ r ∈ regions, r.Proper) {p : ℕ} (hp : 4096 ∣ p) :
    overlapsReserved regions p (p + 4096) = false ↔ Unreserved regions p := by
  rw [overlapsReserved, List.any_eq_false]
  refine forall₂_congr fun r hr => ?_
  have htest : (decide (p < r.stop) && decide (p + 4096 > r.start)) = true ↔
      p < r.stop ∧ r.start < p + 4096 := by
    rw [Bool.and_eq_true, decide_eq_true_eq, decide_eq_true_eq]
  rw [htest]
  constructor
  · rintro h x hlo hhi ⟨hstart, hstop⟩
    exact h ⟨by omega, by omega⟩
  · rintro h ⟨hstop, hstart⟩
    -- the larger one of the two beginnings is in both
    rcases hproper r hr with hne | haligned
    · exact h (max p r.start) (by omega) (by omega) ⟨by omega, by omega⟩
    · exact h p (by omega) (by omega) ⟨by omega, hstop⟩

theorem isReserved_eq_some {p : ℕ} {b : Bool} (h : isReserved regions p 4096 = some b) :
    overlapsReserved regions p (p + 4096) = b := by
  obtain ⟨stop, hstop, rfl⟩ := map_eq_some_iff.mp h
  rw [(checkedAdd_eq_some.mp hstop).1]

/-! ### Runs of frames -/

variable {fuel hi lo regionEnd : ℕ} {mem : MemoryMapEntry}

/-- The inner loop stops at a frame; all frames up to it are not reserved. -/
theorem findChunkEnd_spec (hproper : ∀ r ∈ regions, r.Proper)
    (hend : 4096 ∣ regionEnd) (hlo : 4096 ∣ lo) (hle : lo ≤ regionEnd)
    (h : findChunkEnd regions regionEnd fuel lo = some hi) :
    lo ≤ hi ∧ hi ≤ regionEnd ∧ 4096 ∣ hi ∧
      (∀ p, 4096 ∣ p → lo ≤ p → p < hi → Unreserved regions p) ∧
      (lo < regionEnd → Unreserved regions lo → lo < hi) := by
  induction fuel generalizing lo with
  | zero =>
    rw [findChunkEnd, ite_none_left_eq_some] at h
    obtain ⟨hnot, h⟩ := h
    cases h
    exact ⟨le_rfl, hle, hlo, fun p _ h₁ h₂ => absurd h₂ (by omega), fun hlt => absurd hlt hnot⟩
  | succ fuel ih =>
    rw [findChunkEnd] at h
    split at h
    next hlt =>
      obtain ⟨reserved, hres, h⟩ := bind_eq_some_iff.mp h
      have htest := isReserved_eq_some hres
      cases reserved with
      | true =>
        cases h
        refine ⟨le_rfl, hle, hlo, fun p _ h₁ h₂ => absurd h₂ (by omega), fun _ hfree => ?_⟩
        rw [(overlapsReserved_eq_false hproper hlo).mpr hfree] at htest
        cases htest
      | false =>
        rw [if_neg Bool.false_ne_true] at h
        obtain ⟨next, hnext, h⟩ := bind_eq_some_iff.mp h
        obtain ⟨rfl, -⟩ := checkedAdd_eq_some.mp hnext
        have hfree := (overlapsReserved_eq_false hproper hlo).mp htest
        have hdvd' : 4096 ∣ lo + 4096 := Nat.dvd_add hlo (Nat.dvd_refl 4096)
        obtain ⟨hle', hhi, hdvd, hall, -⟩ := ih hdvd' (by omega) h
        refine ⟨by omega, hhi, hdvd, fun p hp h₁ h₂ => ?_, fun _ _ => by omega⟩
        rcases Nat.eq_or_lt_of_le h₁ with rfl | hlt'
        · exact hfree
        · exact hall p hp (by omega) h₂
    next hnot =>
      cases h
      exact ⟨le_rfl, hle, hlo, fun p _ h₁ h₂ => absurd h₂ (by omega), fun hlt => absurd hlt hnot⟩

/-! ### The set of free addresses -/

namespace BuddyAllocator

/-- The same blocks are on the free lists. -/
structure SameLists (s t : BuddyAllocator) : Prop where
  freeList : s.freeList = t.freeList
  mem : s.mem = t.mem

theorem SameLists.pushBlock {s t : BuddyAllocator} (h : SameLists s t) (o b : ℕ) :
    SameLists (s.pushBlock o b) (t.pushBlock o b) where
  freeList := by rw [pushBlock_freeList, pushBlock_freeList, h.freeList]
  mem := by rw [pushBlock_mem, pushBlock_mem, h.freeList, h.mem]

theorem SameLists.toggleBit {s s' t t' : BuddyAllocator} {o a : ℕ} {r r' : Bool}
    (h : SameLists s t) (hs : s.toggleBit o a = some (s', r))
    (ht : t.toggleBit o a = some (t', r')) : SameLists s' t' := by
  obtain ⟨-, rfl⟩ := toggleBit_some hs
  obtain ⟨-, rfl⟩ := toggleBit_some ht
  exact ⟨h.freeList, h.mem⟩

/-- `add_free_region` does the same to the lists, whatever the bitmaps are. -/
theorem SameLists.addFreeRegionLoop {fuel : ℕ} {s s' t t' : BuddyAllocator} {start stop : ℕ}
    (h : SameLists s t) (hs : addFreeRegionLoop fuel s start stop = some s')
    (ht : addFreeRegionLoop fuel t start stop = some t') : SameLists s' t' := by
  induction fuel generalizing s t start with
  | zero =>
    rw [BuddyAllocator.addFreeRegionLoop, ite_none_left_eq_some] at hs ht
    obtain rfl := some.inj hs.2
    obtain rfl := some.inj ht.2
    exact h
  | succ fuel ih =>
    rw [BuddyAllocator.addFreeRegionLoop] at hs ht
    split at hs
    next hlt =>
      rw [if_pos hlt] at ht
      obtain ⟨o, ho, hs⟩ := bind_eq_some_iff.mp hs
      obtain ⟨o', ho', ht⟩ := bind_eq_some_iff.mp ht
      obtain rfl : o = o' := some.inj (ho.symm.trans ho')
      obtain ⟨⟨s₁, r⟩, hs₁, hs⟩ := bind_eq_some_iff.mp hs
      obtain ⟨⟨t₁, r'⟩, ht₁, ht⟩ := bind_eq_some_iff.mp ht
      exact ih ((h.pushBlock o start).toggleBit hs₁ ht₁) hs ht
    next hnot =>
      rw [if_neg hnot] at ht
      cases hs
      cases ht
      exact h

theorem addFreeRegionLoop_bitmapSize {fuel : ℕ} {s s' : BuddyAllocator} {start stop : ℕ}
    (h : addFreeRegionLoop fuel s start stop = some s') : s'.bitmapSize = s.bitmapSize := by
  induction fuel generalizing s start with
  | zero =>
    rw [addFreeRegionLoop, ite_none_left_eq_some] at h
    rw [some.inj h.2]
  | succ fuel ih =>
    rw [addFreeRegionLoop] at h
    split at h
    next =>
      obtain ⟨o, -, h⟩ := bind_eq_some_iff.mp h
      obtain ⟨⟨s₁, r⟩, hs₁, h⟩ := bind_eq_some_iff.mp h
      obtain ⟨-, rfl⟩ := toggleBit_some hs₁
      have hrest := ih h
      exact hrest
    next => rw [some.inj h]

/-- A bitmap of this size has a bit for every pair of frames of every machine. -/
def largeBitmap : ℕ := 2 ^ 64

/-- The addresses on the free lists are those in `A`, and each of them is in one block:
the lists are those of an allocator with a large bitmap that was fed just `A`. -/
def FreeExactly (s : BuddyAllocator) (A : Set ℕ) : Prop :=
  ∃ t L fed, SameLists s t ∧ BuddyInv t L [] fed ∧ t.bitmapSize = largeBitmap ∧
    ∀ x, x ∈ A ↔ 0 < coverCount fed x

theorem freeExactly_init (s : BuddyAllocator) (bitmap : ℕ → BitVec 8) (bitmapSize : ℕ) :
    FreeExactly (s.init bitmap bitmapSize physOffset) ∅ := by
  refine ⟨s.init (fun _ => 0#8) largeBitmap physOffset, fun _ => [], [], ⟨rfl, rfl⟩,
    buddyInv_init s (by decide), rfl, fun x => ?_⟩
  simp

/-- **`add_free_region`** adds the addresses of its range. -/
theorem FreeExactly.addFreeRegion {s s' : BuddyAllocator} {A : Set ℕ} (h : FreeExactly s A)
    {start stop : ℕ} (hstart : 4096 ∣ start) (hstop : 4096 ∣ stop) (hle : start ≤ stop)
    (hlo : physOffset ≤ start) (hhi : stop < 2 ^ 64)
    (hfresh : ∀ x, start ≤ x → x < stop → x ∉ A)
    (hs : s.addFreeRegion start stop = some s') :
    FreeExactly s' (A ∪ {x | start ≤ x ∧ x < stop}) := by
  obtain ⟨t, L, fed, hsame, hinv, hsize, hA⟩ := h
  have hroom : stop ≤ physOffset + t.bitmapSize * 2 ^ 15 := by
    rw [hsize, largeBitmap]
    omega
  have hapart : ∀ e ∈ fed, e.Apart ⟨start, stop - start⟩ := by
    intro e he x hex hx
    have hx₁ : start ≤ x := hx.1
    have hx₂ : x < start + (stop - start) := hx.2
    exact hfresh x hx₁ (by omega) ((hA x).mpr (coverCount_pos_of_mem he hex))
  obtain ⟨t', L', ht', hinv', -⟩ :=
    addFreeRegionLoop_spec le_rfl hstart hstop hle hlo hroom hapart hinv
  refine ⟨t', L', _, hsame.addFreeRegionLoop hs ht', hinv', ?_, fun x => ?_⟩
  · rw [addFreeRegionLoop_bitmapSize ht', hsize]
  · rw [Set.mem_union, hA, coverCount_cons, Nat.add_pos_iff_pos_or_pos, Extent.hit_pos_iff, or_comm]
    refine or_congr_left ?_
    show start ≤ x ∧ x < stop ↔ start ≤ x ∧ x < start + (stop - start)
    omega

end BuddyAllocator

/-! ### Feeding a region -/

/-- The addresses of the frame at a physical address, in the direct map. -/
def frame (p : ℕ) : Set ℕ := {v | physOffset + p ≤ v ∧ v < physOffset + p + 4096}

/-- The addresses of the frames from `lo` to `hi` that are not reserved. -/
def freeFrames (regions : List ReservedRegion) (lo hi : ℕ) : Set ℕ :=
  {v | ∃ p, 4096 ∣ p ∧ lo ≤ p ∧ p < hi ∧ Unreserved regions p ∧ v ∈ frame p}

theorem freeFrames_of_reserved (hlo : 4096 ∣ lo) (h : ¬Unreserved regions lo) :
    freeFrames regions lo hi = freeFrames regions (lo + 4096) hi := by
  ext v
  constructor
  · rintro ⟨p, hp, hle, hlt, hfree, hv⟩
    have hne : p ≠ lo := fun heq => h (heq ▸ hfree)
    exact ⟨p, hp, by omega, hlt, hfree, hv⟩
  · rintro ⟨p, hp, hle, hlt, hfree, hv⟩
    exact ⟨p, hp, by omega, hlt, hfree, hv⟩

/-- A run of frames that are not reserved is a stretch of addresses. -/
theorem freeFrames_of_run {lo mid hi : ℕ} (hlo : 4096 ∣ lo) (hmid : 4096 ∣ mid) (hle : lo ≤ mid)
    (hhi : mid ≤ hi) (h : ∀ p, 4096 ∣ p → lo ≤ p → p < mid → Unreserved regions p) :
    freeFrames regions lo hi =
      {v | lo + physOffset ≤ v ∧ v < mid + physOffset} ∪ freeFrames regions mid hi := by
  ext v
  constructor
  · rintro ⟨p, hp, hlop, hlt, hfree, hv⟩
    have hv₁ : physOffset + p ≤ v := hv.1
    have hv₂ : v < physOffset + p + 4096 := hv.2
    by_cases hside : p < mid
    · refine Or.inl ⟨by omega, ?_⟩
      show v < mid + physOffset
      omega
    · exact Or.inr ⟨p, hp, by omega, hlt, hfree, hv⟩
  · rintro (⟨hv₁, hv₂⟩ | ⟨p, hp, hmidp, hlt, hfree, hv⟩)
    · have hrange : lo ≤ v - physOffset ∧ v - physOffset < mid := by omega
      refine ⟨(v - physOffset) / 4096 * 4096, Nat.dvd_mul_left _ _, by omega, by omega, ?_, ?_⟩
      · exact h _ (Nat.dvd_mul_left _ _) (by omega) (by omega)
      · exact ⟨by omega, by omega⟩
    · exact ⟨p, hp, by omega, hlt, hfree, hv⟩

/-- **One region** is fed with exactly its frames that are not reserved. -/
theorem feedRegion_spec (hproper : ∀ r ∈ regions, r.Proper)
    {s s' : BuddyAllocator} {A : Set ℕ} (hend : 4096 ∣ regionEnd) (hlo : 4096 ∣ lo)
    (hA : FreeExactly s A) (hfresh : ∀ v ∈ freeFrames regions lo regionEnd, v ∉ A)
    (h : feedRegion regions regionEnd fuel s lo = some s') :
    FreeExactly s' (A ∪ freeFrames regions lo regionEnd) := by
  have hdone : ∀ {lo : ℕ}, ¬lo < regionEnd → freeFrames regions lo regionEnd = ∅ := by
    intro lo hnot
    refine Set.eq_empty_of_forall_notMem fun v hv => ?_
    obtain ⟨p, -, hle, hlt, -⟩ := hv
    omega
  induction fuel generalizing s lo A with
  | zero =>
    rw [feedRegion, ite_none_left_eq_some] at h
    obtain ⟨hnot, h⟩ := h
    cases h
    rw [hdone hnot, Set.union_empty]
    exact hA
  | succ fuel ih =>
    rw [feedRegion] at h
    split at h
    next hlt =>
      obtain ⟨reserved, hres, h⟩ := bind_eq_some_iff.mp h
      have htest := isReserved_eq_some hres
      cases reserved with
      | true =>
        rw [if_pos rfl] at h
        obtain ⟨next, hnext, h⟩ := bind_eq_some_iff.mp h
        obtain ⟨rfl, -⟩ := checkedAdd_eq_some.mp hnext
        have hreserved : ¬Unreserved regions lo := by
          rw [← overlapsReserved_eq_false hproper hlo, htest]
          exact Bool.true_eq_false_eq_False
        rw [freeFrames_of_reserved hlo hreserved] at hfresh ⊢
        exact ih (Nat.dvd_add hlo (Nat.dvd_refl 4096)) hA hfresh h
      | false =>
        rw [if_neg Bool.false_ne_true] at h
        obtain ⟨mid, hmid, h⟩ := bind_eq_some_iff.mp h
        obtain ⟨virtStart, hstart, h⟩ := bind_eq_some_iff.mp h
        obtain ⟨virtEnd, hstop, h⟩ := bind_eq_some_iff.mp h
        obtain ⟨s₁, hs₁, hrest⟩ := bind_eq_some_iff.mp h
        obtain ⟨rfl, -⟩ := checkedAdd_eq_some.mp hstart
        obtain ⟨rfl, hbound⟩ := checkedAdd_eq_some.mp hstop
        obtain ⟨hle, hhi, hdvd, hrun, -⟩ := findChunkEnd_spec hproper hend hlo hlt.le hmid
        have hcut : freeFrames regions lo regionEnd = _ := freeFrames_of_run hlo hdvd hle hhi hrun
        rw [hcut] at hfresh ⊢
        rw [← Set.union_assoc]
        have hphys : 4096 ∣ physOffset := two_pow_dvd_physOffset (k := 12) (by decide)
        have hA₁ := hA.addFreeRegion (Nat.dvd_add hlo hphys) (Nat.dvd_add hdvd hphys)
          (by omega) (by omega) hbound (fun v h₁ h₂ => hfresh v (Or.inl ⟨h₁, h₂⟩)) hs₁
        -- the rest of the region comes after this run
        have hfresh₁ : ∀ v ∈ freeFrames regions mid regionEnd,
            v ∉ A ∪ {v | lo + physOffset ≤ v ∧ v < mid + physOffset} := by
          intro v hv hmem
          rcases hmem with hmem | ⟨-, hmem⟩
          · exact hfresh v (Or.inr hv) hmem
          · obtain ⟨p, -, hp, -, -, hv₁, -⟩ := hv
            omega
        exact ih hdvd hA₁ hfresh₁ hrest
    next hnot =>
      cases h
      rw [hdone hnot, Set.union_empty]
      exact hA

/-! ### Feeding the memory map -/

/-- The frame at a physical address lies in a usable entry of the memory map. -/
def Usable (memoryMap : List MemoryMapEntry) (p : ℕ) : Prop :=
  ∃ mem ∈ memoryMap, mem.typ = 1 ∧ mem.baseAddr ≤ p ∧ p + 4096 ≤ mem.baseAddr + mem.length

/-- The addresses of the usable frames that are not reserved. -/
def freeMemory (memoryMap : List MemoryMapEntry) (regions : List ReservedRegion) : Set ℕ :=
  {v | ∃ p, 4096 ∣ p ∧ Usable memoryMap p ∧ Unreserved regions p ∧ v ∈ frame p}

/-- The bytes of an entry. -/
def MemoryMapEntry.extent (mem : MemoryMapEntry) : Extent := ⟨mem.baseAddr, mem.length⟩

/-- No two usable entries have a byte in common. -/
def UsableApart (memoryMap : List MemoryMapEntry) : Prop :=
  memoryMap.Pairwise fun mem mem' => mem.typ = 1 → mem'.typ = 1 → mem.extent.Apart mem'.extent

/-- Rounding the beginning up and the end down leaves the frames inside of an entry. -/
theorem freeFrames_of_entry (htyp : mem.typ = 1) {above stop : ℕ}
    (habove : mem.baseAddr + 4095 = above) (hstop : mem.baseAddr + mem.length = stop) :
    freeFrames regions (andNot above 4095) (andNot stop 4095) = freeMemory [mem] regions := by
  have hlow : andNot above 4095 = above / 4096 * 4096 := andNot_low above 12
  have hhigh : andNot stop 4095 = stop / 4096 * 4096 := andNot_low stop 12
  rw [hlow, hhigh]
  ext v
  constructor
  · rintro ⟨p, hp, hle, hlt, hfree, hv⟩
    exact ⟨p, hp, ⟨mem, mem_singleton_self _, htyp, by omega, by omega⟩, hfree, hv⟩
  · rintro ⟨p, hp, ⟨mem', hmem', -, hle, hlt⟩, hfree, hv⟩
    obtain rfl := mem_singleton.mp hmem'
    exact ⟨p, hp, by omega, by omega, hfree, hv⟩

theorem freeMemory_cons (mem : MemoryMapEntry) (rest : List MemoryMapEntry) :
    freeMemory (mem :: rest) regions = freeMemory [mem] regions ∪ freeMemory rest regions := by
  ext v
  constructor
  · rintro ⟨p, hp, ⟨mem', hmem', huse⟩, hfree, hv⟩
    rcases mem_cons.mp hmem' with rfl | hmem'
    · exact Or.inl ⟨p, hp, ⟨mem', mem_singleton_self _, huse⟩, hfree, hv⟩
    · exact Or.inr ⟨p, hp, ⟨mem', hmem', huse⟩, hfree, hv⟩
  · rintro (⟨p, hp, ⟨mem', hmem', huse⟩, hfree, hv⟩ | ⟨p, hp, ⟨mem', hmem', huse⟩, hfree, hv⟩)
    · obtain rfl := mem_singleton.mp hmem'
      exact ⟨p, hp, ⟨mem', mem_cons_self, huse⟩, hfree, hv⟩
    · exact ⟨p, hp, ⟨mem', mem_cons_of_mem _ hmem', huse⟩, hfree, hv⟩

theorem freeMemory_of_unusable (htyp : mem.typ ≠ 1) : freeMemory [mem] regions = ∅ := by
  refine Set.eq_empty_of_forall_notMem fun v hv => ?_
  obtain ⟨p, -, ⟨mem', hmem', htyp', -⟩, -⟩ := hv
  rw [mem_singleton.mp hmem'] at htyp'
  exact htyp htyp'

theorem freeMemory_disjoint {rest : List MemoryMapEntry}
    (hapart : ∀ mem' ∈ rest, mem.typ = 1 → mem'.typ = 1 → mem.extent.Apart mem'.extent) {v : ℕ}
    (hv : v ∈ freeMemory rest regions) : v ∉ freeMemory [mem] regions := by
  rintro ⟨p, hp, ⟨mem₁, hmem₁, htyp₁, hlo₁, hhi₁⟩, -, hv₁⟩
  obtain rfl := mem_singleton.mp hmem₁
  obtain ⟨p', hp', ⟨mem₂, hmem₂, htyp₂, hlo₂, hhi₂⟩, -, hv₂⟩ := hv
  have hsame : p = p' := by
    have h₁ : physOffset + p ≤ v := hv₁.1
    have h₂ : v < physOffset + p + 4096 := hv₁.2
    have h₃ : physOffset + p' ≤ v := hv₂.1
    have h₄ : v < physOffset + p' + 4096 := hv₂.2
    omega
  subst hsame
  refine hapart mem₂ hmem₂ htyp₁ htyp₂ p ⟨hlo₁, ?_⟩ ⟨hlo₂, ?_⟩
  · show p < mem₁.baseAddr + mem₁.length
    omega
  · show p < mem₂.baseAddr + mem₂.length
    omega

/-- **The whole map** is fed with exactly its usable frames that are not reserved. -/
theorem feedMap_spec (hproper : ∀ r ∈ regions, r.Proper) {memoryMap : List MemoryMapEntry}
    (hapart : UsableApart memoryMap) {s s' : BuddyAllocator} {A : Set ℕ} (hA : FreeExactly s A)
    (hfresh : ∀ v ∈ freeMemory memoryMap regions, v ∉ A)
    (h : feedMap regions memoryMap s = some s') :
    FreeExactly s' (A ∪ freeMemory memoryMap regions) := by
  induction memoryMap generalizing s A with
  | nil =>
    cases h
    have hnone : freeMemory [] regions = ∅ := by
      refine Set.eq_empty_of_forall_notMem fun v hv => ?_
      obtain ⟨p, -, ⟨mem, hmem, -⟩, -⟩ := hv
      cases hmem
    rw [hnone, Set.union_empty]
    exact hA
  | cons mem rest ih =>
    obtain ⟨hhead, htail⟩ := pairwise_cons.mp hapart
    rw [freeMemory_cons] at hfresh ⊢
    rw [feedMap] at h
    split at h
    next htyp =>
      obtain ⟨above, habove, h⟩ := bind_eq_some_iff.mp h
      obtain ⟨stop, hstop, h⟩ := bind_eq_some_iff.mp h
      obtain ⟨s₁, hs₁, h⟩ := bind_eq_some_iff.mp h
      have hframes : freeFrames regions (andNot above (2 ^ 12 - 1)) (andNot stop (2 ^ 12 - 1)) =
          freeMemory [mem] regions :=
        freeFrames_of_entry htyp (checkedAdd_eq_some.mp habove).1 (checkedAdd_eq_some.mp hstop).1
      have hA₁ := feedRegion_spec hproper (andNot_low_dvd stop 12) (andNot_low_dvd above 12) hA
        (fun v hv => hfresh v (Or.inl (hframes ▸ hv))) hs₁
      rw [hframes] at hA₁
      rw [← Set.union_assoc]
      refine ih htail hA₁ (fun v hv hmem => ?_) h
      rcases hmem with hmem | hmem
      · exact hfresh v (Or.inr hv) hmem
      · exact freeMemory_disjoint hhead hv hmem
    next htyp =>
      rw [freeMemory_of_unusable htyp, Set.empty_union] at hfresh ⊢
      exact ih htail hA hfresh h

/-! ### The frames of the bitmap -/

theorem searchFrames_dvd {count regionEnd fuel candidate found : ℕ} (hdvd : 4096 ∣ candidate)
    (h : searchFrames regions count regionEnd fuel candidate = some (some found)) :
    4096 ∣ found := by
  induction fuel generalizing candidate with
  | zero => cases h
  | succ fuel ih =>
    obtain ⟨stop, -, h⟩ := bind_eq_some_iff.mp h
    split at h
    next =>
      obtain ⟨hit, -, h⟩ := bind_eq_some_iff.mp h
      cases hit with
      | none =>
        obtain rfl := some.inj (some.inj h)
        exact hdvd
      | some checkAddr =>
        obtain ⟨next, -, h⟩ := bind_eq_some_iff.mp h
        exact ih (andNot_low_dvd next 12) h
    next => cases h

theorem allocateFrom_dvd {self bump : BumpAllocator} {count found : ℕ}
    {memoryMap : List MemoryMapEntry}
    (h : self.allocateFrom regions count memoryMap = some (some found, bump)) : 4096 ∣ found := by
  induction memoryMap with
  | nil => cases h
  | cons mem rest ih =>
    rw [BumpAllocator.allocateFrom] at h
    split at h
    next =>
      obtain ⟨regionEnd, -, h⟩ := bind_eq_some_iff.mp h
      obtain ⟨candidate, hcandidate, h⟩ := bind_eq_some_iff.mp h
      obtain ⟨above, -, rfl⟩ := map_eq_some_iff.mp hcandidate
      obtain ⟨result, hsearch, h⟩ := bind_eq_some_iff.mp h
      cases result with
      | none => exact ih h
      | some a =>
        obtain ⟨ha, -⟩ := Prod.mk.inj (some.inj h)
        cases ha
        exact searchFrames_dvd (andNot_low_dvd above 12) hsearch
    next => exact ih h

theorem reserveBitmap_spec {m m' : Memory} {bitmapSize : ℕ} {bitmap : ReservedRegion}
    (h : reserveBitmap m bitmapSize = some (m', bitmap)) :
    m'.regions = m.regions ++ [bitmap] ∧ 4096 ∣ bitmap.start ∧
      bitmap.stop = bitmap.start + (bitmapSize + 4095) / 4096 * 4096 := by
  obtain ⟨⟨found, bump⟩, hfound, hrest⟩ := bind_eq_some_iff.mp h
  obtain ⟨start, hsome, hrest⟩ := bind_eq_some_iff.mp hrest
  obtain ⟨_, _, hrest⟩ := bind_eq_some_iff.mp hrest
  obtain ⟨stop, hstop, hrest⟩ := bind_eq_some_iff.mp hrest
  obtain ⟨regions, hregions, hrest⟩ := bind_eq_some_iff.mp hrest
  cases hrest
  obtain ⟨-, hregions⟩ := ite_none_right_eq_some.mp hregions
  obtain ⟨-, hfound⟩ := ite_none_right_eq_some.mp hfound
  have hfound' : m.bump.allocateFrom m.regions _ _ = some (some start, bump) := hsome ▸ hfound
  exact ⟨(some.inj hregions).symm, allocateFrom_dvd hfound', (checkedAdd_eq_some.mp hstop).1.symm⟩

/-- **Bring-up is exact.**  If no two usable entries of the memory map overlap and every
reserved region has a byte, then after `init_physical_memory` the free lists cover each
address of a frame that lies in a usable entry and has no reserved byte exactly once, in
the direct map, and no other address. The frames of the bitmap are among the reserved
regions. -/
theorem initPhysicalMemory_exact {m m' : Memory} {highestAddr : ℕ}
    {memoryMap : List MemoryMapEntry} {bitmap : ReservedRegion} (hapart : UsableApart memoryMap)
    (hregions : ∀ r ∈ m.regions, r.start < r.stop)
    (h : initPhysicalMemory m highestAddr memoryMap = some (m', bitmap)) :
    m'.regions = m.regions ++ [bitmap] ∧
      bitmap.stop = bitmap.start + (calculateBitmapSize highestAddr + 4095) / 4096 * 4096 ∧
      ∃ L : ℕ → List ℕ, (∀ o ≤ 10, DChain m'.buddy.mem 0 (m'.buddy.freeList o) (L o)) ∧
        (∀ b ∈ freeBlocks L, b.Aligned) ∧
        ∀ v, (v ∈ freeMemory memoryMap m'.regions →
            coverCount ((freeBlocks L).map Block.extent) v = 1) ∧
          (v ∉ freeMemory memoryMap m'.regions →
            coverCount ((freeBlocks L).map Block.extent) v = 0) := by
  obtain ⟨⟨m₁, bitmap₁⟩, hbitmap, h⟩ := Option.bind_eq_some_iff.mp h
  obtain ⟨buddy, hfeed, h⟩ := Option.bind_eq_some_iff.mp h
  cases h
  obtain ⟨hreserved, hdvd, hstop⟩ := reserveBitmap_spec hbitmap
  have hproper : ∀ r ∈ m₁.regions, r.Proper := by
    intro r hr
    rw [hreserved] at hr
    rcases List.mem_append.mp hr with hr | hr
    · exact Or.inl (hregions r hr)
    · rw [List.mem_singleton.mp hr]
      exact Or.inr hdvd
  have hexact := feedMap_spec hproper hapart (freeExactly_init m₁.buddy (fun _ => 0#8) _)
    (fun _ _ => Set.notMem_empty _) hfeed
  rw [Set.empty_union] at hexact
  obtain ⟨t, L, fed, hsame, hinv, -, hA⟩ := hexact
  have hcover : ∀ v, coverCount ((freeBlocks L).map Block.extent) v = coverCount fed v := by
    intro v
    have hv := hinv.cover v
    rwa [List.append_nil] at hv
  refine ⟨hreserved, hstop, L, fun o ho => ?_, fun b hb => ?_,
    fun v => ⟨fun hv => ?_, fun hv => ?_⟩⟩
  · show DChain buddy.mem 0 (buddy.freeList o) (L o)
    rw [hsame.mem, hsame.freeList]
    exact hinv.reads o ho
  · exact hinv.aligned b (List.mem_append_left _ hb)
  · rw [hcover]
    exact Nat.le_antisymm (hinv.once v) ((hA v).mp hv)
  · rw [hcover]
    exact Nat.eq_zero_of_not_pos fun hpos => hv ((hA v).mpr hpos)

/-- A machine with 128 KiB of memory from 1 MiB on, of which the first 6 KiB are taken. -/
def sampleMemory : Memory where
  buddy := sampleBlank
  regions := [⟨0x100000, 0x101800⟩]
  bump := ⟨0x102000, [⟨0x100000, 0x20000, 1⟩]⟩

/-- The bitmap gets the third frame, and the fourth one is free. -/
theorem initPhysicalMemory_exact_sample :
    ∃ m' L, initPhysicalMemory sampleMemory 0x120000 [⟨0x100000, 0x20000, 1⟩] =
        some (m', ⟨0x102000, 0x103000⟩) ∧
      (∀ o ≤ 10, DChain m'.buddy.mem 0 (m'.buddy.freeList o) (L o)) ∧
      coverCount ((freeBlocks L).map Block.extent) (physOffset + 0x103000) = 1 ∧
      coverCount ((freeBlocks L).map Block.extent) (physOffset + 0x102000) = 0 := by
  have hrun : (initPhysicalMemory sampleMemory 0x120000 [⟨0x100000, 0x20000, 1⟩]).any
      (fun r => decide (r.2 = ⟨0x102000, 0x103000⟩)) = true := by
    decide +kernel
  obtain ⟨⟨m', bitmap⟩, hrun, hbitmap⟩ := (Option.any_eq_true _ _).mp hrun
  obtain rfl : bitmap = ⟨0x102000, 0x103000⟩ := of_decide_eq_true hbitmap
  have hregion : ∀ r ∈ sampleMemory.regions, r.start < r.stop := by decide
  obtain ⟨hreserved, -, L, hreads, -, hcover⟩ :=
    initPhysicalMemory_exact (List.pairwise_singleton _ _) hregion hrun
  refine ⟨m', L, hrun, hreads, (hcover _).1 ?_, (hcover _).2 ?_⟩
  · refine ⟨0x103000, by decide, ⟨_, List.mem_singleton_self _, rfl, by decide, by decide⟩, ?_,
      le_rfl, by omega⟩
    intro r hr x hlo hhi
    rw [hreserved] at hr
    have hr' : r = ⟨0x100000, 0x101800⟩ ∨ r = ⟨0x102000, 0x103000⟩ := by
      simpa [sampleMemory] using hr
    rcases hr' with rfl | rfl
    · show ¬(0x100000 ≤ x ∧ x < 0x101800)
      omega
    · show ¬(0x102000 ≤ x ∧ x < 0x103000)
      omega
  · rintro ⟨p, -, -, hfree, hv₁, hv₂⟩
    have hmem : (⟨0x102000, 0x103000⟩ : ReservedRegion) ∈ m'.regions := by
      rw [hreserved]
      exact List.mem_append_right _ (List.mem_singleton_self _)
    exact hfree _ hmem 0x102000 (by omega) (by omega) ⟨by decide, by decide⟩

end KernelR.Mm
