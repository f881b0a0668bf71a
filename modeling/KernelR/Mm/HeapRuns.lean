import KernelR.Mm.Allocator
import KernelR.Mm.BuddyRuns
import KernelR.Mm.SlabInvariant

/-!
# The kernel heap in use

The global allocator over a whole run: the heap, the frame allocator it shares
with other clients, the allocations that are live, and the pages carved for slabs
so far. `HeapInv` puts the invariants of the two allocators side by side; what
connects them is the route of a layout — the live allocations routed to the slabs
are what the slabs have handed out, and the ones routed to the frame allocator are
loans of the latter.

The two kinds of blocks cannot meet: slab pages come from the heap window, frames
from the direct map.
-/

namespace KernelR.Mm

open List Foundations

/-- A pointer handed out, with the layout it was asked for. -/
structure Allocation where
  ptr : ℕ
  layout : Layout
deriving DecidableEq

namespace Allocation

/-- The bytes the client asked for. -/
def extent (a : Allocation) : Extent := ⟨a.ptr, a.layout.size⟩

/-- The slab block, if the route is a slab. -/
def slabBlock (a : Allocation) : Option SlabBlock :=
  match a.layout.source with
  | some (.slab i) => some ⟨a.ptr, i⟩
  | _ => none

/-- The block of frames, if the route is the frame allocator. -/
def frameBlock (a : Allocation) : Option Block :=
  match a.layout.source with
  | some (.frame o) => some ⟨a.ptr, o⟩
  | _ => none

/-- The addresses of the whole block behind the allocation. -/
def blockExtent (a : Allocation) : Extent :=
  ⟨a.ptr, (a.layout.source.map Source.blockSize).getD 0⟩

end Allocation

/-- The slab blocks that are out. -/
def slabHeld (live : List Allocation) : List SlabBlock := live.filterMap Allocation.slabBlock

/-- The frame blocks that are out through the heap. -/
def frameHeld (live : List Allocation) : List Block := live.filterMap Allocation.frameBlock

/-- The heap in use. `frames` are the loans of other clients of the frame
allocator, `pages` the slab pages carved so far. -/
structure HeapRun where
  heap : HeapAllocator
  buddy : BuddyAllocator
  live : List Allocation
  frames : List Block
  pages : List SlabPage
  fed : List Extent

/-- The pages after an `alloc` that left the heap as `heap'`: if the bump pointer
has moved, the page it moved over was carved for the class of the layout. -/
def HeapRun.carve (r : HeapRun) (heap' : HeapAllocator) (layout : Layout) : List SlabPage :=
  if heap'.virtualBumpPtr = r.heap.virtualBumpPtr then r.pages
  else
    ⟨r.heap.virtualBumpPtr, (SlabAllocator.listIndex layout.paddedSize).getD 0⟩ :: r.pages

/-- The states the heap can reach, with the window `[heapStart, heapStart + heapSize)`. -/
inductive HeapReachable (heapStart heapSize : ℕ) : HeapRun → Prop
  /-- `init`, over a frame allocator that is already in use and was fed nothing of
  the window. -/
  | init {S : ℕ} {r : BuddyRun} (next : ℕ → ℕ) : 4096 ∣ S → BuddyReachable S r →
      (∀ e ∈ r.fed, e.Apart ⟨heapStart, heapSize⟩) →
      HeapReachable heapStart heapSize
        ⟨(HeapAllocator.new next).init heapStart heapSize, r.buddy, [], r.live, [], r.fed⟩
  /-- `alloc` of a non-empty layout that returns a pointer. -/
  | alloc {r : HeapRun} {layout : Layout} {heap' : HeapAllocator} {buddy' : BuddyAllocator}
      {ptr : ℕ} : HeapReachable heapStart heapSize r → 0 < layout.size →
      r.heap.alloc r.buddy layout = some (heap', buddy', ptr) → ptr ≠ 0 →
      HeapReachable heapStart heapSize
        ⟨heap', buddy', ⟨ptr, layout⟩ :: r.live, r.frames, r.carve heap' layout, r.fed⟩
  /-- `alloc` that returns null. -/
  | allocNull {r : HeapRun} {layout : Layout} {heap' : HeapAllocator}
      {buddy' : BuddyAllocator} : HeapReachable heapStart heapSize r → 0 < layout.size →
      r.heap.alloc r.buddy layout = some (heap', buddy', 0) →
      HeapReachable heapStart heapSize
        ⟨heap', buddy', r.live, r.frames, r.carve heap' layout, r.fed⟩
  /-- `dealloc` of a live pointer with its layout. -/
  | dealloc {r : HeapRun} {a : Allocation} {heap' : HeapAllocator} {buddy' : BuddyAllocator} :
      HeapReachable heapStart heapSize r → a ∈ r.live →
      r.heap.dealloc r.buddy a.ptr a.layout = some (heap', buddy') →
      HeapReachable heapStart heapSize
        ⟨heap', buddy', r.live.erase a, r.frames, r.pages, r.fed⟩
  /-- Another client takes frames… -/
  | frameAlloc {r : HeapRun} {order ptr : ℕ} {buddy' : BuddyAllocator} :
      HeapReachable heapStart heapSize r → order ≤ 10 →
      r.buddy.alloc order = some (buddy', some ptr) →
      HeapReachable heapStart heapSize
        ⟨r.heap, buddy', r.live, ⟨ptr, order⟩ :: r.frames, r.pages, r.fed⟩
  /-- …and returns them. -/
  | frameFree {r : HeapRun} {b : Block} {buddy' : BuddyAllocator} :
      HeapReachable heapStart heapSize r → b ∈ r.frames →
      r.buddy.free b.addr b.order = some buddy' →
      HeapReachable heapStart heapSize
        ⟨r.heap, buddy', r.live, r.frames.erase b, r.pages, r.fed⟩
  /-- Clients write into the memory they own. -/
  | write {r : HeapRun} {next : ℕ → ℕ} {mem : ℕ → FreeBlock} :
      HeapReachable heapStart heapSize r →
      (∀ x, (∀ b ∈ slabHeld r.live, ¬ b.extent.Mem x) → next x = r.heap.slab.next x) →
      (∀ x, (∀ b ∈ frameHeld r.live ++ r.frames, ¬ b.extent.Mem x) → mem x = r.buddy.mem x) →
      HeapReachable heapStart heapSize
        ⟨{ r.heap with slab := { r.heap.slab with next := next } },
          { r.buddy with mem := mem }, r.live, r.frames, r.pages, r.fed⟩

/-- **The invariant.** -/
structure HeapInv (heapStart heapSize : ℕ) (r : HeapRun) (F L : ℕ → List ℕ) : Prop where
  slab : SlabInv r.heap.slab F (slabHeld r.live) r.pages
  buddy : BuddyInv r.buddy L (frameHeld r.live ++ r.frames) r.fed
  routed : ∀ a ∈ r.live, 0 < a.layout.size ∧ a.layout.source ≠ none
  bumpDvd : 4096 ∣ r.heap.virtualBumpPtr
  bumpPos : 0 < r.heap.virtualBumpPtr
  heapEnd : r.heap.heapEnd = heapStart + heapSize
  window : ∀ p ∈ r.pages,
    heapStart ≤ p.addr ∧ p.addr + 4096 ≤ r.heap.virtualBumpPtr ∧ p.addr + 4096 ≤ r.heap.heapEnd
  bumpLe : heapStart ≤ r.heap.virtualBumpPtr
  apart : ∀ e ∈ r.fed, e.Apart ⟨heapStart, heapSize⟩

/-- A bump pointer that moved by a page has carved that page for the class. -/
theorem HeapRun.carve_page {r : HeapRun} {heap' : HeapAllocator} {layout : Layout} {i : ℕ}
    (hsrc : layout.source = some (.slab i))
    (hbump : heap'.virtualBumpPtr = r.heap.virtualBumpPtr + 4096) :
    r.carve heap' layout = ⟨r.heap.virtualBumpPtr, i⟩ :: r.pages := by
  have hmoved : ¬ heap'.virtualBumpPtr = r.heap.virtualBumpPtr := by omega
  rw [HeapRun.carve, if_neg hmoved, Layout.listIndex_of_source hsrc, Option.getD_some]

/-! ### Live allocations and the blocks behind them -/

theorem slabHeld_cons_slab {a : Allocation} {i : ℕ} (h : a.layout.source = some (.slab i))
    (live : List Allocation) :
    slabHeld (a :: live) = ⟨a.ptr, i⟩ :: slabHeld live ∧
      frameHeld (a :: live) = frameHeld live := by
  simp [slabHeld, frameHeld, Allocation.slabBlock, Allocation.frameBlock, h]

theorem slabHeld_cons_frame {a : Allocation} {o : ℕ} (h : a.layout.source = some (.frame o))
    (live : List Allocation) :
    slabHeld (a :: live) = slabHeld live ∧
      frameHeld (a :: live) = ⟨a.ptr, o⟩ :: frameHeld live := by
  simp [slabHeld, frameHeld, Allocation.slabBlock, Allocation.frameBlock, h]

theorem mem_slabHeld {live : List Allocation} {b : SlabBlock} :
    b ∈ slabHeld live ↔ ∃ a ∈ live, a.ptr = b.addr ∧ a.layout.source = some (.slab b.index) := by
  simp only [slabHeld, mem_filterMap]
  refine exists_congr fun a => and_congr_right fun _ => ?_
  unfold Allocation.slabBlock
  rcases a.layout.source with _ | (i | o)
  · simp
  · cases b
    simp
  · simp

theorem mem_frameHeld {live : List Allocation} {b : Block} :
    b ∈ frameHeld live ↔ ∃ a ∈ live, a.ptr = b.addr ∧ a.layout.source = some (.frame b.order) := by
  simp only [frameHeld, mem_filterMap]
  refine exists_congr fun a => and_congr_right fun _ => ?_
  unfold Allocation.frameBlock
  rcases a.layout.source with _ | (i | o)
  · simp
  · simp
  · cases b
    simp

/-- Each routed allocation stands for one block of one of the two allocators. -/
theorem coverCount_live {live : List Allocation} (h : ∀ a ∈ live, a.layout.source ≠ none) (x : ℕ) :
    coverCount (live.map Allocation.blockExtent) x =
      coverCount ((slabHeld live).map SlabBlock.extent) x +
        coverCount ((frameHeld live).map Block.extent) x := by
  induction live with
  | nil => rfl
  | cons a live ih =>
    have hrest := ih fun b hb => h b (mem_cons_of_mem _ hb)
    rw [map_cons, coverCount_cons, hrest]
    rcases hsrc : a.layout.source with _ | (i | o)
    · exact absurd hsrc (h a mem_cons_self)
    · obtain ⟨hslab, hframe⟩ := slabHeld_cons_slab hsrc live
      have hblock : a.blockExtent = SlabBlock.extent ⟨a.ptr, i⟩ := by
        simp [Allocation.blockExtent, SlabBlock.extent, hsrc, Source.blockSize]
      rw [hslab, hframe, map_cons, coverCount_cons, hblock, Nat.add_assoc]
    · obtain ⟨hslab, hframe⟩ := slabHeld_cons_frame hsrc live
      have hblock : a.blockExtent = Block.extent ⟨a.ptr, o⟩ := by
        simp [Allocation.blockExtent, Block.extent, hsrc, Source.blockSize]
      rw [hslab, hframe, map_cons, coverCount_cons, hblock, Nat.add_left_comm]

namespace HeapInv

variable {heapStart heapSize : ℕ} {r : HeapRun} {F L : ℕ → List ℕ}

theorem page_in_window (h : HeapInv heapStart heapSize r F L) {x : ℕ}
    (hx : 0 < coverCount (r.pages.map SlabPage.extent) x) :
    Extent.Mem ⟨heapStart, heapSize⟩ x := by
  obtain ⟨e, he, hmem⟩ := exists_mem_of_coverCount_pos hx
  obtain ⟨p, hp, rfl⟩ := mem_map.mp he
  obtain ⟨hlo, -, hhi⟩ := h.window p hp
  rw [h.heapEnd] at hhi
  have hx₁ : p.addr ≤ x := hmem.1
  have hx₂ : x < p.addr + 4096 := hmem.2
  exact ⟨hlo.trans hx₁, show x < heapStart + heapSize by omega⟩

/-- No address is covered by a slab page and by memory of the frame allocator. -/
theorem not_both (h : HeapInv heapStart heapSize r F L) (x : ℕ) :
    coverCount (r.pages.map SlabPage.extent) x = 0 ∨ coverCount r.fed x = 0 := by
  by_contra hboth
  rw [not_or] at hboth
  obtain ⟨e, he, hmem⟩ := exists_mem_of_coverCount_pos (Nat.pos_of_ne_zero hboth.2)
  exact h.apart e he x hmem (h.page_in_window (Nat.pos_of_ne_zero hboth.1))

/-- Everything that is out or free, in either allocator, covers no address twice. -/
theorem cover_le_one (h : HeapInv heapStart heapSize r F L) (x : ℕ) :
    coverCount ((slabFree F).map SlabBlock.extent) x +
      coverCount ((freeBlocks L).map Block.extent) x +
      coverCount (r.live.map Allocation.blockExtent) x ≤ 1 := by
  have hslab := h.slab.coverCount_parts x
  have hbuddy := h.buddy.cover x
  have honce := h.slab.once x
  have honce' := h.buddy.once x
  simp only [map_append, coverCount_append] at hslab hbuddy
  rw [coverCount_live fun a ha => (h.routed a ha).2]
  rcases h.not_both x with hzero | hzero <;> omega

theorem extent_sub_block (h : HeapInv heapStart heapSize r F L) {a : Allocation}
    (ha : a ∈ r.live) {x : ℕ} (hx : a.extent.Mem x) : a.blockExtent.Mem x := by
  obtain ⟨hpos, hrouted⟩ := h.routed a ha
  obtain ⟨src, hsrc⟩ := Option.ne_none_iff_exists'.mp hrouted
  have hle := (Layout.source_spec hpos hsrc).2.1
  have hx₁ : a.ptr ≤ x := hx.1
  have hx₂ : x < a.ptr + a.layout.size := hx.2
  refine ⟨hx₁, ?_⟩
  simp only [Allocation.blockExtent, hsrc, Option.map_some, Option.getD_some]
  omega

theorem live_pairwise (h : HeapInv heapStart heapSize r F L) :
    (r.live.map Allocation.extent).Pairwise Extent.Apart := by
  have hblocks : (r.live.map Allocation.blockExtent).Pairwise Extent.Apart :=
    pairwise_apart_of_coverCount fun x => by
      have := h.cover_le_one x
      omega
  refine pairwise_map.mpr (List.Pairwise.imp_of_mem ?_ (pairwise_map.mp hblocks))
  intro a b ha hb hapart
  exact hapart.mono (fun _ hx => h.extent_sub_block ha hx) (fun _ hx => h.extent_sub_block hb hx)

theorem live_apart_free (h : HeapInv heapStart heapSize r F L) {a : Allocation} (ha : a ∈ r.live) :
    (∀ b ∈ slabFree F, a.extent.Apart b.extent) ∧ ∀ b ∈ freeBlocks L, a.extent.Apart b.extent := by
  have hlive : ∀ x, a.extent.Mem x → 0 < coverCount (r.live.map Allocation.blockExtent) x :=
    fun x hx => coverCount_pos_of_mem (mem_map_of_mem ha) (h.extent_sub_block ha hx)
  constructor
  · intro b hb x hx hbx
    have hcover := h.cover_le_one x
    have hfree := coverCount_pos_of_mem (mem_map_of_mem hb) hbx
    have := hlive x hx
    omega
  · intro b hb x hx hbx
    have hcover := h.cover_le_one x
    have hfree := coverCount_pos_of_mem (mem_map_of_mem hb) hbx
    have := hlive x hx
    omega

/-- Behind every live allocation stands a block of its route: at an address that
is a multiple of the block's size, cut from a page of the class or lent by the
frame allocator. -/
theorem live_source (h : HeapInv heapStart heapSize r F L) {a : Allocation} (ha : a ∈ r.live) :
    (∃ src, a.layout.source = some src ∧ src.blockSize ∣ a.ptr ∧
      ((∃ i, src = .slab i ∧ ∃ p ∈ r.pages, p.index = i ∧ ⟨a.ptr, i⟩ ∈ p.blocks) ∨
        ∃ o, src = .frame o ∧ ⟨a.ptr, o⟩ ∈ frameHeld r.live)) ∧
      a.ptr ≠ 0 ∧ a.layout.align ∣ a.ptr := by
  obtain ⟨hpos, hrouted⟩ := h.routed a ha
  obtain ⟨src, hsrc⟩ := Option.ne_none_iff_exists'.mp hrouted
  have halign := (Layout.source_spec hpos hsrc).2.2
  cases src with
  | slab i =>
    have hheld : (⟨a.ptr, i⟩ : SlabBlock) ∈ slabFree F ++ slabHeld r.live :=
      mem_append_right _ (mem_slabHeld.mpr ⟨a, ha, rfl, hsrc⟩)
    obtain ⟨p, hp, hblock, hvalid⟩ := h.slab.mem_page hheld
    obtain ⟨hindex, hdvd, -, -⟩ := SlabPage.of_mem_blocks hvalid hblock
    exact ⟨⟨_, hsrc, hdvd, Or.inl ⟨i, rfl, p, hp, hindex.symm, hblock⟩⟩,
      h.slab.addr_ne_zero hheld, halign.trans hdvd⟩
  | frame o =>
    have hframe : (⟨a.ptr, o⟩ : Block) ∈ frameHeld r.live := mem_frameHeld.mpr ⟨a, ha, rfl, hsrc⟩
    have hheld : (⟨a.ptr, o⟩ : Block) ∈ freeBlocks L ++ (frameHeld r.live ++ r.frames) :=
      mem_append_right _ (mem_append_left _ hframe)
    have hdvd := (h.buddy.aligned _ hheld).2
    exact ⟨⟨_, hsrc, hdvd, Or.inr ⟨o, rfl, hframe⟩⟩, h.buddy.addr_ne_zero hheld, halign.trans hdvd⟩

/-- A carved block is either live or on the list of its class, and on no other
list. -/
theorem carved_once (h : HeapInv heapStart heapSize r F L) {p : SlabPage} (hp : p ∈ r.pages)
    {b : SlabBlock} (hb : b ∈ p.blocks) :
    Xor (∃ a ∈ r.live, a.ptr = b.addr ∧ a.layout.source = some (.slab b.index))
        (b.addr ∈ F b.index) ∧
      ∀ i < 9, i ≠ b.index → b.addr ∉ F i := by
  have hcarved : b ∈ slabFree F ++ slabHeld r.live :=
    h.slab.parts.mem_iff.mpr (mem_flatMap.mpr ⟨p, hp, hb⟩)
  have hi := h.slab.index_lt hcarved
  have hfree : b.addr ∈ F b.index ↔ b ∈ slabFree F := by
    rw [mem_slabFree]
    exact ⟨fun hmem => ⟨hi, hmem⟩, fun hmem => hmem.2⟩
  refine ⟨?_, fun i hi' hne hmem => ?_⟩
  · rw [← mem_slabHeld, hfree]
    have hself := h.slab.extent_mem_addr hcarved
    rcases mem_append.mp hcarved with hmem | hmem
    · refine Or.inr ⟨hmem, fun hheld => ?_⟩
      exact h.slab.free_apart_held hmem hheld b.addr hself hself
    · refine Or.inl ⟨hmem, fun hfree' => ?_⟩
      exact h.slab.free_apart_held hfree' hmem b.addr hself hself
  · have hother : (⟨b.addr, i⟩ : SlabBlock) ∈ slabFree F ++ slabHeld r.live :=
      mem_append_left _ (mem_slabFree.mpr ⟨hi', hmem⟩)
    have heq := List.inj_on_of_nodup_map h.slab.nodup_addr hother hcarved rfl
    exact hne (congrArg SlabBlock.index heq)

/-! ### The steps -/

/-- What `alloc` does, route by route. It never panics; a pointer it returns is
the head of the list of the layout's class, the start of a page carved for that
class, or a block the frame allocator hands out under the layout's order. -/
inductive AllocOutcome (r : HeapRun) (F : ℕ → List ℕ) (layout : Layout) :
    HeapAllocator → BuddyAllocator → ℕ → Prop
  | hit {i ptr : ℕ} {l : List ℕ} : layout.source = some (.slab i) → F i = ptr :: l →
      AllocOutcome r F layout
        ⟨⟨Function.update r.heap.slab.listHeads i (r.heap.slab.next ptr), r.heap.slab.next⟩,
          r.heap.virtualBumpPtr, r.heap.heapEnd⟩ r.buddy ptr
  | miss {i : ℕ} : layout.source = some (.slab i) → F i = [] →
      r.heap.virtualBumpPtr + 4096 ≤ r.heap.heapEnd →
      AllocOutcome r F layout
        ⟨r.heap.slab.populateCache i r.heap.virtualBumpPtr, r.heap.virtualBumpPtr + 4096,
          r.heap.heapEnd⟩ r.buddy r.heap.virtualBumpPtr
  | frame {o ptr : ℕ} {buddy' : BuddyAllocator} : layout.source = some (.frame o) →
      r.buddy.alloc o = some (buddy', some ptr) → AllocOutcome r F layout r.heap buddy' ptr
  | null : AllocOutcome r F layout r.heap r.buddy 0

theorem alloc_outcome (h : HeapInv heapStart heapSize r F L) {layout : Layout}
    (hsize : 0 < layout.size) :
    ∃ heap' buddy' ptr, r.heap.alloc r.buddy layout = some (heap', buddy', ptr) ∧
      AllocOutcome r F layout heap' buddy' ptr := by
  rcases hsrc : layout.source with _ | (i | o)
  · exact ⟨_, _, _, HeapAllocator.alloc_refused hsrc, .null⟩
  · have hread := h.slab.reads i (Layout.source_spec hsize hsrc).1
    rcases hF : F i with _ | ⟨b, l⟩
    · rw [hF] at hread
      by_cases hroom : r.heap.virtualBumpPtr + 4096 ≤ r.heap.heapEnd
      · exact ⟨_, _, _, HeapAllocator.alloc_miss hsrc hread hroom, .miss hsrc hF hroom⟩
      · exact ⟨_, _, _, HeapAllocator.alloc_full hsrc hread hroom, .null⟩
    · rw [hF] at hread
      obtain ⟨hhead, hne, -⟩ := hread
      refine ⟨_, _, _, HeapAllocator.alloc_hit hsrc (hhead ▸ hne), ?_⟩
      rw [hhead]
      exact .hit hsrc hF
  · rcases h.buddy.alloc_spec (Layout.source_spec hsize hsrc).1 with
      ⟨hnone, -⟩ | ⟨buddy', L', b, hsome, -⟩
    · exact ⟨_, _, _, HeapAllocator.alloc_frame hsrc hnone, .null⟩
    · exact ⟨_, _, _, HeapAllocator.alloc_frame hsrc hsome, .frame hsrc hsome⟩

/-- `alloc` keeps the invariant; a pointer it returns is live from then on. -/
theorem alloc_step (h : HeapInv heapStart heapSize r F L) {layout : Layout}
    (hsize : 0 < layout.size) {heap' : HeapAllocator} {buddy' : BuddyAllocator} {ptr : ℕ}
    (hout : AllocOutcome r F layout heap' buddy' ptr) :
    (ptr = 0 ∧ heap' = r.heap ∧ buddy' = r.buddy) ∨ ∃ F' L', HeapInv heapStart heapSize
        ⟨heap', buddy', ⟨ptr, layout⟩ :: r.live, r.frames, r.carve heap' layout, r.fed⟩ F' L' := by
  have hrouted : ∀ {src : Source}, layout.source = some src →
      ∀ a ∈ (⟨ptr, layout⟩ : Allocation) :: r.live, 0 < a.layout.size ∧ a.layout.source ≠ none := by
    intro src hsrc
    refine forall_mem_cons.mpr ⟨⟨hsize, ?_⟩, h.routed⟩
    rw [hsrc]
    exact Option.some_ne_none _
  cases hout with
  | null => exact Or.inl ⟨rfl, rfl, rfl⟩
  | hit hsrc hF =>
    rename_i i l
    have hi : i < 9 := (Layout.source_spec hsize hsrc).1
    obtain ⟨hslab, hframe⟩ := slabHeld_cons_slab (a := ⟨ptr, layout⟩) hsrc r.live
    have hcarve : r.carve ⟨⟨Function.update r.heap.slab.listHeads i (r.heap.slab.next ptr),
        r.heap.slab.next⟩, r.heap.virtualBumpPtr, r.heap.heapEnd⟩ layout = r.pages := if_pos rfl
    rw [hcarve]
    exact Or.inr ⟨_, L,
      { slab := hslab ▸ h.slab.pop hi hF, buddy := hframe ▸ h.buddy, routed := hrouted hsrc,
        bumpDvd := h.bumpDvd, bumpPos := h.bumpPos, heapEnd := h.heapEnd, window := h.window,
        bumpLe := h.bumpLe, apart := h.apart }⟩
  | miss hsrc hF hroom =>
    rename_i i
    have hi : i < 9 := (Layout.source_spec hsize hsrc).1
    obtain ⟨hslab, hframe⟩ := slabHeld_cons_slab (a := ⟨r.heap.virtualBumpPtr, layout⟩) hsrc r.live
    rw [HeapRun.carve_page hsrc rfl]
    have hfresh : ∀ p ∈ r.pages, p.extent.Apart (SlabPage.extent ⟨r.heap.virtualBumpPtr, i⟩) := by
      intro p hp x hx hx'
      have hbelow := (h.window p hp).2.1
      have hx₁ : x < p.addr + 4096 := hx.2
      have hx₂ : r.heap.virtualBumpPtr ≤ x := hx'.1
      omega
    have hpop := h.slab.populate hF ⟨hi, h.bumpDvd, h.bumpPos.ne'⟩ hfresh
    refine Or.inr ⟨_, L,
      { slab := hslab ▸ hpop, buddy := hframe ▸ h.buddy, routed := hrouted hsrc,
        bumpDvd := Nat.dvd_add h.bumpDvd dvd_rfl, bumpPos := Nat.succ_pos _,
        heapEnd := h.heapEnd, window := ?_, bumpLe := h.bumpLe.trans (Nat.le_add_right _ _),
        apart := h.apart }⟩
    refine forall_mem_cons.mpr ⟨⟨h.bumpLe, le_rfl, hroom⟩, fun p hp => ?_⟩
    obtain ⟨hlo, hhi, hend⟩ := h.window p hp
    exact ⟨hlo, hhi.trans (Nat.le_add_right _ _), hend⟩
  | frame hsrc hrun =>
    rename_i o
    obtain ⟨hslab, hframe⟩ := slabHeld_cons_frame (a := ⟨ptr, layout⟩) hsrc r.live
    rcases h.buddy.alloc_spec (Layout.source_spec hsize hsrc).1 with
      ⟨hnone, -⟩ | ⟨buddy'', L', b, hsome, hinv, -⟩
    · rw [hnone] at hrun
      cases hrun
    · rw [hsome] at hrun
      cases hrun
      have hcarve : r.carve r.heap layout = r.pages := if_pos rfl
      rw [hcarve]
      refine Or.inr ⟨F, L',
        { slab := hslab ▸ h.slab, buddy := ?_, routed := hrouted hsrc, bumpDvd := h.bumpDvd,
          bumpPos := h.bumpPos, heapEnd := h.heapEnd, window := h.window, bumpLe := h.bumpLe,
          apart := h.apart }⟩
      show BuddyInv _ L' (frameHeld _ ++ r.frames) r.fed
      rw [hframe]
      exact hinv

/-- Returning a slab block: it goes to the front of the list it came from. -/
theorem dealloc_slab_step (h : HeapInv heapStart heapSize r F L) {a : Allocation}
    (ha : a ∈ r.live) {i : ℕ} (hsrc : a.layout.source = some (.slab i)) :
    HeapInv heapStart heapSize
      ⟨⟨⟨Function.update r.heap.slab.listHeads i a.ptr,
          Function.update r.heap.slab.next a.ptr (r.heap.slab.listHeads i)⟩,
          r.heap.virtualBumpPtr, r.heap.heapEnd⟩, r.buddy, r.live.erase a, r.frames, r.pages, r.fed⟩
      (Function.update F i (a.ptr :: F i)) L := by
  have hperm := perm_cons_erase ha
  obtain ⟨hslab, hframe⟩ := slabHeld_cons_slab hsrc (r.live.erase a)
  have hslabPerm : (slabHeld r.live).Perm (⟨a.ptr, i⟩ :: slabHeld (r.live.erase a)) :=
    hslab ▸ hperm.filterMap _
  have hframePerm : (frameHeld (r.live.erase a)).Perm (frameHeld r.live) :=
    hframe ▸ (hperm.filterMap _).symm
  have hpush := (h.slab.perm hslabPerm).push mem_cons_self
  rw [erase_cons_head] at hpush
  exact
    { slab := hpush
      buddy := h.buddy.perm (hframePerm.append_right _)
      routed := fun b hb => h.routed b (mem_of_mem_erase hb)
      bumpDvd := h.bumpDvd
      bumpPos := h.bumpPos
      heapEnd := h.heapEnd
      window := h.window
      bumpLe := h.bumpLe
      apart := h.apart }

theorem dealloc_frame_step (h : HeapInv heapStart heapSize r F L) {a : Allocation}
    (ha : a ∈ r.live) {o : ℕ} (hsrc : a.layout.source = some (.frame o)) :
    ∃ buddy' L', r.buddy.free a.ptr o = some buddy' ∧
      HeapInv heapStart heapSize ⟨r.heap, buddy', r.live.erase a, r.frames, r.pages, r.fed⟩
        F L' := by
  have hperm := perm_cons_erase ha
  obtain ⟨hslab, hframe⟩ := slabHeld_cons_frame hsrc (r.live.erase a)
  have hslabPerm : (slabHeld r.live).Perm (slabHeld (r.live.erase a)) := hslab ▸ hperm.filterMap _
  have hframePerm : (⟨a.ptr, o⟩ :: frameHeld (r.live.erase a)).Perm (frameHeld r.live) :=
    hframe ▸ (hperm.filterMap _).symm
  have hheld := h.buddy.perm (hframePerm.append_right r.frames)
  obtain ⟨⟨buddy', L', hrun, hinv, -⟩, -⟩ := hheld.free_spec mem_cons_self
  rw [erase_cons_head] at hinv
  exact ⟨buddy', L', hrun,
    { slab := h.slab.perm hslabPerm
      buddy := hinv
      routed := fun b hb => h.routed b (mem_of_mem_erase hb)
      bumpDvd := h.bumpDvd
      bumpPos := h.bumpPos
      heapEnd := h.heapEnd
      window := h.window
      bumpLe := h.bumpLe
      apart := h.apart }⟩

/-- The frame allocator's other clients and writes into owned memory only change
the buddy's side and the words of held blocks. -/
theorem of_parts (h : HeapInv heapStart heapSize r F L) {buddy' : BuddyAllocator}
    {frames' : List Block} {next : ℕ → ℕ} {L' : ℕ → List ℕ}
    (hslab : SlabInv { r.heap.slab with next := next } F (slabHeld r.live) r.pages)
    (hbuddy : BuddyInv buddy' L' (frameHeld r.live ++ frames') r.fed) :
    HeapInv heapStart heapSize
      ⟨{ r.heap with slab := { r.heap.slab with next := next } }, buddy', r.live, frames',
        r.pages, r.fed⟩ F L' where
  slab := hslab
  buddy := hbuddy
  routed := h.routed
  bumpDvd := h.bumpDvd
  bumpPos := h.bumpPos
  heapEnd := h.heapEnd
  window := h.window
  bumpLe := h.bumpLe
  apart := h.apart

theorem init {buddy : BuddyAllocator} {frames : List Block} {fed : List Extent} (next : ℕ → ℕ)
    (hdvd : 4096 ∣ heapStart) (hpos : 0 < heapStart) (hbuddy : BuddyInv buddy L frames fed)
    (hapart : ∀ e ∈ fed, e.Apart ⟨heapStart, heapSize⟩) :
    HeapInv heapStart heapSize
      ⟨(HeapAllocator.new next).init heapStart heapSize, buddy, [], frames, [], fed⟩
      (fun _ => []) L where
  slab :=
    { reads := fun _ _ => rfl
      valid := by simp
      parts := by
        have hnil : slabFree (fun _ => []) = [] := by simp [slabFree]
        rw [hnil]
        exact List.Perm.nil
      once := by simp }
  buddy := hbuddy
  routed := by simp
  bumpDvd := hdvd
  bumpPos := hpos
  heapEnd := rfl
  window := by simp
  bumpLe := le_rfl
  apart := hapart

end HeapInv

/-- Every reachable state of the heap satisfies the invariant. -/
theorem HeapReachable.inv {heapStart heapSize : ℕ} (hdvd : 4096 ∣ heapStart)
    (hpos : 0 < heapStart) {r : HeapRun} (h : HeapReachable heapStart heapSize r) :
    ∃ F L, HeapInv heapStart heapSize r F L := by
  induction h with
  | init next hS hr hapart =>
    obtain ⟨L, hbuddy⟩ := hr.inv hS
    exact ⟨_, L, HeapInv.init next hdvd hpos hbuddy hapart⟩
  | alloc _ hsize hrun hne ih =>
    obtain ⟨F, L, hinv⟩ := ih
    obtain ⟨heap', buddy', ptr, hrun', hout⟩ := hinv.alloc_outcome hsize
    rw [hrun'] at hrun
    cases hrun
    rcases hinv.alloc_step hsize hout with ⟨h0, -, -⟩ | hnext
    · exact absurd h0 hne
    · exact hnext
  | allocNull _ hsize hrun ih =>
    obtain ⟨F, L, hinv⟩ := ih
    obtain ⟨heap', buddy', ptr, hrun', hout⟩ := hinv.alloc_outcome hsize
    rw [hrun'] at hrun
    cases hrun
    rcases hinv.alloc_step hsize hout with ⟨-, rfl, rfl⟩ | ⟨F', L', hnext⟩
    · refine ⟨F, L, ?_⟩
      rw [HeapRun.carve, if_pos rfl]
      exact hinv
    · exact absurd rfl (hnext.live_source mem_cons_self).2.1
  | dealloc _ ha hrun ih =>
    obtain ⟨F, L, hinv⟩ := ih
    obtain ⟨src, hsrc⟩ := Option.ne_none_iff_exists'.mp (hinv.routed _ ha).2
    cases src with
    | slab i =>
      rw [HeapAllocator.dealloc_slab hsrc] at hrun
      cases hrun
      exact ⟨_, L, hinv.dealloc_slab_step ha hsrc⟩
    | frame o =>
      obtain ⟨buddy', L', hfree, hinv'⟩ := hinv.dealloc_frame_step ha hsrc
      rw [HeapAllocator.dealloc_frame hsrc hfree] at hrun
      cases hrun
      exact ⟨F, L', hinv'⟩
  | frameAlloc _ ho hrun ih =>
    obtain ⟨F, L, hinv⟩ := ih
    rcases hinv.buddy.alloc_spec ho with ⟨hnone, -⟩ | ⟨buddy', L', b, hsome, hinv', -⟩
    · rw [hnone] at hrun
      cases hrun
    · rw [hsome] at hrun
      cases hrun
      exact ⟨F, L', hinv.of_parts hinv.slab (hinv'.perm perm_middle)⟩
  | frameFree _ hb hrun ih =>
    rename_i r b buddy' _
    obtain ⟨F, L, hinv⟩ := ih
    have hperm := (perm_cons_erase hb).append_left (frameHeld r.live)
    have hheld := hinv.buddy.perm (perm_middle.symm.trans hperm.symm)
    obtain ⟨⟨buddy', L', hspec, hinv', -⟩, -⟩ := hheld.free_spec mem_cons_self
    rw [erase_cons_head] at hinv'
    rw [hspec] at hrun
    cases hrun
    exact ⟨F, L', hinv.of_parts hinv.slab hinv'⟩
  | write _ hnext hmem ih =>
    obtain ⟨F, L, hinv⟩ := ih
    exact ⟨F, L, hinv.of_parts (hinv.slab.write hnext) (hinv.buddy.write hmem)⟩

/-- **The contract of the global heap.**  In every reachable state the slab lists
read as lists `F` and the buddy lists as lists `L` such that

* a live pointer is a multiple of its layout's alignment, and its bytes lie in one
  slab block, cut from a page of the class its layout is routed to, or in one block
  lent by the frame allocator under the order its layout is routed to;
* live allocations are apart from each other and from every free block;
* every block carved from a slab page is live or on the list of its class, never
  both, and on no list twice;
* `alloc` does not panic; what it returns comes from the route of its layout;
* `dealloc` does not panic and returns the block to that same route. -/
theorem heap_contract {heapStart heapSize : ℕ} (hdvd : 4096 ∣ heapStart) (hpos : 0 < heapStart)
    {r : HeapRun} (h : HeapReachable heapStart heapSize r) :
    ∃ F L : ℕ → List ℕ,
      (∀ i < 9, SChain r.heap.slab.next (r.heap.slab.listHeads i) (F i) ∧ (F i).Nodup) ∧
      (∀ o ≤ 10, DChain r.buddy.mem 0 (r.buddy.freeList o) (L o)) ∧
      (∀ a ∈ r.live, a.layout.align ∣ a.ptr ∧ (∀ x, a.extent.Mem x → a.blockExtent.Mem x) ∧
        ∃ src, a.layout.source = some src ∧ src.blockSize ∣ a.ptr ∧
          ((∃ i, src = .slab i ∧ ∃ p ∈ r.pages, p.index = i ∧ ⟨a.ptr, i⟩ ∈ p.blocks) ∨
            ∃ o, src = .frame o ∧ ⟨a.ptr, o⟩ ∈ frameHeld r.live)) ∧
      (r.live.map Allocation.extent).Pairwise Extent.Apart ∧
      (∀ a ∈ r.live, (∀ b ∈ slabFree F, a.extent.Apart b.extent) ∧
        ∀ b ∈ freeBlocks L, a.extent.Apart b.extent) ∧
      (∀ p ∈ r.pages, ∀ b ∈ p.blocks,
        Xor (∃ a ∈ r.live, a.ptr = b.addr ∧ a.layout.source = some (.slab b.index))
          (b.addr ∈ F b.index) ∧ ∀ i < 9, i ≠ b.index → b.addr ∉ F i) ∧
      (∀ layout : Layout, 0 < layout.size → ∃ heap' buddy' ptr,
        r.heap.alloc r.buddy layout = some (heap', buddy', ptr) ∧
          HeapInv.AllocOutcome r F layout heap' buddy' ptr) ∧
      (∀ a ∈ r.live, ∃ heap' buddy', r.heap.dealloc r.buddy a.ptr a.layout = some (heap', buddy') ∧
        ((∃ i < 9, a.layout.source = some (.slab i) ∧ buddy' = r.buddy ∧
            ∀ j < 9, SChain heap'.slab.next (heap'.slab.listHeads j)
              (if j = i then a.ptr :: F j else F j)) ∨
          ∃ o ≤ 10, a.layout.source = some (.frame o) ∧ heap' = r.heap ∧
            r.buddy.free a.ptr o = some buddy')) := by
  obtain ⟨F, L, hinv⟩ := h.inv hdvd hpos
  refine ⟨F, L, ?_, hinv.buddy.reads, ?_, hinv.live_pairwise, fun a ha => hinv.live_apart_free ha,
    fun p hp b hb => hinv.carved_once hp hb, fun layout hsize => hinv.alloc_outcome hsize, ?_⟩
  · intro i hi
    exact ⟨hinv.slab.reads i hi, hinv.slab.nodup_list hi⟩
  · intro a ha
    obtain ⟨hsource, -, halign⟩ := hinv.live_source ha
    exact ⟨halign, fun x hx => hinv.extent_sub_block ha hx, hsource⟩
  · intro a ha
    obtain ⟨hsize, hrouted⟩ := hinv.routed a ha
    obtain ⟨src, hsrc⟩ := Option.ne_none_iff_exists'.mp hrouted
    have hvalid := (Layout.source_spec hsize hsrc).1
    cases src with
    | slab i =>
      refine ⟨_, _, HeapAllocator.dealloc_slab hsrc, Or.inl ⟨i, hvalid, hsrc, rfl, ?_⟩⟩
      intro j hj
      have hread := (hinv.dealloc_slab_step ha hsrc).slab.reads j hj
      by_cases hji : j = i
      · subst hji
        rw [Function.update_self] at hread
        rw [if_pos rfl]
        exact hread
      · rw [Function.update_of_ne hji] at hread
        rw [if_neg hji]
        exact hread
    | frame o =>
      obtain ⟨buddy', L', hfree, -⟩ := hinv.dealloc_frame_step ha hsrc
      exact ⟨_, _, HeapAllocator.dealloc_frame hsrc hfree,
        Or.inr ⟨o, hvalid, hsrc, rfl, hfree⟩⟩

/-- A layout of half a page. -/
def sampleLayout : Layout := ⟨2048, 8, ⟨3, rfl⟩, by decide⟩

/-- A run that carves the first page of a window of two pages at `0x1000` into two
blocks, with 8 KiB of frames behind it. -/
theorem heap_contract_sample :
    ∃ (r : HeapRun) (F : ℕ → List ℕ), HeapReachable 0x1000 0x2000 r ∧
      r.live = [⟨0x1000, sampleLayout⟩] ∧ r.pages = [⟨0x1000, 8⟩] ∧
      SChain r.heap.slab.next (r.heap.slab.listHeads 8) (F 8) ∧
      Xor (∃ a ∈ r.live, a.ptr = 0x1800 ∧ a.layout.source = some (.slab 8)) (0x1800 ∈ F 8) := by
  have hsome : sampleFed.isSome = true := by decide
  obtain ⟨buddy, hfed⟩ := Option.isSome_iff_exists.mp hsome
  have hbuddy := (BuddyReachable.init (S := 4096) sampleBlank).feed (by decide) (by decide)
    (by decide) le_rfl (by decide) (by simp) hfed
  have hwindow : ∀ e ∈ [(⟨physOffset, physOffset + 8192 - physOffset⟩ : Extent)],
      e.Apart ⟨0x1000, 0x2000⟩ := by
    intro e he x hx hx'
    obtain rfl := List.mem_singleton.mp he
    have hlo : physOffset ≤ x := hx.1
    have hhi : x < 0x1000 + 0x2000 := hx'.2
    simp only [physOffset] at hlo
    omega
  have hinit := HeapReachable.init (fun _ => 0) (by decide) hbuddy hwindow
  have hsrc : sampleLayout.source = some (.slab 8) := by decide
  have halloc := @HeapAllocator.alloc_miss ((HeapAllocator.new fun _ => 0).init 0x1000 0x2000)
    buddy sampleLayout 8 hsrc rfl (by decide)
  have hrun := hinit.alloc (by decide) halloc (by decide)
  rw [HeapRun.carve_page hsrc rfl] at hrun
  obtain ⟨F, L, hlists, -, -, -, -, hcarved, -⟩ := heap_contract (by decide) (by decide) hrun
  exact ⟨_, F, hrun, rfl, rfl, (hlists 8 (by decide)).1,
    (hcarved ⟨0x1000, 8⟩ List.mem_cons_self ⟨0x1800, 8⟩ (by decide)).1⟩

end KernelR.Mm
