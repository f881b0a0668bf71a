import KernelR.Mm.Slab
import Mathlib.Data.List.Perm.Lattice

/-!
# The invariant of the slab allocator

`SlabInv s F held pages`: the chains of `s` read as the lists `F i`, and the
blocks on the lists together with the blocks `held` by clients are exactly the
blocks of the pages carved so far. Pages being apart, so are all these blocks.

The moves are `SlabInv.pop`, `SlabInv.populate`, `SlabInv.push` and
`SlabInv.write`; the last one says that what clients write into the blocks they
hold does not matter.
-/

namespace KernelR.Mm

open List Function Foundations SlabAllocator

/-- A slab block: its address and its class. -/
structure SlabBlock where
  addr : ℕ
  index : ℕ
deriving DecidableEq, Repr

/-- The addresses of a block. -/
def SlabBlock.extent (b : SlabBlock) : Extent := ⟨b.addr, blockSize b.index⟩

/-- A page carved into blocks of one class. -/
structure SlabPage where
  addr : ℕ
  index : ℕ
deriving DecidableEq, Repr

namespace SlabPage

/-- The addresses of a page. -/
def extent (p : SlabPage) : Extent := ⟨p.addr, 4096⟩

/-- The blocks `populate_cache` cuts the page into. -/
def blocks (p : SlabPage) : List SlabBlock :=
  (blocksFrom (blockSize p.index) (4096 / blockSize p.index) p.addr).map fun a => ⟨a, p.index⟩

/-- A page of an existing class, at a non-null page address. -/
def Valid (p : SlabPage) : Prop := p.index < 9 ∧ 4096 ∣ p.addr ∧ p.addr ≠ 0

theorem coverCount_blocks {p : SlabPage} (h : p.Valid) (x : ℕ) :
    coverCount (p.blocks.map SlabBlock.extent) x = p.extent.hit x := by
  have hmap : p.blocks.map SlabBlock.extent =
      (blocksFrom (blockSize p.index) (4096 / blockSize p.index) p.addr).map
        fun a => ⟨a, blockSize p.index⟩ := by
    simp [blocks, SlabBlock.extent]
  rw [hmap, coverCount_blocksFrom, blocks_fill_page h.1]
  rfl

/-- A block of the page lies in the page, at a multiple of its size. -/
theorem of_mem_blocks {p : SlabPage} (h : p.Valid) {b : SlabBlock} (hb : b ∈ p.blocks) :
    b.index = p.index ∧ blockSize b.index ∣ b.addr ∧ p.addr ≤ b.addr ∧
      b.addr + blockSize b.index ≤ p.addr + 4096 := by
  obtain ⟨a, ha, rfl⟩ := mem_map.mp hb
  obtain ⟨k, hk, rfl⟩ := mem_blocksFrom.mp ha
  have hfill := blocks_fill_page h.1
  have hpage : blockSize p.index ∣ p.addr := (Dvd.intro_left _ hfill).trans h.2.1
  refine ⟨rfl, Nat.dvd_add hpage (Nat.dvd_mul_left _ _), Nat.le_add_right _ _, ?_⟩
  have hle : (k + 1) * blockSize p.index ≤ 4096 / blockSize p.index * blockSize p.index :=
    Nat.mul_le_mul_right _ hk
  rw [hfill, Nat.succ_mul] at hle
  show p.addr + k * blockSize p.index + blockSize p.index ≤ p.addr + 4096
  omega

end SlabPage

/-- The blocks on the nine lists. -/
def slabFree (F : ℕ → List ℕ) : List SlabBlock :=
  (List.range blockSizes.length).flatMap fun i => (F i).map fun a => ⟨a, i⟩

theorem mem_slabFree {F : ℕ → List ℕ} {b : SlabBlock} :
    b ∈ slabFree F ↔ b.index < 9 ∧ b.addr ∈ F b.index := by
  simp only [slabFree, mem_flatMap, mem_range, mem_map]
  constructor
  · rintro ⟨i, hi, a, ha, rfl⟩
    exact ⟨hi, ha⟩
  · rintro ⟨hi, ha⟩
    exact ⟨b.index, hi, b.addr, ha, rfl⟩

/-- The blocks of all pages. -/
def carvedBlocks (pages : List SlabPage) : List SlabBlock := pages.flatMap SlabPage.blocks

/-- **The invariant.** -/
structure SlabInv (s : SlabAllocator) (F : ℕ → List ℕ) (held : List SlabBlock)
    (pages : List SlabPage) : Prop where
  reads : ∀ i < 9, SChain s.next (s.listHeads i) (F i)
  valid : ∀ p ∈ pages, p.Valid
  parts : (slabFree F ++ held).Perm (carvedBlocks pages)
  once : ∀ x, coverCount (pages.map SlabPage.extent) x ≤ 1

namespace SlabInv

variable {s : SlabAllocator} {F : ℕ → List ℕ} {held : List SlabBlock} {pages : List SlabPage}

theorem coverCount_carved {pages : List SlabPage} (h : ∀ p ∈ pages, p.Valid) (x : ℕ) :
    coverCount ((carvedBlocks pages).map SlabBlock.extent) x =
      coverCount (pages.map SlabPage.extent) x := by
  induction pages with
  | nil => rfl
  | cons p pages ih =>
    have hrest := ih fun q hq => h q (mem_cons_of_mem _ hq)
    rw [carvedBlocks, flatMap_cons, map_append, coverCount_append,
      SlabPage.coverCount_blocks (h p mem_cons_self), map_cons, coverCount_cons]
    exact congrArg _ hrest

theorem coverCount_parts (h : SlabInv s F held pages) (x : ℕ) :
    coverCount ((slabFree F ++ held).map SlabBlock.extent) x =
      coverCount (pages.map SlabPage.extent) x := by
  rw [← coverCount_carved h.valid]
  exact coverCount_perm (h.parts.map _) x

theorem pairwise_apart (h : SlabInv s F held pages) :
    ((slabFree F ++ held).map SlabBlock.extent).Pairwise Extent.Apart := by
  apply pairwise_apart_of_coverCount
  intro x
  rw [h.coverCount_parts x]
  exact h.once x

/-- Every free or held block comes from a page of its class. -/
theorem mem_page (h : SlabInv s F held pages) {b : SlabBlock} (hb : b ∈ slabFree F ++ held) :
    ∃ p ∈ pages, b ∈ p.blocks ∧ p.Valid := by
  obtain ⟨p, hp, hbp⟩ := mem_flatMap.mp (h.parts.mem_iff.mp hb)
  exact ⟨p, hp, hbp, h.valid p hp⟩

theorem index_lt (h : SlabInv s F held pages) {b : SlabBlock} (hb : b ∈ slabFree F ++ held) :
    b.index < 9 := by
  obtain ⟨p, -, hbp, hvalid⟩ := h.mem_page hb
  rw [(SlabPage.of_mem_blocks hvalid hbp).1]
  exact hvalid.1

theorem addr_ne_zero (h : SlabInv s F held pages) {b : SlabBlock}
    (hb : b ∈ slabFree F ++ held) : b.addr ≠ 0 := by
  obtain ⟨p, -, hbp, hvalid⟩ := h.mem_page hb
  have hle := (SlabPage.of_mem_blocks hvalid hbp).2.2.1
  have hne := hvalid.2.2
  omega

theorem extent_mem_addr (h : SlabInv s F held pages) {b : SlabBlock}
    (hb : b ∈ slabFree F ++ held) : b.extent.Mem b.addr :=
  ⟨le_rfl, Nat.lt_add_of_pos_right (blockSize_pos (h.index_lt hb))⟩

theorem free_apart_held (h : SlabInv s F held pages) {b c : SlabBlock} (hb : b ∈ slabFree F)
    (hc : c ∈ held) : b.extent.Apart c.extent := by
  have hpair := (pairwise_append.mp (map_append ▸ h.pairwise_apart)).2.2
  exact hpair _ (mem_map_of_mem hb) _ (mem_map_of_mem hc)

theorem nodup_addr (h : SlabInv s F held pages) :
    ((slabFree F ++ held).map SlabBlock.addr).Nodup := by
  refine pairwise_map.mpr (List.Pairwise.imp_of_mem ?_ (pairwise_map.mp h.pairwise_apart))
  intro b c hb hc hapart heq
  exact hapart b.addr (h.extent_mem_addr hb) (heq ▸ h.extent_mem_addr hc)

theorem nodup_list (h : SlabInv s F held pages) {i : ℕ} (hi : i < 9) : (F i).Nodup := by
  have hfree := List.Nodup.of_append_left (map_append ▸ h.nodup_addr)
  have hmap : (slabFree F).map SlabBlock.addr = (List.range blockSizes.length).flatMap F := by
    simp [slabFree, map_flatMap, comp_def]
  rw [hmap, nodup_flatMap] at hfree
  exact hfree.1 i (mem_range.mpr hi)

/-- The lists only depend on the words of the blocks on them. -/
theorem reads_congr (h : SlabInv s F held pages) {next : ℕ → ℕ}
    (hsame : ∀ b ∈ slabFree F, next b.addr = s.next b.addr) {i : ℕ} (hi : i < 9) :
    SChain next (s.listHeads i) (F i) :=
  (h.reads i hi).congr fun a ha => hsame ⟨a, i⟩ (mem_slabFree.mpr ⟨hi, ha⟩)

/-! ### The moves -/

/-- The order in which held blocks are listed does not matter. -/
theorem perm {held' : List SlabBlock} (h : SlabInv s F held pages) (hp : held.Perm held') :
    SlabInv s F held' pages :=
  ⟨h.reads, h.valid, (hp.symm.append_left _).trans h.parts, h.once⟩

theorem pop (h : SlabInv s F held pages) {i b : ℕ} {l : List ℕ} (hi : i < 9) (hF : F i = b :: l) :
    SlabInv { s with listHeads := update s.listHeads i (s.next b) }
      (update F i l) (⟨b, i⟩ :: held) pages where
  reads := by
    intro j hj
    by_cases hji : j = i
    · subst hji
      have hread := h.reads j hj
      rw [hF] at hread
      simp only [update_self]
      exact hread.2.2
    · simp only [update_of_ne hji]
      exact h.reads j hj
  valid := h.valid
  parts := by
    have hfree : (slabFree F).Perm (⟨b, i⟩ :: slabFree (update F i l)) := by
      have hsame : F = update F i (b :: l) := by
        rw [← hF, update_eq_self]
      have := flatMap_update_of_cons (fun i a => SlabBlock.mk a i) F b l
        (show i < blockSizes.length from hi)
      rw [← hsame] at this
      exact this
    exact perm_middle.trans ((hfree.symm.append_right held).trans h.parts)
  once := h.once

/-- `dealloc`: a held block goes to the front of the list of its class. -/
theorem push (h : SlabInv s F held pages) {b : SlabBlock} (hb : b ∈ held) :
    SlabInv ⟨update s.listHeads b.index b.addr,
        update s.next b.addr (s.listHeads b.index)⟩
      (update F b.index (b.addr :: F b.index)) (held.erase b) pages where
  reads := by
    intro j hj
    have hfresh : ∀ k < 9, b.addr ∉ F k := by
      intro k hk hmem
      have hfree : (⟨b.addr, k⟩ : SlabBlock) ∈ slabFree F := mem_slabFree.mpr ⟨hk, hmem⟩
      exact h.free_apart_held hfree hb b.addr (h.extent_mem_addr (mem_append_left _ hfree))
        (h.extent_mem_addr (mem_append_right _ hb))
    by_cases hji : j = b.index
    · subst hji
      simp only [update_self]
      exact (h.reads _ hj).push (h.addr_ne_zero (mem_append_right _ hb)) (hfresh _ hj)
    · simp only [update_of_ne hji]
      refine (h.reads j hj).congr fun a ha => update_of_ne ?_ _ _
      rintro rfl
      exact hfresh j hj ha
  valid := h.valid
  parts := by
    have hi : b.index < 9 := h.index_lt (mem_append_right _ hb)
    have hpush := flatMap_update_cons (fun i a => SlabBlock.mk a i) F b.addr
      (show b.index < blockSizes.length from hi)
    refine (hpush.append_right _).trans (List.Perm.trans ?_ h.parts)
    exact perm_middle.symm.trans ((perm_cons_erase hb).symm.append_left _)
  once := h.once

theorem write (h : SlabInv s F held pages) {next : ℕ → ℕ}
    (hsame : ∀ x, (∀ b ∈ held, ¬ b.extent.Mem x) → next x = s.next x) :
    SlabInv { s with next := next } F held pages where
  reads := by
    intro i hi
    refine h.reads_congr (fun b hb => hsame _ fun c hc hmem => ?_) hi
    exact h.free_apart_held hb hc b.addr (h.extent_mem_addr (mem_append_left _ hb)) hmem
  valid := h.valid
  parts := h.parts
  once := h.once

/-- A cache miss: the class is empty and a fresh page is cut up. Its first block
is held, the others are the new list. -/
theorem populate (h : SlabInv s F held pages) {i page : ℕ} (hF : F i = [])
    (hvalid : SlabPage.Valid ⟨page, i⟩)
    (hfresh : ∀ p ∈ pages, p.extent.Apart (SlabPage.extent ⟨page, i⟩)) :
    SlabInv (s.populateCache i page)
      (update F i (blocksFrom (blockSize i) (4096 / blockSize i - 1) (page + blockSize i)))
      (⟨page, i⟩ :: held) (⟨page, i⟩ :: pages) := by
  have hi : i < 9 := hvalid.1
  have hpos := blockSize_pos hi
  -- a page holds at least two blocks
  obtain ⟨n, hn⟩ : ∃ n, 4096 / blockSize i = n + 2 := Nat.exists_eq_add_of_le' (two_le_blocks hi)
  have hblocks : SlabPage.blocks ⟨page, i⟩ = ⟨page, i⟩ ::
      (blocksFrom (blockSize i) (n + 1) (page + blockSize i)).map fun a => ⟨a, i⟩ := by
    rw [SlabPage.blocks, hn]
    rfl
  rw [hn]
  refine ⟨?_, ?_, ?_, ?_⟩
  · intro j hj
    simp only [populateCache, hn]
    by_cases hji : j = i
    · subst hji
      simp only [update_self]
      obtain ⟨-, -, hrest⟩ := linkBlocks_chain hpos (n + 1) s.next hvalid.2.2
      have hhead := hrest.1
      rw [hhead] at hrest
      exact hrest
    · simp only [update_of_ne hji]
      refine h.reads_congr (fun b hb => linkBlocks_frame _ _ _ fun hmem => ?_) hj
      obtain ⟨p, hp, hbp, hpvalid⟩ := h.mem_page (mem_append_left _ hb)
      have hnew : (⟨b.addr, i⟩ : SlabBlock) ∈ SlabPage.blocks ⟨page, i⟩ := by
        rw [SlabPage.blocks, hn]
        exact mem_map_of_mem hmem
      obtain ⟨-, -, hlo, hhi⟩ := SlabPage.of_mem_blocks hpvalid hbp
      obtain ⟨-, -, hlo', hhi'⟩ := SlabPage.of_mem_blocks hvalid hnew
      have hbpos := blockSize_pos (h.index_lt (mem_append_left _ hb))
      exact hfresh p hp b.addr ⟨hlo, show b.addr < p.addr + 4096 by omega⟩
        ⟨hlo', show b.addr < page + 4096 by dsimp only at hhi'; omega⟩
  · exact forall_mem_cons.mpr ⟨hvalid, h.valid⟩
  · have hfree := flatMap_update_append (fun i a => SlabBlock.mk a i) F
      (blocksFrom (blockSize i) (n + 1) (page + blockSize i)) (show i < blockSizes.length from hi)
    rw [hF, append_nil] at hfree
    rw [carvedBlocks, flatMap_cons, hblocks]
    refine perm_middle.trans (List.Perm.cons _ ?_)
    refine (hfree.append_right held).trans ?_
    rw [append_assoc]
    exact h.parts.append_left _
  · intro x
    refine coverCount_le_one_of_pairwise ?_ x
    refine pairwise_cons.mpr ⟨?_, pairwise_apart_of_coverCount h.once⟩
    intro e he
    obtain ⟨p, hp, rfl⟩ := mem_map.mp he
    exact (hfresh p hp).symm

end SlabInv

end KernelR.Mm
