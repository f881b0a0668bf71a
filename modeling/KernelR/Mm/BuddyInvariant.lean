import KernelR.Foundations.Extent
import KernelR.Mm.BuddyBitmap
import Mathlib.Data.List.Perm.Lattice

/-!
# The invariant of the buddy allocator

`BuddyInv s L live fed` ties the allocator's state `s` to the lists `L o` its
chains read as, the blocks `live` that are out on loan, and the memory `fed` to
it. Coverage does the work of disjointness: free and live blocks together cover
each address exactly as often as `fed` does.

All of `alloc`, `free` and `add_free_region` are made of four moves on a block
that is *held* — counted among `live` while the code works on it:

* `BuddyInv.take` — unlink a free block and flip its bit: it becomes held.
* `BuddyInv.put` — push a held block and flip its bit: it becomes free.
* `BuddyInv.split` / `BuddyInv.merge` — exchange a held block and its halves.

`free` flips before it knows which of `take` and `put` it is going to do; the bit
it reads back decides, and `bit_iff_buddy_mem` says that the decision is right.
-/

namespace KernelR.Mm

open List Function Foundations BuddyAllocator

/-- A block: its address and its order. -/
structure Block where
  addr : ℕ
  order : ℕ
deriving DecidableEq, Repr

namespace Block

/-- The addresses of a block. -/
def extent (b : Block) : Extent := ⟨b.addr, 2 ^ (12 + b.order)⟩

/-- The order exists and the address is a multiple of the block size. -/
def Aligned (b : Block) : Prop := b.order ≤ 10 ∧ 2 ^ (12 + b.order) ∣ b.addr

theorem extent_mem_addr (b : Block) : b.extent.Mem b.addr :=
  ⟨le_rfl, Nat.lt_add_of_pos_right (Nat.two_pow_pos _)⟩

end Block

/-- The blocks on the eleven lists. -/
def freeBlocks (L : ℕ → List ℕ) : List Block :=
  (List.range maxOrder).flatMap fun o => (L o).map fun a => ⟨a, o⟩

theorem mem_freeBlocks {L : ℕ → List ℕ} {b : Block} :
    b ∈ freeBlocks L ↔ b.order ≤ 10 ∧ b.addr ∈ L b.order := by
  simp only [freeBlocks, mem_flatMap, mem_range, mem_map, maxOrder]
  constructor
  · rintro ⟨o, ho, a, ha, rfl⟩
    exact ⟨Nat.le_of_lt_succ ho, ha⟩
  · rintro ⟨ho, ha⟩
    exact ⟨b.order, Nat.lt_succ_of_le ho, b.addr, ha, rfl⟩

theorem freeBlocks_push (L : ℕ → List ℕ) {o : ℕ} (a : ℕ) (ho : o ≤ 10) :
    (freeBlocks (update L o (a :: L o))).Perm (⟨a, o⟩ :: freeBlocks L) :=
  flatMap_update_cons (fun o a => Block.mk a o) L a (Nat.lt_succ_of_le ho)

theorem freeBlocks_erase (L : ℕ → List ℕ) {o a : ℕ} (ho : o ≤ 10) (ha : a ∈ L o) :
    (freeBlocks L).Perm (⟨a, o⟩ :: freeBlocks (update L o ((L o).erase a))) := by
  refine (List.Perm.flatMap_left _ fun k _ => List.Perm.map _ ?_).trans
    (flatMap_update_of_cons (fun o a => Block.mk a o) L a ((L o).erase a) (Nat.lt_succ_of_le ho))
  by_cases hk : k = o
  · subst hk
    rw [update_self]
    exact perm_cons_erase ha
  · rw [update_of_ne hk]

/-- The chains of the eleven orders read as the lists `L`, which share no block. -/
structure FreeLists (s : BuddyAllocator) (L : ℕ → List ℕ) : Prop where
  reads : ∀ o ≤ 10, DChain s.mem 0 (s.freeList o) (L o)
  nodup : ∀ o ≤ 10, (L o).Nodup
  disjoint : ∀ o ≤ 10, ∀ o' ≤ 10, o ≠ o' → ∀ a ∈ L o, a ∉ L o'

namespace FreeLists

variable {s : BuddyAllocator} {L : ℕ → List ℕ} {o a : ℕ}

/-- Lists that change in one place only stay without repetition and apart. -/
theorem of_reads {s' : BuddyAllocator} {l : List ℕ} (h : FreeLists s L)
    (hreads : ∀ k ≤ 10, DChain s'.mem 0 (s'.freeList k) (update L o l k)) (hnodup : l.Nodup)
    (hl : ∀ k ≤ 10, k ≠ o → ∀ b ∈ l, b ∉ L k) : FreeLists s' (update L o l) where
  reads := hreads
  nodup k hk := by
    by_cases hko : k = o
    · rwa [hko, update_self]
    · rw [update_of_ne hko]
      exact h.nodup k hk
  disjoint k hk k' hk' hne b hb hb' := by
    by_cases hko : k = o
    · subst hko
      rw [update_self] at hb
      rw [update_of_ne hne.symm] at hb'
      exact hl k' hk' hne.symm b hb hb'
    · rw [update_of_ne hko] at hb
      by_cases hko' : k' = o
      · subst hko'
        rw [update_self] at hb'
        exact hl k hk hko b hb' hb
      · rw [update_of_ne hko'] at hb'
        exact h.disjoint k hk k' hk' hne b hb hb'

/-- `remove_block` takes one block off its list, wherever it stands. -/
theorem remove (h : FreeLists s L) (ho : o ≤ 10) (ha : a ∈ L o) :
    FreeLists (s.removeBlock o a) (update L o ((L o).erase a)) := by
  refine h.of_reads (fun k hk => ?_) ((h.nodup o ho).erase a) fun k hk hko b hb =>
    h.disjoint o ho k hk hko.symm b (mem_of_mem_erase hb)
  rw [removeBlock_mem, removeBlock_freeList]
  by_cases hko : k = o
  · subst hko
    rw [update_self, update_self]
    exact (h.reads k hk).bypass (h.nodup k hk) ha
  · rw [update_of_ne hko, update_of_ne hko]
    exact (h.reads o ho).bypass_of_disjoint ha (h.nodup o ho) (h.reads k hk)
      (h.disjoint o ho k hk (Ne.symm hko))

/-- `push_block` puts a block that is on no list in front of one. -/
theorem push (h : FreeLists s L) (ho : o ≤ 10) (ha : a ≠ 0) (hfresh : ∀ k ≤ 10, a ∉ L k) :
    FreeLists (s.pushBlock o a) (update L o (a :: L o)) := by
  refine h.of_reads (fun k hk => ?_) (nodup_cons.mpr ⟨hfresh o ho, h.nodup o ho⟩)
    fun k hk hko b hb => ?_
  · rw [pushBlock_mem, pushBlock_freeList]
    by_cases hko : k = o
    · subst hko
      rw [update_self, update_self]
      exact (h.reads k hk).push ha (hfresh k hk) (h.nodup k hk)
    · rw [update_of_ne hko, update_of_ne hko]
      refine (h.reads k hk).congr fun x hx => linkPush_of_ne _ ?_ ?_
      · rintro rfl
        exact hfresh k hk hx
      · -- the old head, if there is one, is on the list of `o`
        intro hxh
        have hread := h.reads o ho
        cases hLo : L o with
        | nil => exact (h.reads k hk).ne_zero x hx (hxh.trans (hread.nil_iff.mp hLo))
        | cons y l =>
          have hy : x ∈ L o := by
            rw [hLo] at hread ⊢
            exact hxh ▸ hread.1 ▸ mem_cons_self
          exact h.disjoint o ho k hk (Ne.symm hko) x hy hx
  · rcases mem_cons.mp hb with rfl | hb
    · exact hfresh k hk
    · exact h.disjoint o ho k hk hko.symm b hb

end FreeLists

/-- The bitmap index of the pair of `a`. -/
def pairBit (s : BuddyAllocator) (o a : ℕ) : ℕ := bitIndex s.bitmapSize o (a - s.baseAddr)

/-- The lists, the loans and the memory fed fit together. -/
structure BuddyCore (s : BuddyAllocator) (L : ℕ → List ℕ) (live : List Block)
    (fed : List Extent) : Prop where
  base : s.baseAddr = physOffset
  sizeDvd : 4096 ∣ s.bitmapSize
  reads : ∀ o ≤ 10, DChain s.mem 0 (s.freeList o) (L o)
  aligned : ∀ b ∈ freeBlocks L ++ live, b.Aligned
  cover : ∀ x, coverCount ((freeBlocks L ++ live).map Block.extent) x = coverCount fed x
  once : ∀ x, coverCount fed x ≤ 1
  room : ∀ e ∈ fed, ∀ x, e.Mem x →
    physOffset ≤ x ∧ x < physOffset + s.bitmapSize * 2 ^ 15

/-- Below order 10 a pair's bit is set exactly when one of the two buddies is on
the order's list and the other is not. -/
def BitsOk (s : BuddyAllocator) (L : ℕ → List ℕ) : Prop :=
  ∀ o < 10, ∀ a, 2 ^ (12 + o) ∣ a → physOffset ≤ a →
    a < physOffset + s.bitmapSize * 2 ^ 15 →
    s.bit (pairBit s o a) = (decide (a ∈ L o) ^^ decide (a ^^^ 2 ^ (12 + o) ∈ L o))

/-- **The invariant.** -/
structure BuddyInv (s : BuddyAllocator) (L : ℕ → List ℕ) (live : List Block)
    (fed : List Extent) : Prop extends BuddyCore s L live fed where
  bits : BitsOk s L

/-- No two buddies of an order below 10 are both free. -/
def Merged (L : ℕ → List ℕ) : Prop := ∀ o < 10, ∀ a ∈ L o, a ^^^ 2 ^ (12 + o) ∉ L o

theorem Merged.erase {L : ℕ → List ℕ} (h : Merged L) (o a : ℕ) :
    Merged (update L o ((L o).erase a)) := by
  have hsub : ∀ {k b}, b ∈ update L o ((L o).erase a) k → b ∈ L k := by
    intro k b hb
    by_cases hk : k = o
    · subst hk
      rw [update_self] at hb
      exact mem_of_mem_erase hb
    · rwa [update_of_ne hk] at hb
  exact fun k hk b hb hbuddy => h k hk b (hsub hb) (hsub hbuddy)

theorem Merged.push {L : ℕ → List ℕ} {o a : ℕ} (h : Merged L)
    (ha : o < 10 → a ^^^ 2 ^ (12 + o) ∉ L o) : Merged (update L o (a :: L o)) := by
  intro k hk b hb hbuddy
  by_cases hko : k = o
  · subst hko
    rw [update_self] at hb hbuddy
    rcases mem_cons.mp hb with rfl | hb
    · exact ha hk (mem_of_ne_of_mem (xor_two_pow_ne b _) hbuddy)
    · rcases mem_cons.mp hbuddy with rfl | hbuddy
      · exact ha hk (by rwa [xor_xor_cancel])
      · exact h k hk b hb hbuddy
  · rw [update_of_ne hko] at hb hbuddy
    exact h k hk b hb hbuddy

/-! ### Consequences of coverage -/

namespace BuddyCore

variable {s : BuddyAllocator} {L : ℕ → List ℕ} {live live' : List Block} {fed : List Extent}

theorem pairwise_apart (h : BuddyCore s L live fed) :
    ((freeBlocks L ++ live).map Block.extent).Pairwise Extent.Apart :=
  pairwise_apart_of_coverCount fun x => by
    rw [h.cover x]
    exact h.once x

theorem nodup_addr (h : BuddyCore s L live fed) :
    ((freeBlocks L ++ live).map Block.addr).Nodup := by
  refine pairwise_map.mpr ((pairwise_map.mp h.pairwise_apart).imp ?_)
  intro b c hapart heq
  exact hapart b.addr b.extent_mem_addr (heq ▸ c.extent_mem_addr)

theorem freeBlocks_map_addr (L : ℕ → List ℕ) :
    (freeBlocks L).map Block.addr = (List.range maxOrder).flatMap L := by
  simp [freeBlocks, map_flatMap, comp_def]

theorem nodup_lists (h : BuddyCore s L live fed) {o : ℕ} (ho : o ≤ 10) : (L o).Nodup := by
  have hall := (nodup_append.mp (map_append ▸ h.nodup_addr)).1
  rw [freeBlocks_map_addr, nodup_flatMap] at hall
  exact hall.1 o (mem_range.mpr (Nat.lt_succ_of_le ho))

theorem not_mem_other (h : BuddyCore s L live fed) {o o' a : ℕ} (ho : o ≤ 10) (ho' : o' ≤ 10)
    (hne : o ≠ o') (ha : a ∈ L o) : a ∉ L o' := by
  intro ha'
  have hb : (⟨a, o⟩ : Block) ∈ freeBlocks L := mem_freeBlocks.mpr ⟨ho, ha⟩
  have hc : (⟨a, o'⟩ : Block) ∈ freeBlocks L := mem_freeBlocks.mpr ⟨ho', ha'⟩
  have hnodup := (nodup_append.mp (map_append ▸ h.nodup_addr)).1
  have heq := List.inj_on_of_nodup_map hnodup hb hc rfl
  exact hne (congrArg Block.order heq)

theorem lists (h : BuddyCore s L live fed) : FreeLists s L :=
  ⟨h.reads, fun _ => h.nodup_lists, fun _ ho _ ho' hne _ => h.not_mem_other ho ho' hne⟩

theorem live_not_mem (h : BuddyCore s L live fed) {b : Block} (hb : b ∈ live) {o : ℕ}
    (ho : o ≤ 10) : b.addr ∉ L o := by
  intro hmem
  have hnodup := nodup_append.mp (map_append ▸ h.nodup_addr)
  have hfree : (⟨b.addr, o⟩ : Block) ∈ freeBlocks L := mem_freeBlocks.mpr ⟨ho, hmem⟩
  exact hnodup.2.2 b.addr (mem_map.mpr ⟨_, hfree, rfl⟩) b.addr (mem_map.mpr ⟨b, hb, rfl⟩) rfl

/-- Every block lies in the fed memory, hence in the range the bitmap serves. -/
theorem in_range (h : BuddyCore s L live fed) {b : Block} (hb : b ∈ freeBlocks L ++ live)
    {x : ℕ} (hx : b.extent.Mem x) :
    physOffset ≤ x ∧ x < physOffset + s.bitmapSize * 2 ^ 15 := by
  have hpos : 0 < coverCount fed x := by
    rw [← h.cover x]
    exact coverCount_pos_of_mem (mem_map_of_mem hb) hx
  obtain ⟨e, he, hex⟩ := exists_mem_of_coverCount_pos hpos
  exact h.room e he x hex

theorem addr_in_range (h : BuddyCore s L live fed) {b : Block} (hb : b ∈ freeBlocks L ++ live) :
    physOffset ≤ b.addr ∧ b.addr < physOffset + s.bitmapSize * 2 ^ 15 :=
  h.in_range hb b.extent_mem_addr

theorem addr_ne_zero (h : BuddyCore s L live fed) {b : Block}
    (hb : b ∈ freeBlocks L ++ live) : b.addr ≠ 0 := by
  have hge := (h.addr_in_range hb).1
  have hpos : 0 < physOffset := by decide
  omega

/-- The invariant only reads the loans and the lists up to order and coverage. -/
theorem exchange (h : BuddyCore s L live fed) (haligned : ∀ b ∈ live', b.Aligned)
    (hcover : ∀ x, coverCount (live'.map Block.extent) x = coverCount (live.map Block.extent) x) :
    BuddyCore s L live' fed where
  base := h.base
  sizeDvd := h.sizeDvd
  reads := h.reads
  aligned := by
    intro b hb
    rcases mem_append.mp hb with hfree | hlive
    · exact h.aligned b (mem_append_left _ hfree)
    · exact haligned b hlive
  cover := by
    intro x
    rw [← h.cover x]
    simp [hcover x]
  once := h.once
  room := h.room

theorem flip (h : BuddyCore s L live fed) (i : ℕ) : BuddyCore (s.flipBit i) L live fed :=
  ⟨h.base, h.sizeDvd, h.reads, h.aligned, h.cover, h.once, h.room⟩

end BuddyCore

/-! ### The list operations -/

namespace BuddyCore

variable {s : BuddyAllocator} {L : ℕ → List ℕ} {live : List Block} {fed : List Extent}
  {o a : ℕ}

theorem remove (h : BuddyCore s L live fed) (ho : o ≤ 10) (ha : a ∈ L o) :
    BuddyCore (s.removeBlock o a) (update L o ((L o).erase a)) (⟨a, o⟩ :: live) fed := by
  have hperm : (freeBlocks L ++ live).Perm
      (freeBlocks (update L o ((L o).erase a)) ++ ⟨a, o⟩ :: live) :=
    ((freeBlocks_erase L ho ha).append_right live).trans perm_middle.symm
  refine
    { base := h.base, sizeDvd := h.sizeDvd, reads := (h.lists.remove ho ha).reads, aligned := ?_,
      cover := ?_, once := h.once, room := h.room }
  · intro b hb
    exact h.aligned b (hperm.mem_iff.mpr hb)
  · intro x
    rw [← h.cover x]
    exact (coverCount_perm (hperm.map _) x).symm

theorem push (h : BuddyCore s L (⟨a, o⟩ :: live) fed) :
    BuddyCore (s.pushBlock o a) (update L o (a :: L o)) live fed := by
  have hheld : (⟨a, o⟩ : Block) ∈ freeBlocks L ++ ⟨a, o⟩ :: live := by simp
  have ho : o ≤ 10 := (h.aligned _ hheld).1
  have hfresh : ∀ k ≤ 10, a ∉ L k := fun k hk => h.live_not_mem mem_cons_self hk
  have hperm : (freeBlocks L ++ ⟨a, o⟩ :: live).Perm
      (freeBlocks (update L o (a :: L o)) ++ live) :=
    perm_middle.trans ((freeBlocks_push L a ho).append_right live).symm
  have hread := (h.lists.push ho (h.addr_ne_zero hheld) hfresh).reads
  refine
    { base := h.base, sizeDvd := h.sizeDvd, reads := hread, aligned := ?_, cover := ?_,
      once := h.once, room := h.room }
  · intro b hb
    exact h.aligned b (hperm.mem_iff.mpr hb)
  · intro x
    rw [← h.cover x]
    exact (coverCount_perm (hperm.map _) x).symm

end BuddyCore

/-! ### Pairs and their bits -/

theorem two_pow_dvd_physOffset {k : ℕ} (hk : k ≤ 23) : 2 ^ k ∣ physOffset :=
  (pow_dvd_pow 2 hk).trans (by decide)

/-- Two blocks of one order have the same pair index exactly when they are equal
or buddies. -/
theorem pairIndex_eq_iff {o a b : ℕ} (ho : o ≤ 10) (ha : 2 ^ (12 + o) ∣ a)
    (hb : 2 ^ (12 + o) ∣ b) (hpa : physOffset ≤ a) (hpb : physOffset ≤ b) :
    (a - physOffset) >>> (12 + o + 1) = (b - physOffset) >>> (12 + o + 1) ↔
      a = b ∨ a ^^^ 2 ^ (12 + o) = b := by
  obtain ⟨q, hq⟩ := two_pow_dvd_physOffset (show 12 + o + 1 ≤ 23 by omega)
  have hdiv : ∀ x, physOffset ≤ x → (x - physOffset) >>> (12 + o + 1) = x / 2 ^ (12 + o + 1) - q ∧
        q ≤ x / 2 ^ (12 + o + 1) := by
    intro x hx
    rw [Nat.shiftRight_eq_div_pow, hq, Nat.sub_mul_div]
    refine ⟨rfl, (Nat.le_div_iff_mul_le (Nat.two_pow_pos _)).mpr ?_⟩
    rw [Nat.mul_comm, ← hq]
    exact hx
  obtain ⟨hda, hqa⟩ := hdiv a hpa
  obtain ⟨hdb, hqb⟩ := hdiv b hpb
  rw [hda, hdb, ← div_two_pow_succ_eq_iff ha hb]
  omega

section Bits

variable {s : BuddyAllocator} {L : ℕ → List ℕ} {live : List Block} {fed : List Extent}
  {o a : ℕ}

/-- The bits of two blocks in range coincide exactly for the two buddies of one
pair. -/
theorem pairBit_eq_iff {o' a' : ℕ} (hbase : s.baseAddr = physOffset)
    (hdvd : 4096 ∣ s.bitmapSize) (ho : o ≤ 10) (ha : 2 ^ (12 + o) ∣ a) (hpa : physOffset ≤ a)
    (hra : a < physOffset + s.bitmapSize * 2 ^ 15) (ho' : o' ≤ 10) (ha' : 2 ^ (12 + o') ∣ a')
    (hpa' : physOffset ≤ a') (hra' : a' < physOffset + s.bitmapSize * 2 ^ 15) :
    pairBit s o a = pairBit s o' a' ↔ o = o' ∧ (a = a' ∨ a ^^^ 2 ^ (12 + o) = a') := by
  unfold pairBit
  rw [hbase]
  constructor
  · intro h
    obtain ⟨rfl, hpair⟩ := bitIndex_inj hdvd ho (by omega) ho' (by omega) h
    exact ⟨rfl, (pairIndex_eq_iff ho ha ha' hpa hpa').mp hpair⟩
  · rintro ⟨rfl, hpair⟩
    rw [bitIndex, bitIndex, (pairIndex_eq_iff ho ha ha' hpa hpa').mpr hpair]

/-- Flipping the bit of a pair when one of its blocks enters or leaves the list
keeps all bits right. `L'` is the new family of lists: membership has changed
for the block `a` of order `o` and for nothing else. -/
theorem BitsOk.flip {L' : ℕ → List ℕ} (hbits : BitsOk s L) (hbase : s.baseAddr = physOffset)
    (hdvd : 4096 ∣ s.bitmapSize) (ho : o ≤ 10) (ha : 2 ^ (12 + o) ∣ a) (hpa : physOffset ≤ a)
    (hra : a < physOffset + s.bitmapSize * 2 ^ 15)
    (hself : a ∈ L' o ↔ a ∉ L o)
    (hother : ∀ k b, k ≠ o ∨ b ≠ a → (b ∈ L' k ↔ b ∈ L k)) :
    BitsOk (s.flipBit (pairBit s o a)) L' := by
  intro k hk b hb hpb hrb
  have hold := hbits k hk b hb hpb hrb
  have hidx : pairBit (s.flipBit (pairBit s o a)) k b = pairBit s k b := rfl
  rw [hidx, bit_flipBit, hold]
  have hiff := pairBit_eq_iff (s := s) hbase hdvd ho ha hpa hra (Nat.le_of_lt hk) hb hpb hrb
  by_cases hsame : pairBit s o a = pairBit s k b
  · obtain ⟨rfl, hpair⟩ := hiff.mp hsame
    rw [decide_eq_true hsame]
    rcases hpair with rfl | hbuddy
    · -- `b` is `a`, its buddy has not moved
      have hne : a ^^^ 2 ^ (12 + o) ≠ a := xor_two_pow_ne a (12 + o)
      simp only [hother o _ (Or.inr hne), hself]
      by_cases hmem : a ∈ L o <;> by_cases hbud : a ^^^ 2 ^ (12 + o) ∈ L o <;> simp [hmem, hbud]
    · -- `b` is the buddy of `a`
      have hback : b ^^^ 2 ^ (12 + o) = a := by
        rw [← hbuddy, xor_xor_cancel]
      have hne : b ≠ a := hbuddy ▸ xor_two_pow_ne a (12 + o)
      simp only [hback, hother o b (Or.inr hne), hself]
      by_cases hmem : a ∈ L o <;> by_cases hbud : b ∈ L o <;> simp [hmem, hbud]
  · rw [decide_eq_false hsame, Bool.xor_false]
    have hmoved : ∀ c, (c = b ∨ c = b ^^^ 2 ^ (12 + k)) → (c ∈ L' k ↔ c ∈ L k) := by
      intro c hc
      refine hother k c ?_
      by_contra hcon
      rw [not_or, not_not, not_not] at hcon
      obtain ⟨rfl, rfl⟩ := hcon
      refine hsame (hiff.mpr ⟨rfl, ?_⟩)
      rcases hc with rfl | hc
      · exact Or.inl rfl
      · refine Or.inr ?_
        rw [hc, xor_xor_cancel]
    simp only [hmoved b (Or.inl rfl), hmoved _ (Or.inr rfl)]

/-- The bits below order 10 do not depend on the list of order 10. -/
theorem BitsOk.top (hbits : BitsOk s L) (l : List ℕ) : BitsOk s (update L 10 l) := by
  intro k hk b hb hpb hrb
  rw [update_of_ne (Nat.ne_of_lt hk)]
  exact hbits k hk b hb hpb hrb

end Bits

/-! ### The four moves -/

namespace BuddyInv

variable {s : BuddyAllocator} {L : ℕ → List ℕ} {live live' : List Block} {fed : List Extent}
  {o a : ℕ}

/-- `toggle_bit` at a block of the allocator does not panic, and flips its
pair's bit. -/
theorem toggleBit_eq (h : BuddyCore s L live fed) (hb : (⟨a, o⟩ : Block) ∈ freeBlocks L ++ live) :
    s.toggleBit o a = some (s.flipBit (pairBit s o a), s.bit (pairBit s o a)) := by
  obtain ⟨hlo, hhi⟩ := h.addr_in_range hb
  have hp : a - s.baseAddr < s.bitmapSize * 2 ^ 15 := by
    rw [h.base]
    dsimp only at hlo hhi
    omega
  exact BuddyAllocator.toggleBit_eq (bitIndex_byte_lt h.sizeDvd (h.aligned _ hb).1 hp)

/-- **Take**: unlink a free block and flip its pair's bit. -/
theorem take (h : BuddyInv s L live fed) (ho : o ≤ 10) (ha : a ∈ L o) :
    BuddyInv ((s.removeBlock o a).flipBit (pairBit s o a))
      (update L o ((L o).erase a)) (⟨a, o⟩ :: live) fed := by
  have hmem : (⟨a, o⟩ : Block) ∈ freeBlocks L ++ live :=
    mem_append_left _ (mem_freeBlocks.mpr ⟨ho, ha⟩)
  obtain ⟨hlo, hhi⟩ := h.addr_in_range hmem
  refine ⟨(h.toBuddyCore.remove ho ha).flip _, ?_⟩
  refine BitsOk.flip (s := s.removeBlock o a) (L := L) h.bits h.base h.sizeDvd ho
    (h.aligned _ hmem).2 hlo hhi ?_ ?_
  · rw [update_self, (h.nodup_lists ho).mem_erase_iff]
    simp [ha]
  · intro k b hkb
    by_cases hk : k = o
    · subst hk
      have hba : b ≠ a := hkb.resolve_left fun hne => hne rfl
      rw [update_self, mem_erase_of_ne hba]
    · rw [update_of_ne hk]

/-- **Put**: push a held block and flip its pair's bit. -/
theorem put (h : BuddyInv s L (⟨a, o⟩ :: live) fed) :
    BuddyInv ((s.pushBlock o a).flipBit (pairBit s o a))
      (update L o (a :: L o)) live fed := by
  have hmem : (⟨a, o⟩ : Block) ∈ freeBlocks L ++ ⟨a, o⟩ :: live := by simp
  obtain ⟨ho, hdvd⟩ := h.aligned _ hmem
  obtain ⟨hlo, hhi⟩ := h.addr_in_range hmem
  refine ⟨h.toBuddyCore.push.flip _, ?_⟩
  refine BitsOk.flip (s := s.pushBlock o a) (L := L) h.bits h.base h.sizeDvd ho hdvd hlo hhi ?_ ?_
  · rw [update_self]
    simp [h.live_not_mem mem_cons_self ho]
  · intro k b hkb
    by_cases hk : k = o
    · subst hk
      have hba : b ≠ a := hkb.resolve_left fun hne => hne rfl
      rw [update_self, mem_cons]
      simp [hba]
    · rw [update_of_ne hk]

/-- At order 10 a block is pushed without touching the bitmap. -/
theorem putTop (h : BuddyInv s L (⟨a, 10⟩ :: live) fed) :
    BuddyInv (s.pushBlock 10 a) (update L 10 (a :: L 10)) live fed :=
  ⟨h.toBuddyCore.push, BitsOk.top (s := s.pushBlock 10 a) h.bits _⟩

/-- Loans may be regrouped freely as long as they stay aligned and cover the
same addresses. -/
theorem exchange (h : BuddyInv s L live fed) (haligned : ∀ b ∈ live', b.Aligned)
    (hcover : ∀ x, coverCount (live'.map Block.extent) x =
      coverCount (live.map Block.extent) x) : BuddyInv s L live' fed :=
  ⟨h.toBuddyCore.exchange haligned hcover, h.bits⟩

theorem perm (h : BuddyInv s L live fed) (hperm : live'.Perm live) : BuddyInv s L live' fed :=
  h.exchange (fun b hb => h.aligned b (mem_append_right _ (hperm.mem_iff.mp hb)))
    fun x => coverCount_perm (hperm.map _) x

theorem hit_halves (a o x : ℕ) : (Block.mk a (o + 1)).extent.hit x =
      (Block.mk a o).extent.hit x + (Block.mk (a + 2 ^ (12 + o)) o).extent.hit x := by
  have hsize : 2 ^ (12 + (o + 1)) = 2 ^ (12 + o) + 2 ^ (12 + o) := by
    rw [← Nat.add_assoc, Nat.pow_succ]
    omega
  unfold Block.extent
  dsimp only
  rw [hsize]
  exact Extent.hit_split _ _ _ _

/-- **Split** a held block into its halves. -/
theorem split (h : BuddyInv s L (⟨a, o + 1⟩ :: live) fed) :
    BuddyInv s L (⟨a + 2 ^ (12 + o), o⟩ :: ⟨a, o⟩ :: live) fed := by
  have hmem : (⟨a, o + 1⟩ : Block) ∈ freeBlocks L ++ ⟨a, o + 1⟩ :: live := by simp
  have ho : o + 1 ≤ 10 := (h.aligned _ hmem).1
  have hdvd : 2 ^ (12 + (o + 1)) ∣ a := (h.aligned _ hmem).2
  have hlow : 2 ^ (12 + o) ∣ a := (pow_dvd_pow 2 (by omega)).trans hdvd
  refine h.exchange ?_ ?_
  · intro b hb
    rcases mem_cons.mp hb with rfl | hb
    · exact ⟨Nat.le_of_succ_le ho, Nat.dvd_add hlow dvd_rfl⟩
    · rcases mem_cons.mp hb with rfl | hb
      · exact ⟨Nat.le_of_succ_le ho, hlow⟩
      · exact h.aligned b (mem_append_right _ (mem_cons_of_mem _ hb))
  · intro x
    simp only [map_cons, coverCount_cons, hit_halves]
    omega

/-- **Merge** two held buddies: the address with the order's bit cleared is the
start of the block one order up. -/
theorem merge (ho : o < 10) (h : BuddyInv s L (⟨a ^^^ 2 ^ (12 + o), o⟩ :: ⟨a, o⟩ :: live) fed) :
    BuddyInv s L (⟨andNot a (2 ^ (12 + o)), o + 1⟩ :: live) fed := by
  have hmem : (⟨a, o⟩ : Block) ∈ freeBlocks L ++ ⟨a ^^^ 2 ^ (12 + o), o⟩ :: ⟨a, o⟩ :: live := by
    simp
  have hdvd : 2 ^ (12 + o) ∣ a := (h.aligned _ hmem).2
  have hpos : 0 < 2 ^ (12 + o) := Nat.two_pow_pos _
  obtain ⟨q, hq⟩ := hdvd
  have hquot : a / 2 ^ (12 + o) = q := by rw [hq, Nat.mul_div_cancel_left _ hpos]
  have hbase : 2 ^ (12 + (o + 1)) ∣ andNot a (2 ^ (12 + o)) := by
    rw [andNot_two_pow_of_dvd ⟨q, hq⟩, hquot, ← Nat.add_assoc, Nat.pow_succ]
    split_ifs with hpar
    · obtain ⟨r, rfl⟩ := Nat.dvd_of_mod_eq_zero hpar
      exact ⟨r, by rw [hq]; ring⟩
    · obtain ⟨r, hr⟩ : ∃ r, q = 2 * r + 1 := ⟨q / 2, by omega⟩
      refine ⟨r, ?_⟩
      rw [hq, hr, Nat.mul_add, Nat.mul_one, Nat.add_sub_cancel]
      ring
  refine h.exchange ?_ ?_
  · intro b hb
    rcases mem_cons.mp hb with rfl | hb
    · exact ⟨ho, hbase⟩
    · exact h.aligned b (mem_append_right _ (mem_cons_of_mem _ (mem_cons_of_mem _ hb)))
  · intro x
    simp only [map_cons, coverCount_cons, hit_halves]
    -- the lower of the two buddies is the start of the merged block
    rw [xor_two_pow_of_dvd ⟨q, hq⟩, andNot_two_pow_of_dvd ⟨q, hq⟩, hquot]
    split_ifs with hpar
    · omega
    · have hle : 2 ^ (12 + o) ≤ a := by
        rw [hq]
        exact Nat.le_mul_of_pos_right _ (by omega)
      rw [Nat.sub_add_cancel hle]
      omega

/-- For a held block of an order below 10 the pair's bit says whether the buddy
is on the list. -/
theorem bit_iff_buddy_mem (h : BuddyInv s L (⟨a, o⟩ :: live) fed) (ho : o < 10) :
    s.bit (pairBit s o a) = decide (a ^^^ 2 ^ (12 + o) ∈ L o) := by
  have hmem : (⟨a, o⟩ : Block) ∈ freeBlocks L ++ ⟨a, o⟩ :: live := by simp
  obtain ⟨hlo, hhi⟩ := h.addr_in_range hmem
  rw [h.bits o ho a (h.aligned _ hmem).2 hlo hhi,
    decide_eq_false (h.live_not_mem mem_cons_self (Nat.le_of_lt ho)), Bool.false_xor]

end BuddyInv

end KernelR.Mm
