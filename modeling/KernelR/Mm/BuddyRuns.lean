import KernelR.Mm.BuddyInvariant

/-!
# Runs of the buddy allocator

The operations against the invariant, one specification each, and what follows
for every run: feed disjoint page ranges, then allocate and free in any order,
with the owners of live blocks writing whatever they like into them.
-/

namespace KernelR.Mm

open List Option Foundations BuddyAllocator

namespace BuddyInv

variable {s : BuddyAllocator} {L : ℕ → List ℕ} {live : List Block} {fed fed' : List Extent}
  {o a : ℕ}

/-! ### The moves as the code runs them -/

theorem take_run (h : BuddyInv s L live fed) (ho : o ≤ 10) (ha : a ∈ L o) :
    ∃ s' r, (s.removeBlock o a).toggleBit o a = some (s', r) ∧
      BuddyInv s' (Function.update L o ((L o).erase a)) (⟨a, o⟩ :: live) fed :=
  ⟨_, _, toggleBit_eq (h.toBuddyCore.remove ho ha) (by simp), h.take ho ha⟩

theorem put_run (h : BuddyInv s L (⟨a, o⟩ :: live) fed) :
    ∃ s' r, (s.pushBlock o a).toggleBit o a = some (s', r) ∧
      BuddyInv s' (Function.update L o (a :: L o)) live fed := by
  have ho : o ≤ 10 := (h.aligned ⟨a, o⟩ (by simp)).1
  have hmem : (⟨a, o⟩ : Block) ∈ freeBlocks (Function.update L o (a :: L o)) ++ live :=
    mem_append_left _ (mem_freeBlocks.mpr ⟨ho, by simp⟩)
  exact ⟨_, _, toggleBit_eq h.toBuddyCore.push hmem, h.put⟩

/-! ### `alloc` -/

/-- The upper half of a held block may be pushed: the lower half is held. -/
theorem merged_split (h : BuddyInv s L (⟨a, o + 1⟩ :: live) fed) (hmerged : Merged L) :
    Merged (Function.update L o ((a + 2 ^ (12 + o)) :: L o)) := by
  refine hmerged.push fun ho => ?_
  have hmem : (⟨a, o + 1⟩ : Block) ∈ freeBlocks L ++ ⟨a, o + 1⟩ :: live := by simp
  obtain ⟨q, hq⟩ : 2 ^ (12 + o + 1) ∣ a := (h.aligned _ hmem).2
  have hbuddy : (a + 2 ^ (12 + o)) ^^^ 2 ^ (12 + o) = a := by
    have hodd : (a + 2 ^ (12 + o)) / 2 ^ (12 + o) % 2 = 1 := by
      rw [Nat.add_div_right _ (Nat.two_pow_pos _), hq, Nat.pow_succ, Nat.mul_assoc,
        Nat.mul_div_cancel_left _ (Nat.two_pow_pos _)]
      omega
    have hdvd : 2 ^ (12 + o) ∣ a + 2 ^ (12 + o) := by
      rw [hq, Nat.pow_succ, Nat.mul_assoc]
      exact Nat.dvd_add (Nat.dvd_mul_right _ _) dvd_rfl
    rw [xor_two_pow_of_dvd hdvd, if_neg (by omega), Nat.add_sub_cancel]
  rw [hbuddy]
  exact h.split.live_not_mem (b := ⟨a, o⟩) (by simp) ho.le

/-- Splitting a held block of order `c` down to `order` leaves a held block of
that order at the same address. -/
theorem splitBlock_spec {order c : ℕ} (hle : order ≤ c) (h : BuddyInv s L (⟨a, c⟩ :: live) fed) :
    ∃ s' L', s.splitBlock a order c = some s' ∧ BuddyInv s' L' (⟨a, order⟩ :: live) fed ∧
      (Merged L → Merged L') := by
  induction c generalizing s L with
  | zero =>
    obtain rfl : order = 0 := Nat.le_zero.mp hle
    exact ⟨s, L, rfl, h, id⟩
  | succ c ih =>
    rcases Nat.lt_or_ge order (c + 1) with hlt | hge
    · obtain ⟨s₁, r, hrun, hput⟩ := h.split.put_run
      obtain ⟨s', L', hrest, hinv, hmerged⟩ := ih (Nat.le_of_lt_succ hlt) hput
      refine ⟨s', L', ?_, hinv, fun hL => hmerged (h.merged_split hL)⟩
      simp only [splitBlock, if_pos hlt, Nat.one_shiftLeft, hrun, bind_eq_bind, bind_some]
      exact hrest
    · obtain rfl : order = c + 1 := Nat.le_antisymm hle hge
      refine ⟨s, L, ?_, h, id⟩
      rw [splitBlock, if_neg (Nat.lt_irrefl _)]

theorem head_mem (h : BuddyInv s L live fed) (ho : o ≤ 10) (hne : s.freeList o ≠ 0) :
    s.freeList o ∈ L o := by
  have hread := h.reads o ho
  cases hL : L o with
  | nil => exact absurd (hread.nil_iff.mp hL) hne
  | cons b l =>
    rw [hL] at hread
    rw [hread.1]
    exact mem_cons_self

/-- The search through higher orders either finds every list empty or returns a
held block of the order asked for. -/
theorem allocHigher_spec {order : ℕ} (h : BuddyInv s L live fed) :
    ∀ {ords : List ℕ}, (∀ k ∈ ords, order ≤ k ∧ k ≤ 10) →
      (s.allocHigher order ords = some (s, none) ∧ ∀ k ∈ ords, L k = []) ∨
        ∃ s' L' b, s.allocHigher order ords = some (s', some b) ∧
          BuddyInv s' L' (⟨b, order⟩ :: live) fed ∧ (Merged L → Merged L') := by
  intro ords
  induction ords with
  | nil => intro _; exact Or.inl ⟨rfl, by simp⟩
  | cons k rest ih =>
    intro hords
    obtain ⟨hle, hk⟩ := hords k mem_cons_self
    by_cases hhead : s.freeList k = 0
    · have hnil : L k = [] := (h.reads k hk).nil_iff.mpr hhead
      have hskip : s.allocHigher order (k :: rest) = s.allocHigher order rest := by
        rw [allocHigher, if_neg (not_not_intro hhead)]
      rw [hskip]
      rcases ih fun j hj => hords j (mem_cons_of_mem _ hj) with ⟨hnone, hempty⟩ | hsome
      · refine Or.inl ⟨hnone, fun j hj => ?_⟩
        rcases mem_cons.mp hj with rfl | hmem
        · exact hnil
        · exact hempty j hmem
      · exact Or.inr hsome
    · obtain ⟨s₁, r, hrun, htake⟩ := h.take_run hk (h.head_mem hk hhead)
      obtain ⟨s', L', hsplit, hinv, hmerged⟩ := splitBlock_spec hle htake
      refine Or.inr ⟨s', L', s.freeList k, ?_, hinv, fun hL => hmerged (hL.erase _ _)⟩
      simp only [allocHigher, ne_eq, hhead, not_false_eq_true, if_true, hrun,
        bind_eq_bind, bind_some, hsplit]

/-- **`alloc`** never panics: it reports that every list from `order` up is empty,
or hands out a block that the invariant counts as live from then on. -/
theorem alloc_spec {order : ℕ} (ho : order ≤ 10) (h : BuddyInv s L live fed) :
    (s.alloc order = some (s, none) ∧ ∀ k, order ≤ k → k ≤ 10 → L k = []) ∨
      ∃ s' L' b, s.alloc order = some (s', some b) ∧
        BuddyInv s' L' (⟨b, order⟩ :: live) fed ∧ (Merged L → Merged L') := by
  have hmin : min order (maxOrder - 1) = order := Nat.min_eq_left ho
  by_cases hhead : s.freeList order = 0
  · have hnil : L order = [] := (h.reads order ho).nil_iff.mpr hhead
    have hsearch : s.alloc order =
        s.allocHigher order (List.range' (order + 1) (maxOrder - (order + 1))) := by
      simp only [alloc, hmin, hhead, ne_eq, not_true_eq_false, if_false]
    have hmem : ∀ k, k ∈ List.range' (order + 1) (maxOrder - (order + 1)) ↔ order < k ∧ k ≤ 10 := by
      intro k
      rw [mem_range'_1]
      simp only [maxOrder]
      omega
    rw [hsearch]
    have hords : ∀ k ∈ List.range' (order + 1) (maxOrder - (order + 1)), order ≤ k ∧ k ≤ 10 :=
      fun k hk => ⟨((hmem k).mp hk).1.le, ((hmem k).mp hk).2⟩
    rcases h.allocHigher_spec hords with ⟨hnone, hempty⟩ | hsome
    · refine Or.inl ⟨hnone, fun k hle hk => ?_⟩
      rcases Nat.eq_or_lt_of_le hle with rfl | hlt
      · exact hnil
      · exact hempty k ((hmem k).mpr ⟨hlt, hk⟩)
    · exact Or.inr hsome
  · obtain ⟨s₁, r, hrun, htake⟩ := h.take_run ho (h.head_mem ho hhead)
    refine Or.inr ⟨s₁, _, s.freeList order, ?_, htake, fun hL => hL.erase _ _⟩
    simp only [alloc, hmin, ne_eq, hhead, not_false_eq_true, if_true, hrun]
    rfl

/-! ### `free` -/

/-- A block the list of `o` reads as containing. -/
def OnList (s : BuddyAllocator) (o b : ℕ) : Prop :=
  ∃ l, DChain s.mem 0 (s.freeList o) l ∧ b ∈ l

/-- The merging loop takes back a held block of any order, and every block it
unlinks on the way is on the list it is unlinked from. -/
theorem freeLoop_spec {fuel : ℕ} (hfuel : 10 < fuel + o) (h : BuddyInv s L (⟨a, o⟩ :: live) fed) :
    (∃ s' L', freeLoop fuel s a o = some s' ∧ BuddyInv s' L' live fed ∧ (Merged L → Merged L')) ∧
      ∀ u ∈ freeUnlinks fuel s a o, OnList u.1 u.2.1 u.2.2 := by
  induction fuel generalizing s L a o with
  | zero =>
    have ho : o ≤ 10 := (h.aligned ⟨a, o⟩ (by simp)).1
    omega
  | succ fuel ih =>
    have ho : o ≤ 10 := (h.aligned ⟨a, o⟩ (by simp)).1
    have hdvd : 2 ^ (12 + o) ∣ a := (h.aligned ⟨a, o⟩ (by simp)).2
    have hmaxm : maxOrder - 1 = 10 := rfl
    rcases Nat.lt_or_ge o 10 with hlt | hge
    · have htoggle := toggleBit_eq h.toBuddyCore
        (show (⟨a, o⟩ : Block) ∈ freeBlocks L ++ ⟨a, o⟩ :: live by simp)
      rw [h.bit_iff_buddy_mem hlt] at htoggle
      by_cases hbuddy : a ^^^ 2 ^ (12 + o) ∈ L o
      · -- the buddy is on the list: unlinking it is a `take`, and the two merge
        rw [decide_eq_true hbuddy] at htoggle
        have hbits : pairBit s o (a ^^^ 2 ^ (12 + o)) = pairBit s o a := by
          have hbmem : (⟨a ^^^ 2 ^ (12 + o), o⟩ : Block) ∈ freeBlocks L ++ ⟨a, o⟩ :: live :=
            mem_append_left _ (mem_freeBlocks.mpr ⟨ho, hbuddy⟩)
          obtain ⟨hlo, hhi⟩ := h.addr_in_range
            (show (⟨a, o⟩ : Block) ∈ freeBlocks L ++ ⟨a, o⟩ :: live by simp)
          obtain ⟨hlo', hhi'⟩ := h.addr_in_range hbmem
          exact ((pairBit_eq_iff h.base h.sizeDvd ho hdvd hlo hhi ho
            (two_pow_dvd_xor hdvd) hlo' hhi').mpr ⟨rfl, Or.inr rfl⟩).symm
        have htake := h.take ho hbuddy
        rw [hbits, ← flipBit_removeBlock] at htake
        obtain ⟨⟨s', L', hrest, hinv, hmerged⟩, htrace⟩ :=
          ih (s := (s.flipBit (pairBit s o a)).removeBlock o (a ^^^ 2 ^ (12 + o)))
            (by omega) (htake.merge hlt)
        refine ⟨⟨s', L', ?_, hinv, fun hL => hmerged (hL.erase _ _)⟩, ?_⟩
        · rw [freeLoop, hmaxm, if_pos hlt, htoggle]
          simp only [bind_eq_bind, bind_some, if_true, Nat.one_shiftLeft]
          exact hrest
        · intro u hu
          rw [freeUnlinks, hmaxm, if_pos hlt, htoggle] at hu
          simp only [Nat.one_shiftLeft] at hu
          rcases mem_cons.mp hu with rfl | hu
          · exact ⟨L o, h.reads o ho, hbuddy⟩
          · exact htrace u hu
      · -- the buddy is not free: the block goes on the list, a `put`
        rw [decide_eq_false hbuddy] at htoggle
        refine ⟨⟨_, _, ?_, h.put, fun hL => hL.push fun _ => hbuddy⟩, ?_⟩
        · rw [freeLoop, hmaxm, if_pos hlt, htoggle]
          rfl
        · intro u hu
          rw [freeUnlinks, hmaxm, if_pos hlt, htoggle] at hu
          cases hu
    · obtain rfl : o = 10 := Nat.le_antisymm ho hge
      refine ⟨⟨_, _, ?_, h.putTop, fun hL => hL.push (absurd · (Nat.lt_irrefl _))⟩, ?_⟩
      · rw [freeLoop, hmaxm, if_neg (Nat.lt_irrefl _)]
      · intro u hu
        rw [freeUnlinks, hmaxm, if_neg (Nat.lt_irrefl _)] at hu
        cases hu

/-- **`free`** of a live block never panics, gives the block back, and only
unlinks blocks that are on their lists. -/
theorem free_spec {b : Block} (hb : b ∈ live) (h : BuddyInv s L live fed) :
    (∃ s' L', s.free b.addr b.order = some s' ∧ BuddyInv s' L' (live.erase b) fed ∧
        (Merged L → Merged L')) ∧
      ∀ u ∈ freeUnlinks maxOrder s (andNot b.addr 0xFFF) (min b.order (maxOrder - 1)),
        OnList u.1 u.2.1 u.2.2 := by
  obtain ⟨ho, hdvd⟩ := h.aligned b (mem_append_right _ hb)
  have haddr : andNot b.addr 0xFFF = b.addr :=
    andNot_low_of_dvd (k := 12) ((pow_dvd_pow 2 (Nat.le_add_right 12 _)).trans hdvd)
  have hmin : min b.order (maxOrder - 1) = b.order := Nat.min_eq_left ho
  have hheld : BuddyInv s L (⟨b.addr, b.order⟩ :: live.erase b) fed :=
    h.perm (perm_cons_erase hb).symm
  have hfuel : 10 < maxOrder + b.order := by
    simp only [maxOrder]
    omega
  have hspec := freeLoop_spec hfuel hheld
  rw [free, haddr, hmin]
  exact hspec

/-! ### `add_free_region` -/

/-- Memory the allocator has not seen may be counted as fed and held. -/
theorem feed (h : BuddyInv s L live fed) (haligned : (⟨a, o⟩ : Block).Aligned)
    (hfresh : ∀ e ∈ fed, e.Apart (Block.mk a o).extent)
    (hroom : ∀ x, (Block.mk a o).extent.Mem x →
      physOffset ≤ x ∧ x < physOffset + s.bitmapSize * 2 ^ 15) :
    BuddyInv s L (⟨a, o⟩ :: live) ((Block.mk a o).extent :: fed) where
  base := h.base
  sizeDvd := h.sizeDvd
  reads := h.reads
  aligned := by
    intro b hb
    rcases mem_append.mp hb with hfree | hlive
    · exact h.aligned b (mem_append_left _ hfree)
    · rcases mem_cons.mp hlive with rfl | hlive
      · exact haligned
      · exact h.aligned b (mem_append_right _ hlive)
  cover := by
    intro x
    have hx := h.cover x
    simp only [map_append, map_cons, coverCount_append, coverCount_cons] at hx ⊢
    omega
  once := by
    intro x
    have hx := h.once x
    rw [coverCount_cons]
    by_cases hin : (Block.mk a o).extent.Mem x
    · have hzero : coverCount fed x = 0 := by
        by_contra hne
        obtain ⟨e, he, hex⟩ := exists_mem_of_coverCount_pos (Nat.pos_of_ne_zero hne)
        exact hfresh e he x hex hin
      rw [hzero, Extent.hit_eq_one hin]
    · have hzero : (Block.mk a o).extent.hit x = 0 := if_neg hin
      omega
  room := by
    intro e he x hx
    rcases mem_cons.mp he with rfl | he
    · exact hroom x hx
    · exact h.room e he x hx
  bits := h.bits

theorem refed (h : BuddyInv s L live fed)
    (hcover : ∀ x, coverCount fed' x = coverCount fed x) : BuddyInv s L live fed' where
  base := h.base
  sizeDvd := h.sizeDvd
  reads := h.reads
  aligned := h.aligned
  cover := fun x => (h.cover x).trans (hcover x).symm
  once := fun x => (hcover x).trans_le (h.once x)
  room := by
    intro e he x hx
    have hpos : 0 < coverCount fed x := hcover x ▸ coverCount_pos_of_mem he hx
    obtain ⟨e', he', hx'⟩ := exists_mem_of_coverCount_pos hpos
    exact h.room e' he' x hx'
  bits := h.bits

end BuddyInv

namespace BuddyAllocator

/-- The block of order `o` at `a` could not be larger: the next order is no order, or the
address is not aligned to it, or it goes beyond `stop`. -/
def Carved (stop o a : ℕ) : Prop :=
  o < 10 → 2 ^ (12 + (o + 1)) ∣ a → stop < a + 2 ^ (12 + (o + 1))

/-- Page-aligned ranges are carved into aligned blocks that fit, as large as possible. -/
theorem carveOrder_spec {start stop : ℕ} (hstart : 4096 ∣ start) (hstop : 4096 ∣ stop)
    (hlt : start < stop) :
    ∃ o ≤ 10, carveOrder start stop = some o ∧ 2 ^ (12 + o) ∣ start ∧
      start + 2 ^ (12 + o) ≤ stop ∧ Carved stop o start := by
  have hpages : (stop - start) >>> 12 ≠ 0 := by
    rw [Nat.shiftRight_eq_div_pow]
    omega
  obtain ⟨r, hr⟩ : ∃ r, (stop - start) >>> 12 = r := ⟨_, rfl⟩
  rw [hr] at hpages
  have hlead : leadingZeros r = 63 - r.log2 := if_neg hpages
  refine ⟨min (min (63 - leadingZeros r) (if start = 0 then 10 else trailingZeros start - 12)) 10,
    Nat.min_le_right _ _, ?_, ?_, ?_, ?_⟩
  · unfold carveOrder
    rw [hr, if_neg (by rw [hlead]; omega)]
  · by_cases hzero : start = 0
    · rw [hzero]
      exact Nat.dvd_zero _
    · rw [if_neg hzero]
      generalize hk : min (min (63 - leadingZeros r) (trailingZeros start - 12)) 10 = k
      rcases Nat.lt_or_ge (trailingZeros start) 12 with hsmall | hbig
      · have hk0 : k = 0 := by omega
        rw [hk0]
        exact hstart
      · exact (pow_dvd_pow 2 (by omega)).trans (two_pow_trailingZeros_dvd start)
  · generalize hk : min (min (63 - leadingZeros r)
        (if start = 0 then 10 else trailingZeros start - 12)) 10 = k
    have hfit : 2 ^ k ≤ r :=
      (Nat.pow_le_pow_right (by norm_num) (by omega)).trans (Nat.log2_self_le hpages)
    rw [Nat.shiftRight_eq_div_pow] at hr
    have hbytes : 2 ^ (12 + k) ≤ stop - start := by
      rw [Nat.pow_add]
      calc 2 ^ 12 * 2 ^ k ≤ 2 ^ 12 * r := Nat.mul_le_mul_left _ hfit
        _ ≤ stop - start := by rw [← hr]; exact Nat.mul_div_le _ _
    omega
  · generalize hk : min (min (63 - leadingZeros r)
        (if start = 0 then 10 else trailingZeros start - 12)) 10 = k
    intro hk10 hdvd
    -- the address would allow the next order, so it is the length that does not
    have halign : k < if start = 0 then 10 else trailingZeros start - 12 := by
      by_cases hzero : start = 0
      · rw [if_pos hzero]
        exact hk10
      · rw [if_neg hzero]
        have hle := le_trailingZeros (show 12 + (k + 1) ≤ 64 by omega) hdvd
        omega
    have hfit : r < 2 ^ (k + 1) := by
      have hlog : r.log2 ≤ k := by omega
      exact Nat.lt_log2_self.trans_le (Nat.pow_le_pow_right (by norm_num) (by omega))
    rw [Nat.shiftRight_eq_div_pow, Nat.div_eq_iff (by norm_num)] at hr
    have hbytes : 2 ^ (12 + (k + 1)) = 2 ^ 12 * 2 ^ (k + 1) := Nat.pow_add ..
    omega

/-- **`add_free_region`** over a fresh page-aligned range in the bitmap's reach
adds exactly that range to the managed memory. -/
theorem addFreeRegionLoop_spec {fuel : ℕ} {s : BuddyAllocator} {L : ℕ → List ℕ}
    {live : List Block} {fed : List Extent} {start stop : ℕ} (hfuel : stop - start ≤ fuel)
    (hstart : 4096 ∣ start) (hstop : 4096 ∣ stop) (hle : start ≤ stop)
    (hlo : physOffset ≤ start) (hhi : stop ≤ physOffset + s.bitmapSize * 2 ^ 15)
    (hfresh : ∀ e ∈ fed, e.Apart ⟨start, stop - start⟩) (h : BuddyInv s L live fed) :
    ∃ s' L', addFreeRegionLoop fuel s start stop = some s' ∧
      BuddyInv s' L' live (⟨start, stop - start⟩ :: fed) ∧
      ∀ o a, a ∈ L' o → a ∈ L o ∨ Carved stop o a := by
  induction fuel generalizing s L start fed with
  | zero =>
    have heq : start = stop := by omega
    subst heq
    refine ⟨s, L, ?_, h.refed fun x => ?_, fun _ _ => Or.inl⟩
    · rw [addFreeRegionLoop, if_neg (Nat.lt_irrefl _)]
    · have hzero : Extent.hit ⟨start, start - start⟩ x = 0 := if_neg (by dsimp only; omega)
      rw [coverCount_cons, hzero, Nat.zero_add]
  | succ fuel ih =>
    rcases Nat.eq_or_lt_of_le hle with rfl | hlt
    · refine ⟨s, L, ?_, h.refed fun x => ?_, fun _ _ => Or.inl⟩
      · rw [addFreeRegionLoop, if_neg (Nat.lt_irrefl _)]
      · have hzero : Extent.hit ⟨start, start - start⟩ x = 0 := if_neg (by dsimp only; omega)
        rw [coverCount_cons, hzero, Nat.zero_add]
    · obtain ⟨o, ho, hcarve, hdvd, hfit, hcarved⟩ := carveOrder_spec hstart hstop hlt
      have hpos : 0 < 2 ^ (12 + o) := Nat.two_pow_pos _
      -- the carved block is part of the range
      have hsub : ∀ x, (Block.mk start o).extent.Mem x → Extent.Mem ⟨start, stop - start⟩ x := by
        intro x hx
        have hx₁ : start ≤ x := hx.1
        have hx₂ : x < start + 2 ^ (12 + o) := hx.2
        exact ⟨hx₁, show x < start + (stop - start) by omega⟩
      have hheld := h.feed ⟨ho, hdvd⟩ (fun e he => (hfresh e he).mono (fun _ hx => hx) hsub)
        (fun x hx => by
          have hx' := hsub x hx
          have hx₁ : start ≤ x := hx'.1
          have hx₂ : x < start + (stop - start) := hx'.2
          omega)
      obtain ⟨s₁, r, hrun, hput⟩ := hheld.put_run
      have hsize : s₁.bitmapSize = s.bitmapSize := by
        have hflip := (toggleBit_some hrun).2
        rw [hflip]
        rfl
      have hnext : 4096 ∣ start + 2 ^ (12 + o) :=
        Nat.dvd_add hstart ((pow_dvd_pow 2 (Nat.le_add_right 12 o)))
      have hfresh' : ∀ e ∈ (Block.mk start o).extent :: fed,
          e.Apart ⟨start + 2 ^ (12 + o), stop - (start + 2 ^ (12 + o))⟩ := by
        intro e he x hex hx
        have hx₁ : start + 2 ^ (12 + o) ≤ x := hx.1
        have hx₂ : x < start + 2 ^ (12 + o) + (stop - (start + 2 ^ (12 + o))) := hx.2
        rcases mem_cons.mp he with rfl | he
        · have hex₂ : x < start + 2 ^ (12 + o) := hex.2
          omega
        · exact hfresh e he x hex ⟨by dsimp only; omega, by dsimp only; omega⟩
      have hfuel : stop - (start + 2 ^ (12 + o)) ≤ fuel := by omega
      obtain ⟨s', L', hloop, hinv, hL'⟩ :=
        ih hfuel hnext hfit (by omega) (by rw [hsize]; exact hhi) hfresh' hput
      refine ⟨s', L', ?_, hinv.refed fun x => ?_, fun k b hb => ?_⟩
      · rw [addFreeRegionLoop, if_pos hlt, hcarve]
        simp only [bind_eq_bind, bind_some, hrun, Nat.one_shiftLeft]
        exact hloop
      · have hcut := Extent.hit_split start (2 ^ (12 + o)) (stop - (start + 2 ^ (12 + o))) x
        rw [show 2 ^ (12 + o) + (stop - (start + 2 ^ (12 + o))) = stop - start by omega] at hcut
        simp only [coverCount_cons, Block.extent, hcut]
        omega
      · rcases hL' k b hb with hold | hnew
        · by_cases hk : k = o
          · subst hk
            rw [Function.update_self] at hold
            rcases mem_cons.mp hold with rfl | hold
            · exact Or.inr hcarved
            · exact Or.inl hold
          · rw [Function.update_of_ne hk] at hold
            exact Or.inl hold
        · exact Or.inr hnew

end BuddyAllocator

/-! ### `count_free_memory` -/

namespace BuddyAllocator

/-- Walking a chain counts its nodes, given links enough to reach the end. -/
theorem countList_eq {mem : ℕ → FreeBlock} {l : List ℕ} :
    ∀ {fuel prev curr : ℕ}, DChain mem prev curr l → l.length ≤ fuel →
      countList mem fuel curr = some l.length := by
  induction l with
  | nil =>
    intro fuel prev curr h _
    have hzero : curr = 0 := h
    cases fuel <;> simp [countList, hzero]
  | cons a l ih =>
    rintro fuel prev curr ⟨rfl, hne, -, hrest⟩ hlen
    cases fuel with
    | zero => simp at hlen
    | succ fuel =>
      have hstep := ih hrest (by simpa using hlen)
      rw [countList, if_neg hne, hstep]
      rfl

/-- The bytes on some of the lists, as the code adds them up. -/
private theorem foldlM_count {s : BuddyAllocator} {L : ℕ → List ℕ} {fuel : ℕ} :
    ∀ {os : List ℕ} (total : ℕ), (∀ o ∈ os, DChain s.mem 0 (s.freeList o) (L o)) →
      (∀ o ∈ os, (L o).length ≤ fuel) →
      os.foldlM (fun totalFree order => do
        let blockCount ← countList s.mem fuel (s.freeList order)
        some (totalFree + blockCount * (4096 <<< order))) total =
        some (total +
          totalSize ((os.flatMap fun o => (L o).map fun a => Block.mk a o).map Block.extent)) := by
  intro os
  induction os with
  | nil => intro total _ _; simp [totalSize]
  | cons o os ih =>
    intro total hreads hlen
    have hcount := countList_eq (hreads o mem_cons_self) (hlen o mem_cons_self)
    have hlist : totalSize (((L o).map fun a => Block.mk a o).map Block.extent) =
        (L o).length * (4096 <<< o) := by
      have hconst : ((Extent.size ∘ Block.extent) ∘ fun a => Block.mk a o) =
          fun _ : ℕ => 2 ^ (12 + o) := rfl
      rw [totalSize, List.map_map, List.map_map, hconst, map_const', sum_replicate,
        Nat.shiftLeft_eq, Nat.pow_add]
      rfl
    have hround : (do
        let blockCount ← countList s.mem fuel (s.freeList o)
        some (total + blockCount * (4096 <<< o))) = some (total + (L o).length * (4096 <<< o)) := by
      rw [hcount]
      rfl
    have hrest := ih (total + (L o).length * (4096 <<< o))
      (fun k hk => hreads k (mem_cons_of_mem _ hk))
      (fun k hk => hlen k (mem_cons_of_mem _ hk))
    rw [foldlM_cons, hround, flatMap_cons, map_append, totalSize_append, hlist, ← Nat.add_assoc]
    exact hrest

end BuddyAllocator

namespace FreeLists

variable {s : BuddyAllocator} {L : ℕ → List ℕ}

/-- `count_free_memory` adds up the sizes of the blocks on the lists. -/
theorem countFreeMemory (h : FreeLists s L) : ∃ n, ∀ fuel ≥ n,
    s.countFreeMemory fuel = some (totalSize ((freeBlocks L).map Block.extent)) := by
  refine ⟨((List.range maxOrder).map fun o => (L o).length).sum, fun fuel hfuel => ?_⟩
  have hlen : ∀ o ∈ List.range maxOrder, (L o).length ≤ fuel := fun o ho =>
    (List.le_sum_of_mem (mem_map_of_mem ho)).trans hfuel
  have hreads : ∀ o ∈ List.range maxOrder, DChain s.mem 0 (s.freeList o) (L o) := fun o ho =>
    h.reads o (Nat.le_of_lt_succ (mem_range.mp ho))
  rw [BuddyAllocator.countFreeMemory, foldlM_count 0 hreads hlen, Nat.zero_add]
  rfl

end FreeLists

/-- A call of `push_block` or of `remove_block`. -/
inductive ListCall where
  | push (order block : ℕ)
  | remove (order block : ℕ)

namespace ListCall

/-- What the call does to the allocator. -/
def run (s : BuddyAllocator) : ListCall → BuddyAllocator
  | push order block => s.pushBlock order block
  | remove order block => s.removeBlock order block

/-- What it does to the lists. A block that is pushed is on no list, and one that is removed is on
the list it is removed from. -/
def lists (L : ℕ → List ℕ) : ListCall → Option (ℕ → List ℕ)
  | push order block =>
    if order ≤ 10 ∧ block ≠ 0 ∧ ∀ k < maxOrder, block ∉ L k then
      some (Function.update L order (block :: L order))
    else none
  | remove order block =>
    if order ≤ 10 ∧ block ∈ L order then some (Function.update L order ((L order).erase block))
    else none

end ListCall

theorem FreeLists.run {s : BuddyAllocator} {L L' : ℕ → List ℕ} {calls : List ListCall}
    (h : FreeLists s L) (hcalls : calls.foldlM ListCall.lists L = some L') :
    FreeLists (calls.foldl ListCall.run s) L' := by
  induction calls generalizing s L with
  | nil =>
    cases hcalls
    exact h
  | cons call calls ih =>
    obtain ⟨L₁, hcall, hrest⟩ := bind_eq_some_iff.mp hcalls
    refine ih ?_ hrest
    cases call with
    | push order block =>
      obtain ⟨⟨ho, hblock, hfresh⟩, hL₁⟩ := ite_none_right_eq_some.mp hcall
      cases hL₁
      exact h.push ho hblock fun k hk => hfresh k (Nat.lt_succ_of_le hk)
    | remove order block =>
      obtain ⟨⟨ho, hmem⟩, hL₁⟩ := ite_none_right_eq_some.mp hcall
      cases hL₁
      exact h.remove ho hmem

/-- **The intrusive lists.**  Whatever is pushed and removed, the chains read as lists that share no
block, forwards and backwards, a push and a removal do to them what `ListCall.lists` says, and
`count_free_memory` adds up the blocks on them. -/
theorem free_lists_run {s : BuddyAllocator} {L L' : ℕ → List ℕ} (h : FreeLists s L)
    {calls : List ListCall} (hcalls : calls.foldlM ListCall.lists L = some L') :
    FreeLists (calls.foldl ListCall.run s) L' ∧ ∃ n, ∀ fuel ≥ n,
      (calls.foldl ListCall.run s).countFreeMemory fuel =
        some ((freeBlocks L').map fun b => 4096 * 2 ^ b.order).sum := by
  have hlists := h.run hcalls
  obtain ⟨n, hn⟩ := hlists.countFreeMemory
  refine ⟨hlists, n, fun fuel hfuel => (hn fuel hfuel).trans (congrArg some ?_)⟩
  rw [totalSize, List.map_map]
  exact congrArg sum (map_congr_left fun b _ => Nat.pow_add 2 12 b.order)

/-- Two blocks go on the list of order 0 and one on that of order 3; then the older one of the two
comes off. -/
theorem free_lists_run_four : ∃ L', L' 0 = [8192] ∧ L' 3 = [65536] ∧
    FreeLists ([ListCall.push 0 4096, .push 0 8192, .push 3 65536, .remove 0 4096].foldl
      ListCall.run ⟨fun _ => 0, fun _ => 0#8, 0, 0, fun _ => ⟨0, 0⟩⟩) L' := by
  have hempty : FreeLists ⟨fun _ => 0, fun _ => 0#8, 0, 0, fun _ => ⟨0, 0⟩⟩ fun _ => [] :=
    ⟨fun _ _ => rfl, fun _ _ => nodup_nil, fun _ _ _ _ _ _ h => absurd h not_mem_nil⟩
  exact ⟨_, rfl, rfl, (free_lists_run hempty rfl).1⟩

namespace BuddyInv

variable {s : BuddyAllocator} {L : ℕ → List ℕ} {live : List Block} {fed : List Extent}

/-- **`count_free_memory`** terminates with the bytes fed and not live. -/
theorem countFreeMemory_spec (h : BuddyInv s L live fed) :
    totalSize (live.map Block.extent) ≤ totalSize fed ∧ ∃ n, ∀ fuel ≥ n, s.countFreeMemory fuel =
        some (totalSize fed - totalSize (live.map Block.extent)) := by
  have htotal := totalSize_eq_of_coverCount h.cover
  rw [map_append, totalSize_append] at htotal
  obtain ⟨n, hn⟩ := h.lists.countFreeMemory
  refine ⟨by omega, n, fun fuel hfuel => ?_⟩
  rw [hn fuel hfuel, ← htotal, Nat.add_sub_cancel]

theorem write (h : BuddyInv s L live fed) {mem : ℕ → FreeBlock}
    (hmem : ∀ x, (∀ b ∈ live, ¬ b.extent.Mem x) → mem x = s.mem x) :
    BuddyInv { s with mem := mem } L live fed where
  base := h.base
  sizeDvd := h.sizeDvd
  reads := by
    intro o ho
    refine (h.reads o ho).congr fun x hx => hmem x fun b hb hbx => ?_
    have hpair := (pairwise_append.mp (map_append ▸ h.pairwise_apart)).2.2
    have hfree : (⟨x, o⟩ : Block) ∈ freeBlocks L := mem_freeBlocks.mpr ⟨ho, hx⟩
    exact hpair _ (mem_map_of_mem hfree) _ (mem_map_of_mem hb) x (Block.mk x o).extent_mem_addr hbx
  aligned := h.aligned
  cover := h.cover
  once := h.once
  room := h.room
  bits := h.bits

end BuddyInv

/-! ### Runs -/

/-- An allocator in use: its state, the blocks handed out and not yet returned,
and the ranges fed to it. -/
structure BuddyRun where
  buddy : BuddyAllocator
  live : List Block
  fed : List Extent

/-- The states a run can reach that starts from `init` with a zeroed bitmap of
`S` bytes. -/
inductive BuddyReachable (S : ℕ) : BuddyRun → Prop
  /-- `init`, over whatever the allocator and the memory held before. -/
  | init (s : BuddyAllocator) : BuddyReachable S ⟨s.init (fun _ => 0#8) S physOffset, [], []⟩
  /-- `add_free_region` on a page-aligned range of the direct map, apart from all
  ranges fed so far and in reach of the bitmap. -/
  | feed {r : BuddyRun} {start stop : ℕ} {s' : BuddyAllocator} : BuddyReachable S r →
      4096 ∣ start → 4096 ∣ stop → start ≤ stop → physOffset ≤ start →
      stop ≤ physOffset + r.buddy.bitmapSize * 2 ^ 15 →
      (∀ e ∈ r.fed, e.Apart ⟨start, stop - start⟩) →
      r.buddy.addFreeRegion start stop = some s' →
      BuddyReachable S ⟨s', r.live, ⟨start, stop - start⟩ :: r.fed⟩
  /-- `alloc` that finds a block. -/
  | alloc {r : BuddyRun} {order a : ℕ} {s' : BuddyAllocator} : BuddyReachable S r → order ≤ 10 →
      r.buddy.alloc order = some (s', some a) →
      BuddyReachable S ⟨s', ⟨a, order⟩ :: r.live, r.fed⟩
  /-- `alloc` that finds none. -/
  | allocNone {r : BuddyRun} {order : ℕ} {s' : BuddyAllocator} : BuddyReachable S r →
      order ≤ 10 → r.buddy.alloc order = some (s', none) → BuddyReachable S ⟨s', r.live, r.fed⟩
  /-- `free` of a live block under its own order. -/
  | free {r : BuddyRun} {b : Block} {s' : BuddyAllocator} : BuddyReachable S r → b ∈ r.live →
      r.buddy.free b.addr b.order = some s' → BuddyReachable S ⟨s', r.live.erase b, r.fed⟩
  /-- The owners of live blocks write into them. -/
  | write {r : BuddyRun} {mem : ℕ → FreeBlock} : BuddyReachable S r →
      (∀ x, (∀ b ∈ r.live, ¬ b.extent.Mem x) → mem x = r.buddy.mem x) →
      BuddyReachable S ⟨{ r.buddy with mem := mem }, r.live, r.fed⟩

/-- A freshly initialised allocator satisfies the invariant. -/
theorem buddyInv_init (s : BuddyAllocator) {S : ℕ} (hS : 4096 ∣ S) :
    BuddyInv (s.init (fun _ => 0#8) S physOffset) (fun _ => []) [] [] where
  base := rfl
  sizeDvd := hS
  reads := fun _ _ => rfl
  aligned := by simp [freeBlocks]
  cover := by
    intro x
    have hnil : freeBlocks (fun _ => []) = [] := by simp [freeBlocks]
    rw [hnil]
    rfl
  once := by simp
  room := by simp
  bits := by
    intro o _ a _ _ _
    simp [bit, BuddyAllocator.init]

theorem BuddyReachable.inv {S : ℕ} (hS : 4096 ∣ S) {r : BuddyRun} (h : BuddyReachable S r) :
    ∃ L, BuddyInv r.buddy L r.live r.fed := by
  induction h with
  | init s => exact ⟨_, buddyInv_init s hS⟩
  | feed _ hstart hstop hle hlo hhi hfresh hrun ih =>
    obtain ⟨L, hinv⟩ := ih
    obtain ⟨s', L', hspec, hinv', -⟩ :=
      addFreeRegionLoop_spec le_rfl hstart hstop hle hlo hhi hfresh hinv
    rw [addFreeRegion, hspec] at hrun
    cases hrun
    exact ⟨L', hinv'⟩
  | alloc _ ho hrun ih =>
    obtain ⟨L, hinv⟩ := ih
    rcases hinv.alloc_spec ho with ⟨hnone, -⟩ | ⟨s', L', b, hsome, hinv', -⟩
    · rw [hnone] at hrun
      cases hrun
    · rw [hsome] at hrun
      cases hrun
      exact ⟨L', hinv'⟩
  | allocNone _ ho hrun ih =>
    obtain ⟨L, hinv⟩ := ih
    rcases hinv.alloc_spec ho with ⟨hnone, -⟩ | ⟨s', L', b, hsome, hinv', -⟩
    · rw [hnone] at hrun
      cases hrun
      exact ⟨L, hinv⟩
    · rw [hsome] at hrun
      cases hrun
  | free _ hb hrun ih =>
    obtain ⟨L, hinv⟩ := ih
    obtain ⟨⟨s', L', hspec, hinv', -⟩, -⟩ := hinv.free_spec hb
    rw [hspec] at hrun
    cases hrun
    exact ⟨L', hinv'⟩
  | write _ hmem ih =>
    obtain ⟨L, hinv⟩ := ih
    exact ⟨L, hinv.write hmem⟩

/-- **Safety of the buddy allocator over whole runs.**  In every reachable state
the eleven chains read as lists `L` such that

* free and live blocks are aligned, pairwise apart, and cover exactly the memory
  fed, so that `count_free_memory` returns the bytes fed minus the bytes live;
* below order 10 a pair's bit is set exactly when one of the two buddies, and not
  the other, is on the list;
* `alloc` does not panic, and what it returns is apart from every live block;
* `free` of a live block does not panic, and unlinks only blocks that are on the
  list they are unlinked from. -/
theorem buddy_run_safety {S : ℕ} (hS : 4096 ∣ S) {r : BuddyRun} (h : BuddyReachable S r) :
    ∃ L : ℕ → List ℕ,
      (∀ o ≤ 10, DChain r.buddy.mem 0 (r.buddy.freeList o) (L o)) ∧
      (∀ b ∈ freeBlocks L ++ r.live, b.Aligned) ∧
      ((freeBlocks L ++ r.live).map Block.extent).Pairwise Extent.Apart ∧
      (∀ x, (∃ b ∈ freeBlocks L ++ r.live, b.extent.Mem x) ↔ ∃ e ∈ r.fed, e.Mem x) ∧
      (totalSize (r.live.map Block.extent) ≤ totalSize r.fed ∧
        ∃ n, ∀ fuel ≥ n, r.buddy.countFreeMemory fuel =
          some (totalSize r.fed - totalSize (r.live.map Block.extent))) ∧
      (∀ o < 10, ∀ a, 2 ^ (12 + o) ∣ a → physOffset ≤ a →
        a < physOffset + r.buddy.bitmapSize * 2 ^ 15 →
        (r.buddy.bit (pairBit r.buddy o a) = true ↔
          Xor (a ∈ L o) (a ^^^ 2 ^ (12 + o) ∈ L o))) ∧
      (∀ order ≤ 10, ∃ res, r.buddy.alloc order = some res ∧
        ∀ a, res.2 = some a → ∀ b ∈ r.live, (Block.mk a order).extent.Apart b.extent) ∧
      (∀ b ∈ r.live, (∃ s', r.buddy.free b.addr b.order = some s') ∧
        ∀ u ∈ freeUnlinks maxOrder r.buddy (andNot b.addr 0xFFF) (min b.order (maxOrder - 1)),
          BuddyInv.OnList u.1 u.2.1 u.2.2) := by
  obtain ⟨L, hinv⟩ := h.inv hS
  refine ⟨L, hinv.reads, hinv.aligned, hinv.pairwise_apart, ?_, hinv.countFreeMemory_spec, ?_,
    ?_, ?_⟩
  · intro x
    constructor
    · rintro ⟨b, hb, hx⟩
      refine exists_mem_of_coverCount_pos ?_
      rw [← hinv.cover x]
      exact coverCount_pos_of_mem (List.mem_map_of_mem hb) hx
    · rintro ⟨e, he, hx⟩
      have hpos := coverCount_pos_of_mem he hx
      rw [← hinv.cover x] at hpos
      obtain ⟨f, hf, hx'⟩ := exists_mem_of_coverCount_pos hpos
      obtain ⟨b, hb, rfl⟩ := List.mem_map.mp hf
      exact ⟨b, hb, hx'⟩
  · intro o ho a hdvd hlo hhi
    rw [hinv.bits o ho a hdvd hlo hhi]
    by_cases hmem : a ∈ L o <;> by_cases hbud : a ^^^ 2 ^ (12 + o) ∈ L o <;>
      simp [hmem, hbud, Xor]
  · intro order ho
    rcases hinv.alloc_spec ho with ⟨hnone, -⟩ | ⟨s', L', b, hsome, hinv', -⟩
    · exact ⟨_, hnone, fun a ha => by cases ha⟩
    · refine ⟨_, hsome, fun a ha c hc => ?_⟩
      obtain rfl : b = a := Option.some.inj ha
      have hpair := (List.pairwise_append.mp (List.map_append ▸ hinv'.pairwise_apart)).2.1
      rw [List.map_cons, List.pairwise_cons] at hpair
      exact hpair.1 _ (List.mem_map_of_mem hc)
  · intro b hb
    obtain ⟨⟨s', L', hspec, -⟩, htrace⟩ := hinv.free_spec hb
    exact ⟨⟨s', hspec⟩, htrace⟩

/-- An allocator before `init`. -/
def sampleBlank : BuddyAllocator := ⟨fun _ => 0, fun _ => 0#8, 0, 0, fun _ => ⟨0, 0⟩⟩

/-- An allocator with one page of bitmap, fed 8 KiB. -/
def sampleFed : Option BuddyAllocator :=
  (sampleBlank.init (fun _ => 0#8) 4096 physOffset).addFreeRegion physOffset (physOffset + 8192)

/-- The run that allocates a page out of those 8 KiB: the block of order 1 is
split, the lower half is live and the upper half free. -/
theorem buddy_run_safety_sample :
    ∃ (r : BuddyRun) (L : ℕ → List ℕ), BuddyReachable 4096 r ∧ r.live = [⟨physOffset, 0⟩] ∧
      DChain r.buddy.mem 0 (r.buddy.freeList 0) (L 0) ∧
      (r.buddy.bit (pairBit r.buddy 0 physOffset) = true ↔
        Xor (physOffset ∈ L 0) (physOffset ^^^ 2 ^ 12 ∈ L 0)) := by
  have hsteps : sampleFed.any (fun s => (s.alloc 0).any fun p =>
      decide (p.2 = some physOffset ∧ p.1.bitmapSize = 4096)) = true := by
    decide
  obtain ⟨s, hfed, hnext⟩ := (Option.any_eq_true _ _).mp hsteps
  obtain ⟨⟨s', a⟩, halloc, hres⟩ := (Option.any_eq_true _ _).mp hnext
  obtain ⟨rfl, hsize⟩ := of_decide_eq_true hres
  have hfeed := (BuddyReachable.init (S := 4096) sampleBlank).feed (by decide) (by decide)
    (by decide) le_rfl (by decide) (by simp) hfed
  have hrun := hfeed.alloc (by decide) halloc
  obtain ⟨L, hreads, -, -, -, -, hbits, -⟩ := buddy_run_safety (by decide) hrun
  refine ⟨_, L, hrun, rfl, hreads 0 (by decide),
    hbits 0 (by decide) physOffset (by decide) le_rfl ?_⟩
  show physOffset < physOffset + s'.bitmapSize * 2 ^ 15
  rw [hsize]
  decide

end KernelR.Mm
