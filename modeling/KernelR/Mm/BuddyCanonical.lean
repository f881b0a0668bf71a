import KernelR.Foundations.Dyadic
import KernelR.Foundations.Run
import KernelR.Mm.BuddyRuns

/-!
# Coalescing is complete

An allocator that was fed one range, and then allocates and frees in any order. The
blocks on its lists are dyadic blocks of the levels 12 to 22, and they form a canonical
family: no two buddies are both free below order 10, because `add_free_region` carves as
much as fits, `alloc` pushes only halves whose other half is out on loan, and `free`
looks for the buddy first.

So the lists are determined by the set of free addresses. Two consequences are proved in
`buddy_coalescing`: `alloc` fails only if there is no aligned run of free pages of the
order asked for, and when everything has been given back, each list has the blocks it had
in the beginning.
-/

namespace KernelR.Mm

open List Option Foundations BuddyAllocator

/-! ### Blocks as dyadic blocks -/

namespace Block

/-- The block as a dyadic block. -/
def dyadic (b : Block) : DyadicBlock := ⟨12 + b.order, b.addr / 2 ^ (12 + b.order)⟩

variable {b c : Block} {x : ℕ}

theorem mem_dyadic (hb : 2 ^ (12 + b.order) ∣ b.addr) : b.dyadic.Mem x ↔ b.extent.Mem x := by
  obtain ⟨q, hq⟩ := hb
  have hpos : 0 < 2 ^ (12 + b.order) := Nat.two_pow_pos _
  show x / 2 ^ (12 + b.order) = b.addr / 2 ^ (12 + b.order) ↔
    b.addr ≤ x ∧ x < b.addr + 2 ^ (12 + b.order)
  rw [hq, Nat.mul_div_cancel_left _ hpos, Nat.div_eq_iff hpos, Nat.mul_comm q]
  omega

theorem dyadic_inj (hb : 2 ^ (12 + b.order) ∣ b.addr) (hc : 2 ^ (12 + c.order) ∣ c.addr)
    (h : b.dyadic = c.dyadic) : b = c := by
  obtain ⟨b₁, o⟩ := b
  obtain ⟨c₁, o'⟩ := c
  obtain rfl : o = o' := Nat.add_left_cancel (congrArg DyadicBlock.level h)
  have hindex : b₁ / 2 ^ (12 + o) = c₁ / 2 ^ (12 + o) := congrArg DyadicBlock.index h
  have haddr : b₁ = c₁ := Nat.div_left_inj hb hc |>.mp hindex
  rw [haddr]

theorem dyadic_sibling {a o : ℕ} (ha : 2 ^ (12 + o) ∣ a) :
    (Block.mk a o).dyadic.sibling = (Block.mk (a ^^^ 2 ^ (12 + o)) o).dyadic := by
  have hpos : 0 < 2 ^ (12 + o) := Nat.two_pow_pos _
  show (⟨12 + o, if a / 2 ^ (12 + o) % 2 = 0 then a / 2 ^ (12 + o) + 1
    else a / 2 ^ (12 + o) - 1⟩ : DyadicBlock) = ⟨12 + o, (a ^^^ 2 ^ (12 + o)) / 2 ^ (12 + o)⟩
  rw [xor_two_pow_of_dvd ha]
  obtain ⟨q, rfl⟩ := ha
  rw [Nat.mul_div_cancel_left _ hpos]
  split_ifs with heven
  · rw [Nat.add_div_right _ hpos, Nat.mul_div_cancel_left _ hpos]
  · rw [← Nat.mul_sub_one, Nat.mul_div_cancel_left _ hpos]

end Block

/-- The blocks on the lists. -/
def freeFamily (L : ℕ → List ℕ) : Set DyadicBlock := {d | ∃ b ∈ freeBlocks L, b.dyadic = d}

/-- The address is in the range and in no live block. -/
def IsFree (start stop : ℕ) (live : List Block) (x : ℕ) : Prop :=
  (start ≤ x ∧ x < stop) ∧ ∀ b ∈ live, ¬ b.extent.Mem x

section Lists

variable {s s' : BuddyAllocator} {L L' : ℕ → List ℕ} {live : List Block} {fed : List Extent}
  {o a start stop : ℕ}

theorem mem_freeFamily (h : BuddyCore s L live fed) (ha : 2 ^ (12 + o) ∣ a) (ho : o ≤ 10) :
    (Block.mk a o).dyadic ∈ freeFamily L ↔ a ∈ L o := by
  constructor
  · rintro ⟨b, hb, hd⟩
    obtain rfl := Block.dyadic_inj (h.aligned b (mem_append_left _ hb)).2 ha hd
    exact (mem_freeBlocks.mp hb).2
  · exact fun hmem => ⟨⟨a, o⟩, mem_freeBlocks.mpr ⟨ho, hmem⟩, rfl⟩

/-- **The lists are canonical** if no two buddies are on them. -/
theorem BuddyCore.canonical (h : BuddyCore s L live fed) (hmerged : Merged L) :
    DyadicBlock.Canonical 22 (freeFamily L) where
  level_le := by
    rintro d ⟨b, hb, rfl⟩
    exact Nat.add_le_add_left (mem_freeBlocks.mp hb).1 12
  apart := by
    rintro d ⟨b, hb, rfl⟩ e ⟨c, hc, rfl⟩ x hbx hcx
    have hbx' := (Block.mem_dyadic (h.aligned b (mem_append_left _ hb)).2).mp hbx
    have hcx' := (Block.mem_dyadic (h.aligned c (mem_append_left _ hc)).2).mp hcx
    have hpair : (freeBlocks L).Pairwise fun b c => b.extent.Apart c.extent :=
      pairwise_map.mp (pairwise_append.mp (map_append ▸ h.pairwise_apart)).1
    by_contra hne
    have : Std.Symm fun b c : Block => b.extent.Apart c.extent := ⟨fun _ _ => Extent.Apart.symm⟩
    exact hpair.forall hb hc (fun heq => hne (congrArg Block.dyadic heq)) x hbx' hcx'
  merged := by
    rintro d ⟨b, hb, rfl⟩ hlevel hsibling
    have hdvd := (h.aligned b (mem_append_left _ hb)).2
    have ho : b.order < 10 := by
      have hlt : 12 + b.order < 22 := hlevel
      omega
    rw [Block.dyadic_sibling hdvd, mem_freeFamily h (two_pow_dvd_xor hdvd) ho.le] at hsibling
    exact hmerged b.order ho b.addr (mem_freeBlocks.mp hb).2 hsibling

theorem isFree_iff {x : ℕ} : IsFree start stop live x ↔ 0 < coverCount [⟨start, stop - start⟩] x ∧
      coverCount (live.map Block.extent) x = 0 := by
  have hfed : (0 < coverCount [⟨start, stop - start⟩] x) ↔ start ≤ x ∧ x < stop := by
    rw [coverCount_cons, coverCount_nil, Nat.add_zero, Extent.hit_pos_iff]
    show start ≤ x ∧ x < start + (stop - start) ↔ _
    omega
  have hlive : (∀ b ∈ live, ¬ b.extent.Mem x) ↔ ¬ 0 < coverCount (live.map Block.extent) x := by
    rw [coverCount_pos_iff]
    simp
  rw [IsFree, hfed, hlive, Nat.pos_iff_ne_zero, not_not]

theorem BuddyCore.covers_iff (h : BuddyCore s L live [⟨start, stop - start⟩]) (x : ℕ) :
    (∃ d ∈ freeFamily L, d.Mem x) ↔ IsFree start stop live x := by
  have hfree : (∃ d ∈ freeFamily L, d.Mem x) ↔
      0 < coverCount ((freeBlocks L).map Block.extent) x := by
    rw [coverCount_pos_iff]
    constructor
    · rintro ⟨d, ⟨b, hb, rfl⟩, hx⟩
      have hdvd := (h.aligned b (mem_append_left _ hb)).2
      exact ⟨_, mem_map_of_mem hb, (Block.mem_dyadic hdvd).mp hx⟩
    · rintro ⟨e, he, hx⟩
      obtain ⟨b, hb, rfl⟩ := mem_map.mp he
      have hdvd := (h.aligned b (mem_append_left _ hb)).2
      exact ⟨_, ⟨b, hb, rfl⟩, (Block.mem_dyadic hdvd).mpr hx⟩
  have hcover := h.cover x
  have honce := h.once x
  rw [map_append, coverCount_append] at hcover
  rw [isFree_iff, hfree]
  omega

/-- Every address of the aligned block of this order is free. -/
def FreeRun (start stop : ℕ) (live : List Block) (o a : ℕ) : Prop :=
  2 ^ (12 + o) ∣ a ∧ ∀ x, a ≤ x → x < a + 2 ^ (12 + o) → IsFree start stop live x

/-- An aligned run of free pages is part of a block on a list of its order or above. -/
theorem BuddyCore.exists_list (h : BuddyCore s L live [⟨start, stop - start⟩])
    (hmerged : Merged L) (ho : o ≤ 10) (hrun : FreeRun start stop live o a) :
    ∃ k, o ≤ k ∧ k ≤ 10 ∧ L k ≠ [] := by
  have hcovered : DyadicBlock.Covered (freeFamily L) (Block.mk a o).dyadic := by
    intro x hx
    obtain ⟨hlo, hhi⟩ := (Block.mem_dyadic (b := ⟨a, o⟩) hrun.1).mp hx
    exact (h.covers_iff x).mpr (hrun.2 x hlo hhi)
  obtain ⟨j, b, hb, hup⟩ := (h.canonical hmerged).exists_up_mem (Nat.add_le_add_left ho 12) hcovered
  obtain ⟨hk, hmem⟩ := mem_freeBlocks.mp hb
  have hlevel : 12 + b.order = 12 + o + j := congrArg DyadicBlock.level hup
  exact ⟨b.order, by omega, hk, ne_nil_of_mem hmem⟩

/-- **`alloc` fails only if there is nothing**: no aligned run of free pages. -/
theorem BuddyInv.alloc_none_iff (h : BuddyInv s L live [⟨start, stop - start⟩])
    (hmerged : Merged L) (ho : o ≤ 10) :
    (∃ s', s.alloc o = some (s', none)) ↔ ¬ ∃ a, FreeRun start stop live o a := by
  rcases h.alloc_spec ho with ⟨hnone, hempty⟩ | ⟨s', L', b, hsome, hinv, -⟩
  · refine iff_of_true ⟨s, hnone⟩ ?_
    rintro ⟨a, hrun⟩
    obtain ⟨k, hok, hk, hne⟩ := h.exists_list hmerged ho hrun
    exact hne (hempty k hok hk)
  · refine iff_of_false ?_ (not_not_intro ⟨b, ?_⟩)
    · rintro ⟨s₁, hnone⟩
      exact nomatch hsome.symm.trans hnone
    · -- the block that was handed out was free
      have hmem : (⟨b, o⟩ : Block) ∈ freeBlocks L' ++ ⟨b, o⟩ :: live := by simp
      refine ⟨(hinv.aligned _ hmem).2, fun x hlo hhi => ?_⟩
      have hx : (Block.mk b o).extent.Mem x := ⟨hlo, hhi⟩
      have hcover := hinv.cover x
      have honce := hinv.once x
      rw [map_append, map_cons, coverCount_append, coverCount_cons, Extent.hit_eq_one hx] at hcover
      rw [isFree_iff]
      omega

/-- Lists that belong to the same free memory have the same blocks. -/
theorem BuddyCore.lists_eq {live' : List Block} (h : BuddyCore s L live [⟨start, stop - start⟩])
    (hmerged : Merged L) (h' : BuddyCore s' L' live' [⟨start, stop - start⟩])
    (hmerged' : Merged L') (hlive : ∀ x, IsFree start stop live x ↔ IsFree start stop live' x)
    (ho : o ≤ 10) : a ∈ L o ↔ a ∈ L' o := by
  have hfamily : freeFamily L = freeFamily L' :=
    (h.canonical hmerged).ext (h'.canonical hmerged') fun x => by
      rw [h.covers_iff, h'.covers_iff, hlive]
  have hdvd : ∀ {s : BuddyAllocator} {L : ℕ → List ℕ} {live : List Block} {fed : List Extent},
      BuddyCore s L live fed → a ∈ L o → 2 ^ (12 + o) ∣ a := by
    intro s L live fed h ha
    exact (h.aligned ⟨a, o⟩ (mem_append_left _ (mem_freeBlocks.mpr ⟨ho, ha⟩))).2
  constructor
  · intro ha
    have hd := hdvd h ha
    rw [← mem_freeFamily h' hd ho, ← hfamily, mem_freeFamily h hd ho]
    exact ha
  · intro ha
    have hd := hdvd h' ha
    rw [← mem_freeFamily h hd ho, hfamily, mem_freeFamily h' hd ho]
    exact ha

/-- Two buddies are not both carved: the lower one would have been larger. -/
theorem BuddyAllocator.Carved.ne_buddy {a b : ℕ} (ho : o < 10) (hdvd : 2 ^ (12 + o) ∣ a)
    (ha : Carved stop o a) (hb : Carved stop o b) (hae : a + 2 ^ (12 + o) ≤ stop)
    (hbe : b + 2 ^ (12 + o) ≤ stop) :
    b ≠ a ^^^ 2 ^ (12 + o) := by
  obtain ⟨q, hq⟩ := hdvd
  have hquot : a / 2 ^ (12 + o) = q := by
    rw [hq, Nat.mul_div_cancel_left _ (Nat.two_pow_pos _)]
  have hpow : 2 ^ (12 + (o + 1)) = 2 ^ (12 + o) * 2 := Nat.pow_succ ..
  intro hbuddy
  rw [xor_two_pow_of_dvd ⟨q, hq⟩, hquot] at hbuddy
  split_ifs at hbuddy with heven
  · have hgt := ha ho (by
      rw [hq, hpow]
      exact Nat.mul_dvd_mul_left _ (Nat.dvd_of_mod_eq_zero heven))
    omega
  · have hlow : b = 2 ^ (12 + o) * (q - 1) := by rw [hbuddy, hq, Nat.mul_sub_one]
    have hgt := hb ho (by rw [hlow, hpow]; exact Nat.mul_dvd_mul_left _ (by omega))
    have hge : 2 ^ (12 + o) ≤ a := by
      rw [hq]
      exact Nat.le_mul_of_pos_right _ (by omega)
    omega

theorem BuddyCore.merged_of_carved (h : BuddyCore s L live [⟨start, stop - start⟩])
    (hcarved : ∀ o a, a ∈ L o → Carved stop o a) : Merged L := by
  have hend : ∀ {k b}, k ≤ 10 → b ∈ L k → b + 2 ^ (12 + k) ≤ stop := by
    intro k b hk hb
    have hpos : 0 < 2 ^ (12 + k) := Nat.two_pow_pos _
    have hlast : (Block.mk b k).dyadic.Mem (b + 2 ^ (12 + k) - 1) := by
      have hmem : (⟨b, k⟩ : Block) ∈ freeBlocks L := mem_freeBlocks.mpr ⟨hk, hb⟩
      refine (Block.mem_dyadic (h.aligned _ (mem_append_left _ hmem)).2).mpr ?_
      show b ≤ _ ∧ _ < b + 2 ^ (12 + k)
      omega
    have hfree := (h.covers_iff _).mp ⟨_, ⟨⟨b, k⟩, mem_freeBlocks.mpr ⟨hk, hb⟩, rfl⟩, hlast⟩
    have hlt := hfree.1.2
    omega
  intro o ho a ha hbuddy
  have hmem : (⟨a, o⟩ : Block) ∈ freeBlocks L := mem_freeBlocks.mpr ⟨ho.le, ha⟩
  exact (hcarved o a ha).ne_buddy ho (h.aligned _ (mem_append_left _ hmem)).2
    (hcarved o _ hbuddy) (hend ho.le ha) (hend ho.le hbuddy) rfl

end Lists

/-! ### Carving -/

/-- Blocks that follow one another up to `stop`. -/
def Consecutive (stop : ℕ) : ℕ → List Block → Prop
  | start, [] => start = stop
  | start, b :: rest => b.addr = start ∧ Consecutive stop (start + 2 ^ (12 + b.order)) rest

/-- Push a block and flip the bit of its pair. -/
def feed (s : BuddyAllocator) (b : Block) : BuddyAllocator :=
  (s.pushBlock b.order b.addr).flipBit (pairBit s b.order b.addr)

theorem exists_carving {start stop : ℕ} (hstart : 4096 ∣ start) (hstop : 4096 ∣ stop)
    (hle : start ≤ stop) :
    ∃ blocks, Consecutive stop start blocks ∧
      (∀ b ∈ blocks, b.Aligned ∧ b.addr + 2 ^ (12 + b.order) ≤ stop ∧
        Carved stop b.order b.addr) ∧
      ∀ (s : BuddyAllocator) fuel, stop - start ≤ fuel → addFreeRegionLoop fuel s start stop =
        if ∀ b ∈ blocks, pairBit s b.order b.addr / 8 < s.bitmapSize then some (blocks.foldl feed s)
        else none := by
  induction hn : stop - start using Nat.strong_induction_on generalizing start with
  | _ n ih =>
    obtain rfl | hlt := Nat.eq_or_lt_of_le hle
    · refine ⟨[], rfl, by simp, fun s fuel _ => ?_⟩
      cases fuel <;> simp [addFreeRegionLoop]
    · obtain ⟨o, ho, hcarve, hdvd, hfit, hcarved⟩ := carveOrder_spec hstart hstop hlt
      have hpos := Nat.two_pow_pos (12 + o)
      obtain ⟨blocks, hnext, hblocks, hloop⟩ := ih (stop - (start + 2 ^ (12 + o))) (by omega)
        (Nat.dvd_add hstart (pow_dvd_pow 2 (Nat.le_add_right 12 o))) hfit rfl
      refine ⟨⟨start, o⟩ :: blocks, ⟨rfl, hnext⟩,
        forall_mem_cons.mpr ⟨⟨⟨ho, hdvd⟩, hfit, hcarved⟩, hblocks⟩, fun s fuel hfuel => ?_⟩
      obtain ⟨fuel, rfl⟩ : ∃ m, fuel = m + 1 := ⟨fuel - 1, by omega⟩
      rw [addFreeRegionLoop, if_pos hlt, hcarve]
      simp only [bind_eq_bind, bind_some, Nat.one_shiftLeft, forall_mem_cons]
      by_cases hin : pairBit s o start / 8 < s.bitmapSize
      · have htoggle := toggleBit_eq (s := s.pushBlock o start) hin
        rw [htoggle, bind_some, hloop _ fuel (by omega)]
        simp only [hin, true_and]
        rfl
      · have hnone : (s.pushBlock o start).toggleBit o start = none :=
          eq_none_iff_forall_ne_some.mpr fun _ h => hin (toggleBit_some h).1
        rw [hnone, bind_none, if_neg fun h => hin h.1]

/-- **`add_free_region` carves greedily.**  The range is cut into aligned blocks that follow one
another and no two of which are buddies. Each of them is pushed and the bit of its pair flipped;
nothing fails unless a bit is outside of the bitmap. -/
theorem addFreeRegion_carves {start stop : ℕ} (hstart : 4096 ∣ start) (hstop : 4096 ∣ stop)
    (hle : start ≤ stop) :
    ∃ blocks, Consecutive stop start blocks ∧ (∀ b ∈ blocks, b.Aligned) ∧
      (∀ b ∈ blocks, ∀ c ∈ blocks, b.order < 10 → c.order = b.order →
        c.addr ≠ b.addr ^^^ 2 ^ (12 + b.order)) ∧
      ∀ s : BuddyAllocator, s.addFreeRegion start stop =
        if ∀ b ∈ blocks, pairBit s b.order b.addr / 8 < s.bitmapSize then some (blocks.foldl feed s)
        else none := by
  obtain ⟨blocks, hcons, hblocks, hloop⟩ := exists_carving hstart hstop hle
  refine ⟨blocks, hcons, fun b hb => (hblocks b hb).1, fun b hb c hc ho horder => ?_,
    fun s => hloop s _ le_rfl⟩
  obtain ⟨⟨-, hdvd⟩, hbe, hbc⟩ := hblocks b hb
  obtain ⟨-, hce, hcc⟩ := hblocks c hc
  rw [horder] at hce hcc
  exact hbc.ne_buddy ho hdvd hcc hbe hce

/-- Three pages from an odd one on. -/
theorem addFreeRegion_carves_three :
    ∃ blocks, Consecutive 16384 4096 blocks ∧ ∀ b ∈ blocks, b.Aligned := by
  obtain ⟨blocks, hcons, haligned, -⟩ :=
    addFreeRegion_carves (show 4096 ∣ 4096 by decide) (show 4096 ∣ 16384 by decide) (by decide)
  exact ⟨blocks, hcons, haligned⟩

/-! ### Runs -/

/-- An allocator in use, and the blocks it has handed out. -/
structure BuddyPool where
  buddy : BuddyAllocator
  live : List Block

/-- What is done with it. -/
inductive BuddyCall where
  | alloc (order : ℕ)
  | free (b : Block)
  /-- the owners of live blocks write into them -/
  | write (mem : ℕ → FreeBlock)

namespace BuddyPool

/-- A call; `alloc` caps its order, and `free` is for live blocks. -/
def step (p : BuddyPool) : BuddyCall → Option BuddyPool
  | .alloc order => (p.buddy.alloc order).map fun res =>
    ⟨res.1, match res.2 with
      | none => p.live
      | some a => ⟨a, min order (maxOrder - 1)⟩ :: p.live⟩
  | .free b =>
    if b ∈ p.live then (p.buddy.free b.addr b.order).map fun s => ⟨s, p.live.erase b⟩ else none
  | .write mem => some { p with buddy := { p.buddy with mem := mem } }

/-- Only live blocks are written to. -/
def Own (p : BuddyPool) : BuddyCall → BuddyPool → Prop
  | .write mem, _ => ∀ x, (∀ b ∈ p.live, ¬ b.extent.Mem x) → mem x = p.buddy.mem x
  | _, _ => True

/-- The allocator right after `init`, with a zeroed bitmap of `S` bytes, and one call of
`add_free_region`. -/
def Fed (blank : BuddyAllocator) (S start stop : ℕ) (p : BuddyPool) : Prop :=
  p.live = [] ∧
    (blank.init (fun _ => 0#8) S physOffset).addFreeRegion start stop = some p.buddy

/-- The states of a run that begins like that. -/
def Reachable (blank : BuddyAllocator) (S start stop : ℕ) : BuddyPool → Prop :=
  Run (Fed blank S start stop) step Own

end BuddyPool

/-- A page-aligned range of the direct map in reach of a bitmap of `S` bytes. -/
structure InReach (S start stop : ℕ) : Prop where
  sizeDvd : 4096 ∣ S
  startDvd : 4096 ∣ start
  stopDvd : 4096 ∣ stop
  le : start ≤ stop
  low : physOffset ≤ start
  high : stop ≤ physOffset + S * 2 ^ 15

section Runs

variable {blank : BuddyAllocator} {S start stop : ℕ} {p : BuddyPool}

/-- The lists of the allocator, with all that is known of them. -/
structure BuddyPool.Lists (start stop : ℕ) (p : BuddyPool) (L : ℕ → List ℕ) : Prop where
  inv : BuddyInv p.buddy L p.live [⟨start, stop - start⟩]
  merged : Merged L

theorem BuddyPool.Fed.lists (hreach : InReach S start stop)
    (h : BuddyPool.Fed blank S start stop p) : ∃ L, p.Lists start stop L := by
  obtain ⟨hlive, hrun⟩ := h
  have hsize : (blank.init (fun _ => 0#8) S physOffset).bitmapSize = S := rfl
  obtain ⟨s', L, hspec, hinv, hcarved⟩ :=
    addFreeRegionLoop_spec le_rfl hreach.startDvd hreach.stopDvd hreach.le hreach.low
      (by rw [hsize]; exact hreach.high) (by simp) (buddyInv_init blank hreach.sizeDvd)
  rw [addFreeRegion, hspec] at hrun
  cases hrun
  rw [← hlive] at hinv
  refine ⟨L, hinv, hinv.merged_of_carved fun o a ha => ?_⟩
  exact (hcarved o a ha).resolve_left (not_mem_nil)

theorem BuddyPool.Lists.step {L : ℕ → List ℕ} (h : p.Lists start stop L) {call : BuddyCall}
    {p' : BuddyPool} (hstep : p.step call = some p') (hown : p.Own call p') :
    ∃ L', p'.Lists start stop L' := by
  cases call with
  | alloc order =>
    obtain ⟨⟨s', res⟩, hrun, rfl⟩ := map_eq_some_iff.mp hstep
    have hcap : p.buddy.alloc (min order (maxOrder - 1)) = some (s', res) := by
      rw [BuddyAllocator.alloc, min_assoc, min_self]
      exact hrun
    have ho : min order (maxOrder - 1) ≤ 10 := Nat.min_le_right _ _
    rcases h.inv.alloc_spec ho with ⟨hnone, -⟩ | ⟨s₁, L', b, hsome, hinv, hmerged⟩
    · obtain ⟨rfl, rfl⟩ := Prod.mk.inj (some.inj (hnone.symm.trans hcap))
      exact ⟨L, h.inv, h.merged⟩
    · obtain ⟨rfl, rfl⟩ := Prod.mk.inj (some.inj (hsome.symm.trans hcap))
      exact ⟨L', hinv, hmerged h.merged⟩
  | free b =>
    obtain ⟨hb, hstep⟩ := ite_none_right_eq_some.mp hstep
    obtain ⟨s', hrun, rfl⟩ := map_eq_some_iff.mp hstep
    obtain ⟨⟨s₁, L', hspec, hinv, hmerged⟩, -⟩ := h.inv.free_spec hb
    obtain rfl := some.inj (hspec.symm.trans hrun)
    exact ⟨L', hinv, hmerged h.merged⟩
  | write mem =>
    cases hstep
    exact ⟨L, h.inv.write hown, h.merged⟩

theorem BuddyPool.Reachable.lists (hreach : InReach S start stop)
    (h : BuddyPool.Reachable blank S start stop p) : ∃ L, p.Lists start stop L := by
  refine Run.invariant (I := fun p => ∃ L, p.Lists start stop L) ?_ ?_ h
  · intro p hfed
    exact hfed.lists hreach
  · rintro p call p' - ⟨L, hlists⟩ hstep hown
    exact hlists.step hstep hown

/-- **Coalescing is complete.**  After one `add_free_region` on a page-aligned range, and
any sequence of `alloc` and of `free` of live blocks, the chains read as lists `L` such
that

* no two buddies of an order below 10 are both on their list;
* `alloc` returns `None` exactly if there is no aligned run of free pages of the order
  (orders above 10 are capped);
* if nothing is live, each list has exactly the blocks it had after `add_free_region`. -/
theorem buddy_coalescing (hreach : InReach S start stop)
    (h : BuddyPool.Reachable blank S start stop p) :
    ∃ L : ℕ → List ℕ, (∀ o ≤ 10, DChain p.buddy.mem 0 (p.buddy.freeList o) (L o)) ∧
      (∀ o < 10, ∀ a ∈ L o, a ^^^ 2 ^ (12 + o) ∉ L o) ∧
      (∀ order, (∃ s', p.buddy.alloc order = some (s', none)) ↔
        ¬ ∃ a, FreeRun start stop p.live (min order 10) a) ∧
      (p.live = [] → ∀ (p₀ : BuddyPool) (L₀ : ℕ → List ℕ), BuddyPool.Fed blank S start stop p₀ →
        (∀ o ≤ 10, DChain p₀.buddy.mem 0 (p₀.buddy.freeList o) (L₀ o)) →
        ∀ o ≤ 10, ∀ a, a ∈ L o ↔ a ∈ L₀ o) := by
  obtain ⟨L, hinv, hmerged⟩ := BuddyPool.Reachable.lists hreach h
  refine ⟨L, hinv.reads, hmerged, fun order => ?_, fun hlive p₀ L₀ hfed hreads o ho a => ?_⟩
  · have hcap : p.buddy.alloc order = p.buddy.alloc (min order 10) := by
      rw [BuddyAllocator.alloc, BuddyAllocator.alloc, maxOrder, min_assoc, min_self]
    rw [hcap]
    exact hinv.alloc_none_iff hmerged (Nat.min_le_right _ _)
  · obtain ⟨L₁, hinv₁, hmerged₁⟩ := BuddyPool.Fed.lists hreach hfed
    rw [(hreads o ho).unique (hinv₁.reads o ho)]
    refine hinv.lists_eq hmerged hinv₁.toBuddyCore hmerged₁ (fun x => ?_) ho
    rw [hlive, hfed.1]

/-- 8 KiB, of which one page was allocated and freed again. -/
theorem buddy_coalescing_sample :
    ∃ (p : BuddyPool) (L : ℕ → List ℕ),
      BuddyPool.Reachable sampleBlank 4096 physOffset (physOffset + 8192) p ∧ p.live = [] ∧
      (∀ o ≤ 10, DChain p.buddy.mem 0 (p.buddy.freeList o) (L o)) ∧
      (∀ o < 10, ∀ a ∈ L o, a ^^^ 2 ^ (12 + o) ∉ L o) ∧
      ((∃ s', p.buddy.alloc 2 = some (s', none)) ↔
        ¬ ∃ a, FreeRun physOffset (physOffset + 8192) p.live 2 a) := by
  have hsteps : sampleFed.any (fun s => ((⟨s, []⟩ : BuddyPool).step (.alloc 0)).any fun p =>
      (p.step (.free ⟨physOffset, 0⟩)).any fun p' => decide (p'.live = [])) = true := by
    decide
  obtain ⟨s, hfed, hnext⟩ := (Option.any_eq_true _ _).mp hsteps
  obtain ⟨p, halloc, hnext⟩ := (Option.any_eq_true _ _).mp hnext
  obtain ⟨p', hfree, hlive⟩ := (Option.any_eq_true _ _).mp hnext
  have hstart : BuddyPool.Fed sampleBlank 4096 physOffset (physOffset + 8192) ⟨s, []⟩ :=
    ⟨rfl, hfed⟩
  have hrun : BuddyPool.Reachable sampleBlank 4096 physOffset (physOffset + 8192) p' :=
    .next (.next (.start hstart) halloc trivial) hfree trivial
  obtain ⟨L, hreads, hmerged, hnone, -⟩ := buddy_coalescing
    ⟨by decide, by decide, by decide, by decide, le_rfl, by decide⟩ hrun
  exact ⟨p', L, hrun, of_decide_eq_true hlive, hreads, hmerged, hnone 2⟩

end Runs

end KernelR.Mm
