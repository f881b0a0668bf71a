import KernelR.Mm.BumpSearch
import KernelR.Mm.DirectMap
import KernelR.Mm.HugePage

/-!
# The direct map after boot

`boot.asm` maps the first 1 GiB, and `map_all_physical_memory` the rest of the memory. This
module reads the direct map of the first 512 huge pages off the boot tables
(`BootTables.directMapped`) and follows the loop from there.

The frames for new tables come from the bump allocator in the order of the memory map, and
nothing keeps them in the memory that is mapped. A frame that is taken at page `n` has to lie
in front of it; with such frames the direct map is complete and all that was mapped before
stays, and with any others the kernel faults (`mapAllPhysicalMemory_complete_iff`).
-/

namespace KernelR.Mm

open List Option Foundations

section Boot

variable {m : Machine} {p4 p3 p2 p1 p1' : BitVec 64} {i : BitVec 9}

/-! ### The boot tables -/

variable (hboot : BootTables m p4 p3 p2 p1 p1')

include hboot

theorem BootTables.mem_p4_of_ne (h0 : i ≠ 0#9) (h256 : i ≠ 256#9) :
    (m.setUpPageTables p4 p3 p2 p1 p1').mem p4 i = 0#64 := by
  obtain ⟨⟨h43, h42, h41, h41'⟩, -⟩ := hboot.ne
  rw [setUpPageTables_eq, writeAll_of_notMem, hboot.zeroed p4 mem_cons_self]
  simp [bootWrites, h0, h256, h43, h42, h42.symm, h41.symm, h41'.symm]

theorem BootTables.mem_p3_of_ne (h0 : i ≠ 0#9) :
    (m.setUpPageTables p4 p3 p2 p1 p1').mem p3 i = 0#64 := by
  obtain ⟨⟨h43, -⟩, ⟨h32, h31, h31'⟩, -⟩ := hboot.ne
  rw [setUpPageTables_eq, writeAll_of_notMem, hboot.zeroed p3 (by simp)]
  simp [bootWrites, h0, h43.symm, h32, h32.symm, h31.symm, h31'.symm]

theorem BootTables.mem_p2_zero :
    (m.setUpPageTables p4 p3 p2 p1 p1').mem p2 0#9 = (p1.setWidth 32 ||| 0b11#32).setWidth 64 :=
  hboot.mem_written (by simp) (by simp [bootWrites])

theorem BootTables.mem_p2_one : (m.setUpPageTables p4 p3 p2 p1 p1').mem p2 1#9 =
      (p1'.setWidth 32 ||| 0b11#32).setWidth 64 :=
  hboot.mem_written (by simp) (by simp [bootWrites])

theorem BootTables.mem_p1 (i : BitVec 9) : (m.setUpPageTables p4 p3 p2 p1 p1').mem p1 i =
      (BitVec.ofNat 32 i.toNat * 0x1000#32 ||| 0b11#32).setWidth 64 := by
  refine hboot.mem_written (by simp) ?_
  simp only [bootWrites, mem_append, List.mem_map, mem_range]
  exact Or.inl (Or.inl (Or.inl (Or.inr ⟨_, i.isLt, by rw [ofNat_toNat_index]⟩)))

theorem BootTables.mem_p1' (i : BitVec 9) : (m.setUpPageTables p4 p3 p2 p1 p1').mem p1' i =
      (BitVec.ofNat 32 i.toNat * 0x1000#32 + 0x200000#32 ||| 0b11#32).setWidth 64 := by
  refine hboot.mem_written (by simp) ?_
  simp only [bootWrites, mem_append, List.mem_map, mem_range]
  exact Or.inl (Or.inr ⟨_, i.isLt, by rw [ofNat_toNat_index]⟩)

omit hboot in
theorem follow_p1_entry : ∀ i : BitVec 9,
    follow 3 ((BitVec.ofNat 32 i.toNat * 0x1000#32 ||| 0b11#32).setWidth 64) =
      some (i.setWidth 64 * 0x1000#64) := by
  decide +kernel

omit hboot in
theorem follow_p1'_entry : ∀ i : BitVec 9,
    follow 3 ((BitVec.ofNat 32 i.toNat * 0x1000#32 + 0x200000#32 ||| 0b11#32).setWidth 64) =
      some (i.setWidth 64 * 0x1000#64 + 0x200000#64) := by
  decide +kernel

/-! ### The direct map of the first 1 GiB -/

theorem BootTables.tableAt_one (hi : i ≠ 0#9) :
    (m.setUpPageTables p4 p3 p2 p1 p1').tableAt p4 [i] = if i = 256#9 then some p3 else none := by
  refine (reach_cons_of_some rfl).trans ?_
  split_ifs with h256
  · rw [hboot.mem_p4 (Or.inr h256), follow_boot_entry (hboot.aligned p3 (by simp))]
  · rw [hboot.mem_p4_of_ne hi h256, follow_zero]

theorem BootTables.tableAt_two {j : BitVec 9} (hi : i ≠ 0#9) :
    (m.setUpPageTables p4 p3 p2 p1 p1').tableAt p4 [j, i] =
      if j = 0#9 ∧ i = 256#9 then some p2 else none := by
  have hup := hboot.tableAt_one hi
  by_cases h256 : i = 256#9
  · rw [if_pos h256] at hup
    refine (reach_cons_of_some hup).trans ?_
    by_cases hj : j = 0#9
    · rw [if_pos ⟨hj, h256⟩, hj, hboot.mem_p3, follow_boot_entry (hboot.aligned p2 (by simp))]
    · rw [if_neg fun h => hj h.1, hboot.mem_p3_of_ne hj, follow_zero]
  · rw [if_neg h256] at hup
    rw [if_neg fun h => h256 h.2]
    exact reach_eq_none_of_suffix hup (suffix_cons j [i])

/-- And from the page directory: the first 4 MiB have page tables. -/
theorem BootTables.tableAt_three {j k : BitVec 9} (hi : i ≠ 0#9) :
    (m.setUpPageTables p4 p3 p2 p1 p1').tableAt p4 [k, j, i] =
      if j = 0#9 ∧ i = 256#9 then
        if k = 0#9 then some p1 else if k = 1#9 then some p1' else none
      else none := by
  have hup := hboot.tableAt_two (j := j) hi
  split_ifs at hup ⊢ with hji hk hk'
  · refine (reach_cons_of_some hup).trans ?_
    rw [hk, hboot.mem_p2_zero, follow_boot_entry (hboot.aligned p1 (by simp))]
  · refine (reach_cons_of_some hup).trans ?_
    rw [hk', hboot.mem_p2_one, follow_boot_entry (hboot.aligned p1' (by simp))]
  · have hk2 : 2 ≤ k.toNat := by
      have h0 : k.toNat ≠ 0 := fun h => hk (BitVec.eq_of_toNat_eq h)
      have h1 : k.toNat ≠ 1 := fun h => hk' (BitVec.eq_of_toNat_eq h)
      omega
    obtain ⟨-, hhuge⟩ := hugeFrame_boot_entry k hk2
    refine (reach_cons_of_some hup).trans ?_
    rw [hboot.mem_p2 hk2]
    refine if_pos (Or.inr ⟨rfl, ?_⟩)
    by_contra hno
    rw [hugeFrame, if_neg hno] at hhuge
    cases hhuge
  · exact reach_eq_none_of_suffix hup (suffix_cons k [j, i])

/-- **The tables of the direct map after boot.** -/
theorem BootTables.tableAt_mem {q : List (BitVec 9)} {u : BitVec 64} (hq : NotLow q)
    (hu : (m.setUpPageTables p4 p3 p2 p1 p1').tableAt p4 q = some u) :
    (q, u) ∈ [([], p4), ([256#9], p3), ([0#9, 256#9], p2), ([0#9, 0#9, 256#9], p1),
      ([1#9, 0#9, 256#9], p1')] := by
  obtain ⟨hlen, hlast⟩ := hq
  have hone := fun i => hboot.tableAt_one (i := i)
  have htwo := fun i j => hboot.tableAt_two (i := i) (j := j)
  have hthree := fun i j k => hboot.tableAt_three (i := i) (j := j) (k := k)
  generalize m.setUpPageTables p4 p3 p2 p1 p1' = booted at *
  match q with
  | [] =>
    cases hu
    simp
  | [i] =>
    rw [hone i (by simpa using hlast)] at hu
    obtain ⟨rfl, hu⟩ := ite_none_right_eq_some.mp hu
    cases hu
    simp
  | [j, i] =>
    rw [htwo i j (by simpa using hlast)] at hu
    obtain ⟨⟨rfl, rfl⟩, hu⟩ := ite_none_right_eq_some.mp hu
    cases hu
    simp
  | [k, j, i] =>
    rw [hthree i j k (by simpa using hlast)] at hu
    obtain ⟨⟨rfl, rfl⟩, hleft⟩ := ite_none_right_eq_some.mp hu
    by_cases hk : k = 0#9
    · rw [if_pos hk] at hleft
      cases hleft
      simp [hk]
    · rw [if_neg hk] at hleft
      obtain ⟨rfl, hlast'⟩ := ite_none_right_eq_some.mp hleft
      cases hlast'
      simp
  | _ :: _ :: _ :: _ :: q =>
    simp only [length_cons] at hlen
    omega

omit hboot in
theorem translateAddr_of_table {v : VirtAddr} {t f : BitVec 64}
    (ht : m.tableAt p4 v.path.tail = some t) (hf : follow 3 (m.mem t v.p1Index) = some f) :
    m.translateAddr p4 v = some (f + (v.bits &&& 0xFFF#64)) := by
  have hnone : (m.entryAt p4 v.path.tail).bind hugeFrame = none := by
    rw [show v.path.tail = [v.p2Index, v.p3Index, v.p4Index] from rfl] at ht ⊢
    rw [Machine.tableAt_cons] at ht
    obtain ⟨e, he, hfollow⟩ := bind_eq_some_iff.mp ht
    rw [he, bind_some, hugeFrame, if_neg]
    intro hhuge
    cases hfollow.symm.trans (if_pos (Or.inr ⟨rfl, hhuge⟩))
  have hleaf : m.tableAt p4 v.path = some f := (reach_cons_of_some ht).trans hf
  rw [Machine.translateAddr_eq, hnone, hleaf]
  rfl

/-- **A physical address below 1 GiB is mapped**, and no other one. -/
theorem BootTables.translateAddr_direct {x : ℕ} (hx : x < 2 ^ 47) :
    (m.setUpPageTables p4 p3 p2 p1 p1').translateAddr p4 (.direct x hx) =
      if x < 2 ^ 30 then some (BitVec.ofNat 64 x) else none := by
  have h4 := VirtAddr.p4Index_direct hx
  have h3 := VirtAddr.p3Index_direct hx
  have h2 := VirtAddr.p2Index_direct hx
  have h1 := VirtAddr.p1Index_direct hx
  have hhuge : (VirtAddr.direct x hx).bits &&& 0x1FFFFF#64 = BitVec.ofNat 64 (x % 2 ^ 21) :=
    VirtAddr.offset_direct hx (k := 21) (by decide)
  have hpage : (VirtAddr.direct x hx).bits &&& 0xFFF#64 = BitVec.ofNat 64 (x % 2 ^ 12) :=
    VirtAddr.offset_direct hx (k := 12) (by decide)
  generalize VirtAddr.direct x hx = v at *
  have hne : v.p4Index ≠ 0#9 := by
    intro hzero
    rw [hzero] at h4
    have hval : (0#9).toNat = 0 := rfl
    omega
  have hdir := hboot.tableAt_two (j := v.p3Index) hne
  have htable := hboot.tableAt_three (j := v.p3Index) (k := v.p2Index) hne
  have hiff : (v.p3Index = 0#9 ∧ v.p4Index = 256#9) ↔ x < 2 ^ 30 := by
    rw [← BitVec.toNat_inj, ← BitVec.toNat_inj, h3, h4]
    show x / 2 ^ 30 % 512 = 0 ∧ 256 + x / 2 ^ 39 = 256 ↔ _
    omega
  have hmem2 := hboot.mem_p2 (i := v.p2Index)
  have hmem1 := hboot.mem_p1 v.p1Index
  have hmem1' := hboot.mem_p1' v.p1Index
  generalize m.setUpPageTables p4 p3 p2 p1 p1' = booted at *
  by_cases hx' : x < 2 ^ 30
  · rw [if_pos (hiff.mpr hx')] at hdir htable
    rw [if_pos hx']
    by_cases hk0 : v.p2Index = 0#9
    · rw [if_pos hk0] at htable
      rw [translateAddr_of_table htable (hmem1 ▸ follow_p1_entry v.p1Index), hpage]
      have hlow : x / 2 ^ 21 % 512 = 0 := by rw [← h2, hk0]; rfl
      rw [← BitVec.ofNat_toNat, h1, ← BitVec.ofNat_mul, ← BitVec.ofNat_add]
      exact congrArg (fun y => some (BitVec.ofNat 64 y)) (by omega)
    · rw [if_neg hk0] at htable
      by_cases hk1 : v.p2Index = 1#9
      · rw [if_pos hk1] at htable
        rw [translateAddr_of_table htable (hmem1' ▸ follow_p1'_entry v.p1Index), hpage]
        have hlow : x / 2 ^ 21 % 512 = 1 := by rw [← h2, hk1]; rfl
        rw [← BitVec.ofNat_toNat, h1, ← BitVec.ofNat_mul, ← BitVec.ofNat_add, ← BitVec.ofNat_add]
        exact congrArg (fun y => some (BitVec.ofNat 64 y)) (by omega)
      · have hk : 2 ≤ v.p2Index.toNat := by
          have h0 : v.p2Index.toNat ≠ 0 := fun h => hk0 (BitVec.eq_of_toNat_eq h)
          have h1 : v.p2Index.toNat ≠ 1 := fun h => hk1 (BitVec.eq_of_toNat_eq h)
          omega
        obtain ⟨hused, hframe⟩ := hugeFrame_boot_entry v.p2Index hk
        rw [← hmem2 hk] at hused hframe
        have hentry : booted.entryAt p4 v.path.tail = some (booted.mem p2 v.p2Index) :=
          Machine.entryAt_of_used hdir hused
        rw [Machine.translateAddr_eq, hentry, bind_some, hframe, hhuge, map_some,
          Option.some_or, ← BitVec.ofNat_toNat, h2, ← BitVec.ofNat_mul, ← BitVec.ofNat_add]
        exact congrArg (fun y => some (BitVec.ofNat 64 y)) (by omega)
  · have hno := hiff.not.mpr hx'
    rw [if_neg hno] at hdir htable
    have hentry : booted.entryAt p4 v.path.tail = none := by
      refine (Machine.entryAt_cons _ _ _ _).trans ?_
      rw [hdir, bind_none]
    have hleaf : booted.tableAt p4 v.path = none :=
      reach_eq_none_of_suffix htable (suffix_cons v.p1Index _)
    rw [if_neg hx', Machine.translateAddr_eq, hentry, hleaf]
    rfl

/-- What is known of the machine when `map_all_physical_memory` is called: the tables of
`boot.asm` are in the first 1 GiB, and the frames that the bump allocator is going to hand out
are different ones that hold none of them. -/
structure EarlyBoot (m : Machine) (p4 p3 p2 p1 p1' : BitVec 64) : Prop
    extends BootTables m p4 p3 p2 p1 p1' where
  low : ∀ t ∈ [p4, p3, p2, p1, p1'], t.toNat < 2 ^ 30
  fresh : ∀ frame ∈ m.avail, frame.start ∉ [p4, p3, p2, p1, p1']
  frames : (m.avail.map PhysFrame.start).Nodup

omit hboot in
theorem setUpPageTables_avail (m : Machine) (p4 p3 p2 p1 p1' : BitVec 64) :
    (m.setUpPageTables p4 p3 p2 p1 p1').avail = m.avail := by
  rw [setUpPageTables_eq]
  induction bootWrites p4 p3 p2 p1 p1' generalizing m with
  | nil => rfl
  | cons w W ih => exact ih _

omit hboot in
/-- Except in a page directory, an entry that is used leads on. -/
theorem entryAt_eq_none_iff {p : List (BitVec 9)} (hp : p.length ≠ 2) :
    m.entryAt p4 (i :: p) = none ↔ m.tableAt p4 (i :: p) = none := by
  rw [Machine.tableAt_bind_usedTable m p4 i p hp, Machine.entryAt_cons]
  cases m.tableAt p4 p with
  | none => exact Iff.rfl
  | some t =>
    rw [bind_some, bind_some, Machine.usedTable_eq]
    split_ifs <;> simp

omit hboot in
theorem ne_zero_of_high (hi : 256 ≤ i.toNat) : i ≠ 0#9 := by
  rintro rfl
  exact absurd hi (by decide)

omit hboot in
/-- **The boot tables map the first 512 huge pages.** -/
theorem EarlyBoot.directMapped (hearly : EarlyBoot m p4 p3 p2 p1 p1') :
    DirectMapped (m.setUpPageTables p4 p3 p2 p1 p1') p4 512 := by
  have hboot := hearly.toBootTables
  have hmem : ∀ {q u}, NotLow q → (m.setUpPageTables p4 p3 p2 p1 p1').tableAt p4 q = some u →
      u ∈ [p4, p3, p2, p1, p1'] := fun hq hu =>
    mem_map_of_mem (f := Prod.snd) (hboot.tableAt_mem hq hu)
  refine ⟨⟨⟨?_, ?_, ?_⟩, ?_, ?_⟩, ?_, ?_, ?_⟩
  · intro q r u hq hr hu hu'
    have hnodup : ([([], p4), ([256#9], p3), ([0#9, 256#9], p2), ([0#9, 0#9, 256#9], p1),
        ([1#9, 0#9, 256#9], p1')].map Prod.snd).Nodup := hboot.distinct
    have hpair := List.inj_on_of_nodup_map hnodup (hboot.tableAt_mem hq hu)
      (hboot.tableAt_mem hr hu') rfl
    exact congrArg Prod.fst hpair
  · intro frame hframe q hq hu
    rw [setUpPageTables_avail] at hframe
    exact hearly.fresh frame hframe (hmem hq hu)
  · rw [setUpPageTables_avail]
    exact hearly.frames
  · exact fun q hq _ t ht => hearly.low t (hmem hq ht)
  · exact fun x hx => hboot.translateAddr_direct hx
  · intro i hi
    rw [entryAt_eq_none_iff (by decide), hboot.tableAt_one (ne_zero_of_high hi)]
    by_cases h256 : i = 256#9
    · rw [if_pos h256, h256]
      exact iff_of_false nofun (by decide)
    · have hne : i.toNat ≠ 256 := fun h => h256 (BitVec.eq_of_toNat_eq h)
      rw [if_neg h256]
      exact iff_of_true rfl (by omega)
  · intro i j hi
    rw [entryAt_eq_none_iff (by simp), hboot.tableAt_two (ne_zero_of_high hi)]
    by_cases hji : j = 0#9 ∧ i = 256#9
    · rw [if_pos hji, hji.1, hji.2]
      exact iff_of_false nofun (by decide)
    · have hne : ¬(j.toNat = 0 ∧ i.toNat = 256) := fun h =>
        hji ⟨BitVec.eq_of_toNat_eq h.1, BitVec.eq_of_toNat_eq h.2⟩
      rw [if_neg hji]
      exact iff_of_true rfl (by omega)
  · rw [Machine.entryAt_of_tableAt rfl, Machine.entryAt_of_tableAt rfl, hboot.mem_p4 (Or.inl rfl),
      hboot.mem_p4 (Or.inr rfl)]

/-! ### The whole memory -/

omit hboot in
/-- The first 512 GiB of the lower half are translated as in the direct map. -/
theorem translateAddr_low (htwice : m.entryAt p4 [0#9] = m.entryAt p4 [256#9]) {v : VirtAddr}
    (hv : v.p4Index = 0#9) :
    ∃ hp : v.bits.toNat < 2 ^ 47,
      m.translateAddr p4 v = m.translateAddr p4 (.direct v.bits.toNat hp) := by
  have hindex : v.bits.toNat / 2 ^ 39 % 512 = 0 := by
    rw [← VirtAddr.toNat_index v 39]
    exact congrArg BitVec.toNat hv
  have hlow : v.bits.toNat < 2 ^ 39 := by
    rcases VirtAddr.canonical_iff.mp v.canonical with hlt | hge
    · omega
    · have hlt := v.bits.isLt
      omega
  have hp : v.bits.toNat < 2 ^ 47 := by omega
  have h4 : (VirtAddr.direct v.bits.toNat hp).p4Index = 256#9 := by
    apply BitVec.eq_of_toNat_eq
    rw [VirtAddr.p4Index_direct]
    show _ = 256
    omega
  have h3 : (VirtAddr.direct v.bits.toNat hp).p3Index = v.p3Index :=
    BitVec.eq_of_toNat_eq ((VirtAddr.p3Index_direct hp).trans (VirtAddr.toNat_index v 30).symm)
  have h2 : (VirtAddr.direct v.bits.toNat hp).p2Index = v.p2Index :=
    BitVec.eq_of_toNat_eq ((VirtAddr.p2Index_direct hp).trans (VirtAddr.toNat_index v 21).symm)
  have h1 : (VirtAddr.direct v.bits.toNat hp).p1Index = v.p1Index :=
    BitVec.eq_of_toNat_eq ((VirtAddr.p1Index_direct hp).trans (VirtAddr.toNat_index v 12).symm)
  have hoffset : ∀ k ≤ 47, (VirtAddr.direct v.bits.toNat hp).bits &&& BitVec.ofNat 64 (2 ^ k - 1) =
      v.bits &&& BitVec.ofNat 64 (2 ^ k - 1) := by
    intro k hk
    rw [VirtAddr.offset_direct hp hk]
    have hle : 2 ^ k ≤ 2 ^ 47 := Nat.pow_le_pow_right (by decide) hk
    have hmod : v.bits.toNat % 2 ^ k < 2 ^ k := Nat.mod_lt _ (Nat.two_pow_pos k)
    apply BitVec.eq_of_toNat_eq
    rw [BitVec.toNat_and, BitVec.toNat_ofNat, BitVec.toNat_ofNat,
      Nat.mod_eq_of_lt (a := 2 ^ k - 1) (by omega), Nat.and_two_pow_sub_one_eq_mod,
      Nat.mod_eq_of_lt (by omega)]
  have hsame : m.mem p4 0#9 = m.mem p4 256#9 := by
    rw [Machine.entryAt_of_tableAt rfl, Machine.entryAt_of_tableAt rfl] at htwice
    split_ifs at htwice with h0 h256 h256
    · rw [h0, h256]
    · exact some.inj htwice
  have htable : m.usedTable p4 0#9 = m.usedTable p4 256#9 := by
    rw [Machine.usedTable_eq, Machine.usedTable_eq, hsame]
  refine ⟨hp, ?_⟩
  have h21 : (VirtAddr.direct v.bits.toNat hp).bits &&& 0x1FFFFF#64 = v.bits &&& 0x1FFFFF#64 :=
    hoffset 21 (by decide)
  have h12 : (VirtAddr.direct v.bits.toNat hp).bits &&& 0xFFF#64 = v.bits &&& 0xFFF#64 :=
    hoffset 12 (by decide)
  unfold Machine.translateAddr
  rw [hv, h4, h3, h2, h1, htable, ← h21, ← h12]

omit hboot in
/-- `map_all_physical_memory` maps the whole memory, or it faults. -/
theorem EarlyBoot.mapAllMapped_spec (hearly : EarlyBoot m p4 p3 p2 p1 p1') {highest : BitVec 64}
    (hle : highest.toNat ≤ 2 ^ 44) :
    (Supplies (demands 512 (pagesUpTo highest.toNat - 512)) m.avail ∧
      ∃ m', (m.setUpPageTables p4 p3 p2 p1 p1').mapAllMapped highest p4 = some m' ∧
        DirectMapped m' p4 (512 + (pagesUpTo highest.toNat - 512))) ∨
    (¬Supplies (demands 512 (pagesUpTo highest.toNat - 512)) m.avail ∧
      (m.setUpPageTables p4 p3 p2 p1 p1').mapAllMapped highest p4 = none) := by
  have hpages : pagesUpTo highest.toNat = (highest.toNat + 0x1FFFFF) / 2 ^ 21 := rfl
  rw [mapAllMapped_eq _ p4 hle, ← setUpPageTables_avail m p4 p3 p2 p1 p1']
  exact mapHugePagesMapped_spec hearly.directMapped (Nat.zero_lt_succ 511) (by omega)

omit hboot in
/-- **The direct map is complete** after `map_all_physical_memory`, with everything that was
mapped before left as it was, if and only if each frame that it takes lies in front of the
page at which it is taken. -/
theorem mapAllPhysicalMemory_complete_iff (hearly : EarlyBoot m p4 p3 p2 p1 p1')
    {highest : BitVec 64} (hle : highest.toNat ≤ 2 ^ 44) :
    (∃ m', (m.setUpPageTables p4 p3 p2 p1 p1').mapAllMapped highest p4 = some m' ∧
        (∀ p (hp : p < 2 ^ 47), p < highest.toNat →
          m'.translateAddr p4 (.direct p hp) = some (BitVec.ofNat 64 p)) ∧
        ∀ v a, (m.setUpPageTables p4 p3 p2 p1 p1').translateAddr p4 v = some a →
          m'.translateAddr p4 v = some a) ↔
      Supplies (demands 512 (pagesUpTo highest.toNat - 512)) m.avail := by
  have hpages : pagesUpTo highest.toNat = (highest.toNat + 0x1FFFFF) / 2 ^ 21 := rfl
  have hfirst : 512 ≤ 512 + (pagesUpTo highest.toNat - 512) := Nat.le_add_right _ _
  have hall : highest.toNat ≤ (512 + (pagesUpTo highest.toNat - 512)) * 2 ^ 21 := by omega
  have hrun := hearly.mapAllMapped_spec hle
  have hboot := hearly.directMapped
  -- the PML4 leads nowhere else
  have hnone : ∀ i : BitVec 9, i ≠ 0#9 → i ≠ 256#9 →
      (m.setUpPageTables p4 p3 p2 p1 p1').usedTable p4 i = none := by
    intro i h0 h256
    rw [Machine.usedTable_eq, if_pos (hearly.mem_p4_of_ne h0 h256)]
  generalize m.setUpPageTables p4 p3 p2 p1 p1' = booted at *
  generalize demands 512 (pagesUpTo highest.toNat - 512) = pages at hrun ⊢
  generalize 512 + (pagesUpTo highest.toNat - 512) = n at hrun hfirst hall
  rcases hrun with ⟨hsup, m', hres, hmapped⟩ | ⟨hsup, hres⟩
  · refine iff_of_true ⟨m', hres, fun p hp hlt => ?_, fun v a hv => ?_⟩ hsup
    · rw [hmapped.translate p hp, if_pos (hlt.trans_le hall)]
    · have hdirect : ∀ p (hp : p < 2 ^ 47),
          booted.translateAddr p4 (.direct p hp) = some a →
            m'.translateAddr p4 (.direct p hp) = some a := by
        intro p hp h
        rw [hboot.translate p hp] at h
        obtain ⟨hlt, h⟩ := Option.ite_none_right_eq_some.mp h
        rw [hmapped.translate p hp, if_pos (hlt.trans_le (Nat.mul_le_mul_right _ hfirst)), h]
      by_cases hhigh : 256 ≤ v.p4Index.toNat
      · obtain ⟨p, hp, rfl⟩ := VirtAddr.exists_direct hhigh
        exact hdirect p hp hv
      · by_cases hzero : v.p4Index = 0#9
        · obtain ⟨hp, hold⟩ := translateAddr_low hboot.twice hzero
          obtain ⟨_, hnew⟩ := translateAddr_low hmapped.twice hzero
          rw [hnew]
          exact hdirect _ hp (hold.symm.trans hv)
        · have h256 : v.p4Index ≠ 256#9 := fun h => hhigh (by rw [h]; decide)
          unfold Machine.translateAddr at hv
          rw [hnone _ hzero h256] at hv
          cases hv
  · refine iff_of_false ?_ hsup
    rintro ⟨m', h, -⟩
    exact nomatch hres.symm.trans h

/-! ### The frames of the bump allocator -/

/-- Frames that the bump allocator hands out one by one are different, and none of them is
a table of `boot.asm`, if the kernel image is reserved. -/
theorem EarlyBoot.of_calls {regions : List ReservedRegion} {self bump : BumpAllocator}
    {given : List Extent} (hlow : ∀ t ∈ [p4, p3, p2, p1, p1'], t.toNat < 2 ^ 30)
    (hregions : ∀ r ∈ regions, r.start < r.stop)
    (himage : ∀ t ∈ [p4, p3, p2, p1, p1'], ∃ r ∈ regions, r.extent.Mem t.toNat)
    (hcalls : self.Calls regions given bump)
    (havail : m.avail.map (fun frame => (⟨frame.start.toNat, 1 * 4096⟩ : Extent)) = given) :
    EarlyBoot m p4 p3 p2 p1 p1' := by
  obtain ⟨-, hhanded⟩ := hcalls.handed hregions
  subst havail
  refine ⟨hboot, hlow, fun frame hframe htable => ?_, ?_⟩
  · obtain ⟨r, hr, hmem⟩ := himage _ htable
    refine hhanded.unreserved _ (mem_map_of_mem hframe) r hr frame.start.toNat ?_ hmem
    exact ⟨le_rfl, Nat.lt_add_of_pos_right (show 0 < 1 * 4096 by decide)⟩
  · refine pairwise_map.mpr ((pairwise_map.mp hhanded.ascending).imp ?_)
    intro f g hfg heq
    rw [heq] at hfg
    exact absurd hfg (by simp)

end Boot

/-! ### Two machines -/

/-- A machine before `boot.asm`, whose bump allocator hands out one frame. -/
def earlyMachine (frame : PhysFrame) : Machine := { bootMachine 0#64 with avail := [frame] }

/-- The kernel image, from 1 MiB to 4 MiB. -/
def imageRegions : List ReservedRegion := [⟨0x100000, 0x400000⟩]

theorem earlyMachine_boot (frame : PhysFrame) {self bump : BumpAllocator}
    (hcalls : self.Calls imageRegions [⟨frame.start.toNat, 1 * 4096⟩] bump) :
    EarlyBoot (earlyMachine frame) 0x101000#64 0x102000#64 0x103000#64 0x104000#64 0x105000#64 := by
  have htables := bootMachine_tables 0#64
  have hboot : BootTables (earlyMachine frame) 0x101000#64 0x102000#64 0x103000#64 0x104000#64
      0x105000#64 := ⟨htables.distinct, htables.aligned, htables.zeroed⟩
  have hrange : ∀ t ∈ [0x101000#64, 0x102000#64, 0x103000#64, 0x104000#64, 0x105000#64],
      0x100000 ≤ t.toNat ∧ t.toNat < 0x400000 := by
    intro t ht
    simp only [mem_cons, not_mem_nil, or_false] at ht
    rcases ht with rfl | rfl | rfl | rfl | rfl <;> decide
  refine .of_calls hboot (fun t ht => (hrange t ht).2.trans (by decide)) (by decide) ?_ hcalls rfl
  intro t ht
  exact ⟨⟨0x100000, 0x400000⟩, mem_singleton_self _, hrange t ht⟩

/-- **A machine with 2 GiB**: one frame, right behind the kernel image, is all it takes. -/
theorem mapAllPhysicalMemory_complete_twoGiB :
    ∃ m', ((earlyMachine (.containingAddress 0x400000#64)).setUpPageTables 0x101000#64 0x102000#64
        0x103000#64 0x104000#64 0x105000#64).mapAllMapped 0x80000000#64 0x101000#64 = some m' ∧
      m'.translateAddr 0x101000#64 (.direct 0x7FFFFFFF (by decide)) = some 0x7FFFFFFF#64 := by
  have hfound : (⟨0x400000, [⟨0x100000, 0x7FF00000, 1⟩]⟩ : BumpAllocator).allocateContiguousFrames
      imageRegions 1 = some (some 0x400000, ⟨0x401000, [⟨0x100000, 0x7FF00000, 1⟩]⟩) := by
    decide +kernel
  have hearly := earlyMachine_boot (.containingAddress 0x400000#64) (.call .nil hfound)
  have hle : (0x80000000#64).toNat ≤ 2 ^ 44 := by decide +kernel
  have hdemand : demands 512 (pagesUpTo (0x80000000#64).toNat - 512) = [512] := by decide +kernel
  have hiff := mapAllPhysicalMemory_complete_iff hearly hle
  rw [hdemand] at hiff
  obtain ⟨m', hres, hcomplete, -⟩ := hiff.mpr ⟨by decide +kernel, trivial⟩
  exact ⟨m', hres, hcomplete 0x7FFFFFFF _ (by decide +kernel)⟩

/-- Usable memory from 4 GiB to 6 GiB, and below 3 GiB. -/
def highFirstMap : List MemoryMapEntry :=
  [⟨0x100000000, 0x80000000, 1⟩, ⟨0x100000, 0xBFF00000, 1⟩]

/-- If the memory map begins with the memory above 4 GiB, the first frame is taken from there,
and the kernel faults when it clears the frame. -/
theorem mapAllPhysicalMemory_faults :
    (⟨0x400000, highFirstMap⟩ : BumpAllocator).allocateContiguousFrames imageRegions 1 =
        some (some 0x100000000, ⟨0x100001000, highFirstMap⟩) ∧
      EarlyBoot (earlyMachine (.containingAddress 0x100000000#64)) 0x101000#64 0x102000#64
        0x103000#64 0x104000#64 0x105000#64 ∧
      ((earlyMachine (.containingAddress 0x100000000#64)).setUpPageTables 0x101000#64 0x102000#64
        0x103000#64 0x104000#64 0x105000#64).mapAllMapped 0x180000000#64 0x101000#64 = none := by
  have hfound : (⟨0x400000, highFirstMap⟩ : BumpAllocator).allocateContiguousFrames imageRegions 1 =
      some (some 0x100000000, ⟨0x100001000, highFirstMap⟩) := by
    decide +kernel
  have hearly := earlyMachine_boot (.containingAddress 0x100000000#64) (.call .nil hfound)
  have hdemand : demands 512 (pagesUpTo (0x180000000#64).toNat - 512) =
      [512, 1024, 1536, 2048, 2560] := by
    decide +kernel
  have hsup : ¬Supplies [512, 1024, 1536, 2048, 2560]
      (earlyMachine (.containingAddress 0x100000000#64)).avail := by
    rintro ⟨hlt, -⟩
    revert hlt
    decide +kernel
  refine ⟨hfound, hearly, ?_⟩
  have hle : (0x180000000#64).toNat ≤ 2 ^ 44 := by decide +kernel
  have hspec := hearly.mapAllMapped_spec hle
  rw [hdemand] at hspec
  exact (hspec.resolve_left fun h => hsup h.1).2

end KernelR.Mm
