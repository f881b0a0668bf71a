import KernelR.Mm.UserSpace

/-!
# `destroy_user_address_space`

The four nested loops free the tree of the user half, each table and frame of it once, and
write nowhere else (`destroyUserAddressSpace_frees`). The frame allocator writes as well, into
its books: the frames that are free, and those of its lists and its bitmap. With what an address
space keeps
(`SpaceInv`), this gives back exactly the frames that were handed out for it and are not
back yet (`destroyUserAddressSpace_exact`).
-/

namespace KernelR.Mm

open List Option Foundations

/-! ### Taking tables down -/

/-- Where a present entry leads. -/
def presentNext (entry : BitVec 64) : Option (BitVec 64) :=
  if (entryFlags entry).contains .present then some (entryAddr entry) else none

/-- The frames that the allocator may write to when a frame goes back. -/
def Machine.books (m : Machine) : Set (BitVec 64) :=
  {u | u ∈ m.book ∨ u ∈ m.avail.map PhysFrame.start}

/-- What a piece of `destroy_user_address_space` does. -/
abbrev MachineFrees (F : Set (BitVec 64)) (W : Set (BitVec 64 × BitVec 9)) (m m' : Machine) :
    Prop :=
  Frees Machine.mem Machine.cleared Machine.books F W m m'

theorem clearFrame_frees (m : Machine) (f : BitVec 64) :
    MachineFrees {f} ∅ m (m.clearFrame f) where
  freed := ⟨[f], rfl, nodup_singleton f, fun _ => mem_singleton⟩
  owned := by
    rintro u (hu | hu)
    · exact (mem_cons.mp hu).elim Or.inr fun hu => Or.inl (Or.inl hu)
    · exact Or.inl (Or.inr hu)
  kept := by
    intro t i ht hbooks _
    have hkept : (m.clearFrame f).mem t = m.mem t := if_neg fun h => h.elim ht hbooks
    rw [hkept]

section Destroy

variable {m : Machine} {table : BitVec 64} {n : ℕ} {indices : List (BitVec 9)}
  {visit : Machine → BitVec 64 → BitVec 9 → Machine}

/-- Visiting an entry of a table frees the tree behind it. -/
def FreesBehind (table : BitVec 64) (n : ℕ) (visit : Machine → BitVec 64 → BitVec 9 → Machine) :
    Prop :=
  ∀ m i c, presentNext (m.mem table i) = some c →
    Unshared (fun _ => presentNext) m.mem c (Within n Set.univ) →
    table ∉ reached presentNext m.mem c (Within n Set.univ) →
    Disjoint (reached presentNext m.mem c (Within n Set.univ)) m.books →
    MachineFrees (reached presentNext m.mem c (Within n Set.univ)) {(table, i)} m
      (visit m table i)

/-- **A table and what hangs from it.** -/
theorem freeTable_frees (hindices : indices.Nodup) (hvisit : FreesBehind table n visit)
    (hunshared : Unshared (fun _ => presentNext) m.mem table
      (Within (n + 1) {i | i ∈ indices}))
    (hbooks : Disjoint (reached presentNext m.mem table (Within (n + 1) {i | i ∈ indices}))
      m.books) :
    MachineFrees (reached presentNext m.mem table (Within (n + 1) {i | i ∈ indices})) ∅ m
      (Machine.freeTable indices visit m table) := by
  have hvisits : Visits presentNext Machine.mem Machine.cleared Machine.books table n fun m i =>
      if (entryFlags (m.mem table i)).contains .present then visit m table i else m := by
    refine ⟨?_, ?_⟩
    · intro m i hnone
      refine if_neg fun hpresent => ?_
      rw [presentNext, if_pos hpresent] at hnone
      cases hnone
    · intro m i c hc hchild hroot hbooks
      have hpresent : (entryFlags (m.mem table i)).contains .present = true :=
        (ite_none_right_eq_some.mp hc).1
      rw [if_pos hpresent]
      exact hvisit m i c hc hchild hroot hbooks
  exact Frees.tree hvisits hindices hunshared hbooks (clearFrame_frees · table)

theorem nodup_indices {k : ℕ} (hk : k ≤ 512) : ((List.range k).map (BitVec.ofNat 9)).Nodup := by
  refine List.Nodup.map_on ?_ nodup_range
  intro i hi j hj hij
  rw [mem_range] at hi hj
  exact index_inj (hi.trans_le hk) (hj.trans_le hk) hij

theorem mem_indices {k : ℕ} (hk : k ≤ 512) (i : BitVec 9) :
    i ∈ (List.range k).map (BitVec.ofNat 9) ↔ i.toNat < k := by
  constructor
  · intro hi
    obtain ⟨j, hj, rfl⟩ := mem_map.mp hi
    rw [mem_range] at hj
    rwa [BitVec.toNat_ofNat, Nat.mod_eq_of_lt (by omega)]
  · intro hi
    refine mem_map.mpr ⟨i.toNat, mem_range.mpr hi, ?_⟩
    rw [BitVec.ofNat_toNat, BitVec.setWidth_eq]

theorem tableIndices_eq : {i | i ∈ Machine.tableIndices} = Set.univ := by
  ext i
  exact iff_of_true ((mem_indices le_rfl i).mpr i.isLt) (Set.mem_univ i)

theorem userIndices_eq : {i | i ∈ Machine.userIndices} = userHalf := by
  ext i
  exact mem_indices (by decide) i

theorem freeTable_frees_all (hvisit : FreesBehind table n visit)
    (hunshared : Unshared (fun _ => presentNext) m.mem table (Within (n + 1) Set.univ))
    (hbooks : Disjoint (reached presentNext m.mem table (Within (n + 1) Set.univ)) m.books) :
    MachineFrees (reached presentNext m.mem table (Within (n + 1) Set.univ)) ∅ m
      (Machine.freeTable Machine.tableIndices visit m table) := by
  have h := freeTable_frees (m := m) (nodup_indices le_rfl) hvisit (tableIndices_eq ▸ hunshared)
    (tableIndices_eq ▸ hbooks)
  exact (congrArg (fun I => MachineFrees (reached presentNext m.mem table (Within (n + 1) I)) ∅ m
    (Machine.freeTable Machine.tableIndices visit m table)) tableIndices_eq).mp h

theorem entryAddr_of_presentNext {entry c : BitVec 64} (h : presentNext entry = some c) :
    entryAddr entry = c :=
  (ite_none_right_eq_some.mp h).2 |> some.inj

theorem destroyPt_frees
    (hunshared : Unshared (fun _ => presentNext) m.mem table (Within 1 Set.univ))
    (hbooks : Disjoint (reached presentNext m.mem table (Within 1 Set.univ)) m.books) :
    MachineFrees (reached presentNext m.mem table (Within 1 Set.univ)) ∅ m (m.destroyPt table) := by
  refine freeTable_frees_all ?_ hunshared hbooks
  intro m i c hc _ _ _
  have hleaf : reached presentNext m.mem c (Within 0 Set.univ) = {c} := by
    ext t
    constructor
    · rintro ⟨q, hq, ht⟩
      obtain rfl : q = [] := eq_nil_of_length_eq_zero (Nat.le_zero.mp hq.1)
      exact (some.inj ht).symm
    · rintro rfl
      exact ⟨[], within_nil, rfl⟩
  rw [hleaf]
  have hwrite : MachineFrees ∅ {(table, i)} m (m.write table i 0#64) := by
    have hnone : MachineFrees ∅ ∅ m m := Frees.refl m
    refine ⟨hnone.freed, hnone.owned, fun t j _ _ hne => setEntry_of_ne fun ht hj => hne ?_⟩
    exact congrArg₂ Prod.mk ht hj
  have hboth := hwrite.trans (clearFrame_frees _ c) (Set.empty_disjoint _)
  rw [Set.empty_union, Set.union_empty] at hboth
  obtain rfl := entryAddr_of_presentNext hc
  exact hboth

theorem destroyPd_frees
    (hunshared : Unshared (fun _ => presentNext) m.mem table (Within 2 Set.univ))
    (hbooks : Disjoint (reached presentNext m.mem table (Within 2 Set.univ)) m.books) :
    MachineFrees (reached presentNext m.mem table (Within 2 Set.univ)) ∅ m (m.destroyPd table) := by
  refine freeTable_frees_all ?_ hunshared hbooks
  intro m i c hc hchild _ hbooks
  obtain rfl := entryAddr_of_presentNext hc
  exact (destroyPt_frees hchild hbooks).mono fun _ _ hmem => absurd hmem (Set.notMem_empty _)

/-- A page directory pointer table and its page directories. -/
theorem destroyPdpt_frees
    (hunshared : Unshared (fun _ => presentNext) m.mem table (Within 3 Set.univ))
    (hbooks : Disjoint (reached presentNext m.mem table (Within 3 Set.univ)) m.books) :
    MachineFrees (reached presentNext m.mem table (Within 3 Set.univ)) ∅ m
      (m.destroyPdpt table) := by
  refine freeTable_frees_all ?_ hunshared hbooks
  intro m i c hc hchild _ hbooks
  obtain rfl := entryAddr_of_presentNext hc
  exact (destroyPd_frees hchild hbooks).mono fun _ _ hmem => absurd hmem (Set.notMem_empty _)

/-- **`destroy_user_address_space`** frees the tree of the user half, each table and frame of
it once, and writes nowhere else. -/
theorem destroyUserAddressSpace_frees
    (hunshared : Unshared (fun _ => presentNext) m.mem table (Within 4 userHalf))
    (hbooks : Disjoint (reached presentNext m.mem table (Within 4 userHalf)) m.books) :
    MachineFrees (reached presentNext m.mem table (Within 4 userHalf)) ∅ m
      (m.destroyUserAddressSpace table) := by
  have h : MachineFrees
      (reached presentNext m.mem table (Within 4 {i | i ∈ Machine.userIndices})) ∅ m
      (m.destroyUserAddressSpace table) := by
    refine freeTable_frees (nodup_indices (k := 256) (by decide)) ?_ (userIndices_eq ▸ hunshared)
      (userIndices_eq ▸ hbooks)
    intro m i c hc hchild _ hbooks
    obtain rfl := entryAddr_of_presentNext hc
    exact (destroyPdpt_frees hchild hbooks).mono fun _ _ hmem => absurd hmem (Set.notMem_empty _)
  rwa [userIndices_eq] at h

end Destroy

/-! ### What goes back -/

namespace SpaceInv

variable {pml4 : BitVec 64} {m : Machine} {hand : List PhysFrame}

/-- In the user half, the entries that are present are those that are used. -/
theorem reach_presentNext (h : SpaceInv pml4 ⟨m, hand⟩) {q : List (BitVec 9)} (hq : IsUser q) :
    reach (fun _ => presentNext) m.mem pml4 q = m.tableAt pml4 q := by
  induction q with
  | nil => rfl
  | cons i p ih =>
    rw [reach, ih (isUser_tailClosed hq)]
    cases ht : m.tableAt pml4 p with
    | none => rw [Machine.tableAt_cons, Machine.entryAt_cons, ht, bind_none]; rfl
    | some t =>
      rw [bind_some]
      by_cases hentry : m.mem t i = 0#64
      · rw [Machine.tableAt_cons, Machine.entryAt_of_tableAt ht, if_pos hentry, hentry]
        rfl
      · have hentryAt := Machine.entryAt_of_used ht hentry
        have hpresent := (h.entries i p hq _ hentryAt).1
        have hnext : presentNext (m.mem t i) = some (entryAddr (m.mem t i)) := if_pos hpresent
        rw [hnext]
        exact (h.tableAt_of_presentTable hq ht hnext).symm

/-- **What `destroy_user_address_space` frees.** -/
theorem destroy {s : Space} (h : SpaceInv pml4 s) :
    MachineFrees (s.machine.spaceFrames pml4) ∅ s.machine
      (s.machine.destroyUserAddressSpace pml4) := by
  obtain ⟨m, hand⟩ := s
  have hreach : reached presentNext m.mem pml4 (Within 4 userHalf) = m.spaceFrames pml4 := by
    ext f
    refine exists_congr fun q => and_congr_right fun hq => ?_
    rw [h.reach_presentNext hq]
  have hbooks : Disjoint (m.spaceFrames pml4) m.books := by
    refine Set.disjoint_left.mpr fun u hu hmem => ?_
    obtain ⟨hbook, hfree⟩ := h.apart.notMem_books (Or.inl hu)
    rw [map_append] at hfree
    exact hmem.elim hbook fun havail => hfree (mem_append_left _ havail)
  rw [← hreach] at hbooks ⊢
  refine destroyUserAddressSpace_frees ?_ hbooks
  intro p q t hp hq hpt hqt
  exact h.unshared hp hq ((h.reach_presentNext hp).symm.trans hpt)
    ((h.reach_presentNext hq).symm.trans hqt)

end SpaceInv

/-- **Teardown is exact.**  In every run of an address space, `destroy_user_address_space` gives
back each of its tables and frames once. With those in the hand of the callers and those that
went back before, these are all that was handed out. Nothing else is written but the books of
the allocator, and no table of the kernel half is freed or written. -/
theorem destroyUserAddressSpace_exact (pml4 : BitVec 64) (s : Space)
    (hrun : Run (Space.Created pml4) (Space.step pml4) (Space.Allowed pml4) s) :
    ∃ freed : List (BitVec 64),
      (s.machine.destroyUserAddressSpace pml4).cleared = freed ++ s.machine.cleared ∧
      freed.Nodup ∧ (∀ f, f ∈ freed ↔ f ∈ s.machine.spaceFrames pml4) ∧
      s.machine.handed.Perm (freed ++ s.hand.map PhysFrame.start ++ s.machine.cleared) ∧
      (∀ f, f ∉ freed → f ∉ s.machine.books →
        (s.machine.destroyUserAddressSpace pml4).mem f = s.machine.mem f) ∧
      ∀ f ∈ s.machine.kernelTables pml4, f ∉ freed ∧
        (s.machine.destroyUserAddressSpace pml4).mem f = s.machine.mem f := by
  have hinv := SpaceInv.of_run hrun
  have hfrees := hinv.destroy
  obtain ⟨freed, hcleared, hnodup, hmem⟩ := hfrees.freed
  obtain ⟨own, hown, hspace, hledger⟩ := hinv.ledger
  have hsame : own.Perm freed := (List.perm_ext_iff_of_nodup hown hnodup).mpr fun f => by
    rw [hspace, hmem]
  have hkept : ∀ f, f ∉ freed → f ∉ s.machine.books →
      (s.machine.destroyUserAddressSpace pml4).mem f = s.machine.mem f := by
    intro f hf hbooks
    funext i
    exact hfrees.kept f i (fun hin => hf ((hmem f).mpr hin)) hbooks (Set.notMem_empty _)
  refine ⟨freed, hcleared, hnodup, hmem, ?_, hkept, fun f hkernel => ?_⟩
  · exact hledger.trans ((hsame.append_right _).append_right _)
  · have hf : f ∉ freed := fun hf =>
      Set.disjoint_left.mp hinv.apart.disjoint hkernel ((hmem f).mp hf)
    obtain ⟨hbook, hfree⟩ := hinv.apart.notMem_books (Or.inr hkernel)
    rw [map_append] at hfree
    exact ⟨hf, hkept f hf fun hbooks =>
      hbooks.elim hbook fun havail => hfree (mem_append_left _ havail)⟩

/-! ### A space below the direct mapping -/

/-- The PML4 at `0x1000` maps the first 2 MiB at the beginning of its kernel half, with a huge
page. The frames from `0x10000` on can be had. -/
def directMachine : Machine where
  mem := fun table i =>
    if table = 0x1000#64 ∧ i = 256#9 then 0x2003#64
    else if table = 0x2000#64 ∧ i = 0#9 then 0x3003#64
    else if table = 0x3000#64 ∧ i = 0#9 then 0x83#64
    else 0#64
  avail := [⟨0x10000#64, by decide⟩, ⟨0x11000#64, by decide⟩, ⟨0x12000#64, by decide⟩,
    ⟨0x13000#64, by decide⟩, ⟨0x14000#64, by decide⟩]
  handed := []
  cleared := []
  book := [0x20000#64]
  scribble _ mem := mem

theorem directMachine_next {d : ℕ} {t f : BitVec 64} {i : BitVec 9}
    (h : follow d (directMachine.mem t i) = some f) :
    f = 0x2000#64 ∨ f = 0x3000#64 ∨ f = 0#64 := by
  have hword : directMachine.mem t i = 0x2003#64 ∨ directMachine.mem t i = 0x3003#64 ∨
      directMachine.mem t i = 0x83#64 ∨ directMachine.mem t i = 0#64 := by
    unfold directMachine
    dsimp only
    split_ifs <;> simp
  unfold follow at h
  split_ifs at h
  cases h
  rcases hword with hw | hw | hw | hw <;> rw [hw] <;> decide

/-- The space that `create_user_address_space` makes there. -/
def directSpace : Space where
  machine := (directMachine.createUserAddressSpace 0x1000#64).elim directMachine Prod.snd
  hand := []

theorem directSpace_created : Space.Created 0x10000#64 directSpace := by
  have hcreate : directMachine.createUserAddressSpace 0x1000#64 =
      some (0x10000#64, directSpace.machine) := by
    obtain ⟨m, hm⟩ : ∃ m, directMachine.createUserAddressSpace 0x1000#64 = some (0x10000#64, m) :=
      ⟨_, rfl⟩
    rw [directSpace, hm]
    rfl
  have hkernel : ∀ f ∈ directMachine.kernelTables 0x1000#64,
      f = 0x2000#64 ∨ f = 0x3000#64 ∨ f = 0#64 := by
    rintro f ⟨q, hne, -, hq⟩
    cases q with
    | nil => exact absurd rfl hne
    | cons i p =>
      obtain ⟨t, -, ht⟩ := bind_eq_some_iff.mp hq
      exact directMachine_next ht
  have havail : ∀ frame ∈ directMachine.avail,
      (frame.start ≠ 0x1000#64 ∧
        ¬ (frame.start = 0x2000#64 ∨ frame.start = 0x3000#64 ∨ frame.start = 0#64)) ∧
      frame.start ≠ 0x20000#64 := by
    decide
  refine ⟨rfl, directMachine, 0x1000#64, ⟨rfl, rfl, by decide, ?_, ?_⟩, hcreate⟩
  · exact fun frame hframe => (havail frame hframe).1.imp_right (mt (hkernel _))
  · intro u hu
    obtain rfl : u = 0x20000#64 := mem_singleton.mp hu
    refine ⟨fun hmem => ?_, fun hmem => absurd (hkernel _ hmem) (by decide)⟩
    obtain ⟨frame, hframe, heq⟩ := mem_map.mp hmem
    exact (havail frame hframe).2 heq

/-- A page is mapped in that space, and the space is taken down. -/
theorem destroyUserAddressSpace_exact_directSpace :
    ∃ s : Space, Run (Space.Created 0x10000#64) (Space.step 0x10000#64)
        (Space.Allowed 0x10000#64) s ∧ s.hand = [] ∧
      ∃ freed : List (BitVec 64),
        (s.machine.destroyUserAddressSpace 0x10000#64).cleared = freed ++ s.machine.cleared ∧
        freed.Nodup ∧ 0x11000#64 ∈ freed ∧ s.machine.handed.Perm (freed ++ s.machine.cleared) := by
  have hsteps : ((directSpace.step 0x10000#64 (.allocate true)).any fun s =>
      decide (⟨0x11000#64, by decide⟩ ∈ s.hand) &&
      (s.step 0x10000#64 (.mapTo pageZero ⟨0x11000#64, by decide⟩ .present)).any fun s =>
        decide (s.hand = []) &&
        decide (s.machine.tableAt 0x10000#64 pageZero.start.path = some 0x11000#64)) = true := by
    decide +kernel
  obtain ⟨s1, h1, hrest⟩ := (Option.any_eq_true _ _).mp hsteps
  obtain ⟨hmem, hrest⟩ := (Bool.and_eq_true _ _).mp hrest
  obtain ⟨s2, h2, hrest⟩ := (Option.any_eq_true _ _).mp hrest
  obtain ⟨hhand, hmapped⟩ := (Bool.and_eq_true _ _).mp hrest
  have hhand := of_decide_eq_true hhand
  have huser : pageZero.start.p4Index ∈ userHalf := by
    show pageZero.start.p4Index.toNat < 256
    decide
  have hrun : Run (Space.Created 0x10000#64) (Space.step 0x10000#64)
      (Space.Allowed 0x10000#64) s2 :=
    .next (.next (.start directSpace_created) h1 trivial) h2 ⟨huser, of_decide_eq_true hmem⟩
  obtain ⟨freed, hcleared, hnodup, hfreed, hledger, -⟩ :=
    destroyUserAddressSpace_exact 0x10000#64 s2 hrun
  refine ⟨s2, hrun, hhand, freed, hcleared, hnodup, ?_, ?_⟩
  · exact (hfreed _).mpr ⟨_, isUser_path huser, of_decide_eq_true hmapped⟩
  · rwa [hhand, List.map_nil, List.append_nil] at hledger

/-- The frame of the PML4 itself is reachable through the kernel half, by the direct mapping,
and is freed. -/
theorem direct_mapped_frame_freed :
    Run (Space.Created 0x10000#64) (Space.step 0x10000#64) (Space.Allowed 0x10000#64)
      directSpace ∧
    (∃ v : VirtAddr, v.p4Index ∈ kernelHalf ∧
      directSpace.machine.translateAddr 0x10000#64 v = some 0x10000#64) ∧
    0x10000#64 ∈ (directSpace.machine.destroyUserAddressSpace 0x10000#64).cleared := by
  refine ⟨.start directSpace_created, ⟨⟨0xFFFF800000010000#64, by decide⟩, ?_, ?_⟩, ?_⟩
  · show 256 ≤ (BitVec.extractLsb' 39 9 0xFFFF800000010000#64).toNat
    decide
  · decide +kernel
  · have hfrees : MachineFrees (directSpace.machine.spaceFrames 0x10000#64) ∅ directSpace.machine
        (directSpace.machine.destroyUserAddressSpace 0x10000#64) :=
      directSpace_created.inv.destroy
    obtain ⟨freed, hcleared, -, hfreed⟩ := hfrees.freed
    rw [hcleared]
    exact List.mem_append_left _ ((hfreed _).mpr Machine.pml4_mem_spaceFrames)

end KernelR.Mm
