import KernelR.Proc.Loader
import KernelR.Proc.Syscall

/-!
# The image of a program in memory

What a new process finds in its memory. A byte of an address space is read as the processor
does it, through `translate_addr`; where the addresses of a segment are canonical and in no huge
page, this is the byte of the frame that the loader filled.

The loader does not look at where a segment wants to be. A segment in the part of the kernel
half that is mapped by huge pages ends up in frames that no address leads to: `map_to` takes
the memory of the huge page for a page table, and enters the frame there. And an address that is
not canonical has no bytes, even if `VirtAddr::new` made another one of it for `map_to`.
-/

namespace KernelR.Proc

open Option Foundations Mm

/-- The byte at an address; there is none at one that is not canonical. -/
def byteAt (m : Machine) (pml4 : BitVec 64) (addr : ℕ) : Option UInt8 := do
  let virtAddr ← VirtAddr.ofCanonical addr
  let phys ← m.translateAddr pml4 virtAddr
  some (readByte m (phys &&& ~~~0xFFF#64) (phys.toNat % 4096))

/-- The pages of the segments have canonical addresses. -/
def CanonicalSegments (headers : List ProgramHeader) : Prop :=
  ∀ ph ∈ headers, ph.load = true → ∀ n ∈ ph.pages, n * 4096 < 2 ^ 47 ∨ 2 ^ 64 - 2 ^ 47 ≤ n * 4096

theorem UserSegments.canonical {headers : List ProgramHeader} (h : UserSegments headers) :
    CanonicalSegments headers := fun ph hmem hload n hn => Or.inl (h ph hmem hload n hn)

/-! ### From frames to addresses -/

section Bytes

variable {m : Machine} {pml4 : BitVec 64}

theorem frameOf_aligned {page : Page} {f : BitVec 64} (h : m.frameOf pml4 page = some f) :
    f &&& addrMask = f := by
  rw [Machine.frameOf_eq] at h
  obtain ⟨entry, -, hfollow⟩ := bind_eq_some_iff.mp h
  unfold follow at hfollow
  split at hfollow
  · cases hfollow
  · cases hfollow
    rw [entryAddr, BitVec.and_assoc, BitVec.and_self]

theorem frame_add_offset {f x : BitVec 64} (hf : f &&& addrMask = f) :
    (f + (x &&& 0xFFF#64)) &&& ~~~0xFFF#64 = f ∧
      (f + (x &&& 0xFFF#64)).toNat % 4096 = x.toNat % 4096 := by
  have hlow : f &&& 0xFFF#64 = 0#64 := by
    rw [← hf, BitVec.and_assoc, show addrMask &&& 0xFFF#64 = 0#64 by decide, BitVec.and_zero]
  have hdisjoint : f &&& (x &&& 0xFFF#64) = 0#64 := by
    rw [BitVec.and_comm x, ← BitVec.and_assoc, hlow, BitVec.zero_and]
  have hor : f + (x &&& 0xFFF#64) = f ||| (x &&& 0xFFF#64) :=
    BitVec.add_eq_or_of_and_eq_zero _ _ hdisjoint
  have hmod : ∀ y : BitVec 64, y.toNat % 4096 = (y &&& 0xFFF#64).toNat := by
    intro y
    rw [BitVec.toNat_and]
    exact (Nat.and_two_pow_sub_one_eq_mod y.toNat 12).symm
  constructor
  · rw [hor, or_and_mask, BitVec.and_assoc x, show (0xFFF#64) &&& ~~~0xFFF#64 = 0#64 by decide,
      BitVec.and_zero, BitVec.or_zero, ← hf, BitVec.and_assoc,
      show addrMask &&& ~~~0xFFF#64 = addrMask by decide]
  · rw [hmod, hmod, hor, or_and_mask, hlow, BitVec.zero_or, BitVec.and_assoc, BitVec.and_self]

theorem Holds.byteAt {H : Set (BitVec 9)} {G : Set Page} {old : List (BitVec 9) → Bool}
    {total pageNum addr : ℕ} {pages : Finset (List (BitVec 9))} {content : ℕ → Option UInt8}
    (hocc : Occupies H G old pml4 total m pages) (hG : ∀ page ∈ pageOf pageNum, page ∈ G)
    (hcanonical : pageNum * 4096 < 2 ^ 47 ∨ 2 ^ 64 - 2 ^ 47 ≤ pageNum * 4096)
    (hlt : addr < 2 ^ 64) (h : Holds H pml4 m pageNum content) (haddr : addr / 4096 = pageNum) :
    byteAt m pml4 addr = content addr := by
  obtain ⟨page, f, hpage, -, hf, -, hbytes⟩ := h
  have hexists : ∀ a, a / 4096 = pageNum → a < 2 ^ 64 →
      ∃ v, VirtAddr.ofCanonical a = some v ∧ v.bits.toNat = a := by
    intro a ha ha64
    exact VirtAddr.ofCanonical_of_half ha64 (by omega)
  obtain ⟨v, hnew, hv⟩ := hexists addr haddr hlt
  obtain ⟨v₀, hnew₀, hv₀⟩ := hexists (pageNum * 4096) (by omega) (by omega)
  obtain rfl : Page.containingAddress v₀ = page := by
    rw [pageOf, VirtAddr.new_of_canonical hnew₀, map_some] at hpage
    exact some.inj hpage
  have hpath : v.path = (Page.containingAddress v₀).start.path := by
    rw [← Page.path_containingAddress v, Page.path_eq_iff, Page.addr_containingAddress,
      Page.addr_containingAddress, hv, hv₀]
    omega
  have htranslate : m.translateAddr pml4 v = some (f + (v.bits &&& 0xFFF#64)) := by
    rw [Machine.translateAddr_eq, hpath, (hocc.reachable _ (hG _ hpage)).2, map_none,
      Option.none_or, show m.tableAt pml4 _ = some f from hf, map_some]
  obtain ⟨hbase, hoffset⟩ := frame_add_offset (x := v.bits) (frameOf_aligned hf)
  have hbyte := hbytes (addr % 4096) (Nat.mod_lt _ (by decide))
  rw [← haddr, Nat.div_add_mod'] at hbyte
  rw [Proc.byteAt, hnew, bind_eq_bind, bind_some, htranslate, bind_eq_bind, bind_some, hbase,
    hoffset, hv, hbyte]

end Bytes

/-! ### The heap begins where the segments end -/

theorem isLeast_alignTo {highestVaddr : ℕ} (h : highestVaddr + 4095 < 2 ^ 64) :
    IsLeast {a | 4096 ∣ a ∧ highestVaddr ≤ a} (alignTo highestVaddr 4096) := by
  rw [alignTo_page h]
  refine ⟨⟨Nat.dvd_mul_left _ _, by omega⟩, fun a ⟨⟨n, hn⟩, hbound⟩ => ?_⟩
  omega

/-- **A program is loaded as its file says**, if its addresses are canonical and in no huge page
of the kernel half. In the new address space the bytes of every segment are those of the image,
followed by zeros; all other bytes of its pages are zero; and the heap, which is empty, begins at
the least page boundary that no segment is beyond. -/
theorem loadUserProcess_faithful {m m' : Machine} {activePml4 pml4 : BitVec 64}
    {image : ℕ → Option UInt8} {headers : List ProgramHeader} {highestVaddr : ℕ}
    (hstock : Stocked m activePml4) (hregular : Regular m activePml4 headers)
    (hcanonical : CanonicalSegments headers)
    (h : loadUserProcess m activePml4 image headers = some (pml4, highestVaddr, m')) :
    (∀ ph ∈ headers, ph.load = true → ph.fileSize ≤ ph.memSize → 0 < ph.memSize →
      (∀ i < ph.fileSize, ∃ byte, image (ph.offset + i) = some byte ∧
        byteAt m' pml4 (ph.virtualAddr + i) = some byte) ∧
      (∀ i, ph.fileSize ≤ i → i < ph.memSize →
        byteAt m' pml4 (ph.virtualAddr + i) = some 0) ∧
      ∀ a, a / 4096 ∈ ph.pages → a < ph.virtualAddr ∨ ph.virtualAddr + ph.memSize ≤ a →
        byteAt m' pml4 a = some 0) ∧
    ∀ (k : Kernel) (ppid parent : ℕ),
      let process := k.newProcess pml4.toNat highestVaddr ppid parent
      process.heapStart = process.programBreak ∧
      IsLeast {a | 4096 ∣ a ∧ ∀ ph ∈ headers, ph.load = true → ph.segmentEnd ≤ a}
        process.heapStart := by
  obtain ⟨hocc, hpages⟩ := loadUserProcess_spec hstock hregular h
  obtain ⟨m₁, m₂, frame, rest, page, -, hprogram, -, -, -, hfits⟩ := loadUserProcess_eq_some h
  obtain ⟨-, hall, hleast⟩ := loadProgram_highest hprogram
  constructor
  · intro ph hmem hload hsize hpos
    have hend := (hall ph hmem hload).2
    have hbyte : ∀ a, a / 4096 ∈ ph.pages → byteAt m' pml4 a = ph.byte image a := by
      intro a ha
      have hlast := (ProgramHeader.mem_pages.mp ha).2
      refine (hpages ph hmem hload _ ha).byteAt hocc (fun page hpage => ?_)
        (hcanonical ph hmem hload _ ha) (by omega) rfl
      exact mem_programPages (mem_segmentPages.mpr ⟨ph, hmem, hload, ha⟩) hpage
    have hinside : ∀ i < ph.memSize, (ph.virtualAddr + i) / 4096 ∈ ph.pages := by
      intro i hi
      rw [ProgramHeader.mem_pages, ProgramHeader.segmentEnd]
      omega
    refine ⟨fun i hi => ?_, fun i hle hlt => ?_, fun a ha hout => ?_⟩
    · have hin := hinside i (by omega)
      obtain ⟨page, f, -, -, -, -, hbytes⟩ := hpages ph hmem hload _ hin
      have hsome := hbytes ((ph.virtualAddr + i) % 4096) (Nat.mod_lt _ (by decide))
      have himage : ph.byte image (ph.virtualAddr + i) = image (ph.offset + i) := by
        rw [ProgramHeader.byte, if_pos (by omega), Nat.add_sub_cancel_left]
      rw [Nat.div_add_mod'] at hsome
      exact ⟨_, himage.symm.trans hsome.symm, (hbyte _ hin).trans hsome.symm⟩
    · rw [hbyte _ (hinside i hlt), ProgramHeader.byte, if_neg (by omega)]
    · rw [hbyte a ha, ProgramHeader.byte, if_neg (by omega)]
  · intro k ppid parent
    have hrounded : highestVaddr + 4095 < 2 ^ 64 := by omega
    obtain ⟨⟨hdvd, hle⟩, hlower⟩ := isLeast_alignTo hrounded
    refine ⟨rfl, ⟨hdvd, fun ph hmem hload => (hall ph hmem hload).2.trans hle⟩, ?_⟩
    rintro a ⟨ha, hbound⟩
    exact hlower ⟨ha, hleast a (Nat.zero_le a) hbound⟩

/-- Physical memory is mapped by huge pages from `0xFFFF_8000_0000_0000` on; here, one of
them, at 64 MiB. -/
def directMapMachine : Machine where
  mem table i :=
    if table = 0x1000#64 ∧ i = 256#9 then 0x2003#64
    else if table = 0x2000#64 ∧ i = 0#9 then 0x3003#64
    else if table = 0x3000#64 ∧ i = 32#9 then 0x4000083#64
    else 0#64
  avail := [⟨0x100000#64, by decide⟩, ⟨0x101000#64, by decide⟩, ⟨0x102000#64, by decide⟩,
    ⟨0x103000#64, by decide⟩, ⟨0x104000#64, by decide⟩, ⟨0x105000#64, by decide⟩,
    ⟨0x106000#64, by decide⟩, ⟨0x107000#64, by decide⟩, ⟨0x108000#64, by decide⟩,
    ⟨0x109000#64, by decide⟩]
  handed := []
  cleared := []
  book := []
  scribble _ mem := mem

theorem directMapMachine_tableAt {p4 f : BitVec 64} {i : BitVec 9} {p : List (BitVec 9)}
    (h : directMapMachine.tableAt p4 (i :: p) = some f) :
    f = 0x2000#64 ∨ f = 0x3000#64 ∨ f = 0x4000000#64 := by
  rw [Machine.tableAt_cons, Machine.entryAt_cons] at h
  obtain ⟨entry, hentry, hfollow⟩ := bind_eq_some_iff.mp h
  obtain ⟨t, -, hword⟩ := bind_eq_some_iff.mp hentry
  unfold follow at hfollow
  split at hfollow
  · cases hfollow
  · cases hfollow
    split at hword
    · cases hword
    · rename_i hused
      cases hword
      simp only [directMapMachine] at hused ⊢
      split_ifs at hused ⊢
      · exact Or.inl (by decide)
      · exact Or.inr (Or.inl (by decide))
      · exact Or.inr (Or.inr (by decide))
      · exact absurd rfl hused

theorem directMapMachine_stocked : Stocked directMapMachine 0x1000#64 where
  handed := rfl
  cleared := rfl
  distinct := by decide
  fresh frame hframe := by
    have hapart : ∀ frame ∈ directMapMachine.avail, frame.start ≠ 0x1000#64 ∧
        frame.start ≠ 0x2000#64 ∧ frame.start ≠ 0x3000#64 ∧ frame.start ≠ 0x4000000#64 := by
      decide
    obtain ⟨h1, h2, h3, h4⟩ := hapart frame hframe
    refine ⟨h1, ?_⟩
    rintro ⟨p, hp, -, htable⟩
    cases p with
    | nil => exact hp rfl
    | cons i p =>
      rcases directMapMachine_tableAt htable with heq | heq | heq
      · exact h2 heq
      · exact h3 heq
      · exact h4 heq
  book u hu := absurd hu List.not_mem_nil

/-- Three bytes of the file around a page boundary, and three zeros. -/
theorem loadUserProcess_faithful_boundary :
    ∃ pml4 highestVaddr m', loadUserProcess directMapMachine 0x1000#64 (some ∘ UInt8.ofNat)
        [⟨true, 0x400FFE, 6, 3, 64⟩] = some (pml4, highestVaddr, m') ∧
      byteAt m' pml4 0x400FFF = some 65 ∧ byteAt m' pml4 0x401000 = some 66 ∧
      byteAt m' pml4 0x401001 = some 0 := by
  have hload : (loadUserProcess directMapMachine 0x1000#64 (some ∘ UInt8.ofNat)
      [⟨true, 0x400FFE, 6, 3, 64⟩]).isSome = true := by
    decide +kernel
  obtain ⟨⟨pml4, highestVaddr, m'⟩, hload⟩ := Option.isSome_iff_exists.mp hload
  have huser : UserSegments [⟨true, 0x400FFE, 6, 3, 64⟩] := by decide
  obtain ⟨hbytes, -⟩ :=
    loadUserProcess_faithful directMapMachine_stocked (huser.regular _ _) huser.canonical hload
  obtain ⟨hfile, hzero, -⟩ := hbytes _ List.mem_cons_self rfl (by decide) (by decide)
  obtain ⟨byte₁, hbyte₁, hread₁⟩ := hfile 1 (by decide)
  obtain ⟨byte₂, hbyte₂, hread₂⟩ := hfile 2 (by decide)
  exact ⟨pml4, highestVaddr, m', hload, hread₁.trans hbyte₁.symm, hread₂.trans hbyte₂.symm,
    hzero 3 (by decide) (by decide)⟩

/-- **A segment in a huge page is lost.**  Its one byte, `0xAB`, is in a frame; but its address
still leads to the huge page, where `map_to` has just entered that frame. -/
theorem segment_in_huge_page_lost :
    ∃ pml4 highestVaddr m', loadUserProcess directMapMachine 0x1000#64 (fun _ => some 0xAB)
        [⟨true, 0xFFFF800004000000, 1, 1, 0⟩] = some (pml4, highestVaddr, m') ∧
      byteAt m' pml4 0xFFFF800004000000 = some 7 ∧
      byteAt m' pml4 0xFFFF800004000000 ≠ some 0xAB := by
  have hload : (loadUserProcess directMapMachine 0x1000#64 (fun _ => some 0xAB)
      [⟨true, 0xFFFF800004000000, 1, 1, 0⟩]).any
      (fun r => byteAt r.2.2 r.1 0xFFFF800004000000 == some 7) = true := by
    decide +kernel
  obtain ⟨⟨pml4, highestVaddr, m'⟩, hload, hbyte⟩ := (Option.any_eq_true _ _).mp hload
  have hseven := beq_iff_eq.mp hbyte
  refine ⟨pml4, highestVaddr, m', hload, hseven, ?_⟩
  rw [hseven]
  decide

end KernelR.Proc
