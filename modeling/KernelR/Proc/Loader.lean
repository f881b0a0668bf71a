import KernelR.Foundations.Bytes
import KernelR.Foundations.Loop
import KernelR.Mm.Allocator
import KernelR.Mm.PageCount
import KernelR.Mm.UserPages

/-!
# Loading a program

The part of `spawn_user_process` that builds the address space of a new process: it creates
the address space, maps and fills the pages of the segments that are to be loaded, and maps
the page at `0x8000_0000`. What `xmas_elf` makes of the file is given: its program headers,
and the bytes from `elf_data` on. Nothing keeps a segment from naming bytes behind the end of
the file; what is read there is the memory behind the buffer, and it is taken not to change
during the load.

The kernel is built with overflow checks, so a sum that does not fit into 64 bits panics. So
do an address that cannot be made canonical, a page that is mapped already and a lack of memory;
all of these are `none`, and so is a copy from memory that cannot be read.

`loadPage_spec` says what one page of a segment does to the address space, wherever it is:
all it needs is that the tables on the way there form a tree and that the page is in no huge
page. `Loaded` is what the loader keeps besides if the program is in the user half: the space is
built from frames of the supply, and nothing else in memory changes.
-/

namespace KernelR.Proc

open List Function Option Foundations Mm

/-! ### Bytes of frames -/

/-- A byte of a frame. -/
def readByte (m : Machine) (frame : BitVec 64) (offset : ℕ) : UInt8 :=
  ⟨byteOf (m.mem frame (.ofNat 9 (offset / 8))) (offset % 8)⟩

/-- Write a byte of a frame. -/
def writeByte (frame : BitVec 64) (m : Machine) (offset : ℕ) (byte : UInt8) : Machine :=
  m.write frame (.ofNat 9 (offset / 8))
    (setByte (m.mem frame (.ofNat 9 (offset / 8))) (offset % 8) byte.toBitVec)

/-- `copy_nonoverlapping`, to an offset in a frame. A byte that is `none` cannot be read. -/
def copyToFrame (m : Machine) (frame : BitVec 64) (offset : ℕ) (src : ℕ → Option UInt8)
    (count : ℕ) : Option Machine :=
  (List.range' 0 count).foldlM (fun m k => (src k).map (writeByte frame m (offset + k))) m

section Bytes

variable {m m' : Machine} {frame : BitVec 64} {offset count : ℕ} {src : ℕ → Option UInt8}

theorem readByte_writeByte {i : ℕ} (hoffset : offset < 4096) (hi : i < 4096) (byte : UInt8) :
    readByte (writeByte frame m offset byte) frame i =
      if i = offset then byte else readByte m frame i := by
  have hindex : (BitVec.ofNat 9 (i / 8) = BitVec.ofNat 9 (offset / 8)) ↔ i / 8 = offset / 8 := by
    rw [← BitVec.toNat_inj, BitVec.toNat_ofNat, BitVec.toNat_ofNat]
    omega
  simp only [readByte, writeByte, Machine.write]
  by_cases hword : i / 8 = offset / 8
  · rw [hindex.mpr hword, setEntry_self,
      byteOf_setByte _ (Nat.mod_lt _ (by decide)) (Nat.mod_lt _ (by decide))]
    by_cases hi' : i = offset
    · rw [if_pos hi', if_pos (hi' ▸ rfl)]
    · rw [if_neg hi', if_neg (by omega)]
  · rw [setEntry_of_ne fun _ heq => hword (hindex.mp heq), if_neg]
    rintro rfl
    exact hword rfl

/-- Only the frame is written to. What was copied is there, and the rest of the frame is as it
was. -/
theorem copyToFrame_eq_some (h : copyToFrame m frame offset src count = some m') :
    (∃ c, m' = m.store frame c) ∧ (offset + count ≤ 4096 → ∀ i < 4096,
      some (readByte m' frame i) = if offset ≤ i ∧ i < offset + count then src (i - offset)
        else some (readByte m frame i)) := by
  have hcopied := loop_invariant (I := fun k m₁ => (∃ c, m₁ = m.store frame c) ∧
      (offset + count ≤ 4096 → ∀ i < 4096, some (readByte m₁ frame i) =
        if offset ≤ i ∧ i < offset + k then src (i - offset)
        else some (readByte m frame i))) ?_ ?_ h
  · rwa [Nat.zero_add] at hcopied
  · refine ⟨⟨m.mem frame, ?_⟩, fun _ i _ => ?_⟩
    · rw [Machine.store, update_eq_self]
    · rw [if_neg (by omega)]
  · rintro k m₁ m₂ - hk ⟨⟨c, rfl⟩, hbytes⟩ hround
    obtain ⟨byte, hbyte, rfl⟩ := map_eq_some_iff.mp hround
    refine ⟨⟨(writeByte frame (m.store frame c) (offset + k) byte).mem frame, ?_⟩,
      fun hend i hi => ?_⟩
    · simp only [Machine.store, writeByte, Machine.write, setEntry, update_idem, update_self]
    · rw [readByte_writeByte (by omega) hi]
      by_cases hlast : i = offset + k
      · rw [if_pos hlast, if_pos (by omega), hlast, Nat.add_sub_cancel_left, hbyte]
      · rw [if_neg hlast, hbytes hend i hi]
        exact if_congr (by omega) rfl rfl

end Bytes

/-! ### The loader -/

/-- A program header. -/
structure ProgramHeader where
  /-- the type is `Load` -/
  load : Bool
  virtualAddr : ℕ
  memSize : ℕ
  fileSize : ℕ
  offset : ℕ
deriving DecidableEq

/-- Where a segment ends. -/
def ProgramHeader.segmentEnd (ph : ProgramHeader) : ℕ := ph.virtualAddr + ph.memSize

/-- The numbers of the pages of a segment, `start_page..=end_page`. -/
def ProgramHeader.pages (ph : ProgramHeader) : List ℕ :=
  let startPage := ph.virtualAddr / 4096
  let endPage := (ph.segmentEnd - 1) / 4096
  List.range' startPage (endPage + 1 - startPage)

/-- The flags of the pages of a segment. -/
def segmentFlags : PageTableFlags := (PageTableFlags.present.union .writable).union .userAccessible

/-- The variables of the loop over the pages of a segment. -/
structure Loading where
  machine : Machine
  currentFileOffset : ℕ
  remainingFileBytes : ℕ
  currentVaddr : ℕ

namespace Loading

def pageOffset (l : Loading) (pageVaddr : ℕ) : ℕ :=
  if l.currentVaddr > pageVaddr then l.currentVaddr - pageVaddr else 0

def bytesToCopy (l : Loading) (pageVaddr : ℕ) : ℕ :=
  min l.remainingFileBytes (4096 - l.pageOffset pageVaddr)

/-- Fill the new page, in this frame. -/
def fill (l : Loading) (image : ℕ → Option UInt8) (pageVaddr : ℕ) (frame : BitVec 64)
    (m : Machine) : Option Loading :=
  if l.bytesToCopy pageVaddr > 0 then do
    let machine ← copyToFrame m frame (l.pageOffset pageVaddr)
      (fun k => image (l.currentFileOffset + k)) (l.bytesToCopy pageVaddr)
    let currentFileOffset ← checkedAdd l.currentFileOffset (l.bytesToCopy pageVaddr)
    let currentVaddr ← checkedAdd l.currentVaddr (l.bytesToCopy pageVaddr)
    some {
      machine
      currentFileOffset
      remainingFileBytes := l.remainingFileBytes - l.bytesToCopy pageVaddr
      currentVaddr }
  else some { l with machine := m }

end Loading

/-- One page of a segment. -/
def loadPage (pml4 : BitVec 64) (image : ℕ → Option UInt8) (l : Loading) (pageNum : ℕ) :
    Option Loading := do
  let pageVaddr := pageNum * 4096
  let (frame, m) ← l.machine.allocateZeroedFrame
  let virtAddr ← VirtAddr.new pageVaddr
  match m.mapTo (.containingAddress virtAddr) frame segmentFlags pml4 with
  | (.error _, _) => none
  | (.ok (), m) => l.fill image pageVaddr frame.start m

/-- One segment. -/
def loadSegment (pml4 : BitVec 64) (image : ℕ → Option UInt8) (ph : ProgramHeader) (m : Machine) :
    Option Machine :=
  (ph.pages.foldlM (loadPage pml4 image)
    ⟨m, ph.offset, ph.fileSize, ph.virtualAddr⟩).map Loading.machine

/-- The segments, and where the last one ends. -/
def loadProgram (pml4 : BitVec 64) (image : ℕ → Option UInt8) :
    List ProgramHeader → ℕ → Machine → Option (ℕ × Machine)
  | [], highestVaddr, m => some (highestVaddr, m)
  | ph :: rest, highestVaddr, m =>
    if ph.load then do
      let segmentEnd ← checkedAdd ph.virtualAddr ph.memSize
      -- `vaddr + mem_size - 1`
      if segmentEnd = 0 then none
      else do
        let m ← loadSegment pml4 image ph m
        loadProgram pml4 image rest (max highestVaddr segmentEnd) m
    else loadProgram pml4 image rest highestVaddr m

/-- The flags of the pages of a heap or a stack. -/
def dataFlags : PageTableFlags := segmentFlags.union .noExecute

/-- `spawn_user_process`, up to the record of the process: its PML4, and where its segments end.
`image` has the bytes from `elf_data` on, behind the end of the file as well. -/
def loadUserProcess (m : Machine) (activePml4 : BitVec 64) (image : ℕ → Option UInt8)
    (headers : List ProgramHeader) : Option (BitVec 64 × ℕ × Machine) := do
  let (userPml4, m) ← m.createUserAddressSpace activePml4
  let (highestVaddr, m) ← loadProgram userPml4 image headers 0 m
  let (stackFrame, m) ← m.allocateFrame
  let virtAddr ← VirtAddr.new 0x80000000
  match m.mapTo (.containingAddress virtAddr) stackFrame dataFlags userPml4 with
  | (.error _, _) => none
  | (.ok (), m) => do
      -- `align_to` adds 4096 before it subtracts 1
      let _ ← checkedAdd highestVaddr 4096
      some (userPml4, highestVaddr, m)

/-! ### One page -/

/-- The page of a number, where `VirtAddr::new` does not panic. -/
def pageOf (pageNum : ℕ) : Option Page := (VirtAddr.new (pageNum * 4096)).map .containingAddress

/-- The paths of these pages. -/
def pagePaths (pageNums : List ℕ) : List (List (BitVec 9)) :=
  pageNums.filterMap fun n => (pageOf n).map fun page => page.start.path

section Page

variable {pml4 : BitVec 64} {image : ℕ → Option UInt8} {l l' : Loading} {pageNum : ℕ} {page : Page}

theorem pageOf_of_lt (h : pageNum * 4096 < 2 ^ 47) :
    ∃ page, pageOf pageNum = some page ∧ page.addr = pageNum * 4096 := by
  obtain ⟨v, hnew, -⟩ := VirtAddr.new_of_lt h
  refine ⟨.containingAddress v, ?_, Page.addr_of_new hnew h ⟨pageNum, Nat.mul_comm _ _⟩⟩
  rw [pageOf, hnew, map_some]

theorem addr_of_pageOf (h : pageNum * 4096 < 2 ^ 47) (hpage : pageOf pageNum = some page) :
    page.addr = pageNum * 4096 := by
  obtain ⟨page', hpage', haddr⟩ := pageOf_of_lt h
  rwa [← some.inj (hpage'.symm.trans hpage)]

theorem pagePaths_append (ns ns' : List ℕ) :
    pagePaths (ns ++ ns') = pagePaths ns ++ pagePaths ns' := filterMap_append

theorem pagePaths_singleton (hpage : pageOf pageNum = some page) :
    pagePaths [pageNum] = [page.start.path] := by
  rw [pagePaths, filterMap_cons_some (b := page.start.path), filterMap_nil]
  rw [hpage, map_some]

theorem union_pagePaths_singleton (hpage : pageOf pageNum = some page)
    (pages : Finset (List (BitVec 9))) :
    pages ∪ (pagePaths [pageNum]).toFinset = insert page.start.path pages := by
  rw [pagePaths_singleton hpage, toFinset_cons, toFinset_nil, Finset.union_comm]
  rfl

theorem loadPage_eq_some (h : loadPage pml4 image l pageNum = some l') :
    ∃ frame rest page m, l.machine.avail = frame :: rest ∧ pageOf pageNum = some page ∧
      (takeZeroed l.machine frame rest).mapTo page frame segmentFlags pml4 = (.ok (), m) ∧
      l.fill image (pageNum * 4096) frame.start m = some l' := by
  obtain ⟨⟨frame, m1⟩, halloc, h⟩ := bind_eq_some_iff.mp h
  obtain ⟨virtAddr, hnew, h⟩ := bind_eq_some_iff.mp h
  obtain ⟨rest, havail, rfl⟩ := Machine.allocateZeroedFrame_eq_some.mp halloc
  split at h
  · cases h
  · rename_i m hmap
    exact ⟨frame, rest, _, m, havail, map_eq_some_iff.mpr ⟨virtAddr, hnew, rfl⟩, hmap, h⟩

theorem Loading.fill_eq_some {frame : BitVec 64} {m : Machine} {pageVaddr : ℕ}
    (h : l.fill image pageVaddr frame m = some l') :
    copyToFrame m frame (l.pageOffset pageVaddr) (fun k => image (l.currentFileOffset + k))
        (l.bytesToCopy pageVaddr) = some l'.machine ∧
      l'.currentFileOffset = l.currentFileOffset + l.bytesToCopy pageVaddr ∧
      l'.remainingFileBytes = l.remainingFileBytes - l.bytesToCopy pageVaddr ∧
      l'.currentVaddr = l.currentVaddr + l.bytesToCopy pageVaddr := by
  unfold fill at h
  split at h
  · obtain ⟨machine, hcopy, h⟩ := bind_eq_some_iff.mp h
    obtain ⟨fileOffset, hfile, h⟩ := bind_eq_some_iff.mp h
    obtain ⟨vaddr, hvaddr, h⟩ := bind_eq_some_iff.mp h
    cases h
    exact ⟨hcopy, (checkedAdd_eq_some.mp hfile).1.symm, rfl,
      (checkedAdd_eq_some.mp hvaddr).1.symm⟩
  · rename_i hzero
    have hzero : l.bytesToCopy pageVaddr = 0 := by omega
    cases h
    rw [hzero]
    exact ⟨rfl, rfl, rfl, rfl⟩

theorem Loading.copy_end (l : Loading) {pageVaddr : ℕ} (hoffset : l.pageOffset pageVaddr ≤ 4096) :
    l.pageOffset pageVaddr + l.bytesToCopy pageVaddr ≤ 4096 := by
  unfold bytesToCopy
  omega

/-- The bytes that `loadPage` puts into a page: a piece of the image, and zeros around it. -/
def Loading.pageByte (l : Loading) (image : ℕ → Option UInt8) (pageVaddr a : ℕ) : Option UInt8 :=
  if pageVaddr + l.pageOffset pageVaddr ≤ a ∧
      a < pageVaddr + l.pageOffset pageVaddr + l.bytesToCopy pageVaddr then
    image (l.currentFileOffset + (a - (pageVaddr + l.pageOffset pageVaddr)))
  else some 0

/-- A page of the space holds these bytes: its frame does, which is no table and not in the
supply. -/
def Holds (H : Set (BitVec 9)) (pml4 : BitVec 64) (m : Machine) (pageNum : ℕ)
    (content : ℕ → Option UInt8) : Prop :=
  ∃ page f, pageOf pageNum = some page ∧ page.start.p4Index ∈ H ∧ m.frameOf pml4 page = some f ∧
    Machine.Aside H pml4 m f ∧
    ∀ i < 4096, some (readByte m f i) = content (pageNum * 4096 + i)

variable {H : Set (BitVec 9)} {G : Set Page} {old : List (BitVec 9) → Bool} {total : ℕ}
  {pages : Finset (List (BitVec 9))} {m m' : Machine}

theorem store_aside (hocc : Occupies H G old pml4 total m pages) {f : BitVec 64}
    (hf : Machine.Aside H pml4 m f) (c : BitVec 9 → BitVec 64) :
    Occupies H G old pml4 total (m.store f c) pages ∧
      (∀ {v : VirtAddr}, v.p4Index ∈ H →
        (m.store f c).tableAt pml4 v.path = m.tableAt pml4 v.path) ∧
      ∀ u, Machine.Aside H pml4 m u → Machine.Aside H pml4 (m.store f c) u := by
  obtain ⟨hocc', hsame⟩ : Occupies H G old pml4 total (m.store f c) pages ∧ _ := by
    refine hocc.congr (fun {q u} hq hu => Machine.store_of_ne ?_) rfl
    rintro rfl
    exact hf.1 q hq hu
  refine ⟨hocc', fun hv => hsame (VirtAddr.within_tail hv), fun u hu => ⟨fun q hq => ?_, hu.2⟩⟩
  cases q with
  | nil => exact hu.1 [] hq
  | cons i q =>
    have htail : Within 3 H q := within_tailClosed 3 H hq
    rw [hsame htail]
    exact hu.1 _ hq

section MapTo

variable {frame : PhysFrame} {flags : PageTableFlags} {m₂ : Machine}
  (hocc : Occupies H G old pml4 total m pages) (havail : m.avail = frame :: m₂.avail)
  (hmem : ∀ u, u ≠ frame.start → m₂.mem u = m.mem u) (hpage : page ∈ G)
  (hmap : m₂.mapTo page frame flags pml4 = (.ok (), m'))

include hocc havail hmem hpage hmap in
/-- A page is mapped to a new frame, which is then written to: no other page changes. -/
theorem Holds.mapTo (c : BitVec 9 → BitVec 64) {n : ℕ} {content : ℕ → Option UInt8}
    (h : Holds H pml4 m n content) : Holds H pml4 (m'.store frame.start c) n content := by
  obtain ⟨⟨hself, -⟩, hothers⟩ := hocc.mapTo_aside havail hmem hpage hmap
  obtain ⟨-, hkept, haside⟩ := store_aside (hocc.mapTo havail hmem hpage hmap) hself c
  obtain ⟨page', f, hpage', hin', hf, hfaside, hcontent⟩ := h
  obtain ⟨hfaside', hfmem⟩ := hothers f hfaside
  have hne : page'.start.path ≠ page.start.path := by
    intro heq
    have hnew := (hocc.mapTo_ok_iff havail hmem hpage).mp (congrArg Prod.fst hmap)
    have hmapped : m.tableAt pml4 page.start.path ≠ none := by
      rw [← heq]
      exact Option.ne_none_iff_exists'.mpr ⟨f, hf⟩
    rcases (hocc.path_iff (hocc.reachable page hpage).1).mp hmapped with hold | hmem
    · exact Bool.false_ne_true (hnew.1.symm.trans hold)
    · exact hnew.2.1 hmem
  have hff : f ≠ frame.start := by
    rintro rfl
    refine hfaside.2 ?_
    rw [havail]
    exact mem_cons_self
  refine ⟨page', f, hpage', hin', ?_, haside f hfaside', fun i hi => ?_⟩
  · rw [Machine.frameOf, hkept hin', hocc.mapTo_mapped havail hmem hpage hmap hin', if_neg hne]
    exact hf
  · rw [← hcontent i hi, readByte, readByte, Machine.store_of_ne hff, hfmem]

end MapTo

/-- **One page.**  It was not mapped, it holds its bytes, and no other page has changed. -/
theorem loadPage_spec (hocc : Occupies H G old pml4 total l.machine pages)
    (hG : ∀ page ∈ pageOf pageNum, page ∈ G) (hoffset : l.pageOffset (pageNum * 4096) ≤ 4096)
    (h : loadPage pml4 image l pageNum = some l') :
    Occupies H G old pml4 total l'.machine (pages ∪ (pagePaths [pageNum]).toFinset) ∧
      Holds H pml4 l'.machine pageNum (l.pageByte image (pageNum * 4096)) ∧
      ∀ n content, Holds H pml4 l.machine n content → Holds H pml4 l'.machine n content := by
  obtain ⟨frame, rest, page, m, havail, hpage, hmap, hfill⟩ := loadPage_eq_some h
  have havail' : l.machine.avail = frame :: (takeZeroed l.machine frame rest).avail := havail
  have hmem : ∀ u, u ≠ frame.start → (takeZeroed l.machine frame rest).mem u = l.machine.mem u :=
    fun u hu => update_of_ne hu _ _
  obtain ⟨⟨hself, hzero⟩, -⟩ := hocc.mapTo_aside havail' hmem (hG page hpage) hmap
  obtain ⟨hcopy, -⟩ := Loading.fill_eq_some hfill
  obtain ⟨⟨c, hstored⟩, hbytes⟩ := copyToFrame_eq_some hcopy
  obtain ⟨hocc', hkept, haside⟩ :=
    store_aside (hocc.mapTo havail' hmem (hG page hpage) hmap) hself c
  have hin := (hocc.reachable page (hG page hpage)).1
  have hzero : ∀ i, readByte m frame.start i = 0 := by
    intro i
    rw [readByte, hzero, show (takeZeroed l.machine frame rest).mem frame.start = _ from
      update_self _ _ _]
    simp [byteOf]
  rw [← hstored] at hocc' hkept haside
  refine ⟨?_, ⟨page, frame.start, hpage, hin, ?_, haside _ hself, fun i hi => ?_⟩,
    fun n content hn => hstored ▸ hn.mapTo hocc havail' hmem (hG page hpage) hmap c⟩
  · rwa [union_pagePaths_singleton hpage]
  · rw [Machine.frameOf, hkept hin, hocc.mapTo_mapped havail' hmem (hG page hpage) hmap hin,
      if_pos rfl]
  · rw [hbytes (l.copy_end hoffset) i hi, hzero, Loading.pageByte]
    by_cases hin : l.pageOffset (pageNum * 4096) ≤ i ∧
        i < l.pageOffset (pageNum * 4096) + l.bytesToCopy (pageNum * 4096)
    · rw [if_pos hin, if_pos (by omega), Nat.add_sub_add_left]
    · rw [if_neg hin, if_neg (by omega)]

end Page

/-! ### Segments -/

/-- The byte of a segment at an address: of the image, or zero beyond it. -/
def ProgramHeader.byte (ph : ProgramHeader) (image : ℕ → Option UInt8) (a : ℕ) : Option UInt8 :=
  if ph.virtualAddr ≤ a ∧ a < ph.virtualAddr + ph.fileSize then
    image (ph.offset + (a - ph.virtualAddr))
  else some 0

/-- How much of the file is copied before the round for a page. -/
def ProgramHeader.copied (ph : ProgramHeader) (pageNum : ℕ) : ℕ :=
  min ph.fileSize (pageNum * 4096 - ph.virtualAddr)

/-- The variables of the loop, as functions of the page. -/
structure Loading.At (l : Loading) (ph : ProgramHeader) (pageNum : ℕ) : Prop where
  fileOffset : l.currentFileOffset = ph.offset + ph.copied pageNum
  remaining : l.remainingFileBytes = ph.fileSize - ph.copied pageNum
  vaddr : l.currentVaddr = ph.virtualAddr + ph.copied pageNum

section Segment

variable {pml4 : BitVec 64} {image : ℕ → Option UInt8} {l l' : Loading} {m m' : Machine}
  {pageNum count : ℕ} {ph : ProgramHeader} {H : Set (BitVec 9)} {G : Set Page}
  {old : List (BitVec 9) → Bool} {total : ℕ} {pages : Finset (List (BitVec 9))}

theorem ProgramHeader.mem_pages {n : ℕ} :
    n ∈ ph.pages ↔ ph.virtualAddr / 4096 ≤ n ∧ n ≤ (ph.segmentEnd - 1) / 4096 := by
  rw [pages, mem_range'_1]
  omega

theorem ProgramHeader.copied_start (ph : ProgramHeader) :
    ph.copied (ph.virtualAddr / 4096) = 0 := by
  unfold ProgramHeader.copied
  omega

theorem Loading.At.start (m : Machine) (ph : ProgramHeader) :
    Loading.At ⟨m, ph.offset, ph.fileSize, ph.virtualAddr⟩ ph (ph.virtualAddr / 4096) :=
  ⟨by rw [ph.copied_start]; rfl, by rw [ph.copied_start]; rfl, by rw [ph.copied_start]; rfl⟩

theorem Loading.At.piece (h : l.At ph pageNum) (hstart : ph.virtualAddr / 4096 ≤ pageNum) :
    l.pageOffset (pageNum * 4096) ≤ 4096 ∧
      ph.copied (pageNum + 1) = ph.copied pageNum + l.bytesToCopy (pageNum * 4096) ∧
      (0 < l.bytesToCopy (pageNum * 4096) →
        pageNum * 4096 + l.pageOffset (pageNum * 4096) = ph.virtualAddr + ph.copied pageNum) := by
  simp only [Loading.bytesToCopy, Loading.pageOffset, h.vaddr, h.remaining, ProgramHeader.copied]
  split <;> omega

theorem Loading.At.pageByte (h : l.At ph pageNum) (hstart : ph.virtualAddr / 4096 ≤ pageNum)
    {i : ℕ} (hi : i < 4096) :
    l.pageByte image (pageNum * 4096) (pageNum * 4096 + i) =
      ph.byte image (pageNum * 4096 + i) := by
  obtain ⟨-, hcopied, hpiece⟩ := h.piece hstart
  unfold Loading.pageByte ProgramHeader.byte
  by_cases hin : pageNum * 4096 + l.pageOffset (pageNum * 4096) ≤ pageNum * 4096 + i ∧
      pageNum * 4096 + i < pageNum * 4096 + l.pageOffset (pageNum * 4096) +
        l.bytesToCopy (pageNum * 4096)
  · have hstart := hpiece (by omega)
    have hfile : ph.copied (pageNum + 1) ≤ ph.fileSize := Nat.min_le_left _ _
    rw [if_pos hin, if_pos (by omega), h.fileOffset]
    congr 1
    omega
  · rw [if_neg hin, if_neg]
    -- what is not copied in this round was before, or will be later
    intro hfile
    simp only [ProgramHeader.copied] at hcopied hpiece
    omega

theorem Loading.At.next (h : l.At ph pageNum) (hstart : ph.virtualAddr / 4096 ≤ pageNum)
    (hload : loadPage pml4 image l pageNum = some l') : l'.At ph (pageNum + 1) := by
  obtain ⟨frame, rest, page, m, -, -, -, hfill⟩ := loadPage_eq_some hload
  obtain ⟨-, hfile, hremaining, hvaddr⟩ := Loading.fill_eq_some hfill
  obtain ⟨-, hcopied, -⟩ := h.piece hstart
  constructor
  · rw [hfile, h.fileOffset, hcopied, Nat.add_assoc]
  · rw [hremaining, h.remaining, hcopied, Nat.sub_sub]
  · rw [hvaddr, h.vaddr, hcopied, Nat.add_assoc]

/-- **Some pages of a segment**, one after another. -/
theorem loadPages_spec (hocc : Occupies H G old pml4 total l.machine pages)
    (hat : l.At ph pageNum) (hstart : ph.virtualAddr / 4096 ≤ pageNum)
    (hG : ∀ n ∈ List.range' pageNum count, ∀ page ∈ pageOf n, page ∈ G)
    (h : (List.range' pageNum count).foldlM (loadPage pml4 image) l = some l') :
    Occupies H G old pml4 total l'.machine
        (pages ∪ (pagePaths (List.range' pageNum count)).toFinset) ∧
      (∀ n ∈ List.range' pageNum count, Holds H pml4 l'.machine n (ph.byte image)) ∧
      ∀ n content, Holds H pml4 l.machine n content → Holds H pml4 l'.machine n content := by
  induction count generalizing pageNum l pages with
  | zero =>
    cases h
    exact ⟨by rwa [range'_zero, pagePaths, filterMap_nil, toFinset_nil, Finset.union_empty],
      fun n hn => absurd hn not_mem_nil, fun _ _ hn => hn⟩
  | succ count ih =>
    rw [range'_succ, foldlM_cons] at h
    rw [range'_succ] at hG ⊢
    obtain ⟨l₁, hround, h⟩ := bind_eq_some_iff.mp h
    obtain ⟨hocc₁, ⟨page, f, hpage, hin, hf, haside, hbytes⟩, hkeep⟩ :=
      loadPage_spec hocc (hG pageNum mem_cons_self) (hat.piece hstart).1 hround
    obtain ⟨hocc', hrest, hkeep'⟩ := ih hocc₁ (hat.next hstart hround) (by omega)
      (fun n hn => hG n (mem_cons_of_mem _ hn)) h
    refine ⟨?_, fun n hn => ?_, fun n content hn => hkeep' n content (hkeep n content hn)⟩
    · rwa [← singleton_append, pagePaths_append, toFinset_append, ← Finset.union_assoc]
    · rcases mem_cons.mp hn with rfl | hn
      · refine hkeep' _ _ ⟨page, f, hpage, hin, hf, haside, fun i hi => ?_⟩
        rw [hbytes i hi, hat.pageByte hstart hi]
      · exact hrest n hn

/-- **One segment.**  Its pages hold its bytes, and no other page has changed. -/
theorem loadSegment_spec (hocc : Occupies H G old pml4 total m pages)
    (hG : ∀ n ∈ ph.pages, ∀ page ∈ pageOf n, page ∈ G)
    (h : loadSegment pml4 image ph m = some m') :
    Occupies H G old pml4 total m' (pages ∪ (pagePaths ph.pages).toFinset) ∧
      (∀ n ∈ ph.pages, Holds H pml4 m' n (ph.byte image)) ∧
      ∀ n content, Holds H pml4 m n content → Holds H pml4 m' n content := by
  obtain ⟨l', hloop, rfl⟩ := map_eq_some_iff.mp h
  exact loadPages_spec hocc (.start m ph) le_rfl hG hloop

end Segment

/-! ### The program -/

/-- The pages of all segments that are loaded. -/
def segmentPages (headers : List ProgramHeader) : List ℕ :=
  (headers.filter (·.load)).flatMap ProgramHeader.pages

/-- All pages of a new process. -/
def processPages (headers : List ProgramHeader) : List ℕ := segmentPages headers ++ [0x80000]

section Program

variable {pml4 activePml4 : BitVec 64} {image : ℕ → Option UInt8} {m m' : Machine}
  {headers : List ProgramHeader} {highestVaddr highestVaddr' : ℕ} {H : Set (BitVec 9)}
  {G : Set Page} {old : List (BitVec 9) → Bool} {total : ℕ} {pages : Finset (List (BitVec 9))}

theorem segmentPages_cons {ph : ProgramHeader} (h : ph.load = true) :
    segmentPages (ph :: headers) = ph.pages ++ segmentPages headers := by
  rw [segmentPages, filter_cons_of_pos h, flatMap_cons]
  rfl

theorem segmentPages_skip {ph : ProgramHeader} (h : ph.load ≠ true) :
    segmentPages (ph :: headers) = segmentPages headers := by
  rw [segmentPages, filter_cons_of_neg h]
  rfl

theorem mem_segmentPages {n : ℕ} :
    n ∈ segmentPages headers ↔ ∃ ph ∈ headers, ph.load = true ∧ n ∈ ph.pages := by
  simp only [segmentPages, mem_flatMap, mem_filter, and_assoc]

/-- The steps of `loadProgram`, for a segment that is loaded. -/
theorem loadProgram_cons {ph : ProgramHeader} (hph : ph.load = true)
    (h : loadProgram pml4 image (ph :: headers) highestVaddr m = some (highestVaddr', m')) :
    0 < ph.segmentEnd ∧ ph.segmentEnd < 2 ^ 64 ∧ ∃ m₁, loadSegment pml4 image ph m = some m₁ ∧
      loadProgram pml4 image headers (max highestVaddr ph.segmentEnd) m₁ =
        some (highestVaddr', m') := by
  rw [loadProgram, if_pos hph] at h
  obtain ⟨segmentEnd, hsum, h⟩ := bind_eq_some_iff.mp h
  obtain ⟨rfl, hfits⟩ := checkedAdd_eq_some.mp hsum
  split at h
  · cases h
  · rename_i hzero
    obtain ⟨m₁, hsegment, h⟩ := bind_eq_some_iff.mp h
    exact ⟨Nat.pos_of_ne_zero hzero, hfits, m₁, hsegment, h⟩

theorem loadProgram_skip {ph : ProgramHeader} (hph : ph.load ≠ true) :
    loadProgram pml4 image (ph :: headers) highestVaddr m =
      loadProgram pml4 image headers highestVaddr m := by
  rw [loadProgram, if_neg hph]

theorem loadProgram_invariant {P : Machine → Prop}
    (hsegment : ∀ ph ∈ headers, ph.load = true → ∀ {m m'}, P m →
      loadSegment pml4 image ph m = some m' → P m')
    (hm : P m) (h : loadProgram pml4 image headers highestVaddr m = some (highestVaddr', m')) :
    P m' := by
  induction headers generalizing highestVaddr m with
  | nil =>
    cases h
    exact hm
  | cons ph headers ih =>
    have htail := fun ph' hmem => hsegment ph' (mem_cons_of_mem ph hmem)
    by_cases hph : ph.load = true
    · obtain ⟨-, -, m₁, hfirst, h⟩ := loadProgram_cons hph h
      exact ih htail (hsegment ph mem_cons_self hph hm hfirst) h
    · rw [loadProgram_skip hph] at h
      exact ih htail hm h

/-- **The segments.** -/
theorem loadProgram_spec (hocc : Occupies H G old pml4 total m pages)
    (hG : ∀ n ∈ segmentPages headers, ∀ page ∈ pageOf n, page ∈ G)
    (h : loadProgram pml4 image headers highestVaddr m = some (highestVaddr', m')) :
    Occupies H G old pml4 total m' (pages ∪ (pagePaths (segmentPages headers)).toFinset) ∧
      (∀ ph ∈ headers, ph.load = true → ∀ n ∈ ph.pages, Holds H pml4 m' n (ph.byte image)) ∧
      ∀ n content, Holds H pml4 m n content → Holds H pml4 m' n content := by
  induction headers generalizing highestVaddr m pages with
  | nil =>
    cases h
    refine ⟨?_, fun ph hmem => absurd hmem not_mem_nil, fun _ _ hn => hn⟩
    rwa [segmentPages, filter_nil, flatMap_nil, pagePaths, filterMap_nil, toFinset_nil,
      Finset.union_empty]
  | cons ph headers ih =>
    by_cases hph : ph.load = true
    · obtain ⟨-, -, m₁, hsegment, h⟩ := loadProgram_cons hph h
      rw [segmentPages_cons hph] at hG ⊢
      obtain ⟨hocc₁, hpages, hkeep⟩ :=
        loadSegment_spec hocc (fun n hn => hG n (mem_append_left _ hn)) hsegment
      obtain ⟨hocc', hrest, hkeep'⟩ := ih hocc₁ (fun n hn => hG n (mem_append_right _ hn)) h
      refine ⟨?_, fun ph' hmem hload n hn => ?_,
        fun n content hn => hkeep' n content (hkeep n content hn)⟩
      · rwa [pagePaths_append, toFinset_append, ← Finset.union_assoc]
      · rcases mem_cons.mp hmem with rfl | hmem
        · exact hkeep' n _ (hpages n hn)
        · exact hrest ph' hmem hload n hn
    · rw [loadProgram_skip hph] at h
      rw [segmentPages_skip hph] at hG ⊢
      obtain ⟨hocc', hrest, hkeep'⟩ := ih hocc hG h
      refine ⟨hocc', fun ph' hmem hload n hn => ?_, hkeep'⟩
      rcases mem_cons.mp hmem with rfl | hmem
      · exact absurd hload hph
      · exact hrest ph' hmem hload n hn

theorem loadProgram_highest
    (h : loadProgram pml4 image headers highestVaddr m = some (highestVaddr', m')) :
    highestVaddr ≤ highestVaddr' ∧
      (∀ ph ∈ headers, ph.load = true → 0 < ph.segmentEnd ∧ ph.segmentEnd ≤ highestVaddr') ∧
      ∀ b, highestVaddr ≤ b → (∀ ph ∈ headers, ph.load = true → ph.segmentEnd ≤ b) →
        highestVaddr' ≤ b := by
  induction headers generalizing highestVaddr m with
  | nil =>
    cases h
    exact ⟨le_rfl, fun ph hmem => absurd hmem not_mem_nil, fun b hb _ => hb⟩
  | cons ph headers ih =>
    by_cases hph : ph.load = true
    · obtain ⟨hpos, -, m₁, -, h⟩ := loadProgram_cons hph h
      obtain ⟨hle, hall, hleast⟩ := ih h
      obtain ⟨hold, hthis⟩ := max_le_iff.mp hle
      refine ⟨hold, forall_mem_cons.mpr ⟨fun _ => ⟨hpos, hthis⟩, hall⟩, fun b hb hbound => ?_⟩
      exact hleast b (max_le hb (hbound ph mem_cons_self hph))
        fun ph' hmem => hbound ph' (mem_cons_of_mem _ hmem)
    · rw [loadProgram_skip hph] at h
      obtain ⟨hle, hall, hleast⟩ := ih h
      exact ⟨hle, forall_mem_cons.mpr ⟨fun hload => absurd hload hph, hall⟩, fun b hb hbound =>
        hleast b hb fun ph' hmem => hbound ph' (mem_cons_of_mem _ hmem)⟩

theorem loadUserProcess_eq_some
    (h : loadUserProcess m activePml4 image headers = some (pml4, highestVaddr, m')) :
    ∃ m₁ m₂ frame rest page, m.createUserAddressSpace activePml4 = some (pml4, m₁) ∧
      loadProgram pml4 image headers 0 m₁ = some (highestVaddr, m₂) ∧
      m₂.avail = frame :: rest ∧ pageOf 0x80000 = some page ∧
      Machine.mapTo { m₂ with avail := rest, handed := frame.start :: m₂.handed }
        page frame dataFlags pml4 = (.ok (), m') ∧
      highestVaddr + 4096 < 2 ^ 64 := by
  obtain ⟨⟨pml4', m₁⟩, hcreate, h⟩ := bind_eq_some_iff.mp h
  obtain ⟨⟨highest, m₂⟩, hprogram, h⟩ := bind_eq_some_iff.mp h
  obtain ⟨⟨frame, m₃⟩, halloc, h⟩ := bind_eq_some_iff.mp h
  obtain ⟨virtAddr, hnew, h⟩ := bind_eq_some_iff.mp h
  obtain ⟨rest, havail, rfl⟩ := Machine.allocateFrame_eq_some.mp halloc
  split at h
  · cases h
  · rename_i hmap
    obtain ⟨sum, hsum, h⟩ := bind_eq_some_iff.mp h
    obtain ⟨rfl, rfl, rfl⟩ : pml4' = pml4 ∧ highest = highestVaddr ∧ _ = m' := by
      simpa using h
    obtain ⟨rfl, hfits⟩ := checkedAdd_eq_some.mp hsum
    exact ⟨m₁, m₂, frame, rest, _, hcreate, hprogram, havail,
      map_eq_some_iff.mpr ⟨virtAddr, hnew, rfl⟩, hmap, hfits⟩

end Program

/-! ### The new address space -/

/-- The pages of a program. -/
def programPages (headers : List ProgramHeader) : Set Page :=
  {page | ∃ n ∈ processPages headers, pageOf n = some page}

/-- The entries of the PML4 for the pages of a program in the kernel half. -/
def kernelEntries (headers : List ProgramHeader) : Set (BitVec 9) :=
  {i | i ∈ kernelHalf ∧ ∃ page ∈ programPages headers, page.start.p4Index = i}

/-- Where the program has pages in the kernel half, the tables of the active address space are
unshared and have no huge page there. This is so for every program in the user half. -/
structure Regular (m : Machine) (activePml4 : BitVec 64) (headers : List ProgramHeader) : Prop where
  unshared : Unshared follow m.mem activePml4 (Within 3 (kernelEntries headers))
  huge : ∀ page ∈ programPages headers, page.start.p4Index ∈ kernelHalf →
    NoHugePage m activePml4 page

/-- What a new address space has at a path: what the kernel half of the active one has. -/
def inheritedTable (m : Machine) (activePml4 : BitVec 64) (q : List (BitVec 9)) :
    Option (BitVec 64) :=
  if ∃ i ∈ q.getLast?, 256 ≤ i.toNat then m.tableAt activePml4 q else none

def inherited (m : Machine) (activePml4 : BitVec 64) (q : List (BitVec 9)) : Bool :=
  (inheritedTable m activePml4 q).isSome

section Created

variable {pml4 activePml4 : BitVec 64} {m₀ m : Machine} {headers : List ProgramHeader}
  {q : List (BitVec 9)}

theorem mem_programPages {n : ℕ} (hn : n ∈ segmentPages headers) {page : Page}
    (hpage : page ∈ pageOf n) : page ∈ programPages headers :=
  ⟨n, mem_append_left _ hn, hpage⟩

theorem created_halves (hstock : Stocked m₀ activePml4)
    (h : m₀.createUserAddressSpace activePml4 = some (pml4, m)) :
    (∀ i ∈ userHalf, m.mem pml4 i = 0#64) ∧
      (∀ i ∈ kernelHalf, m.mem pml4 i = m₀.mem activePml4 i) ∧
      ∀ u ∈ m₀.kernelTables activePml4, m.mem u = m₀.mem u := by
  obtain ⟨frame, rest, havail, rfl, -, -, -, -, hmem⟩ :=
    createUserAddressSpace_eq h fun frame hframe => (hstock.fresh frame hframe).1
  rw [hmem]
  refine ⟨fun i hi => ?_, fun i hi => ?_, fun u hu => update_of_ne ?_ _ _⟩
  · have hnot : i ∉ Machine.kernelIndices := by
      rw [mem_kernelIndices]
      exact Nat.not_le.mpr hi
    rw [update_self, if_neg hnot]
  · rw [update_self, if_pos ((mem_kernelIndices i).mpr hi)]
  · rintro rfl
    exact (hstock.fresh frame (havail ▸ mem_cons_self)).2 hu

theorem tableAt_created (hstock : Stocked m₀ activePml4)
    (h : m₀.createUserAddressSpace activePml4 = some (pml4, m)) {i : BitVec 9}
    (hlen : (i :: q).length ≤ 4) :
    m.tableAt pml4 (i :: q) = inheritedTable m₀ activePml4 (i :: q) := by
  obtain ⟨huser, hcopy, hmem⟩ := created_halves hstock h
  unfold inheritedTable
  split_ifs with hkernel
  · obtain ⟨j, hj, hle⟩ := hkernel
    have hwithin : Within 4 kernelHalf (i :: q) :=
      ⟨hlen, fun k hk => some.inj (hj.symm.trans hk) ▸ hle⟩
    rw [Machine.tableAt_cons, Machine.tableAt_cons, entryAt_copy hcopy hmem hwithin]
  · by_contra hne
    obtain ⟨t, ht⟩ := Option.ne_none_iff_exists'.mp hne
    have hnil := eq_nil_of_tableAt huser ⟨hlen, fun k hk => ?_⟩ ht
    · exact cons_ne_nil _ _ hnil
    · by_contra hge
      exact hkernel ⟨k, hk, Nat.le_of_not_lt hge⟩

/-- **The new address space has no pages**, apart from those of the kernel half. -/
theorem occupies_created (hstock : Stocked m₀ activePml4)
    (hregular : Regular m₀ activePml4 headers)
    (h : m₀.createUserAddressSpace activePml4 = some (pml4, m)) :
    Occupies (userHalf ∪ kernelEntries headers) (programPages headers)
      (inherited m₀ activePml4) pml4 m₀.avail.length m ∅ := by
  have htables : ∀ {i q}, (i :: q).length ≤ 4 → _ := fun {i q} hlen =>
    tableAt_created hstock h (i := i) (q := q) hlen
  obtain ⟨huser, hcopy, hmem⟩ := created_halves hstock h
  obtain ⟨frame, rest, havail, rfl, havail', -⟩ :=
    createUserAddressSpace_eq h fun frame hframe => (hstock.fresh frame hframe).1
  have hdistinct := hstock.distinct
  rw [havail, map_cons, nodup_cons] at hdistinct
  -- behind the entries of the PML4 there are tables of the kernel
  have hkernel : ∀ {i q u}, Within 3 (userHalf ∪ kernelEntries headers) (i :: q) →
      m.tableAt frame.start (i :: q) = some u → Within 3 (kernelEntries headers) (i :: q) ∧
        m₀.tableAt activePml4 (i :: q) = some u ∧ u ∈ m₀.kernelTables activePml4 := by
    intro i q u hq hu
    rw [htables (hq.1.trans (Nat.le_succ 3)), inheritedTable, ite_none_right_eq_some] at hu
    obtain ⟨⟨j, hj, hle⟩, hu⟩ := hu
    have hentry : j ∈ kernelEntries headers := (hq.2 j hj).resolve_left (Nat.not_lt.mpr hle)
    have hlast : ∀ k ∈ (i :: q).getLast?, k = j := fun k hk => some.inj (hk.symm.trans hj)
    refine ⟨⟨hq.1, fun k hk => hlast k hk ▸ hentry⟩, hu, _, cons_ne_nil i q,
      ⟨hq.1, fun k hk => hlast k hk ▸ hle⟩, hu⟩
  have hfresh : ∀ f ∈ m₀.avail, ∀ {u}, u ∈ m₀.kernelTables activePml4 → f.start ≠ u :=
    fun f hf u hu heq => (hstock.fresh f hf).2 (heq ▸ hu)
  refine ⟨⟨fun p q u hp hq hpu hqu => ?_, fun f hf p hp hpu => ?_, havail' ▸ hdistinct.2⟩,
    fun page hpage => ?_, fun {v} hv {level} hlevel => ?_, ?_⟩
  · cases p with
    | nil =>
      cases q with
      | nil => rfl
      | cons j q =>
        obtain rfl := some.inj hpu
        exact absurd rfl (hfresh frame (havail ▸ mem_cons_self) (hkernel hq hqu).2.2)
    | cons i p =>
      obtain ⟨hp, hpu, hu⟩ := hkernel hp hpu
      cases q with
      | nil =>
        obtain rfl := some.inj hqu
        exact absurd rfl (hfresh frame (havail ▸ mem_cons_self) hu)
      | cons j q =>
        obtain ⟨hq, hqu, -⟩ := hkernel hq hqu
        exact hregular.unshared hp hq hpu hqu
  · rw [havail'] at hf
    cases p with
    | nil =>
      obtain heq : frame.start = f.start := some.inj hpu
      exact hdistinct.1 (heq ▸ mem_map_of_mem hf)
    | cons i p =>
      exact hfresh f (havail ▸ mem_cons_of_mem _ hf) (hkernel hp hpu).2.2 rfl
  · by_cases hin : page.start.p4Index ∈ userHalf
    · refine ⟨Or.inl hin, ?_⟩
      have hempty := entryAt_empty huser (isUser_tailClosed (isUser_path hin))
      exact congrArg (Option.bind · hugeFrame) hempty
    · have hin : page.start.p4Index ∈ kernelHalf := Nat.le_of_not_lt hin
      refine ⟨Or.inr ⟨hin, page, hpage, rfl⟩, ?_⟩
      have hsame := entryAt_copy hcopy hmem
        ((VirtAddr.within_tail hin).mono_length (Nat.le_succ 3))
      exact (congrArg (Option.bind · hugeFrame) hsame).trans (hregular.huge page hpage hin)
  · have hnone : ¬ ∃ d ∈ (∅ : Finset (List (BitVec 9))), d.drop level = v.path.drop level :=
      fun ⟨d, hd, _⟩ => Finset.notMem_empty d hd
    rw [or_iff_left hnone, inherited, isSome_iff_ne_none]
    obtain ⟨i, q, hq⟩ : ∃ i q, v.path.drop level = i :: q := by
      refine exists_cons_of_ne_nil fun hnil => ?_
      have hlen := congrArg List.length hnil
      simp only [VirtAddr.path, length_drop, length_cons, length_nil] at hlen
      omega
    have hlen : (i :: q).length ≤ 4 := hq ▸ (drop_suffix level v.path).length_le
    rw [hq, htables hlen]
  · rw [havail, havail', framesNeeded_empty, length_cons]

/-- **The whole program.**  All pages of the segments hold their bytes. -/
theorem loadUserProcess_spec {image : ℕ → Option UInt8} {highestVaddr : ℕ}
    (hstock : Stocked m₀ activePml4) (hregular : Regular m₀ activePml4 headers)
    (h : loadUserProcess m₀ activePml4 image headers = some (pml4, highestVaddr, m)) :
    Occupies (userHalf ∪ kernelEntries headers) (programPages headers) (inherited m₀ activePml4)
        pml4 m₀.avail.length m (pagePaths (processPages headers)).toFinset ∧
      ∀ ph ∈ headers, ph.load = true → ∀ n ∈ ph.pages,
        Holds (userHalf ∪ kernelEntries headers) pml4 m n (ph.byte image) := by
  obtain ⟨m₁, m₂, frame, rest, page, hcreate, hprogram, havail, hpage, hmap, -⟩ :=
    loadUserProcess_eq_some h
  obtain ⟨hocc, hpages, -⟩ := loadProgram_spec (occupies_created hstock hregular hcreate)
    (fun n hn _ => mem_programPages hn) hprogram
  have havail' : m₂.avail = frame :: Machine.avail
      { m₂ with avail := rest, handed := frame.start :: m₂.handed } := havail
  have hstack : page ∈ programPages headers := ⟨0x80000, mem_append_right _ mem_cons_self, hpage⟩
  have hocc' := hocc.mapTo havail' (fun _ _ => rfl) hstack hmap
  refine ⟨?_, fun ph hmem hload n hn => ?_⟩
  · rwa [Finset.empty_union, ← union_pagePaths_singleton hpage, ← toFinset_append,
      ← pagePaths_append] at hocc'
  · have hholds := (hpages ph hmem hload n hn).mapTo hocc havail' (fun _ _ => rfl) hstack hmap
      (m.mem frame.start)
    rwa [Machine.store, update_eq_self] at hholds

end Created

/-! ### Programs in the user half -/

/-- Every page of the segment is in the user half. -/
def ProgramHeader.InUserHalf (ph : ProgramHeader) : Prop := ∀ n ∈ ph.pages, n * 4096 < 2 ^ 47

instance (ph : ProgramHeader) : Decidable ph.InUserHalf :=
  inferInstanceAs (Decidable (∀ n ∈ ph.pages, n * 4096 < 2 ^ 47))

/-- All segments that are loaded are in the user half. -/
def UserSegments (headers : List ProgramHeader) : Prop :=
  ∀ ph ∈ headers, ph.load = true → ph.InUserHalf

instance (headers : List ProgramHeader) : Decidable (UserSegments headers) :=
  inferInstanceAs (Decidable (∀ ph ∈ headers, ph.load = true → ph.InUserHalf))

theorem UserSegments.lt_of_mem {headers : List ProgramHeader} {n : ℕ} (h : UserSegments headers)
    (hn : n ∈ processPages headers) : n * 4096 < 2 ^ 47 := by
  rcases mem_append.mp hn with hn | hn
  · obtain ⟨ph, hmem, hload, hn⟩ := mem_segmentPages.mp hn
    exact h ph hmem hload n hn
  · rw [mem_singleton.mp hn]
    decide

theorem UserSegments.mem_userHalf {headers : List ProgramHeader} {page : Page}
    (h : UserSegments headers) (hpage : page ∈ programPages headers) :
    page.start.p4Index ∈ userHalf := by
  obtain ⟨n, hn, hpage⟩ := hpage
  have hlt := h.lt_of_mem hn
  exact Page.mem_userHalf ((addr_of_pageOf hlt hpage).trans_lt hlt)

theorem UserSegments.regular {headers : List ProgramHeader} (h : UserSegments headers)
    (m : Machine) (activePml4 : BitVec 64) : Regular m activePml4 headers := by
  have hnil : ∀ {q}, Within 3 (kernelEntries headers) q → q = [] := by
    intro q hq
    by_contra hne
    obtain ⟨hkernel, page, hpage, heq⟩ := hq.2 _ (getLast?_eq_some_getLast hne)
    exact absurd (heq ▸ h.mem_userHalf hpage) (Nat.not_lt.mpr hkernel)
  refine ⟨fun p q t hp hq _ _ => (hnil hp).trans (hnil hq).symm, fun page hpage hkernel => ?_⟩
  exact absurd (h.mem_userHalf hpage) (Nat.not_lt.mpr hkernel)


/-- **What holds after every page**: the space is built from frames of the supply, nothing else
in memory has changed, and the kernel half of the PML4 is a copy of the active one. -/
structure Loaded (pml4 activePml4 : BitVec 64) (m₀ m : Machine) : Prop where
  inv : SpaceInv pml4 ⟨m, []⟩
  supply : ∃ new, m₀.avail = new ++ m.avail
  handed : ∀ u ∈ m.handed, u ∈ m₀.avail.map PhysFrame.start
  outside : ∀ u, u ∉ m₀.avail.map PhysFrame.start → m.mem u = m₀.mem u
  kernel : ∀ j, j ∉ userHalf → m.mem pml4 j = m₀.mem activePml4 j

namespace Loaded

variable {pml4 activePml4 : BitVec 64} {m₀ m m' : Machine} {page : Page} {frame : PhysFrame}

theorem space (h : Loaded pml4 activePml4 m₀ m) {u : BitVec 64} (hu : u ∈ m.spaceFrames pml4) :
    u ∈ m₀.avail.map PhysFrame.start := by
  obtain ⟨own, -, hown, hperm⟩ := h.inv.ledger
  refine h.handed u (hperm.mem_iff.mpr ?_)
  exact mem_append_left _ (mem_append_left _ ((hown u).mpr hu))

theorem mem_supply (h : Loaded pml4 activePml4 m₀ m) {u : BitVec 64}
    (hu : u ∈ m.avail.map PhysFrame.start) : u ∈ m₀.avail.map PhysFrame.start := by
  obtain ⟨new, hnew⟩ := h.supply
  rw [hnew, map_append]
  exact mem_append_right _ hu

theorem created (hstock : Stocked m₀ activePml4)
    (h : m₀.createUserAddressSpace activePml4 = some (pml4, m)) :
    Loaded pml4 activePml4 m₀ m := by
  have hkernel := (created_halves hstock h).2.1
  obtain ⟨frame, rest, havail, rfl, havail', hhanded, -, -, hmem⟩ :=
    createUserAddressSpace_eq h fun frame hframe => (hstock.fresh frame hframe).1
  have hframe : frame.start ∈ m₀.avail.map PhysFrame.start := by
    rw [havail]
    exact mem_cons_self
  refine ⟨Space.Created.inv ⟨rfl, m₀, activePml4, hstock, h⟩, ⟨[frame], ?_⟩, ?_, ?_,
    fun j hj => hkernel j (Nat.le_of_not_lt hj)⟩
  · rw [havail, havail', singleton_append]
  · intro u hu
    rw [hhanded, hstock.handed, mem_singleton] at hu
    exact hu ▸ hframe
  · intro u hu
    rw [hmem, update_of_ne]
    rintro rfl
    exact hu hframe

theorem mapsNew (h : Loaded pml4 activePml4 m₀ m) (hnew : MapsNew pml4 m page frame m') :
    Loaded pml4 activePml4 m₀ m' where
  inv := hnew.inv
  supply := by
    obtain ⟨new, hsupply⟩ := h.supply
    obtain ⟨new', hsupply'⟩ := hnew.grows.supply
    exact ⟨new ++ new', by rw [hsupply, hsupply', append_assoc]⟩
  handed u hu := (hnew.grows.handed u hu).elim (h.handed u) h.mem_supply
  outside u hu := by
    rw [hnew.outside u (fun hspace => hu (h.space hspace)) fun hmem => hu (h.mem_supply hmem)]
    exact h.outside u hu
  kernel j hj := (hnew.kernel j hj).trans (h.kernel j hj)

theorem store (h : Loaded pml4 activePml4 m₀ m) (hpage : page.addr < 2 ^ 47) {f : BitVec 64}
    (hf : m.frameOf pml4 page = some f) (c : BitVec 9 → BitVec 64) :
    Loaded pml4 activePml4 m₀ (m.store f c) where
  inv := (h.inv.store (Page.mem_userHalf hpage) hf c).1
  supply := h.supply
  handed := h.handed
  outside u hu := by
    rw [Machine.store_of_ne]
    · exact h.outside u hu
    rintro rfl
    exact hu (h.space ⟨_, isUser_path (Page.mem_userHalf hpage), hf⟩)
  kernel j hj := by
    rw [Machine.store_of_ne]
    · exact h.kernel j hj
    -- the PML4 is a table, and the frame of a page is not
    rintro rfl
    exact (h.inv.page_frame (Page.mem_userHalf hpage) hf).1 [] within_nil rfl

end Loaded

section User

variable {pml4 activePml4 : BitVec 64} {image : ℕ → Option UInt8} {l l' : Loading}
  {m₀ m m' : Machine} {pageNum highestVaddr : ℕ} {ph : ProgramHeader}
  {headers : List ProgramHeader}

theorem loadPage_user (hloaded : Loaded pml4 activePml4 m₀ l.machine)
    (hlt : pageNum * 4096 < 2 ^ 47) (h : loadPage pml4 image l pageNum = some l') :
    Loaded pml4 activePml4 m₀ l'.machine := by
  obtain ⟨frame, rest, page, m, havail, hpage, hmap, hfill⟩ := loadPage_eq_some h
  obtain ⟨⟨c, hstored⟩, -⟩ := copyToFrame_eq_some (Loading.fill_eq_some hfill).1
  have hpage : page.addr < 2 ^ 47 := (addr_of_pageOf hlt hpage).trans_lt hlt
  have hmaps := MapsNew.zeroed hloaded.inv havail hpage hmap
  have hself : m.frameOf pml4 page = some frame.start := by
    rw [hmaps.mapped _ hpage, if_pos rfl]
  rw [hstored]
  exact (hloaded.mapsNew hmaps).store hpage hself c

theorem loadSegment_user (hloaded : Loaded pml4 activePml4 m₀ m) (huser : ph.InUserHalf)
    (h : loadSegment pml4 image ph m = some m') : Loaded pml4 activePml4 m₀ m' := by
  obtain ⟨l', hloop, rfl⟩ := map_eq_some_iff.mp h
  exact loop_invariant (I := fun _ l => Loaded pml4 activePml4 m₀ l.machine) hloaded
    (fun i _ _ hlow hhigh hloaded hround =>
      loadPage_user hloaded (huser i (mem_range'_1.mpr ⟨hlow, hhigh⟩)) hround) hloop

/-- **The whole program.** -/
theorem loadUserProcess_user (hstock : Stocked m activePml4) (huser : UserSegments headers)
    (h : loadUserProcess m activePml4 image headers = some (pml4, highestVaddr, m')) :
    Loaded pml4 activePml4 m m' := by
  obtain ⟨m₁, m₂, frame, rest, page, hcreate, hprogram, havail, hpage, hmap, -⟩ :=
    loadUserProcess_eq_some h
  have hloaded : Loaded pml4 activePml4 m m₂ := loadProgram_invariant
    (fun ph hmem hload _ _ hloaded hsegment =>
      loadSegment_user hloaded (huser ph hmem hload) hsegment) (.created hstock hcreate) hprogram
  have hlt : page.addr < 2 ^ 47 :=
    (addr_of_pageOf (by decide) hpage).trans_lt (by decide)
  exact hloaded.mapsNew (.of_mapTo hloaded.inv havail (update_eq_self _ _).symm hlt hmap)

end User

end KernelR.Proc
