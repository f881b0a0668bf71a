import KernelR.Foundations.Bits
import KernelR.Foundations.RadixTree

/-!
# Page tables

`mm/paging.rs`, and the page tables that `boot.asm` sets up. Physical memory is a
function from frames, by their addresses, and indices to 64-bit words: `mem frame i` is
entry `i` of the page table in that frame, and through the direct map the kernel reads
and writes all of it. Flushing the TLB has no effect on it.

What the frame allocator is going to hand out is part of the state (`avail`); so are the
frames it handed out and got back (`handed` and `cleared`, latest first). It keeps its books
in memory as well: its lists run through the free frames, and it has a bitmap. The frames of
its books that it does not hand out are in `book`; what it writes into its books when a frame
goes back is `scribble`.

An entry is a word. Its address is in the bits 12 to 51 and its flags are the others, as
in the crate `x86_64`; frames and flags are types of their own, which keep to their bits.
-/

namespace KernelR.Mm

open Option Foundations

/-! ### Entries, flags and frames -/

/-- The bits of an entry that hold an address. -/
def addrMask : BitVec 64 := 0x000FFFFFFFFFF000#64

/-- `PageTableFlags`: any bits that are not part of the address. -/
structure PageTableFlags where
  bits : BitVec 64
  noAddr : bits &&& addrMask = 0#64
deriving DecidableEq

namespace PageTableFlags

def present : PageTableFlags := ⟨1#64, by decide⟩
def writable : PageTableFlags := ⟨2#64, by decide⟩
def userAccessible : PageTableFlags := ⟨4#64, by decide⟩
def noCache : PageTableFlags := ⟨16#64, by decide⟩
def hugePage : PageTableFlags := ⟨0x80#64, by decide⟩
def noExecute : PageTableFlags := ⟨0x8000000000000000#64, by decide⟩

/-- `a | b` -/
def union (a b : PageTableFlags) : PageTableFlags :=
  ⟨a.bits ||| b.bits, by
    rw [or_and_mask, a.noAddr, b.noAddr]
    exact BitVec.or_zero⟩

/-- `a & b` -/
def inter (a b : PageTableFlags) : PageTableFlags :=
  ⟨a.bits &&& b.bits, by
    rw [BitVec.and_assoc, b.noAddr]
    exact BitVec.and_zero⟩

/-- What tables below are entered with: `PRESENT | WRITABLE | USER_ACCESSIBLE`. -/
def table : PageTableFlags := (present.union writable).union userAccessible

end PageTableFlags

/-- `PhysFrame`: the address of a frame fits into an entry. -/
structure PhysFrame where
  start : BitVec 64
  aligned : start &&& addrMask = start
deriving DecidableEq

/-- `PhysFrame::containing_address` -/
def PhysFrame.containingAddress (addr : BitVec 64) : PhysFrame :=
  ⟨addr &&& addrMask, by rw [BitVec.and_assoc, BitVec.and_self]⟩

/-- `PageTableEntry::is_unused` -/
def isUnused (entry : BitVec 64) : Bool := entry == 0#64

/-- `PageTableEntry::addr` -/
def entryAddr (entry : BitVec 64) : BitVec 64 := entry &&& addrMask

/-- `PageTableEntry::flags` -/
def entryFlags (entry : BitVec 64) : PageTableFlags :=
  ⟨entry &&& ~~~addrMask, by
    rw [BitVec.and_assoc]
    exact BitVec.and_zero⟩

/-- `PageTableFlags::contains` -/
def PageTableFlags.contains (flags other : PageTableFlags) : Bool :=
  flags.bits &&& other.bits == other.bits

/-- `PageTableEntry::set_addr` -/
def setAddr (frame : PhysFrame) (flags : PageTableFlags) : BitVec 64 := frame.start ||| flags.bits

/-- `PageTableEntry::set_flags` -/
def setFlags (entry : BitVec 64) (flags : PageTableFlags) : BitVec 64 :=
  entryAddr entry ||| flags.bits

/-! ### Addresses and pages -/

/-- `VirtAddr`: the upper 16 bits repeat bit 47. -/
structure VirtAddr where
  bits : BitVec 64
  canonical : (bits.setWidth 48).signExtend 64 = bits
deriving DecidableEq

namespace VirtAddr

def p4Index (v : VirtAddr) : BitVec 9 := v.bits.extractLsb' 39 9
def p3Index (v : VirtAddr) : BitVec 9 := v.bits.extractLsb' 30 9
def p2Index (v : VirtAddr) : BitVec 9 := v.bits.extractLsb' 21 9
def p1Index (v : VirtAddr) : BitVec 9 := v.bits.extractLsb' 12 9

end VirtAddr

/-- `Page<Size4KiB>`, by its first address. -/
structure Page where
  start : VirtAddr
  aligned : start.bits &&& 0xFFF#64 = 0#64

/-- The address is in the page. -/
def Page.Contains (page : Page) (v : VirtAddr) : Prop := v.bits >>> 12 = page.start.bits >>> 12

/-! ### The machine -/

/-- Physical memory, by frames of 512 words, and the frame allocator: the frames that it will
hand out, those that it has handed out, and those that came back. `CR3` is not part of it; the
functions that read it have the address of the PML4 as an argument. -/
structure Machine where
  mem : BitVec 64 → BitVec 9 → BitVec 64
  avail : List PhysFrame
  handed : List (BitVec 64)
  cleared : List (BitVec 64)
  /-- frames of the allocator: its lists, its bitmap, and free frames it does not hand out -/
  book : List (BitVec 64)
  /-- what the books look like after a frame went back, next to the memory before -/
  scribble : BitVec 64 → (BitVec 64 → BitVec 9 → BitVec 64) → BitVec 64 → BitVec 9 → BitVec 64

namespace Machine

/-- Write an entry of a page table. -/
def write (m : Machine) (table : BitVec 64) (i : BitVec 9) (entry : BitVec 64) : Machine :=
  { m with mem := setEntry m.mem table i entry }

/-- `allocate_frame`. What the allocator writes into its books here is left out; nobody reads
a frame that is free. -/
def allocateFrame (m : Machine) : Option (PhysFrame × Machine) :=
  match m.avail with
  | [] => none
  | frame :: rest => some (frame, { m with avail := rest, handed := frame.start :: m.handed })

/-- `allocate_zeroed_frame` -/
def allocateZeroedFrame (m : Machine) : Option (PhysFrame × Machine) := do
  let (frame, m) ← m.allocateFrame
  some (frame, { m with mem := Function.update m.mem frame.start fun _ => 0#64 })

/-- `clear_frame`: the frame goes back. The allocator links it into its lists, so it writes
into the frame, into other frames that are free, and into its bitmap; which words it changes
there is left open. -/
def clearFrame (m : Machine) (frame : BitVec 64) : Machine :=
  { m with
    cleared := frame :: m.cleared
    book := frame :: m.book
    mem := fun u =>
      if u = frame ∨ u ∈ m.book ∨ u ∈ m.avail.map PhysFrame.start then m.scribble frame m.mem u
      else m.mem u }

end Machine

theorem Machine.allocateFrame_eq_some {m m' : Machine} {frame : PhysFrame} :
    m.allocateFrame = some (frame, m') ↔ ∃ rest, m.avail = frame :: rest ∧
      m' = { m with avail := rest, handed := frame.start :: m.handed } := by
  unfold allocateFrame
  cases m.avail with
  | nil => simp
  | cons frame' rest =>
    constructor
    · intro h
      cases h
      exact ⟨rest, rfl, rfl⟩
    · rintro ⟨rest', hrest, rfl⟩
      obtain ⟨rfl, rfl⟩ := List.cons.inj hrest
      rfl

/-- The state after `allocate_zeroed_frame`. -/
def takeZeroed (m : Machine) (frame : PhysFrame) (rest : List PhysFrame) : Machine :=
  { m with
    avail := rest
    handed := frame.start :: m.handed
    mem := Function.update m.mem frame.start fun _ => 0#64 }

theorem Machine.allocateZeroedFrame_eq_some {m m' : Machine} {frame : PhysFrame} :
    m.allocateZeroedFrame = some (frame, m') ↔
      ∃ rest, m.avail = frame :: rest ∧ m' = takeZeroed m frame rest := by
  constructor
  · intro h
    obtain ⟨⟨frame', m₁⟩, halloc, h⟩ := bind_eq_some_iff.mp h
    obtain ⟨rest, havail, rfl⟩ := allocateFrame_eq_some.mp halloc
    cases h
    exact ⟨rest, havail, rfl⟩
  · rintro ⟨rest, havail, rfl⟩
    rw [allocateZeroedFrame, allocateFrame_eq_some.mpr ⟨rest, havail, rfl⟩]
    rfl

/-! ### `map_to` -/

/-- `MapToError`, as far as `map_to` uses it. -/
inductive MapToError where
  | frameAllocationFailed
  | pageAlreadyMapped (frame : PhysFrame)
deriving DecidableEq

namespace Machine

/-- `map_to`: the table that an entry of the levels 4 to 2 leads to. An unused entry
gets a new table; a used one gets those of the flags for tables that are asked for. -/
def nextTable (m : Machine) (table : BitVec 64) (i : BitVec 9) (flags : PageTableFlags) :
    Except MapToError (BitVec 64) × Machine :=
  let entry := m.mem table i
  if isUnused entry then
    match m.allocateZeroedFrame with
    | some (frame, m) =>
      let m := m.write table i (setAddr frame .table)
      (.ok (entryAddr (m.mem table i)), m)
    | none => (.error .frameAllocationFailed, m)
  else
    let requiredFlags := flags.inter .table
    let m := m.write table i (setFlags entry ((entryFlags entry).union requiredFlags))
    (.ok (entryAddr (m.mem table i)), m)

/-- `map_to`: the entry of level 1. -/
def mapLeaf (m : Machine) (p1 : BitVec 64) (i : BitVec 9) (frame : PhysFrame)
    (flags : PageTableFlags) : Except MapToError Unit × Machine :=
  if isUnused (m.mem p1 i) then (.ok (), m.write p1 i (setAddr frame (flags.union .present)))
  else (.error (.pageAlreadyMapped frame), m)

/-- `map_to`, on the PML4 at `p4`. The flush of the TLB is left out: the model has none. That a
frame is aligned and below `2 ^ 52`, which `PhysAddr::new` checks, is part of `PhysFrame`. -/
def mapTo (m : Machine) (page : Page) (frame : PhysFrame) (flags : PageTableFlags)
    (p4 : BitVec 64) : Except MapToError Unit × Machine :=
  match m.nextTable p4 page.start.p4Index flags with
  | (.error err, m) => (.error err, m)
  | (.ok p3, m) =>
  match m.nextTable p3 page.start.p3Index flags with
  | (.error err, m) => (.error err, m)
  | (.ok p2, m) =>
  match m.nextTable p2 page.start.p2Index flags with
  | (.error err, m) => (.error err, m)
  | (.ok p1, m) => m.mapLeaf p1 page.start.p1Index frame flags

/-! ### `unmap` and `translate_addr` -/

/-- `unmap`: the table that an entry leads to, if the entry is present. -/
def presentTable (m : Machine) (table : BitVec 64) (i : BitVec 9) : Option (BitVec 64) :=
  let entry := m.mem table i
  if (entryFlags entry).contains .present then some (entryAddr entry) else none

/-- `unmap`, without the flush of the TLB. -/
def unmap (m : Machine) (page : Page) (p4 : BitVec 64) : Option (BitVec 64 × Machine) := do
  let p3 ← m.presentTable p4 page.start.p4Index
  let p2 ← m.presentTable p3 page.start.p3Index
  let p1 ← m.presentTable p2 page.start.p2Index
  let physAddr ← m.presentTable p1 page.start.p1Index
  some (physAddr, m.write p1 page.start.p1Index 0#64)

/-- `translate_addr`: the table that an entry leads to, if the entry is used. -/
def usedTable (m : Machine) (table : BitVec 64) (i : BitVec 9) : Option (BitVec 64) :=
  let entry := m.mem table i
  if isUnused entry then none else some (entryAddr entry)

/-- `translate_addr`, with `CR3` pointing to `p4` -/
def translateAddr (m : Machine) (p4 : BitVec 64) (v : VirtAddr) : Option (BitVec 64) := do
  let p3 ← m.usedTable p4 v.p4Index
  let p2 ← m.usedTable p3 v.p3Index
  let p1 ← m.usedTable p2 v.p2Index
  if (entryFlags (m.mem p2 v.p2Index)).contains .hugePage then
    some (p1 + (v.bits &&& 0x1FFFFF#64))
  else do
    let frameBase ← m.usedTable p1 v.p1Index
    some (frameBase + (v.bits &&& 0xFFF#64))

/-! ### The tables of the kernel -/

/-- Write the lower half of an entry, as the 32-bit code in `boot.asm` does. -/
def writeLow (m : Machine) (table : BitVec 64) (i : BitVec 9) (eax : BitVec 32) : Machine :=
  m.write table i ((m.mem table i &&& 0xFFFFFFFF00000000#64) ||| eax.setWidth 64)

/-- `set_up_page_tables` in `boot.asm`, with the tables at the given addresses: the first 4 MiB
in pages of 4 KiB and the rest of the first 1 GiB in huge pages, at 0 and at `PHYS_OFFSET`. -/
def setUpPageTables (m : Machine) (p4 p3 p2 p1 p1' : BitVec 64) : Machine :=
  let m := m.writeLow p4 0#9 (p3.setWidth 32 ||| 0b11#32)
  let m := m.writeLow p4 256#9 (p3.setWidth 32 ||| 0b11#32)
  let m := m.writeLow p3 0#9 (p2.setWidth 32 ||| 0b11#32)
  let m := m.writeLow p2 0#9 (p1.setWidth 32 ||| 0b11#32)
  let m := (List.range 512).foldl (fun m ecx =>
    m.writeLow p1 (.ofNat 9 ecx) (.ofNat 32 ecx * 0x1000#32 ||| 0b11#32)) m
  let m := m.writeLow p2 1#9 (p1'.setWidth 32 ||| 0b11#32)
  let m := (List.range 512).foldl (fun m ecx =>
    m.writeLow p1' (.ofNat 9 ecx) (.ofNat 32 ecx * 0x1000#32 + 0x200000#32 ||| 0b11#32)) m
  (List.range' 2 510).foldl (fun m ecx =>
    m.writeLow p2 (.ofNat 9 ecx) (.ofNat 32 ecx * 0x200000#32 ||| 0b10000011#32)) m

/-- `map_all_physical_memory`: the table that an entry leads to, a new one if it is unused.
The frames come from the bump allocator; if there are none the kernel stops. -/
def earlyTable (m : Machine) (table : BitVec 64) (i : BitVec 9) : Option (BitVec 64 × Machine) :=
  if isUnused (m.mem table i) then do
    let (frame, m) ← m.allocateZeroedFrame
    let m := m.write table i (setAddr frame (.union .present .writable))
    some (entryAddr (m.mem table i), m)
  else some (entryAddr (m.mem table i), m)

/-- `PHYS_OFFSET`, as an address -/
def physOffset : BitVec 64 := 0xFFFF800000000000#64

/-- `map_all_physical_memory`: one huge page. `VirtAddr::new` stops the kernel at an address
that is not canonical. -/
def mapHugePage (m : Machine) (p4 currentPhys : BitVec 64) : Option Machine :=
  let bits := currentPhys + physOffset
  if h : (bits.setWidth 48).signExtend 64 = bits then do
    let virtAddr : VirtAddr := ⟨bits, h⟩
    let (p3, m) ← m.earlyTable p4 virtAddr.p4Index
    let (p2, m) ← m.earlyTable p3 virtAddr.p3Index
    some (m.write p2 virtAddr.p2Index (setAddr (.containingAddress currentPhys)
      (.union (.union .present .writable) .hugePage)))
  else none

/-- `map_all_physical_memory`: from 1 GiB on, up to the highest address. The flush of the TLB is
left out, and so is the way the tables are accessed, through the part of the direct map that
exists already; that is in `mapAllMapped`. -/
def mapAllPhysicalMemory (m : Machine) (highestPhysAddr p4 : BitVec 64) : Option Machine :=
  let startPhys := 0x40000000#64
  let endPhys := (highestPhysAddr + 0x1FFFFF#64) &&& ~~~0x1FFFFF#64
  (List.range ((endPhys.toNat - startPhys.toNat) / 0x200000)).foldlM
    (fun m k => m.mapHugePage p4 (startPhys + .ofNat 64 k * 0x200000#64)) m

/-! ### Address spaces -/

/-- The indices of a whole table. -/
def tableIndices : List (BitVec 9) := (List.range 512).map (BitVec.ofNat 9)

/-- The indices of the user half of a PML4. -/
def userIndices : List (BitVec 9) := (List.range 256).map (BitVec.ofNat 9)

/-- The indices of the kernel half of a PML4. -/
def kernelIndices : List (BitVec 9) := (List.range' 256 256).map (BitVec.ofNat 9)

/-- `create_user_address_space`, with `CR3` pointing to `activePml4` -/
def createUserAddressSpace (m : Machine) (activePml4 : BitVec 64) :
    Option (BitVec 64 × Machine) := do
  let (frame, m) ← m.allocateZeroedFrame
  some (frame.start,
    kernelIndices.foldl (fun m i => m.write frame.start i (m.mem activePml4 i)) m)

/-- `destroy_user_address_space`: visit the entries of a table that are present, and free
the table. -/
def freeTable (indices : List (BitVec 9)) (visit : Machine → BitVec 64 → BitVec 9 → Machine)
    (m : Machine) (table : BitVec 64) : Machine :=
  (indices.foldl (fun m i =>
    if (entryFlags (m.mem table i)).contains .present then visit m table i else m) m).clearFrame
      table

/-- Free a page table and the frames mapped by it. -/
def destroyPt : Machine → BitVec 64 → Machine :=
  freeTable tableIndices fun m pt l =>
    let framePhys := entryAddr (m.mem pt l)
    (m.write pt l 0#64).clearFrame framePhys

/-- Free a page directory and its page tables. -/
def destroyPd : Machine → BitVec 64 → Machine :=
  freeTable tableIndices fun m pd k => m.destroyPt (entryAddr (m.mem pd k))

/-- Free a page directory pointer table and its page directories. -/
def destroyPdpt : Machine → BitVec 64 → Machine :=
  freeTable tableIndices fun m pdpt j => m.destroyPd (entryAddr (m.mem pdpt j))

/-- `destroy_user_address_space`: the frames and the tables of the user half, from the leaves up,
and the PML4 in the end. -/
def destroyUserAddressSpace : Machine → BitVec 64 → Machine :=
  freeTable userIndices fun m pml4 i => m.destroyPdpt (entryAddr (m.mem pml4 i))

end Machine

/-! ### What the bits of an entry do -/

section Entries

variable {entry : BitVec 64} {frame : PhysFrame} {flags other : PageTableFlags}

@[simp] theorem isUnused_iff : isUnused entry = true ↔ entry = 0#64 := beq_iff_eq

@[simp] theorem entryAddr_setAddr : entryAddr (setAddr frame flags) = frame.start := by
  rw [entryAddr, setAddr, or_and_mask, frame.aligned, flags.noAddr]
  exact BitVec.or_zero

/-- Adding flags leaves the address alone. -/
@[simp] theorem entryAddr_or : entryAddr (entry ||| flags.bits) = entryAddr entry := by
  rw [entryAddr, entryAddr, or_and_mask, flags.noAddr]
  exact BitVec.or_zero

theorem setFlags_union :
    setFlags entry ((entryFlags entry).union flags) = entry ||| flags.bits := by
  show (entry &&& addrMask) ||| ((entry &&& ~~~addrMask) ||| flags.bits) = _
  rw [← BitVec.or_assoc, and_mask_or_and_not]

theorem contains_entryFlags :
    (entryFlags entry).contains other = true ↔ entry &&& other.bits = other.bits := by
  show (entry &&& ~~~addrMask &&& other.bits == other.bits) = true ↔ _
  rw [beq_iff_eq, BitVec.and_assoc, and_not_mask_of_and_eq_zero other.noAddr]

theorem contains_setAddr :
    (entryFlags (setAddr frame flags)).contains other = flags.contains other := by
  have hframe : frame.start &&& other.bits = 0#64 := by
    rw [← frame.aligned, BitVec.and_assoc, BitVec.and_comm addrMask, other.noAddr]
    exact BitVec.and_zero
  rw [Bool.eq_iff_iff, contains_entryFlags, setAddr, or_and_mask, hframe, BitVec.zero_or]
  exact beq_iff_eq.symm

theorem contains_present : flags.contains .present = flags.bits.getLsbD 0 := by
  have hbit : ∀ x : BitVec 64, x &&& 1#64 = 1#64 ↔ x.getLsbD 0 = true := by
    intro x
    constructor
    · intro h
      have h0 := congrArg (fun y : BitVec 64 => y.getLsbD 0) h
      simpa using h0
    · intro h
      refine BitVec.eq_of_getLsbD_eq fun k hk => ?_
      by_cases hk0 : k = 0
      · subst hk0
        simpa using h
      · simp [BitVec.getLsbD_one, hk0]
  rw [Bool.eq_iff_iff, ← hbit]
  exact beq_iff_eq

theorem present_entryFlags : (entryFlags entry).contains .present = entry.getLsbD 0 := by
  rw [contains_present]
  show (entry &&& ~~~addrMask).getLsbD 0 = _
  rw [BitVec.getLsbD_and]
  exact Bool.and_true _

theorem ne_zero_of_present (h : (entryFlags entry).contains .present = true) : entry ≠ 0#64 := by
  rintro rfl
  rw [present_entryFlags] at h
  cases h

/-- A used entry that gets more flags: it is present if it was, or if it is asked for. -/
theorem present_widen : (entryFlags (entry ||| (flags.inter .table).bits)).contains .present =
      ((entryFlags entry).contains .present || flags.contains .present) := by
  rw [present_entryFlags, present_entryFlags, contains_present, BitVec.getLsbD_or]
  show (_ || (flags.bits &&& 7#64).getLsbD 0) = _
  rw [BitVec.getLsbD_and]
  exact congrArg _ (Bool.and_true _)

theorem huge_widen : (entryFlags (entry ||| (flags.inter .table).bits)).contains .hugePage =
      (entryFlags entry).contains .hugePage := by
  have hnone : (flags.inter .table).bits &&& PageTableFlags.hugePage.bits = 0#64 := by
    show flags.bits &&& 7#64 &&& 0x80#64 = 0#64
    rw [BitVec.and_assoc]
    exact BitVec.and_zero
  rw [Bool.eq_iff_iff, contains_entryFlags, contains_entryFlags, or_and_mask, hnone, BitVec.or_zero]

end Entries

/-! ### Pages and indices -/

namespace VirtAddr

theorem getLsbD_high (v : VirtAddr) {k : ℕ} (hk : 47 ≤ k) (hk' : k < 64) :
    v.bits.getLsbD k = v.bits.getLsbD 47 := by
  have hbit : ∀ j, 47 ≤ j → j < 64 → v.bits.getLsbD j = (v.bits.setWidth 48).msb := by
    intro j hj hj'
    conv_lhs => rw [← v.canonical]
    rw [BitVec.getLsbD_signExtend, decide_eq_true hj', Bool.true_and]
    split_ifs with h
    · obtain rfl : j = 47 := by omega
      rw [BitVec.msb_eq_getLsbD_last]
    · rfl
  rw [hbit k hk hk', hbit 47 le_rfl (by omega)]

theorem canonical_of_high {x : BitVec 64} (h : ∀ k, 47 ≤ k → k < 64 → x.getLsbD k = x.getLsbD 47) :
    (x.setWidth 48).signExtend 64 = x := by
  refine BitVec.eq_of_getLsbD_eq fun k hk => ?_
  rw [BitVec.getLsbD_signExtend, decide_eq_true hk, Bool.true_and]
  split_ifs with hlow
  · rw [BitVec.getLsbD_setWidth, decide_eq_true hlow, Bool.true_and]
  · rw [BitVec.msb_eq_getLsbD_last, BitVec.getLsbD_setWidth, h k (by omega) hk]
    rfl

/-- The canonical addresses are the first and the last `2 ^ 47`. -/
theorem canonical_iff {x : BitVec 64} :
    (x.setWidth 48).signExtend 64 = x ↔ x.toNat < 2 ^ 47 ∨ 0xFFFF800000000000 ≤ x.toNat := by
  have hlt := x.isLt
  rw [← BitVec.toNat_inj, BitVec.toNat_signExtend, BitVec.msb_eq_decide, BitVec.toNat_setWidth,
    BitVec.toNat_setWidth]
  split
  next h =>
    have hle := of_decide_eq_true h
    omega
  next h =>
    have hle := of_decide_eq_false (Bool.eq_false_iff.mpr h)
    omega

/-- Bits 12 to 47 of an address, by the index they belong to. -/
theorem getLsbD_page (v : VirtAddr) {k : ℕ} (hk : k < 36) : v.bits.getLsbD (12 + k) =
      if k < 9 then v.p1Index.getLsbD k
      else if k < 18 then v.p2Index.getLsbD (k - 9)
      else if k < 27 then v.p3Index.getLsbD (k - 18)
      else v.p4Index.getLsbD (k - 27) := by
  unfold p1Index p2Index p3Index p4Index
  split_ifs with h1 h2 h3
  · rw [BitVec.getLsbD_extractLsb', decide_eq_true h1, Bool.true_and]
  · rw [BitVec.getLsbD_extractLsb', decide_eq_true (by omega), Bool.true_and]
    congr 1
    omega
  · rw [BitVec.getLsbD_extractLsb', decide_eq_true (by omega), Bool.true_and]
    congr 1
    omega
  · rw [BitVec.getLsbD_extractLsb', decide_eq_true (by omega), Bool.true_and]
    congr 1
    omega

end VirtAddr

theorem getLsbD_pageMask {k : ℕ} (hk : 12 ≤ k) : (0xFFF#64).getLsbD k = false := by
  have hlt : 0xFFF < 2 ^ k := Nat.lt_of_lt_of_le (by decide) (Nat.pow_le_pow_right (by decide) hk)
  rw [BitVec.getLsbD_ofNat, Nat.testBit_lt_two_pow hlt, Bool.and_false]

/-- `Page::containing_address` -/
def Page.containingAddress (v : VirtAddr) : Page where
  start :=
    ⟨v.bits &&& ~~~0xFFF#64, by
      refine VirtAddr.canonical_of_high fun k hk hk' => ?_
      rw [BitVec.getLsbD_and, BitVec.getLsbD_and, BitVec.getLsbD_not, BitVec.getLsbD_not,
        getLsbD_pageMask (by omega), getLsbD_pageMask (by omega), v.getLsbD_high hk hk']
      simp [hk']⟩
  aligned := by
    show v.bits &&& ~~~0xFFF#64 &&& 0xFFF#64 = 0#64
    rw [BitVec.and_assoc]
    exact BitVec.and_zero

/-- The way to the entry of level 1, last index first. -/
def VirtAddr.path (v : VirtAddr) : List (BitVec 9) := [v.p1Index, v.p2Index, v.p3Index, v.p4Index]

theorem Page.contains_iff (page : Page) (v : VirtAddr) :
    page.Contains v ↔ v.path = page.start.path := by
  constructor
  · intro h
    have hbit : ∀ k, v.bits.getLsbD (12 + k) = page.start.bits.getLsbD (12 + k) := by
      intro k
      have hk := congrArg (fun x : BitVec 64 => x.getLsbD k) h
      simpa only [BitVec.getLsbD_ushiftRight] using hk
    have hindex : ∀ s n, 12 ≤ s → v.bits.extractLsb' s n = page.start.bits.extractLsb' s n := by
      intro s n hs
      ext k hk
      rw [BitVec.getElem_extractLsb', BitVec.getElem_extractLsb']
      have hsk := hbit (s + k - 12)
      rwa [show 12 + (s + k - 12) = s + k by omega] at hsk
    simp only [VirtAddr.path, VirtAddr.p1Index, VirtAddr.p2Index, VirtAddr.p3Index,
      VirtAddr.p4Index, hindex _ 9 (by decide : 12 ≤ 12), hindex _ 9 (by decide : 12 ≤ 21),
      hindex _ 9 (by decide : 12 ≤ 30), hindex _ 9 (by decide : 12 ≤ 39)]
  · intro h
    simp only [VirtAddr.path, List.cons.injEq, and_true] at h
    obtain ⟨h1, h2, h3, h4⟩ := h
    have hpage : ∀ k, k < 36 → v.bits.getLsbD (12 + k) = page.start.bits.getLsbD (12 + k) := by
      intro k hk
      rw [v.getLsbD_page hk, page.start.getLsbD_page hk, h1, h2, h3, h4]
    refine BitVec.eq_of_getLsbD_eq fun k hk => ?_
    rw [BitVec.getLsbD_ushiftRight, BitVec.getLsbD_ushiftRight]
    rcases Nat.lt_or_ge k 36 with hlow | hhigh
    · exact hpage k hlow
    · rcases Nat.lt_or_ge (12 + k) 64 with hin | hout
      · rw [v.getLsbD_high (by omega) hin, page.start.getLsbD_high (by omega) hin]
        exact hpage 35 (by omega)
      · rw [BitVec.getLsbD_of_ge _ _ hout, BitVec.getLsbD_of_ge _ _ hout]

theorem Page.toNat_containingAddress (v : VirtAddr) :
    (Page.containingAddress v).start.bits.toNat = v.bits.toNat / 4096 * 4096 :=
  toNat_and_not_low v.bits 12

theorem Page.path_containingAddress (v : VirtAddr) :
    (Page.containingAddress v).start.path = v.path := by
  refine ((Page.contains_iff _ v).mp (BitVec.eq_of_toNat_eq ?_)).symm
  rw [BitVec.toNat_ushiftRight, BitVec.toNat_ushiftRight, toNat_containingAddress,
    Nat.shiftRight_eq_div_pow, Nat.shiftRight_eq_div_pow]
  omega

theorem index_inj {a b : ℕ} (ha : a < 512) (hb : b < 512)
    (h : BitVec.ofNat 9 a = BitVec.ofNat 9 b) : a = b := by
  have hval := congrArg BitVec.toNat h
  rwa [BitVec.toNat_ofNat, BitVec.toNat_ofNat, Nat.mod_eq_of_lt ha, Nat.mod_eq_of_lt hb] at hval

/-! ### What the steps of the walks do -/

namespace Machine

variable (m : Machine) (table : BitVec 64) (i : BitVec 9)

@[simp] theorem write_mem (entry : BitVec 64) :
    (m.write table i entry).mem = setEntry m.mem table i entry := rfl

@[simp] theorem write_write (entry entry' : BitVec 64) :
    (m.write table i entry).write table i entry' = m.write table i entry' := by
  simp only [write, setEntry_setEntry]

@[simp] theorem write_self : m.write table i (m.mem table i) = m := by
  simp only [write, setEntry_eq_self]

/-- A new table is entered. -/
def enterTable (frame : PhysFrame) (rest : List PhysFrame) : Machine :=
  { m with
    avail := rest
    handed := frame.start :: m.handed
    mem := setEntry (Function.update m.mem frame.start fun _ => 0#64) table i
      (setAddr frame .table) }

/-- An entry that is used gets those of the flags that are for tables. -/
def widenEntry (flags : PageTableFlags) : Machine :=
  m.write table i (m.mem table i ||| (flags.inter .table).bits)

/-- The last write of `map_to`, into the table of level 1. -/
def enter (page : Page) (frame : PhysFrame) (flags : PageTableFlags) : Machine :=
  m.write table page.start.p1Index (setAddr frame (flags.union .present))

/-- **The three cases of a step of `map_to`**: no table is to be had, a new one is
entered, or the one that is there gets more flags. -/
theorem nextTable_cases (flags : PageTableFlags) :
    (m.mem table i = 0#64 ∧ m.avail = [] ∧
      m.nextTable table i flags = (.error .frameAllocationFailed, m)) ∨
    (∃ frame rest, m.mem table i = 0#64 ∧ m.avail = frame :: rest ∧
      m.nextTable table i flags = (.ok frame.start, m.enterTable table i frame rest)) ∨
    (m.mem table i ≠ 0#64 ∧
      m.nextTable table i flags = (.ok (entryAddr (m.mem table i)),
        m.widenEntry table i flags)) := by
  by_cases hentry : m.mem table i = 0#64
  · have hunused : isUnused (m.mem table i) = true := isUnused_iff.mpr hentry
    cases havail : m.avail with
    | nil =>
      refine Or.inl ⟨hentry, rfl, ?_⟩
      simp [nextTable, hunused, allocateZeroedFrame, allocateFrame, havail]
    | cons frame rest =>
      refine Or.inr (Or.inl ⟨frame, rest, hentry, rfl, ?_⟩)
      simp [nextTable, hunused, allocateZeroedFrame, allocateFrame, havail, write, enterTable]
  · refine Or.inr (Or.inr ⟨hentry, ?_⟩)
    have hused : isUnused (m.mem table i) = false := by
      rw [Bool.eq_false_iff, ne_eq, isUnused_iff]
      exact hentry
    simp [nextTable, hused, setFlags_union, write, widenEntry]

theorem usedTable_eq : m.usedTable table i =
    if m.mem table i = 0#64 then none else some (entryAddr (m.mem table i)) := by
  simp only [usedTable, isUnused_iff]

theorem presentTable_eq_some {t : BitVec 64} : m.presentTable table i = some t ↔
      (entryFlags (m.mem table i)).contains .present = true ∧ entryAddr (m.mem table i) = t := by
  simp only [presentTable, ite_none_right_eq_some, Option.some.injEq]

/-- **`unmap`** succeeds if the four entries it looks at are present. -/
theorem unmap_eq_some_iff {page : Page} {p4 p3 p2 p1 : BitVec 64}
    (h4 : entryAddr (m.mem p4 page.start.p4Index) = p3)
    (h3 : entryAddr (m.mem p3 page.start.p3Index) = p2)
    (h2 : entryAddr (m.mem p2 page.start.p2Index) = p1) (r : BitVec 64 × Machine) :
    m.unmap page p4 = some r ↔
      ((entryFlags (m.mem p4 page.start.p4Index)).contains .present = true ∧
        (entryFlags (m.mem p3 page.start.p3Index)).contains .present = true ∧
        (entryFlags (m.mem p2 page.start.p2Index)).contains .present = true) ∧
      (entryFlags (m.mem p1 page.start.p1Index)).contains .present = true ∧
      r = (entryAddr (m.mem p1 page.start.p1Index), m.write p1 page.start.p1Index 0#64) := by
  have step : ∀ {t t' i}, entryAddr (m.mem t i) = t' → m.presentTable t i =
      if (entryFlags (m.mem t i)).contains .present then some t' else none := by
    rintro t _ i rfl
    rfl
  rw [unmap, step h4]
  by_cases hp4 : (entryFlags (m.mem p4 page.start.p4Index)).contains .present = true
  · rw [if_pos hp4]
    simp only [bind_eq_bind, bind_some, step h3]
    by_cases hp3 : (entryFlags (m.mem p3 page.start.p3Index)).contains .present = true
    · rw [if_pos hp3]
      simp only [bind_some, step h2]
      by_cases hp2 : (entryFlags (m.mem p2 page.start.p2Index)).contains .present = true
      · rw [if_pos hp2]
        simp only [bind_some, step rfl]
        by_cases hp1 : (entryFlags (m.mem p1 page.start.p1Index)).contains .present = true
        · simp only [hp4, hp3, hp2, hp1, if_true, bind_some, Option.some.injEq, true_and, and_self]
          exact eq_comm
        · simp [hp1]
      · simp [hp2]
    · simp [hp3]
  · simp [hp4]

end Machine

/-! ### The walk of `map_to` -/

/-- The indices of an address on the way to its table of level 1, first one first. -/
def VirtAddr.upperIndices (v : VirtAddr) : List (BitVec 9) := [v.p4Index, v.p3Index, v.p2Index]

theorem Page.indices_containingAddress (v : VirtAddr) :
    (Page.containingAddress v).start.p4Index = v.p4Index ∧
      (Page.containingAddress v).start.upperIndices = v.upperIndices := by
  have hpath := Page.path_containingAddress v
  simp only [VirtAddr.path, List.cons.injEq, and_true] at hpath
  obtain ⟨-, hp2, hp3, hp4⟩ := hpath
  exact ⟨hp4, by rw [VirtAddr.upperIndices, hp2, hp3, hp4]; rfl⟩

namespace Machine

/-- **The steps of `map_to`** from a table on, along these indices: where they get to, and the
state at their end. Each step is one of the three cases. -/
inductive Walks (flags : PageTableFlags) : Machine → BitVec 64 → List (BitVec 9) →
    Except MapToError (BitVec 64) → Machine → Prop
  | done {m table} : Walks flags m table [] (.ok table) m
  | fail {m table i indices} (hentry : m.mem table i = 0#64) (havail : m.avail = []) :
      Walks flags m table (i :: indices) (.error .frameAllocationFailed) m
  | enter {m table i indices frame rest r m'} (hentry : m.mem table i = 0#64)
      (havail : m.avail = frame :: rest)
      (walk : Walks flags (m.enterTable table i frame rest) frame.start indices r m') :
      Walks flags m table (i :: indices) r m'
  | widen {m table i indices r m'} (hentry : m.mem table i ≠ 0#64)
      (walk : Walks flags (m.widenEntry table i flags) (entryAddr (m.mem table i)) indices r m') :
      Walks flags m table (i :: indices) r m'

variable {m m' m₁ : Machine} {table : BitVec 64} {i : BitVec 9} {flags : PageTableFlags}
  {page : Page} {frame : PhysFrame} {p4 : BitVec 64}

theorem Walks.of_error {err : MapToError} (h : m.nextTable table i flags = (.error err, m'))
    (indices : List (BitVec 9)) : Walks flags m table (i :: indices) (.error err) m' := by
  rcases m.nextTable_cases table i flags with
    ⟨hentry, havail, hstep⟩ | ⟨_, _, -, -, hstep⟩ | ⟨-, hstep⟩
  · cases hstep.symm.trans h
    exact .fail hentry havail
  · cases hstep.symm.trans h
  · cases hstep.symm.trans h

theorem Walks.of_ok {next : BitVec 64} (h : m.nextTable table i flags = (.ok next, m₁))
    {indices : List (BitVec 9)} {r : Except MapToError (BitVec 64)}
    (walk : Walks flags m₁ next indices r m') : Walks flags m table (i :: indices) r m' := by
  rcases m.nextTable_cases table i flags with
    ⟨-, -, hstep⟩ | ⟨_, _, hentry, havail, hstep⟩ | ⟨hentry, hstep⟩
  · cases hstep.symm.trans h
  · cases hstep.symm.trans h
    exact .enter hentry havail walk
  · cases hstep.symm.trans h
    exact .widen hentry walk

/-- **`map_to`** takes three steps, and then looks at the entry of level 1. -/
theorem mapTo_walks (m : Machine) (page : Page) (frame : PhysFrame) (flags : PageTableFlags)
    (p4 : BitVec 64) :
    (∃ err m', m.mapTo page frame flags p4 = (.error err, m') ∧
      Walks flags m p4 page.start.upperIndices (.error err) m') ∨
    ∃ p1 m₁, m.mapTo page frame flags p4 = m₁.mapLeaf p1 page.start.p1Index frame flags ∧
      Walks flags m p4 page.start.upperIndices (.ok p1) m₁ := by
  unfold mapTo
  rcases h4 : m.nextTable p4 page.start.p4Index flags with ⟨err | p3, m₁⟩
  · exact Or.inl ⟨err, m₁, rfl, .of_error h4 _⟩
  rcases h3 : m₁.nextTable p3 page.start.p3Index flags with ⟨err | p2, m₂⟩
  · exact Or.inl ⟨err, m₂, by simp only [h3], .of_ok h4 (.of_error h3 _)⟩
  rcases h2 : m₂.nextTable p2 page.start.p2Index flags with ⟨err | p1, m₃⟩
  · exact Or.inl ⟨err, m₃, by simp only [h3, h2], .of_ok h4 (.of_ok h3 (.of_error h2 _))⟩
  · exact Or.inr ⟨p1, m₃, by simp only [h3, h2], .of_ok h4 (.of_ok h3 (.of_ok h2 .done))⟩

/-- `map_to` succeeds: the walk gets to a table of level 1, whose entry is unused. -/
theorem mapTo_ok (h : m.mapTo page frame flags p4 = (.ok (), m')) :
    ∃ p1 m₁, Walks flags m p4 page.start.upperIndices (.ok p1) m₁ ∧
      m₁.mem p1 page.start.p1Index = 0#64 ∧ m' = m₁.enter p1 page frame flags := by
  rcases m.mapTo_walks page frame flags p4 with ⟨err, m₁, hmap, -⟩ | ⟨p1, m₁, hmap, hwalk⟩
  · cases hmap.symm.trans h
  · have hleaf := hmap.symm.trans h
    unfold mapLeaf at hleaf
    split_ifs at hleaf with hunused
    · exact ⟨p1, m₁, hwalk, isUnused_iff.mp hunused, (Prod.mk.inj hleaf).2.symm⟩
    · cases (Prod.mk.inj hleaf).1

theorem mapTo_error {err : MapToError} (h : m.mapTo page frame flags p4 = (.error err, m')) :
    ∃ r, Walks flags m p4 page.start.upperIndices r m' := by
  rcases m.mapTo_walks page frame flags p4 with ⟨err', m₁, hmap, hwalk⟩ | ⟨p1, m₁, hmap, hwalk⟩
  · obtain ⟨-, rfl⟩ := Prod.mk.inj (hmap.symm.trans h)
    exact ⟨_, hwalk⟩
  · have hleaf := hmap.symm.trans h
    unfold mapLeaf at hleaf
    split_ifs at hleaf
    · cases (Prod.mk.inj hleaf).1
    · obtain ⟨-, rfl⟩ := Prod.mk.inj hleaf
      exact ⟨_, hwalk⟩

end Machine

end KernelR.Mm
