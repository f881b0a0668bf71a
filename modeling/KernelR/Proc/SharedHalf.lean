import KernelR.Mm.PagingGrowth
import KernelR.Proc.Image

/-!
# Loading a program and the kernel half

The kernel half of every address space leads to the same tables, so whatever the loader does
there it does to all processes. `mappingOf` is what an address is mapped to together
with the flags on the way to it.

Segments in the user half leave all of this alone: the loader then writes to frames of the
supply only. A segment in the kernel half never does, if it is loaded at all. `map_to` opens
its page to user programs, on every level, and nothing that comes later closes it again; and
before, no address of the kernel half was open.
-/

namespace KernelR.Proc

open List Option Foundations Mm

/-! ### Mappings -/

/-- What an address is mapped to, and the flags of the entries on the way to it, from the PML4
down. -/
structure Mapping where
  phys : Option (BitVec 64)
  flags : List (Option PageTableFlags)
deriving DecidableEq

/-- User programs may access the address: all entries on the way let them pass. -/
def Mapping.userAccessible (mapping : Mapping) : Bool :=
  match mapping.flags with
  | [some f4, some f3, some f2, f1] =>
    f4.contains openFlags && f3.contains openFlags && f2.contains openFlags &&
      (f2.contains .hugePage || f1.any (PageTableFlags.contains · openFlags))
  | _ => false

section Mapping

variable {m m' : Machine} {p4 p4' : BitVec 64} {v : VirtAddr}

end Mapping

/-! ### Segments in the user half -/

section Kept

variable {m m' : Machine} {activePml4 pml4 : BitVec 64}

/-- Another address space: its kernel half is a copy of the active one. -/
def SharesKernelHalf (m : Machine) (activePml4 p4 : BitVec 64) : Prop :=
  p4 ∉ m.avail.map PhysFrame.start ∧ ∀ i ∈ kernelHalf, m.mem p4 i = m.mem activePml4 i

theorem SharesKernelHalf.kernelTables {p4 : BitVec 64} (h : SharesKernelHalf m activePml4 p4) :
    m.kernelTables p4 = m.kernelTables activePml4 := by
  ext f
  refine exists_congr fun q => and_congr_right fun hne => and_congr_right fun hq => ?_
  rw [tableAt_copy h.2 (fun _ _ => rfl) hne hq]

end Kept

/-! ### Segments in the kernel half -/

section Breached

variable {pml4 activePml4 : BitVec 64} {image : ℕ → Option UInt8} {l l' : Loading}
  {m₀ m m' : Machine} {pageNum : ℕ} {ph : ProgramHeader} {headers : List ProgramHeader}
  {highestVaddr highestVaddr' : ℕ}

/-- Some page of the kernel half is open to user programs. -/
def Breached (m : Machine) (pml4 : BitVec 64) : Prop :=
  ∃ v : VirtAddr, v.p4Index ∈ kernelHalf ∧
    ∃ f, Opened ∅ m (fun t => Leads ∅ m t v.p1Index f) pml4 v.upperIndices

theorem Breached.grows (h : Breached m pml4) (hgrows : m.Grows m') : Breached m' pml4 := by
  obtain ⟨v, hv, f, hopened⟩ := h
  exact ⟨v, hv, f, hopened.grows hgrows fun _ hleads => hleads.grows hgrows⟩

end Breached

end KernelR.Proc
