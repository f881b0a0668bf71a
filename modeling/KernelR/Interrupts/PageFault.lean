import KernelR.Mm.PagingWalk
import KernelR.Proc.Scheduler

/-!
# The page fault handler

`page_fault_handler` of `interrupts/interrupt.rs`. The handler looks at the address that
`CR2` holds, and at nothing else: not at the error code, which says whether the page was
present and whether the processor was in user mode, and not at the page tables. An address
of the kernel heap, of the user heap or of the user stack gets a new page; at any other
address the kernel stops for good.

That is enough for the faults the handler was written for, the first touch of a page that
is not mapped. Other faults have their addresses in the same ranges: a program that reads
from a page of the kernel heap, or jumps into its own stack. `pageFault_safe_iff` says for
which faults the handler does what demand paging has to do.
-/

namespace KernelR.Interrupts

open Mm Proc

/-! ### The handler -/

/-- `HEAP_START` -/
def heapStart : ℕ := 0xFFFF900000000000

/-- `HEAP_SIZE` -/
def heapSize : ℕ := 0xA0000000000

/-- The address is in the window of the kernel heap. -/
def IsKernelHeap (addr : ℕ) : Prop := heapStart ≤ addr ∧ addr < heapStart + heapSize

instance : DecidablePred IsKernelHeap := fun _ => inferInstanceAs (Decidable (_ ∧ _))

/-- `PageFaultErrorCode` -/
structure PageFaultErrorCode where
  bits : BitVec 64
deriving DecidableEq

/-- `PageFaultErrorCode::USER_MODE`: the processor was in user mode. -/
def PageFaultErrorCode.userMode (errorCode : PageFaultErrorCode) : Bool := errorCode.bits.getLsbD 2

/-- The ranges that the handler knows. -/
inductive FaultRange where
  | kernelHeap
  | userHeap
  | userStack
deriving DecidableEq

/-- `is_kernel_heap`, `is_user_heap`, `is_user_stack` -/
def faultRange (bounds : CurrentBounds) (fault : ℕ) : Option FaultRange :=
  if IsKernelHeap fault then some .kernelHeap
  else if bounds.heapStart ≤ fault ∧ fault < bounds.programBreak then some .userHeap
  else if bounds.stackStart ≤ fault ∧ fault < bounds.stackEnd then some .userStack
  else none

/-- The flags of the new page. -/
def demandFlags : FaultRange → PageTableFlags
  | .kernelHeap => (PageTableFlags.present.union .writable).union .noExecute
  | .userHeap | .userStack =>
    ((PageTableFlags.present.union .writable).union .noExecute).union .userAccessible

/-- How the handler ends. It stops the processor in a loop, it panics because there is no
frame or because `map_to` fails, or it returns and the page is mapped. -/
inductive FaultOutcome where
  | halted
  | outOfMemory
  | mapFailed (err : MapToError)
  | mapped
deriving DecidableEq

/-- `page_fault_handler`, up to its call of `map_to`: the frame and the flags for the new page,
and the state in which `map_to` is called. -/
def demandPage (m : Machine) (bounds : CurrentBounds) (faultAddr : VirtAddr) :
    Except FaultOutcome (PhysFrame × PageTableFlags × Machine) :=
  match faultRange bounds faultAddr.bits.toNat with
  | none => .error .halted
  | some range =>
    match m.allocateZeroedFrame with
    | none => .error .outOfMemory
    | some (frame, m) => .ok (frame, demandFlags range, m)

/-- `page_fault_handler`, with `CR2` holding `faultAddr` and `CR3` pointing to `p4`. What it prints
is left out, and so is the flush of the TLB. -/
def pageFaultHandler (m : Machine) (p4 : BitVec 64) (bounds : CurrentBounds)
    (_errorCode : PageFaultErrorCode) (faultAddr : VirtAddr) : FaultOutcome × Machine :=
  match demandPage m bounds faultAddr with
  | .error outcome => (outcome, m)
  | .ok (frame, flags, m) =>
    match m.mapTo (.containingAddress faultAddr) frame flags p4 with
    | (.ok (), m) => (.mapped, m)
    | (.error err, m) => (.mapFailed err, m)

/-! ### What the handler has to do -/

section

variable (m : Machine) (p4 : BitVec 64) (bounds : CurrentBounds) (errorCode : PageFaultErrorCode)
  (faultAddr : VirtAddr)

/-- `map_to` is called on a page that is not mapped, so that it fails for lack of memory only;
and in user mode no page of the kernel heap is mapped. -/
structure FaultSafe : Prop where
  unmapped : ∀ frame flags m', demandPage m bounds faultAddr = .ok (frame, flags, m') →
    m'.translateAddr p4 (Page.containingAddress faultAddr).start = none
  expected : ∀ err, (pageFaultHandler m p4 bounds errorCode faultAddr).1 = .mapFailed err →
    err = .frameAllocationFailed
  isolated : errorCode.userMode = true →
    (pageFaultHandler m p4 bounds errorCode faultAddr).1 = .mapped →
    ¬ IsKernelHeap (Page.containingAddress faultAddr).start.bits.toNat

/-- The faults that demand paging is for. If the address is in one of the three ranges and
there is a frame, then the page is not mapped; and if moreover the processor was in user mode
and the address is in the kernel heap, then the frames do not suffice for the tables. -/
def DemandFault : Prop :=
  ∀ range, faultRange bounds faultAddr.bits.toNat = some range → m.avail ≠ [] →
    m.translateAddr p4 (Page.containingAddress faultAddr).start = none ∧
    (errorCode.userMode = true → range = .kernelHeap →
      m.avail.length ≤ m.missingTables p4 (Page.containingAddress faultAddr).start.upperIndices)

end

variable {m : Machine} {p4 : BitVec 64} {bounds : CurrentBounds} {errorCode : PageFaultErrorCode}
  {faultAddr : VirtAddr} {frame : PhysFrame} {rest : List PhysFrame} {range : FaultRange}

theorem isKernelHeap_containingAddress (v : VirtAddr) :
    IsKernelHeap (Page.containingAddress v).start.bits.toNat ↔ IsKernelHeap v.bits.toNat := by
  rw [Page.toNat_containingAddress]
  unfold IsKernelHeap heapStart heapSize
  omega

theorem faultRange_eq_kernelHeap {fault : ℕ} :
    faultRange bounds fault = some .kernelHeap ↔ IsKernelHeap fault := by
  unfold faultRange
  split_ifs with h1 h2 h3 <;> simp [h1]

theorem demandPage_of_range (hrange : faultRange bounds faultAddr.bits.toNat = some range)
    (havail : m.avail = frame :: rest) :
    demandPage m bounds faultAddr = .ok (frame, demandFlags range, takeZeroed m frame rest) := by
  simp only [demandPage, hrange, Machine.allocateZeroedFrame, Machine.allocateFrame, havail,
    Option.bind_eq_bind, Option.bind_some, takeZeroed]

variable {flags : PageTableFlags} {m' : Machine}

theorem demandPage_eq_ok (h : demandPage m bounds faultAddr = .ok (frame, flags, m')) :
    ∃ range, faultRange bounds faultAddr.bits.toNat = some range ∧
      ∃ rest, m.avail = frame :: rest ∧ flags = demandFlags range ∧
        m' = takeZeroed m frame rest := by
  cases hrange : faultRange bounds faultAddr.bits.toNat with
  | none =>
    simp only [demandPage, hrange] at h
    cases h
  | some range =>
    cases havail : m.avail with
    | nil =>
      simp [demandPage, hrange, Machine.allocateZeroedFrame, Machine.allocateFrame, havail] at h
    | cons frame' rest =>
      rw [demandPage_of_range hrange havail] at h
      obtain ⟨rfl, hrest⟩ := Prod.mk.inj (Except.ok.inj h)
      cases hrest
      exact ⟨range, rfl, rest, rfl, rfl, rfl⟩

/-- The state in which `map_to` is called: the walk to the page is as it was. -/
theorem supplied_of_demandPage {indices : List (BitVec 9)}
    (hsupplied : m.Supplied p4 indices)
    (h : demandPage m bounds faultAddr = .ok (frame, flags, m')) :
    m'.Supplied p4 indices ∧ m'.missingTables p4 indices = m.missingTables p4 indices ∧
      m.avail.length = m'.avail.length + 1 := by
  obtain ⟨range, -, rest, havail, -, rfl⟩ := demandPage_eq_ok h
  have hframe : frame ∈ m.avail := havail ▸ List.mem_cons_self
  have hdistinct := hsupplied.distinct
  rw [havail, List.map_cons, List.nodup_cons] at hdistinct
  have hsame : m.SameOn (takeZeroed m frame rest) p4 indices :=
    Machine.sameOn_overwrite (hsupplied.fresh frame hframe) fun u hu => Function.update_of_ne hu _ _
  obtain ⟨htables, hmissing, -⟩ := hsame.walk
  refine ⟨⟨hdistinct.2, fun frame' hframe' => ?_⟩, hmissing, by rw [havail]; rfl⟩
  rw [htables]
  exact hsupplied.fresh frame' (havail ▸ List.mem_cons_of_mem _ hframe')

theorem translateAddr_of_demandPage {v : VirtAddr} (hsupplied : m.Supplied p4 v.upperIndices)
    (h : demandPage m bounds faultAddr = .ok (frame, flags, m')) :
    m'.translateAddr p4 v = m.translateAddr p4 v := by
  obtain ⟨range, -, rest, havail, -, rfl⟩ := demandPage_eq_ok h
  exact Machine.translateAddr_overwrite (hsupplied.fresh frame (havail ▸ List.mem_cons_self))
    fun u hu => Function.update_of_ne hu _ _

theorem pageFaultHandler_of_demandPage (p4 : BitVec 64) (errorCode : PageFaultErrorCode)
    (h : demandPage m bounds faultAddr = .ok (frame, flags, m')) :
    (pageFaultHandler m p4 bounds errorCode faultAddr).1 =
      match (m'.mapTo (.containingAddress faultAddr) frame flags p4).1 with
      | .ok () => .mapped
      | .error err => .mapFailed err := by
  simp only [pageFaultHandler, h]
  rcases m'.mapTo (.containingAddress faultAddr) frame flags p4 with ⟨_ | _, _⟩ <;> rfl

/-- Before `map_to` is called the handler neither maps a page nor fails to. -/
theorem pageFaultHandler_of_error {outcome : FaultOutcome} (p4 : BitVec 64)
    (errorCode : PageFaultErrorCode)
    (h : demandPage m bounds faultAddr = .error outcome) :
    (pageFaultHandler m p4 bounds errorCode faultAddr).1 = outcome ∧ outcome ≠ .mapped ∧
      ∀ err, outcome ≠ .mapFailed err := by
  refine ⟨by simp only [pageFaultHandler, h], ?_⟩
  simp only [demandPage] at h
  split at h
  · obtain rfl := Except.error.inj h
    exact ⟨FaultOutcome.noConfusion, fun _ => FaultOutcome.noConfusion⟩
  · split at h
    · obtain rfl := Except.error.inj h
      exact ⟨FaultOutcome.noConfusion, fun _ => FaultOutcome.noConfusion⟩
    · cases h

/-- When the handler returns, a frame of the supply has been zeroed and mapped. -/
theorem pageFaultHandler_mapped
    (h : pageFaultHandler m p4 bounds errorCode faultAddr = (.mapped, m')) :
    ∃ range, faultRange bounds faultAddr.bits.toNat = some range ∧
      ∃ frame rest, m.avail = frame :: rest ∧
        (takeZeroed m frame rest).mapTo (.containingAddress faultAddr) frame
          (demandFlags range) p4 = (.ok (), m') := by
  cases hcall : demandPage m bounds faultAddr with
  | error outcome =>
    obtain ⟨houtcome, hmapped, -⟩ := pageFaultHandler_of_error p4 errorCode hcall
    exact absurd (houtcome.symm.trans (congrArg Prod.fst h)) hmapped
  | ok call =>
    obtain ⟨frame, flags, m1⟩ := call
    obtain ⟨range, hrange, rest, havail, hflags, hm1⟩ := demandPage_eq_ok hcall
    refine ⟨range, hrange, frame, rest, havail, ?_⟩
    rw [← hflags, ← hm1]
    simp only [pageFaultHandler, hcall] at h
    rcases hmap : m1.mapTo (.containingAddress faultAddr) frame flags p4 with ⟨err | _, m2⟩
    · simp only [hmap] at h
      cases (Prod.mk.inj h).1
    · simp only [hmap] at h
      rw [(Prod.mk.inj h).2]

/-- **The handler is safe for the faults that demand paging is for, and for no others**,
whatever the address, the error code, the page tables and the bounds of the process. -/
theorem pageFault_safe_iff (m : Machine) (p4 : BitVec 64) (bounds : CurrentBounds)
    (errorCode : PageFaultErrorCode) (faultAddr : VirtAddr)
    (hsupplied : m.Supplied p4 (Page.containingAddress faultAddr).start.upperIndices) :
    FaultSafe m p4 bounds errorCode faultAddr ↔ DemandFault m p4 bounds errorCode faultAddr := by
  constructor
  · intro hsafe range hrange havail
    obtain ⟨frame, rest, havail⟩ := List.exists_cons_of_ne_nil havail
    have hcall := demandPage_of_range hrange havail
    have hnone := hsafe.unmapped _ _ _ hcall
    obtain ⟨hsupplied', hmissing, hlength⟩ := supplied_of_demandPage hsupplied hcall
    refine ⟨(translateAddr_of_demandPage hsupplied hcall).symm.trans hnone, ?_⟩
    rintro huser rfl
    by_contra hmany
    have houtcome := pageFaultHandler_of_demandPage p4 errorCode hcall
    rw [Machine.mapTo_of_unmapped hsupplied' hnone, hmissing, if_pos (by omega)] at houtcome
    refine hsafe.isolated huser houtcome ?_
    rw [isKernelHeap_containingAddress]
    exact faultRange_eq_kernelHeap.mp hrange
  · intro hfault
    cases hcall : demandPage m bounds faultAddr with
    | error outcome =>
      obtain ⟨houtcome, hmapped, hfailed⟩ := pageFaultHandler_of_error p4 errorCode hcall
      refine ⟨fun _ _ _ h => ?_, fun err h => ?_, fun _ h => ?_⟩
      · rw [hcall] at h
        cases h
      · exact absurd (houtcome.symm.trans h) (hfailed err)
      · exact absurd (houtcome.symm.trans h) hmapped
    | ok call =>
      obtain ⟨frame, flags, m'⟩ := call
      obtain ⟨range, hrange, rest, havail, -, -⟩ := demandPage_eq_ok hcall
      obtain ⟨hnone, huser⟩ := hfault range hrange (havail ▸ List.cons_ne_nil _ _)
      rw [← translateAddr_of_demandPage hsupplied hcall] at hnone
      obtain ⟨hsupplied', hmissing, hlength⟩ := supplied_of_demandPage hsupplied hcall
      have houtcome := pageFaultHandler_of_demandPage p4 errorCode hcall
      rw [Machine.mapTo_of_unmapped hsupplied' hnone, hmissing] at houtcome
      refine ⟨fun frame' flags' m'' h => ?_, fun err h => ?_, fun hmode h hheap => ?_⟩
      · rw [hcall] at h
        obtain ⟨-, hrest⟩ := Prod.mk.inj (Except.ok.inj h)
        exact (Prod.mk.inj hrest).2 ▸ hnone
      · split_ifs at houtcome with hmany
        · cases houtcome.symm.trans h
        · exact (FaultOutcome.mapFailed.inj (houtcome.symm.trans h)).symm
      · -- a page of the kernel heap is mapped only if there are frames for its tables
        rw [isKernelHeap_containingAddress] at hheap
        have hkernel := Option.some.inj (hrange.symm.trans (faultRange_eq_kernelHeap.mpr hheap))
        have hfew := huser hmode hkernel
        rw [if_neg (by omega)] at houtcome
        cases houtcome.symm.trans h

/-! ### A program that reads from the kernel heap -/

/-- The bounds of a small program. -/
def smallBounds : CurrentBounds := ⟨0x402000, 0x402000, 0x7FC00000, 0x80000000⟩

/-- The first address of the kernel heap. -/
def heapFirst : VirtAddr := ⟨0xFFFF900000000000#64, by decide⟩

/-- The first address of the second page of the kernel heap. -/
def heapSecond : VirtAddr := ⟨0xFFFF900000001000#64, by decide⟩

/-- The kernel has written to the first page of its heap: below the PML4 at `0x1000` there are
tables at `0x4000`, `0x5000` and `0x6000`, and the page is mapped to `0x3000`. -/
def touchedMachine : Machine where
  mem := fun table i =>
    if table = 0x1000#64 ∧ i = 288#9 then 0x4007#64
    else if table = 0x4000#64 ∧ i = 0#9 then 0x5007#64
    else if table = 0x5000#64 ∧ i = 0#9 then 0x6007#64
    else if table = 0x6000#64 ∧ i = 0#9 then 0x8000000000003003#64
    else 0#64
  avail := [⟨0x7000#64, by decide⟩, ⟨0x8000#64, by decide⟩, ⟨0x9000#64, by decide⟩,
    ⟨0xA000#64, by decide⟩, ⟨0xB000#64, by decide⟩]
  handed := [0x6000#64, 0x5000#64, 0x4000#64, 0x3000#64]
  cleared := []
  book := []
  scribble _ mem := mem

theorem touchedMachine_supplied :
    touchedMachine.Supplied 0x1000#64 (Page.containingAddress heapFirst).start.upperIndices ∧
    touchedMachine.Supplied 0x1000#64 (Page.containingAddress heapSecond).start.upperIndices := by
  refine ⟨⟨?_, ?_⟩, ⟨?_, ?_⟩⟩ <;> decide +kernel

/-- The kernel writes to the second page of its heap. -/
theorem pageFault_safe_iff_second :
    touchedMachine.Supplied 0x1000#64 (Page.containingAddress heapSecond).start.upperIndices ∧
    FaultSafe touchedMachine 0x1000#64 smallBounds ⟨0b010#64⟩ heapSecond := by
  have hsupplied := touchedMachine_supplied.2
  refine ⟨hsupplied, (pageFault_safe_iff _ _ _ _ _ hsupplied).mpr ?_⟩
  intro range _ _
  exact ⟨by decide +kernel, fun huser => absurd huser (by decide)⟩

/-- A program reads from the first page of the kernel heap, which is present, and the kernel
panics; it reads from the second one, which is not, and the kernel maps it. -/
theorem user_fault_in_kernel_heap :
    (pageFaultHandler touchedMachine 0x1000#64 smallBounds ⟨0b101#64⟩ heapFirst).1 =
      .mapFailed (.pageAlreadyMapped ⟨0x7000#64, by decide⟩) ∧
    ¬ FaultSafe touchedMachine 0x1000#64 smallBounds ⟨0b101#64⟩ heapFirst ∧
    (pageFaultHandler touchedMachine 0x1000#64 smallBounds ⟨0b100#64⟩ heapSecond).1 = .mapped ∧
    ¬ FaultSafe touchedMachine 0x1000#64 smallBounds ⟨0b100#64⟩ heapSecond := by
  have hpanic : (pageFaultHandler touchedMachine 0x1000#64 smallBounds ⟨0b101#64⟩ heapFirst).1 =
      .mapFailed (.pageAlreadyMapped ⟨0x7000#64, by decide⟩) := by decide +kernel
  have hmapped : (pageFaultHandler touchedMachine 0x1000#64 smallBounds ⟨0b100#64⟩
      heapSecond).1 = .mapped := by
    decide +kernel
  refine ⟨hpanic, fun hsafe => ?_, hmapped, fun hsafe => ?_⟩
  · cases hsafe.expected _ hpanic
  · exact hsafe.isolated rfl hmapped (by decide +kernel)

end KernelR.Interrupts
