import KernelR.Interrupts.PageFault
import KernelR.Proc.Brk
import KernelR.Proc.Dispatch
import KernelR.Proc.Loadable

/-!
# The heap of a process

From its creation on, the memory of a process is changed by `sys_brk` and by the page fault
handler; in between, the rest of the kernel may do anything to the machine, as long as it
leaves the user half of the tables alone.

`HeapInv` is what holds all along. Below the window of the stack the two map the pages from
the start of the heap up to its end and no others, so that the guard page stays as it is. If
the program itself reaches up to the stack or beyond it, `sys_brk` rejects every request, and
there is nothing to show about the tables; they may well be damaged then.
-/

namespace KernelR.Proc

open List Foundations Mm Interrupts

/-! ### The system -/

/-- What happens to the memory of a process. -/
inductive HeapAction where
  /-- `SYS_BRK` -/
  | brk (requestedBreak : ℕ)
  /-- a page fault that is handled -/
  | fault (errorCode : PageFaultErrorCode) (faultAddr : VirtAddr)
  /-- anything else -/
  | other (machine : Machine)

/-- `CurrentBounds::update` -/
def Process.bounds (p : Process) : CurrentBounds :=
  ⟨p.heapStart, p.programBreak, p.stackStart, p.stackEnd⟩

namespace UserMemory

/-- One step, with the page table of the process at `pml4` being active. A fault that the
handler does not return from is no step. -/
def step (pml4 : BitVec 64) (u : UserMemory) : HeapAction → Option UserMemory
  | .brk requestedBreak => (sysBrk pml4 requestedBreak u).map (·.2)
  | .fault errorCode faultAddr =>
    match pageFaultHandler u.pages.machine pml4 u.bounds errorCode faultAddr with
    | (.mapped, m) =>
      some { u with pages := ⟨m, (Page.containingAddress faultAddr).addr :: u.pages.mapped⟩ }
    | _ => none
  | .other m => some { u with pages := ⟨m, u.pages.mapped⟩ }

/-- Faults are those of the heap and of the stack; the rest of the kernel leaves the user half
alone. -/
def Allowed (pml4 : BitVec 64) (u : UserMemory) : HeapAction → UserMemory → Prop
  | .brk _, _ => True
  | .fault _ faultAddr, _ => faultRange u.bounds faultAddr.bits.toNat = some .userHeap ∨
      faultRange u.bounds faultAddr.bits.toNat = some .userStack
  | .other m, _ => Space.Allowed pml4 ⟨u.pages.machine, []⟩ (.other m) ⟨m, []⟩

/-- The process was just created and is running. -/
def Created (pml4 : BitVec 64) (u : UserMemory) : Prop :=
  ∃ m activePml4 image headers highestVaddr, Stocked m activePml4 ∧
    loadUserProcess m activePml4 image headers = some (pml4, highestVaddr, u.pages.machine) ∧
    (∃ (k : Kernel) (ppid parent : ℕ),
      u.process = k.newProcess pml4.toNat highestVaddr ppid parent) ∧
    u.bounds = u.process.bounds ∧ u.pages.mapped = []

end UserMemory

/-! ### The pages of the heap -/

/-- Between two addresses the pages up to a third one are mapped, and recorded, and no others. -/
structure HeapPages (pml4 : BitVec 64) (lower upper pageEnd : ℕ) (s : PageLog) : Prop where
  inv : SpaceInv pml4 ⟨s.machine, []⟩
  log : ∀ a < upper, a ∈ s.mapped ↔ 4096 ∣ a ∧ lower ≤ a ∧ a < pageEnd
  pages : ∀ page : Page, lower ≤ page.addr → page.addr < upper →
    (s.machine.frameOf pml4 page ≠ none ↔ page.addr < pageEnd)

namespace HeapPages

variable {pml4 : BitVec 64} {lower upper pageEnd newEnd : ℕ} {s s' : PageLog}

theorem grown (h : HeapPages pml4 lower upper pageEnd s) (hdvd : 4096 ∣ pageEnd)
    (hdvd' : 4096 ∣ newEnd) (hlower : lower ≤ pageEnd) (hle : pageEnd ≤ newEnd)
    (hupper : upper ≤ 2 ^ 47) (hgrown : Grown pml4 s (stepBy pageEnd newEnd) s') :
    HeapPages pml4 lower upper newEnd s' where
  inv := hgrown.inv
  log a ha := by
    rw [hgrown.log, h.log a ha, mem_stepBy hdvd hdvd' hle]
    omega
  pages page hpage hpage' := by
    have hlt := hpage'.trans_le hupper
    have hstep := mem_stepBy hdvd hdvd' hle (a := page.addr)
    have haligned := page.addr_dvd
    by_cases hmem : page.addr ∈ stepBy pageEnd newEnd
    · exact iff_of_true (hgrown.inside page hlt hmem).2 (hstep.mp hmem).2.2
    · rw [hgrown.outside page hlt hmem, h.pages page hpage hpage']
      rw [hstep] at hmem
      omega

theorem released (h : HeapPages pml4 lower upper pageEnd s) (hdvd : 4096 ∣ pageEnd)
    (hdvd' : 4096 ∣ newEnd) (hle : newEnd ≤ pageEnd) (hupper : upper ≤ 2 ^ 47)
    (hreleased : Released pml4 [] s (stepBy newEnd pageEnd) s') :
    HeapPages pml4 lower upper newEnd s' where
  inv := hreleased.inv
  log a ha := by
    rw [hreleased.log, h.log a ha, mem_stepBy hdvd' hdvd hle]
    omega
  pages page hpage hpage' := by
    have hlt := hpage'.trans_le hupper
    have hstep := mem_stepBy hdvd' hdvd hle (a := page.addr)
    have haligned := page.addr_dvd
    by_cases hmem : page.addr ∈ stepBy newEnd pageEnd
    · refine iff_of_false (fun hne => hne (hreleased.inside page hlt hmem)) ?_
      rw [hstep] at hmem
      omega
    · rw [hreleased.outside page hlt hmem, h.pages page hpage hpage']
      rw [hstep] at hmem
      omega

theorem moved (h : HeapPages pml4 lower upper pageEnd s) (hdvd : 4096 ∣ pageEnd)
    (hdvd' : 4096 ∣ newEnd) (hlower : lower ≤ pageEnd) (hupper : upper ≤ 2 ^ 47)
    (hmoved : HeapMoved pml4 s pageEnd newEnd s') : HeapPages pml4 lower upper newEnd s' := by
  cases hmoved with
  | grown hlt hgrown => exact h.grown hdvd hdvd' hlower hlt.le hupper hgrown
  | shrunk hlt hreleased => exact h.released hdvd hdvd' hlt.le hupper hreleased
  | same heq => exact heq ▸ h

theorem restored (h : HeapPages pml4 lower upper pageEnd s) (hdvd : 4096 ∣ pageEnd)
    (hdvd' : 4096 ∣ newEnd) (hle : pageEnd ≤ newEnd) (hupper : upper ≤ 2 ^ 47)
    (hrestored : Restored pml4 s (stepBy pageEnd newEnd) s') :
    HeapPages pml4 lower upper pageEnd s' where
  inv := hrestored.inv
  log a ha := by
    rw [← h.log a ha]
    refine ⟨hrestored.old a, fun hmem => hrestored.log a hmem fun hnew => ?_⟩
    have hold := ((h.log a ha).mp hmem).2.2
    exact absurd ((mem_stepBy hdvd hdvd' hle).mp hnew).2.1 (Nat.not_le.mpr hold)
  pages page hpage hpage' := by
    rw [hrestored.pages page (hpage'.trans_le hupper), h.pages page hpage hpage']

theorem fault (h : HeapPages pml4 lower upper pageEnd s) (hupper : upper ≤ 2 ^ 47) {a : ℕ}
    (ha : upper ≤ a) (hgrown : Grown pml4 s [a] s') :
    HeapPages pml4 lower upper pageEnd s' where
  inv := hgrown.inv
  log b hb := by
    have hne : b ≠ a := by omega
    rw [hgrown.log, mem_singleton, or_iff_left hne, h.log b hb]
  pages page hpage hpage' := by
    have hne : page.addr ∉ [a] := by
      rw [mem_singleton]
      omega
    rw [hgrown.outside page (hpage'.trans_le hupper) hne, h.pages page hpage hpage']

theorem other (h : HeapPages pml4 lower upper pageEnd s) (hupper : upper ≤ 2 ^ 47) {m : Machine}
    (hok : Space.Allowed pml4 ⟨s.machine, []⟩ (.other m) ⟨m, []⟩) :
    HeapPages pml4 lower upper pageEnd ⟨m, s.mapped⟩ where
  inv := h.inv.step (show Space.step pml4 ⟨s.machine, []⟩ (.other m) = some ⟨m, []⟩ from rfl) hok
  log := h.log
  pages page hpage hpage' := by
    rw [← h.pages page hpage hpage']
    have hframe : m.frameOf pml4 page = s.machine.frameOf pml4 page :=
      Machine.frameOf_of_entries hok.1 (Page.mem_userHalf (hpage'.trans_le hupper))
    rw [hframe]

end HeapPages

/-! ### The invariant -/

/-- The record of a new process, as far as its memory goes. -/
structure NewRecord (p : Process) : Prop where
  aligned : 4096 ∣ p.heapStart
  fits : p.heapStart + 4095 < 2 ^ 64
  programBreak : p.programBreak = p.heapStart
  stackStart : p.stackStart = 0x7FC00000
  stackEnd : p.stackEnd = 0x80000000

/-- **What holds of the memory of a process** whose record at its creation was `p`. -/
structure HeapInv (pml4 : BitVec 64) (p : Process) (u : UserMemory) : Prop where
  record : u.process = { p with programBreak := u.process.programBreak }
  bounds : u.bounds = u.process.bounds
  break_le : u.process.programBreak = p.heapStart ∨
    p.heapStart ≤ u.process.programBreak ∧ u.process.programBreak < p.stackStart - 4096
  log : ∀ a < p.stackStart, a ∈ u.pages.mapped ↔
    4096 ∣ a ∧ p.heapStart ≤ a ∧ a < alignTo u.process.programBreak 4096
  space : p.heapStart < p.stackStart → HeapPages pml4 p.heapStart p.stackStart
    (alignTo u.process.programBreak 4096) u.pages

namespace HeapInv

variable {pml4 : BitVec 64} {p : Process} {u u' : UserMemory}

/-- The break can be rounded up, and the end of the heap is not beyond the guard page. -/
theorem pageEnd (hp : NewRecord p) (h : HeapInv pml4 p u) : u.process.programBreak + 4095 < 2 ^ 64 ∧
      p.heapStart ≤ alignTo u.process.programBreak 4096 ∧
      alignTo u.process.programBreak 4096 ≤ max p.heapStart (p.stackStart - 4096) := by
  have hfits := hp.fits
  have haligned := hp.aligned
  have hstack := hp.stackStart
  have hsum : u.process.programBreak + 4095 < 2 ^ 64 := by
    rcases h.break_le with heq | ⟨-, hlt⟩ <;> omega
  refine ⟨hsum, ?_⟩
  rw [alignTo_page hsum]
  rcases h.break_le with heq | ⟨hle, hlt⟩
  · omega
  · omega

/-- **`SYS_BRK`** -/
theorem brk (hp : NewRecord p) (h : HeapInv pml4 p u) {requestedBreak rax : ℕ}
    (hcall : sysBrk pml4 requestedBreak u = some (rax, u')) : HeapInv pml4 p u' := by
  by_cases haccepted : Accepted u.process requestedBreak
  · have hheap : u.process.heapStart = p.heapStart := by rw [h.record]
    have hstack : u.process.stackStart = p.stackStart := by rw [h.record]
    have hle : p.heapStart ≤ requestedBreak := hheap ▸ haccepted.2.1
    have hguard : requestedBreak < p.stackStart - 4096 := hstack ▸ haccepted.2.2
    have htop := hp.stackStart
    have hlow : p.heapStart < p.stackStart := by omega
    have hpages := h.space hlow
    obtain ⟨hsum, hlower, hupper⟩ := h.pageEnd hp
    have hsum' : requestedBreak + 4095 < 2 ^ 64 := by omega
    have hend : alignTo requestedBreak 4096 = (requestedBreak + 4095) / 4096 * 4096 :=
      alignTo_page hsum'
    have hbound : u.process.programBreak + 4096 ≤ 2 ^ 47 := by
      rcases h.break_le with heq | ⟨-, hlt⟩ <;> omega
    rcases sysBrk_spec hpages.inv (by omega) haccepted hbound with
      ⟨s', hrun, hmoved⟩ | ⟨s', hrun, hgrow, hrestored⟩
    · obtain ⟨-, rfl⟩ := Prod.mk.inj (Option.some.inj (hrun.symm.trans hcall))
      have hpages' := hpages.moved (dvd_alignTo hsum) (dvd_alignTo hsum') hlower (by omega) hmoved
      refine ⟨?_, ?_, Or.inr ⟨hle, hguard⟩, hpages'.log, fun _ => hpages'⟩
      · show { u.process with programBreak := requestedBreak } = _
        rw [h.record]
        rfl
      · show { u.bounds with programBreak := requestedBreak } = _
        rw [h.bounds]
        rfl
    · obtain ⟨-, rfl⟩ := Prod.mk.inj (Option.some.inj (hrun.symm.trans hcall))
      have hpages' := hpages.restored (dvd_alignTo hsum) (dvd_alignTo hsum') hgrow.le (by omega)
        hrestored
      exact ⟨h.record, h.bounds, h.break_le, hpages'.log, fun _ => hpages'⟩
  · rw [sysBrk_of_not_accepted haccepted] at hcall
    cases hcall
    exact h

/-- **A page fault.**  In the heap all pages are mapped, so it is one of the stack. -/
theorem fault (hp : NewRecord p) (h : HeapInv pml4 p u) {errorCode : PageFaultErrorCode}
    {faultAddr : VirtAddr} {m : Machine}
    (hrange : faultRange u.bounds faultAddr.bits.toNat = some .userHeap ∨
      faultRange u.bounds faultAddr.bits.toNat = some .userStack)
    (hmapped : pageFaultHandler u.pages.machine pml4 u.bounds errorCode faultAddr = (.mapped, m)) :
    HeapInv pml4 p { u with
      pages := ⟨m, (Page.containingAddress faultAddr).addr :: u.pages.mapped⟩ } := by
  obtain ⟨range, -, frame, rest, havail, hmap⟩ := pageFaultHandler_mapped hmapped
  obtain ⟨hsum, hlower, hupper⟩ := h.pageEnd hp
  have hstack := hp.stackStart
  have haligned := hp.aligned
  have haddr := Page.addr_containingAddress faultAddr
  have hbounds : u.bounds = ⟨p.heapStart, u.process.programBreak, p.stackStart, p.stackEnd⟩ := by
    rw [h.bounds, h.record]
    rfl
  have hcases : p.heapStart ≤ faultAddr.bits.toNat ∧ faultAddr.bits.toNat < u.process.programBreak ∨
      p.stackStart ≤ faultAddr.bits.toNat ∧ faultAddr.bits.toNat < p.stackEnd := by
    rw [hbounds] at hrange
    unfold faultRange at hrange
    split_ifs at hrange with hkernel hheap hwindow
    · simp at hrange
    · exact Or.inl hheap
    · exact Or.inr hwindow
    · simp at hrange
  rcases hcases with ⟨hle, hlt⟩ | ⟨hle, hlt⟩
  · -- all pages of the heap are mapped, and `map_to` fails
    exfalso
    have hguard : u.process.programBreak < p.stackStart - 4096 := by
      rcases h.break_le with heq | ⟨-, hguard⟩
      · omega
      · exact hguard
    have hpages := h.space (by omega)
    rw [alignTo_page hsum] at hpages
    have hpage : (Page.containingAddress faultAddr).addr < 2 ^ 47 := by omega
    have hnone := (MapsNew.zeroed hpages.inv havail hpage hmap).new
    exact (hpages.pages _ (by omega) (by omega)).mpr (by omega) hnone
  · have habove : p.stackStart ≤ (Page.containingAddress faultAddr).addr := by omega
    refine ⟨h.record, h.bounds, h.break_le, fun a ha => ?_, fun hlow => ?_⟩
    · rw [← h.log a ha, mem_cons]
      exact or_iff_right (by omega)
    · have hend := hp.stackEnd
      have hpages := h.space hlow
      have hlow : (Page.containingAddress faultAddr).addr < 2 ^ 47 := by omega
      exact hpages.fault (by omega) habove (Grown.single hpages.inv havail hlow hmap)

/-- **Every step keeps the invariant.** -/
theorem step (hp : NewRecord p) (h : HeapInv pml4 p u) {action : HeapAction}
    (hstep : u.step pml4 action = some u') (hok : u.Allowed pml4 action u') :
    HeapInv pml4 p u' := by
  cases action with
  | brk requestedBreak =>
    obtain ⟨⟨rax, u''⟩, hcall, rfl⟩ := Option.map_eq_some_iff.mp hstep
    exact h.brk hp hcall
  | fault errorCode faultAddr =>
    simp only [UserMemory.step] at hstep
    split at hstep
    · next m hmapped =>
        cases hstep
        exact h.fault hp hok hmapped
    · cases hstep
  | other m =>
    cases hstep
    have htop := hp.stackStart
    exact ⟨h.record, h.bounds, h.break_le, h.log, fun hlow => (h.space hlow).other (by omega) hok⟩

end HeapInv

/-! ### The new process -/

section Created

variable {pml4 activePml4 : BitVec 64} {m m' : Machine} {image : ℕ → Option UInt8}
  {headers : List ProgramHeader} {highestVaddr : ℕ} {u₀ u : UserMemory}

/-- A program that ends in the user half has all of its pages there. -/
theorem userSegments_of_highest
    (hends : ∀ ph ∈ headers, ph.load = true → 0 < ph.segmentEnd ∧ ph.segmentEnd ≤ highestVaddr)
    (hlt : highestVaddr < 2 ^ 47) : UserSegments headers := by
  intro ph hmem hload n hn
  have hend := (hends ph hmem hload).2
  have hlast := (ProgramHeader.mem_pages.mp hn).2
  omega

theorem newRecord (hfits : highestVaddr + 4095 < 2 ^ 64) (k : Kernel) (ppid parent : ℕ) :
    NewRecord (k.newProcess pml4.toNat highestVaddr ppid parent) where
  aligned := dvd_alignTo hfits
  fits := by
    show alignTo highestVaddr 4096 + 4095 < 2 ^ 64
    rw [alignTo_page hfits]
    omega
  programBreak := rfl
  stackStart := rfl
  stackEnd := rfl

/-- The pages of a program in the user half are those of its segments and that of the loader. -/
theorem num_of_mapped
    (hocc : Occupies (userHalf ∪ kernelEntries headers) (programPages headers)
      (inherited m activePml4) pml4 m.avail.length m' (pagePaths (processPages headers)).toFinset)
    (huser : UserSegments headers) {page : Page} (hpage : page.start.p4Index ∈ userHalf)
    (hmapped : m'.frameOf pml4 page ≠ none) :
    ∃ n ∈ processPages headers, page.addr = n * 4096 := by
  rcases (hocc.path_iff (Or.inl hpage)).mp hmapped with hold | hmem
  · -- nothing is taken over in the user half
    obtain ⟨t, ht⟩ := Option.isSome_iff_exists.mp hold
    obtain ⟨⟨i, hi, hle⟩, -⟩ := Option.ite_none_right_eq_some.mp ht
    obtain rfl : page.start.p4Index = i := Option.some.inj hi
    exact absurd hpage (Nat.not_lt.mpr hle)
  · obtain ⟨n, hn, hpath⟩ := mem_filterMap.mp (List.mem_toFinset.mp hmem)
    obtain ⟨page', hpage', hpath⟩ := Option.map_eq_some_iff.mp hpath
    refine ⟨n, hn, (Page.path_eq_iff.mp hpath.symm).trans (addr_of_pageOf ?_ hpage')⟩
    exact huser.lt_of_mem hn

/-- **A new process satisfies the invariant.** -/
theorem UserMemory.Created.inv (h : u₀.Created pml4) :
    NewRecord u₀.process ∧ HeapInv pml4 u₀.process u₀ := by
  obtain ⟨m, activePml4, image, headers, highestVaddr, hstock, hload, ⟨k, ppid, parent, hprocess⟩,
    hbounds, hmapped⟩ := h
  obtain ⟨m₁, m₂, frame, rest, page₀, -, hprogram, -, -, -, hsum⟩ := loadUserProcess_eq_some hload
  have hfits : highestVaddr + 4095 < 2 ^ 64 := by omega
  have hrecord : NewRecord u₀.process := hprocess ▸ newRecord hfits k ppid parent
  have hstart : u₀.process.heapStart = alignTo highestVaddr 4096 := by rw [hprocess]; rfl
  have hstack := hrecord.stackStart
  have hend : alignTo u₀.process.programBreak 4096 = u₀.process.heapStart := by
    have haligned := hrecord.aligned
    rw [hrecord.programBreak, alignTo_page hrecord.fits]
    omega
  refine ⟨hrecord, rfl, hbounds, Or.inl hrecord.programBreak, fun a _ => ?_, fun hlow => ?_⟩
  · rw [hmapped, hend]
    exact iff_of_false not_mem_nil (by omega)
  · rw [hstart, alignTo_page hfits] at hlow
    obtain ⟨-, hends, -⟩ := loadProgram_highest hprogram
    have huser := userSegments_of_highest hends (by omega)
    obtain ⟨hocc, -⟩ := loadUserProcess_spec hstock (huser.regular m activePml4) hload
    refine ⟨(loadUserProcess_user hstock huser hload).inv, fun a _ => ?_, fun page hle hlt => ?_⟩
    · rw [hmapped, hend]
      exact iff_of_false not_mem_nil (by omega)
    · -- the segments end below, and the page of the loader is above
      have hpage := Page.mem_userHalf (show page.addr < 2 ^ 47 by omega)
      rw [hend]
      refine iff_of_false (fun hmapped => ?_) (by omega)
      obtain ⟨n, hn, haddr⟩ := num_of_mapped hocc huser hpage hmapped
      rcases mem_append.mp hn with hn | hn
      · obtain ⟨ph, hph, hload, hn⟩ := mem_segmentPages.mp hn
        have hlast := (ProgramHeader.mem_pages.mp hn).2
        obtain ⟨hpositive, hhighest⟩ := hends ph hph hload
        rw [hstart, alignTo_page hfits] at hle
        omega
      · have hstack := mem_singleton.mp hn
        omega

/-- **The heap of a process.**  After any calls of `SYS_BRK` and any page faults in the heap or
the stack, the break is at the start of the heap or below the guard page; what they have mapped
below the stack are the pages from the start of the heap to the break, rounded up, each with a
frame of its own; and the guard page is not among what they have mapped. -/
theorem user_heap_exact (hcreated : u₀.Created pml4)
    (hrun : Run (· = u₀) (UserMemory.step pml4) (UserMemory.Allowed pml4) u) :
    u.process = { u₀.process with programBreak := u.process.programBreak } ∧
      (u.process.programBreak = u.process.heapStart ∨
        u.process.heapStart ≤ u.process.programBreak ∧
          u.process.programBreak < u.process.stackStart - 4096) ∧
      (∀ a, u.process.heapStart ≤ a → a < u.process.stackStart →
        (a ∈ u.pages.mapped ↔ 4096 ∣ a ∧ a < alignTo u.process.programBreak 4096)) ∧
      (∀ page : Page, u.process.heapStart ≤ page.addr → page.addr < u.process.stackStart →
        (page.addr ∈ u.pages.mapped ↔ u.pages.machine.translateAddr pml4 page.start ≠ none) ∧
        ∀ page' : Page, page'.addr < 2 ^ 47 → page.addr ∈ u.pages.mapped →
          u.pages.machine.translateAddr pml4 page'.start =
            u.pages.machine.translateAddr pml4 page.start → page'.addr = page.addr) ∧
      u.process.stackStart - 4096 ∉ u.pages.mapped := by
  obtain ⟨hp, hinit⟩ := hcreated.inv
  have h : HeapInv pml4 u₀.process u := by
    refine hrun.invariant (I := HeapInv pml4 u₀.process) ?_ ?_
    · rintro u rfl
      exact hinit
    · intro u action u' _ hinv hstep hok
      exact hinv.step hp hstep hok
  have hheap : u.process.heapStart = u₀.process.heapStart := by rw [h.record]
  have hstack : u.process.stackStart = u₀.process.stackStart := by rw [h.record]
  obtain ⟨-, hlower, hupper⟩ := h.pageEnd hp
  have htop := hp.stackStart
  rw [hheap, hstack]
  refine ⟨h.record, h.break_le, fun a hle hlt => ?_, fun page hle hlt => ?_, ?_⟩
  · rw [h.log a hlt]
    exact and_congr_right fun _ => and_iff_right hle
  · have hpages := h.space (by omega)
    have hpage := Page.mem_userHalf (hlt.trans_le (by omega))
    have hmem : page.addr ∈ u.pages.mapped ↔ u.pages.machine.frameOf pml4 page ≠ none := by
      rw [hpages.pages page hle hlt, h.log _ hlt]
      exact ⟨fun hmem => hmem.2.2, fun hlt' => ⟨page.addr_dvd, hle, hlt'⟩⟩
    refine ⟨by rw [hpages.inv.translateAddr hpage, hmem], fun page' hlt' hmapped heq => ?_⟩
    have hpage' := Page.mem_userHalf hlt'
    rw [hpages.inv.translateAddr hpage, hpages.inv.translateAddr hpage'] at heq
    obtain ⟨f, hf⟩ := Option.ne_none_iff_exists'.mp (hmem.mp hmapped)
    exact hpages.inv.frameOf_inj hpage' hpage (heq.trans hf) hf
  · rw [h.log _ (by omega)]
    omega

end Created

/-- A process grows its heap by half a page. -/
theorem user_heap_exact_grown :
    ∃ pml4 u₀ u, u₀.Created pml4 ∧
      Run (· = u₀) (UserMemory.step pml4) (UserMemory.Allowed pml4) u ∧
      u.process.programBreak = 0x401800 ∧ 0x401000 ∈ u.pages.mapped ∧
      0x402000 ∉ u.pages.mapped := by
  have hgrow : (Kernel.execute (fun _ _ _ => True) 0x1000 []).any (fun k =>
      (loadUserProcess directMapMachine 0x1000#64 (some ∘ UInt8.ofNat)
        [⟨true, 0x400000, 16, 3, 64⟩]).any fun r =>
          (sysBrk r.1 0x401800 ⟨k.newProcess r.1.toNat r.2.1 0 0,
            (k.newProcess r.1.toNat r.2.1 0 0).bounds, ⟨r.2.2, []⟩⟩).any fun q =>
              decide (q.2.process.programBreak = 0x401800 ∧ q.2.process.heapStart = 0x401000 ∧
                q.2.process.stackStart = 0x7FC00000)) = true := by
    decide +kernel
  obtain ⟨k, -, hgrow⟩ := (Option.any_eq_true _ _).mp hgrow
  obtain ⟨⟨pml4, highestVaddr, m⟩, hload, hgrow⟩ := (Option.any_eq_true _ _).mp hgrow
  obtain ⟨⟨rax, u⟩, hcall, hgrow⟩ := (Option.any_eq_true _ _).mp hgrow
  obtain ⟨hbreak, hheap, hstack⟩ : u.process.programBreak = 0x401800 ∧
      u.process.heapStart = 0x401000 ∧ u.process.stackStart = 0x7FC00000 := of_decide_eq_true hgrow
  let u₀ : UserMemory := ⟨k.newProcess pml4.toNat highestVaddr 0 0,
    (k.newProcess pml4.toNat highestVaddr 0 0).bounds, ⟨m, []⟩⟩
  have hcreated : u₀.Created pml4 :=
    ⟨directMapMachine, _, _, _, highestVaddr, directMapMachine_stocked, hload, ⟨k, 0, 0, rfl⟩, rfl,
      rfl⟩
  have hrun : Run (· = u₀) (UserMemory.step pml4) (UserMemory.Allowed pml4) u :=
    .next (a := .brk 0x401800) (.start rfl) (Option.map_eq_some_iff.mpr ⟨_, hcall, rfl⟩) trivial
  obtain ⟨-, -, hmapped, -, -⟩ := user_heap_exact hcreated hrun
  simp only [hbreak, hheap, hstack] at hmapped
  exact ⟨pml4, u₀, u, hcreated, hrun, hbreak, (hmapped _ (by decide) (by decide)).mpr (by decide),
    fun hmem => absurd ((hmapped _ (by decide) (by decide)).mp hmem).2 (by decide)⟩

end KernelR.Proc
