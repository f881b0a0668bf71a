import KernelR.Interrupts.PageFault
import KernelR.Mm.UserSpace

/-!
# The kernel half of the address spaces

`create_user_address_space` copies the entries 256 to 511 of the active PML4, once. From
then on the address spaces share the tables that these entries lead to, and a page of the
kernel heap that is mapped below one of them is mapped everywhere. An entry that is not
used yet is not shared: the window of the kernel heap has 10 TiB, an entry of the PML4
stands for 512 GiB of it, and the page fault handler makes the entry in the PML4 that is
active, and in no other.

So the address spaces agree on the kernel half as long as a fault hits an entry that is
used already, or happens while there is one address space only (`kernelHalf_agrees`). After
the first page of the heap has been touched, this is so for all of the first 512 GiB
(`kernelHalf_agrees_firstSlice`).

Agreement is a matter of the entries of the PML4s alone, so nothing is assumed about the
tables below, but that no PML4 is one of them and that the frame allocator hands out
neither.
-/

namespace KernelR.Interrupts

open List Function Option Foundations Mm Proc

/-! ### The address spaces -/

/-- The memory, the PML4s, and the one that `CR3` points to. -/
structure Spaces where
  machine : Machine
  spaces : List (BitVec 64)
  active : BitVec 64

/-- What happens to the kernel half. -/
inductive SpacesAction where
  | create
  | switch (pml4 : BitVec 64)
  | fault (bounds : CurrentBounds) (errorCode : PageFaultErrorCode) (faultAddr : VirtAddr)

namespace Spaces

/-- An address space is created, another one becomes the active one, or there is a fault in the
window of the kernel heap. If the handler does not return, nothing happens any more. -/
def step (s : Spaces) : SpacesAction → Option Spaces
  | .create =>
    (s.machine.createUserAddressSpace s.active).map fun (pml4, machine) =>
      { s with machine, spaces := pml4 :: s.spaces }
  | .switch pml4 => if s.spaces.contains pml4 then some { s with active := pml4 } else none
  | .fault bounds errorCode faultAddr =>
    if IsKernelHeap faultAddr.bits.toNat then
      match pageFaultHandler s.machine s.active bounds errorCode faultAddr with
      | (.mapped, machine) => some { s with machine }
      | _ => none
    else none

/-- No frame of the supply is a PML4 or a table of the heap, and no PML4 is a table of the heap
below another one. -/
structure Apart (s : Spaces) : Prop where
  distinct : (s.machine.avail.map PhysFrame.start).Nodup
  fresh : ∀ frame ∈ s.machine.avail, frame.start ∉ s.spaces ∧
    ∀ a ∈ s.spaces, ∀ v : VirtAddr, IsKernelHeap v.bits.toNat →
      frame.start ∉ s.machine.tablesOn a v.upperIndices
  lower : ∀ a ∈ s.spaces, ∀ b ∈ s.spaces, ∀ v : VirtAddr, IsKernelHeap v.bits.toNat →
    b ∉ (s.machine.tablesOn a v.upperIndices).tail

/-- The kernel has one address space. -/
def Booted (s : Spaces) : Prop := s.spaces = [s.active] ∧ s.Apart

/-- The address spaces translate the kernel half alike. -/
def KernelHalfAgrees (s : Spaces) : Prop :=
  ∀ a ∈ s.spaces, ∀ b ∈ s.spaces, ∀ v : VirtAddr, v.p4Index ∈ kernelHalf →
    s.machine.translateAddr a v = s.machine.translateAddr b v

/-- A fault hits an entry of the PML4 that is used, or there is no other PML4. -/
def KnownSlice (s : Spaces) : SpacesAction → Prop
  | .fault _ _ faultAddr =>
    s.machine.usedTable s.active faultAddr.p4Index ≠ none ∨ ∀ a ∈ s.spaces, a = s.active
  | _ => True

instance (s : Spaces) : (action : SpacesAction) → Decidable (s.KnownSlice action)
  | .create => .isTrue trivial
  | .switch _ => .isTrue trivial
  | .fault _ _ _ => inferInstanceAs (Decidable (_ ∨ _))

/-- **What the address spaces keep**: the entries of the kernel half lead to the same tables. -/
structure Inv (s : Spaces) : Prop extends s.Apart where
  active : s.active ∈ s.spaces
  same : ∀ a ∈ s.spaces, ∀ b ∈ s.spaces, ∀ i ∈ kernelHalf,
    s.machine.usedTable a i = s.machine.usedTable b i

end Spaces

section Walk

variable {m m' : Machine} {a b : BitVec 64} {v : VirtAddr}

theorem p4Index_of_isKernelHeap (h : IsKernelHeap v.bits.toNat) : v.p4Index ∈ kernelHalf := by
  show 256 ≤ (v.bits.extractLsb' 39 9).toNat
  rw [BitVec.extractLsb'_toNat, Nat.shiftRight_eq_div_pow]
  unfold IsKernelHeap heapStart heapSize at h
  omega

theorem translateAddr_of_usedTable (h : m.usedTable a v.p4Index = m.usedTable b v.p4Index) :
    m.translateAddr a v = m.translateAddr b v := by
  unfold Machine.translateAddr
  rw [h]

theorem lower_of_usedTable (h : m.usedTable a v.p4Index = m.usedTable b v.p4Index) :
    (m.tablesOn a v.upperIndices).tail = (m.tablesOn b v.upperIndices).tail := by
  simp only [VirtAddr.upperIndices, Machine.tablesOn, tail_cons, h]

theorem usedTable_congr (h : m'.mem a = m.mem b) (i : BitVec 9) :
    m'.usedTable a i = m.usedTable b i := by
  rw [Machine.usedTable_eq, Machine.usedTable_eq, h]

end Walk

namespace Spaces.Inv

variable {s s' : Spaces} {frame : PhysFrame} {rest : List PhysFrame}

theorem of_booted (h : s.Booted) : s.Inv where
  toApart := h.2
  active := h.1 ▸ mem_cons_self
  same := by
    intro a ha b hb i _
    rw [h.1, mem_singleton] at ha hb
    rw [ha, hb]

theorem agrees (h : s.Inv) : s.KernelHalfAgrees :=
  fun a ha b hb _ hv => translateAddr_of_usedTable (h.same a ha b hb _ hv)

variable {bounds : CurrentBounds} {errorCode : PageFaultErrorCode} {faultAddr : VirtAddr}
  {m' : Machine}

/-- A frame of the supply may be overwritten: the ways of the heap stay. -/
theorem tablesOn_overwrite (h : s.Inv) (hframe : frame ∈ s.machine.avail)
    (hmem : ∀ u, u ≠ frame.start → m'.mem u = s.machine.mem u) {a : BitVec 64} (ha : a ∈ s.spaces)
    {v : VirtAddr} (hv : IsKernelHeap v.bits.toNat) :
    m'.tablesOn a v.upperIndices = s.machine.tablesOn a v.upperIndices :=
  (Machine.sameOn_overwrite ((h.fresh frame hframe).2 a ha v hv) hmem).walk.1

theorem usedTable_overwrite (h : s.Inv) (hframe : frame ∈ s.machine.avail)
    (hmem : ∀ u, u ≠ frame.start → m'.mem u = s.machine.mem u) {a : BitVec 64} (ha : a ∈ s.spaces)
    (i : BitVec 9) : m'.usedTable a i = s.machine.usedTable a i :=
  usedTable_congr (hmem a fun heq => (h.fresh frame hframe).1 (heq ▸ ha)) i

/-- `create_user_address_space` takes a frame of the supply for the new PML4, whose kernel half is
that of the active one. -/
theorem create_eq (h : s.Inv) (hstep : s.step .create = some s') :
    ∃ frame rest, s.machine.avail = frame :: rest ∧ s'.machine.avail = rest ∧
      s'.spaces = frame.start :: s.spaces ∧ s'.active = s.active ∧
      (∀ u, u ≠ frame.start → s'.machine.mem u = s.machine.mem u) ∧
      ∀ i ∈ kernelHalf, s'.machine.mem frame.start i = s.machine.mem s.active i := by
  obtain ⟨⟨pml4, m'⟩, hcreate, rfl⟩ := map_eq_some_iff.mp hstep
  obtain ⟨frame, rest, havail, rfl, havail', -, -, -, hmem⟩ := createUserAddressSpace_eq hcreate
    fun frame hframe heq => (h.fresh frame hframe).1 (heq ▸ h.active)
  refine ⟨frame, rest, havail, havail', rfl, rfl, fun u hu => ?_, fun i hi => ?_⟩
  · show m'.mem u = _
    rw [hmem, update_of_ne hu]
  · show m'.mem frame.start i = _
    rw [hmem, update_self, if_pos ((mem_kernelIndices i).mpr hi)]

theorem create_entries (h : s.Inv) (hstep : s.step .create = some s') :
    ∀ a ∈ s'.spaces, ∀ i ∈ kernelHalf,
      s'.machine.usedTable a i = s.machine.usedTable s.active i := by
  obtain ⟨frame, rest, havail, -, hspaces, -, hmem, hcopy⟩ := h.create_eq hstep
  have hframe : frame ∈ s.machine.avail := havail ▸ mem_cons_self
  intro a ha i hi
  rw [hspaces, mem_cons] at ha
  rcases ha with rfl | ha
  · rw [Machine.usedTable_eq, Machine.usedTable_eq, hcopy i hi]
  · exact (h.usedTable_overwrite hframe hmem ha i).trans (h.same a ha s.active h.active i hi)

theorem create (h : s.Inv) (hstep : s.step .create = some s') : s'.Inv := by
  have hentries := h.create_entries hstep
  obtain ⟨frame, rest, havail, havail', hspaces, hactive, hmem, -⟩ := h.create_eq hstep
  have hframe : frame ∈ s.machine.avail := havail ▸ mem_cons_self
  -- the tables below the new PML4 are those below the active one
  have hlower : ∀ a ∈ s'.spaces, ∀ v : VirtAddr, IsKernelHeap v.bits.toNat →
      (s'.machine.tablesOn a v.upperIndices).tail =
        (s.machine.tablesOn s.active v.upperIndices).tail := by
    intro a ha v hv
    have hslot := p4Index_of_isKernelHeap hv
    have hold : s.active ∈ s'.spaces := hspaces ▸ mem_cons_of_mem _ h.active
    have hsame := (hentries a ha _ hslot).trans (hentries _ hold _ hslot).symm
    rw [lower_of_usedTable hsame, h.tablesOn_overwrite hframe hmem h.active hv]
  have hdistinct := h.distinct
  rw [havail, map_cons, nodup_cons] at hdistinct
  refine ⟨⟨havail' ▸ hdistinct.2, ?_, ?_⟩, ?_, ?_⟩
  · intro frame' hframe'
    rw [havail'] at hframe'
    have hold : frame' ∈ s.machine.avail := havail ▸ mem_cons_of_mem _ hframe'
    have hnotMem : frame'.start ∉ s'.spaces := by
      rw [hspaces, mem_cons, not_or]
      exact ⟨fun heq => hdistinct.1 (heq ▸ mem_map_of_mem hframe'), (h.fresh frame' hold).1⟩
    refine ⟨hnotMem, fun a ha v hv hon => ?_⟩
    rw [Machine.tablesOn_eq_cons, mem_cons, hlower a ha v hv] at hon
    rcases hon with rfl | hon
    · exact hnotMem ha
    · exact (h.fresh frame' hold).2 _ h.active v hv (mem_of_mem_tail hon)
  · intro a ha b hb v hv hon
    rw [hlower a ha v hv] at hon
    rw [hspaces, mem_cons] at hb
    rcases hb with rfl | hb
    · exact (h.fresh frame hframe).2 _ h.active v hv (mem_of_mem_tail hon)
    · exact h.lower _ h.active b hb v hv hon
  · rw [hspaces, hactive]
    exact mem_cons_of_mem _ h.active
  · exact fun a ha b hb i hi => (hentries a ha i hi).trans (hentries b hb i hi).symm

/-- What the handler does to the kernel half. Frames of the supply become tables of the heap, and
no entry of a PML4 changes but the one of the address that is hit, if it was not used. -/
theorem handler (h : s.Inv) (hheap : IsKernelHeap faultAddr.bits.toNat)
    (hhandler : pageFaultHandler s.machine s.active bounds errorCode faultAddr = (.mapped, m')) :
    ∃ taken, s.machine.avail = taken ++ m'.avail ∧
      (∀ a ∈ s.spaces, ∀ v : VirtAddr, IsKernelHeap v.bits.toNat →
        ∀ u ∈ (m'.tablesOn a v.upperIndices).tail,
          u ∈ (s.machine.tablesOn a v.upperIndices).tail ∨ u ∈ taken.map PhysFrame.start) ∧
      (∀ a ∈ s.spaces, ∀ i,
        (a = s.active → i = faultAddr.p4Index → s.machine.usedTable a i ≠ none) →
        m'.usedTable a i = s.machine.usedTable a i) ∧
      m'.translateAddr s.active (Page.containingAddress faultAddr).start ≠ none := by
  obtain ⟨range, -, frame, rest, havail, hmap⟩ := pageFaultHandler_mapped hhandler
  obtain ⟨hp4, hupper⟩ := Page.indices_containingAddress faultAddr
  have hframe : frame ∈ s.machine.avail := havail ▸ mem_cons_self
  have hdistinct := h.distinct
  rw [havail, map_cons, nodup_cons] at hdistinct
  -- the frame for the page is zeroed before `map_to` is called, which is seen nowhere
  have hmem1 : ∀ u, u ≠ frame.start → (takeZeroed s.machine frame rest).mem u = s.machine.mem u :=
    fun u hu => update_of_ne hu _ _
  have hzero : ∀ j, (takeZeroed s.machine frame rest).mem frame.start j = 0#64 := by
    intro j
    show update s.machine.mem frame.start (fun _ => 0#64) frame.start j = 0#64
    rw [update_self]
  have htables : ∀ {a}, a ∈ s.spaces → ∀ {v : VirtAddr}, IsKernelHeap v.bits.toNat →
      (takeZeroed s.machine frame rest).tablesOn a v.upperIndices =
        s.machine.tablesOn a v.upperIndices :=
    fun ha _ hv => h.tablesOn_overwrite hframe hmem1 ha hv
  have hused : ∀ {a}, a ∈ s.spaces → ∀ i,
      (takeZeroed s.machine frame rest).usedTable a i = s.machine.usedTable a i :=
    fun ha i => h.usedTable_overwrite hframe hmem1 ha i
  have hon := htables h.active hheap
  rw [← hupper] at hon
  have hfresh : ∀ frame' ∈ s.machine.avail, frame'.start ∉
      (takeZeroed s.machine frame rest).tablesOn s.active
        (Page.containingAddress faultAddr).start.upperIndices := by
    intro frame' hframe'
    rw [hon, hupper]
    exact (h.fresh frame' hframe').2 _ h.active _ hheap
  have hsupplied : (takeZeroed s.machine frame rest).Supplied s.active
      (Page.containingAddress faultAddr).start.upperIndices :=
    ⟨hdistinct.2, fun frame' hframe' => hfresh frame' (havail ▸ mem_cons_of_mem _ hframe')⟩
  obtain ⟨new, hsupply, hmem⟩ := Machine.mapTo_changes hsupplied hmap
  have hrest : rest = new ++ m'.avail := hsupply
  refine ⟨frame :: new, by rw [havail, hrest, cons_append], ?_, ?_,
    Machine.translateAddr_of_mapTo hsupplied hmap⟩
  · intro a ha v hv u hu
    rw [← htables ha hv]
    exact Machine.tablesOn_mapTo hsupplied hzero (hfresh frame hframe) hdistinct.1 hmap hsupply _ _
      hu
  · intro a ha i hi
    rw [← hused ha i]
    by_cases hentry : a = s.active ∧ i = faultAddr.p4Index
    · obtain ⟨rfl, rfl⟩ := hentry
      obtain ⟨next, hnext⟩ := Option.ne_none_iff_exists'.mp (hi rfl rfl)
      rw [← hused ha] at hnext
      rw [hnext, (Machine.mapTo_grows hmap).usedTable hsupplied.root_notMem hnext]
    · rw [Machine.usedTable_eq, Machine.usedTable_eq, hmem a i]
      · rw [hon, hupper]
        exact h.lower _ h.active a ha _ hheap
      · intro hnew
        obtain ⟨frame', hframe', rfl⟩ := mem_map.mp hnew
        refine (h.fresh frame' ?_).1 ha
        rw [havail, hrest]
        exact mem_cons_of_mem _ (mem_append_left _ hframe')
      · exact fun hactive hi4 => hentry ⟨hactive, hi4.trans hp4⟩

theorem fault (h : s.Inv) (hok : s.KnownSlice (.fault bounds errorCode faultAddr))
    (hstep : s.step (.fault bounds errorCode faultAddr) = some s') : s'.Inv := by
  obtain ⟨hheap, hstep⟩ := ite_none_right_eq_some.mp hstep
  split at hstep
  case h_2 => cases hstep
  case h_1 m' hhandler =>
  cases hstep
  obtain ⟨taken, hsupply, hlower, hused, -⟩ := h.handler hheap hhandler
  have hrest : ∀ {frame}, frame ∈ m'.avail → frame ∈ s.machine.avail := by
    intro frame hframe
    rw [hsupply]
    exact mem_append_right _ hframe
  have hnodup := h.distinct
  rw [hsupply, map_append] at hnodup
  refine ⟨⟨hnodup.of_append_right, ?_, ?_⟩, h.active, ?_⟩
  · intro frame hframe
    refine ⟨(h.fresh frame (hrest hframe)).1, fun a ha v hv hon => ?_⟩
    rw [Machine.tablesOn_eq_cons, mem_cons] at hon
    rcases hon with heq | hon
    · exact (h.fresh frame (hrest hframe)).1 (heq ▸ ha)
    · rcases hlower a ha v hv _ hon with hold | htaken
      · exact (h.fresh frame (hrest hframe)).2 a ha v hv (mem_of_mem_tail hold)
      · exact (nodup_append.mp hnodup).2.2 _ htaken _ (mem_map_of_mem hframe) rfl
  · intro a ha b hb v hv hon
    rcases hlower a ha v hv _ hon with hold | htaken
    · exact h.lower a ha b hb v hv hold
    · obtain ⟨frame, hframe, rfl⟩ := mem_map.mp htaken
      refine (h.fresh frame ?_).1 hb
      rw [hsupply]
      exact mem_append_left _ hframe
  · rcases hok with hslice | hsingle
    · have hstay : ∀ a ∈ s.spaces, ∀ i, m'.usedTable a i = s.machine.usedTable a i := by
        intro a ha i
        refine hused a ha i ?_
        rintro rfl rfl
        exact hslice
      intro a ha b hb i hi
      exact (hstay a ha i).trans ((h.same a ha b hb i hi).trans (hstay b hb i).symm)
    · intro a ha b hb i _
      rw [hsingle a ha, hsingle b hb]

/-- A fault leaves the entries of the PML4s alone that are used, and those of the other PML4s; and
it maps the page in the active one. -/
theorem fault_entries (h : s.Inv) (hstep : s.step (.fault bounds errorCode faultAddr) = some s') :
    s'.spaces = s.spaces ∧
      (∀ a ∈ s.spaces, ∀ i, (a = s.active → s.machine.usedTable a i ≠ none) →
        s'.machine.usedTable a i = s.machine.usedTable a i) ∧
      IsKernelHeap faultAddr.bits.toNat ∧
      s'.machine.translateAddr s.active (Page.containingAddress faultAddr).start ≠ none := by
  obtain ⟨hheap, hstep⟩ := ite_none_right_eq_some.mp hstep
  split at hstep
  case h_2 => cases hstep
  case h_1 m' hhandler =>
  cases hstep
  obtain ⟨-, -, -, hused, hmapped⟩ := h.handler hheap hhandler
  exact ⟨rfl, fun a ha i hi => hused a ha i fun hactive _ => hi hactive, hheap, hmapped⟩

theorem fault_isSome (h : s.Inv) (bounds : CurrentBounds) (errorCode : PageFaultErrorCode)
    (hheap : IsKernelHeap faultAddr.bits.toNat)
    (hunused : s.machine.usedTable s.active faultAddr.p4Index = none)
    (hfour : 4 ≤ s.machine.avail.length) :
    ∃ s', s.step (.fault bounds errorCode faultAddr) = some s' := by
  obtain ⟨hp4, -⟩ := Page.indices_containingAddress faultAddr
  have hheap' := (isKernelHeap_containingAddress faultAddr).mpr hheap
  have hsupplied : s.machine.Supplied s.active
      (Page.containingAddress faultAddr).start.upperIndices :=
    ⟨h.distinct, fun frame hframe => (h.fresh frame hframe).2 _ h.active _ hheap'⟩
  obtain ⟨frame, rest, havail⟩ := exists_cons_of_length_pos (Nat.lt_of_lt_of_le (by omega) hfour)
  have hrange : faultRange bounds faultAddr.bits.toNat = some .kernelHeap :=
    faultRange_eq_kernelHeap.mpr hheap
  have hcall := demandPage_of_range hrange havail
  obtain ⟨hsupplied', hmissing, hlength⟩ := supplied_of_demandPage hsupplied hcall
  have hnone :
      s.machine.translateAddr s.active (Page.containingAddress faultAddr).start = none := by
    rw [Machine.translateAddr, hp4, hunused]
    rfl
  have hmissing3 : s.machine.missingTables s.active
      (Page.containingAddress faultAddr).start.upperIndices = 3 := by
    simp only [VirtAddr.upperIndices, Machine.missingTables, hp4, hunused, length_cons, length_nil]
  have houtcome := pageFaultHandler_of_demandPage s.active errorCode hcall
  rw [Machine.mapTo_of_unmapped hsupplied'
    ((translateAddr_of_demandPage hsupplied hcall).trans hnone), hmissing, hmissing3,
    if_pos (by omega)] at houtcome
  rcases hhandler : pageFaultHandler s.machine s.active bounds errorCode faultAddr
    with ⟨outcome, m'⟩
  rw [hhandler] at houtcome
  obtain rfl : outcome = .mapped := houtcome
  refine ⟨{ s with machine := m' }, ?_⟩
  rw [Spaces.step, if_pos hheap, hhandler]

/-- **A step that does not meet the condition** is a first touch in one of several address spaces,
and they do not agree after it. -/
theorem knownSlice_of_agrees (h : s.Inv) {action : SpacesAction}
    (hstep : s.step action = some s') (hagrees : s'.KernelHalfAgrees) : s.KnownSlice action := by
  cases action with
  | create => trivial
  | switch pml4 => trivial
  | fault bounds errorCode faultAddr =>
    obtain ⟨hspaces, hentries, hheap, hmapped⟩ := h.fault_entries hstep
    refine or_iff_not_imp_left.mpr fun hunused b hb => by_contra fun hne => hmapped ?_
    rw [not_ne_iff] at hunused
    have hp4 := (Page.indices_containingAddress faultAddr).1
    have hslot : (Page.containingAddress faultAddr).start.p4Index ∈ kernelHalf := by
      rw [hp4]
      exact p4Index_of_isKernelHeap hheap
    -- the entry is not used in the other PML4, before and after the fault
    have hother : s'.machine.usedTable b (Page.containingAddress faultAddr).start.p4Index =
        none := by
      rw [hentries b hb _ fun hactive => absurd hactive hne,
        h.same b hb s.active h.active _ hslot, hp4, hunused]
    rw [hagrees s.active (hspaces ▸ h.active) b (hspaces ▸ hb) _ hslot, Machine.translateAddr,
      hother]
    rfl

/-- **Every step keeps the invariant**, if it meets the condition. -/
theorem step {action : SpacesAction} (h : s.Inv) (hok : s.KnownSlice action)
    (hstep : s.step action = some s') : s'.Inv := by
  cases action with
  | create => exact h.create hstep
  | switch pml4 =>
    obtain ⟨hmem, hs'⟩ := ite_none_right_eq_some.mp hstep
    cases hs'
    exact { h with active := List.contains_iff_mem.mp hmem }
  | fault bounds errorCode faultAddr => exact h.fault hok hstep

end Spaces.Inv

/-! ### Agreement -/

theorem inv_of_run {s : Spaces}
    (h : Run Spaces.Booted Spaces.step (fun s action _ => s.KnownSlice action) s) : s.Inv := by
  refine h.invariant (I := Spaces.Inv) (fun _ hbooted => .of_booted hbooted) ?_
  intro s action s' _ hinv hstep hok
  exact hinv.step hok hstep

/-- **The kernel half is the same everywhere**, in every run in which the faults hit entries of
the PML4 that are used, as long as there is more than one address space. The first step that is
not of this kind ends the agreement. -/
theorem kernelHalf_agrees {s : Spaces}
    (h : Run Spaces.Booted Spaces.step (fun s action _ => s.KnownSlice action) s) :
    s.KernelHalfAgrees ∧ ∀ action s', s.step action = some s' →
      (s'.KernelHalfAgrees ↔ s.KnownSlice action) := by
  have hinv := inv_of_run h
  refine ⟨hinv.agrees, fun action s' hstep => ⟨hinv.knownSlice_of_agrees hstep, fun hok => ?_⟩⟩
  exact (hinv.step hok hstep).agrees

/-- The first page of the heap has been touched. -/
def Spaces.Touched (s : Spaces) : Prop := s.machine.translateAddr s.active heapFirst ≠ none

/-- A fault is in the first 512 GiB of the heap. -/
def SpacesAction.InFirstSlice : SpacesAction → Prop
  | .fault _ _ faultAddr => faultAddr.p4Index = heapFirst.p4Index
  | _ => True

instance : (action : SpacesAction) → Decidable action.InFirstSlice
  | .fault _ _ faultAddr => inferInstanceAs (Decidable (faultAddr.p4Index = heapFirst.p4Index))
  | .create | .switch _ => .isTrue trivial

/-- **After the first page of the heap has been touched**, faults in the first 512 GiB do no
harm. -/
theorem kernelHalf_agrees_firstSlice {s : Spaces}
    (h : Run (fun s => s.Booted ∧ s.Touched) Spaces.step
      (fun _ action _ => action.InFirstSlice) s) :
    s.KernelHalfAgrees := by
  have hslot : heapFirst.p4Index ∈ kernelHalf := p4Index_of_isKernelHeap (by decide)
  -- the entry of the first slice is used in all PML4s
  have hinv : s.Inv ∧ ∀ a ∈ s.spaces, s.machine.usedTable a heapFirst.p4Index ≠ none := by
    refine h.invariant (I := fun s => s.Inv ∧ ∀ a ∈ s.spaces, s.machine.usedTable a
      heapFirst.p4Index ≠ none) ?_ ?_
    · rintro s ⟨hbooted, htouched⟩
      refine ⟨.of_booted hbooted, fun a ha hnone => htouched ?_⟩
      rw [hbooted.1, mem_singleton] at ha
      rw [ha] at hnone
      rw [Machine.translateAddr, hnone]
      rfl
    · rintro s action s' - ⟨hinv, hused⟩ hstep hslice
      cases action with
      | create =>
        refine ⟨hinv.create hstep, fun a ha => ?_⟩
        rw [hinv.create_entries hstep a ha _ hslot]
        exact hused _ hinv.active
      | switch pml4 =>
        obtain ⟨hmem, hs'⟩ := ite_none_right_eq_some.mp hstep
        cases hs'
        exact ⟨{ hinv with active := List.contains_iff_mem.mp hmem }, hused⟩
      | fault bounds errorCode faultAddr =>
        have hok : s.KnownSlice (.fault bounds errorCode faultAddr) := by
          refine Or.inl ?_
          rw [show faultAddr.p4Index = heapFirst.p4Index from hslice]
          exact hused _ hinv.active
        refine ⟨hinv.fault hok hstep, fun a ha => ?_⟩
        obtain ⟨hspaces, hentries, -⟩ := hinv.fault_entries hstep
        rw [hspaces] at ha
        rw [hentries a ha _ fun _ => hused a ha]
        exact hused a ha
  exact hinv.1.agrees

/-! ### Two address spaces -/

/-- The kernel has touched the first page of its heap. -/
def touchedSpaces : Spaces := ⟨touchedMachine, [0x1000#64], 0x1000#64⟩

/-- An address in the second 512 GiB of the heap. -/
def heapSlice : VirtAddr := ⟨0xFFFF908000000000#64, by decide⟩

theorem touchedMachine_lower (v : VirtAddr) :
    ∀ u ∈ (touchedMachine.tablesOn 0x1000#64 v.upperIndices).tail,
      u ∈ [0x4000#64, 0x5000#64, 0x6000#64] := by
  have hnext : ∀ i, touchedMachine.usedTable 0x1000#64 i ∈ [none, some 0x4000#64] ∧
      touchedMachine.usedTable 0x4000#64 i ∈ [none, some 0x5000#64] ∧
      touchedMachine.usedTable 0x5000#64 i ∈ [none, some 0x6000#64] := by decide +kernel
  simp only [mem_cons, not_mem_nil, or_false] at hnext
  intro u hu
  simp only [VirtAddr.upperIndices, Machine.tablesOn, tail_cons] at hu
  rcases (hnext v.p4Index).1 with h4 | h4
  · simp [h4] at hu
  rcases (hnext v.p3Index).2.1 with h3 | h3
  · simp only [h4, h3, mem_singleton] at hu
    exact hu ▸ mem_cons_self
  rcases (hnext v.p2Index).2.2 with h2 | h2 <;>
    simp only [h4, h3, h2, mem_cons, not_mem_nil, or_false] at hu ⊢
  · exact hu.imp_right Or.inl
  · exact hu

theorem touchedSpaces_booted : touchedSpaces.Booted ∧ touchedSpaces.Touched := by
  have hfresh : ∀ frame ∈ touchedMachine.avail, frame.start ≠ 0x1000#64 ∧
      frame.start ∉ [0x4000#64, 0x5000#64, 0x6000#64] := by decide
  have htouched : touchedMachine.translateAddr 0x1000#64 heapFirst ≠ none := by decide +kernel
  refine ⟨⟨rfl, by decide, fun frame hframe => ⟨?_, ?_⟩, ?_⟩, htouched⟩
  · exact fun hmem => (hfresh frame hframe).1 (mem_singleton.mp hmem)
  · intro a ha v _ hon
    obtain rfl := mem_singleton.mp ha
    rw [Machine.tablesOn_eq_cons, mem_cons] at hon
    rcases hon with heq | hon
    · exact (hfresh frame hframe).1 heq
    · exact (hfresh frame hframe).2 (touchedMachine_lower v _ hon)
  · intro a ha b hb v _ hon
    obtain rfl := mem_singleton.mp ha
    obtain rfl := mem_singleton.mp hb
    exact absurd (touchedMachine_lower v _ hon) (by decide)

/-- A second address space touches the second page of the heap. -/
theorem kernelHalf_agrees_two :
    ∃ s, exec Spaces.step (fun s action _ => s.KnownSlice action) touchedSpaces
        [.create, .switch 0x7000#64, .fault smallBounds ⟨0b010#64⟩ heapSecond] = some s ∧
      s.KernelHalfAgrees := by
  have hsome : (exec Spaces.step (fun s action _ => s.KnownSlice action) touchedSpaces
      [.create, .switch 0x7000#64, .fault smallBounds ⟨0b010#64⟩ heapSecond]).isSome = true := by
    decide +kernel
  obtain ⟨s, hs⟩ := Option.isSome_iff_exists.mp hsome
  exact ⟨s, hs, (kernelHalf_agrees (Run.exec (.start touchedSpaces_booted.1) hs)).1⟩

/-- The same calls, all in the first 512 GiB. -/
theorem kernelHalf_agrees_firstSlice_two :
    ∃ s, exec Spaces.step (fun _ action _ => action.InFirstSlice) touchedSpaces
        [.create, .switch 0x7000#64, .fault smallBounds ⟨0b010#64⟩ heapSecond] = some s ∧
      s.KernelHalfAgrees := by
  have hsome : (exec Spaces.step (fun _ action _ => action.InFirstSlice) touchedSpaces
      [.create, .switch 0x7000#64, .fault smallBounds ⟨0b010#64⟩ heapSecond]).isSome = true := by
    decide +kernel
  obtain ⟨s, hs⟩ := Option.isSome_iff_exists.mp hsome
  exact ⟨s, hs, kernelHalf_agrees_firstSlice (Run.exec (.start touchedSpaces_booted) hs)⟩

/-- The first touch of the second 512 GiB happens after another address space was created: they do
not agree any more. -/
theorem kernelHalf_diverges :
    ∃ s, Run (fun s => s.Booted ∧ s.Touched) Spaces.step (fun _ _ _ => True) s ∧
      ¬ s.KernelHalfAgrees := by
  have hbooted := Spaces.Inv.of_booted touchedSpaces_booted.1
  have hcreate : (touchedSpaces.step .create).isSome = true := by decide +kernel
  obtain ⟨s, hs⟩ := Option.isSome_iff_exists.mp hcreate
  have hinv : s.Inv := hbooted.create hs
  obtain ⟨frame, rest, havail, havail', hspaces, hactive, -, -⟩ := hbooted.create_eq hs
  obtain ⟨rfl, rfl⟩ := List.cons.inj havail
  have hslot : heapSlice.p4Index ∈ kernelHalf := p4Index_of_isKernelHeap (by decide)
  have hunused : s.machine.usedTable s.active heapSlice.p4Index = none := by
    rw [hbooted.create_entries hs _ hinv.active _ hslot]
    decide
  obtain ⟨s', hs'⟩ := hinv.fault_isSome smallBounds ⟨0b010#64⟩ (by decide) hunused
    (by rw [havail']; decide)
  have hrun : Run (fun s => s.Booted ∧ s.Touched) Spaces.step (fun _ _ _ => True) s' :=
    .next (.next (.start touchedSpaces_booted) hs trivial) hs' trivial
  refine ⟨s', hrun, fun hagrees => ?_⟩
  rcases hinv.knownSlice_of_agrees hs' hagrees with hused | hsingle
  · exact hused hunused
  · have heq := hsingle _ (hspaces ▸ List.mem_cons_self)
    rw [hactive] at heq
    exact absurd heq (by decide)

end KernelR.Interrupts
