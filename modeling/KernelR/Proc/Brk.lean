import KernelR.Mm.SpaceKeeps
import KernelR.Proc.Image

/-!
# `SYS_BRK`

`sys_brk` moves the end of the heap. If it moves up, the new pages are mapped one after
another; where a frame or a table is not to be had, or a page is mapped already, the pages
mapped so far are unmapped again and the call fails. If it moves down, the pages that are no
longer needed are unmapped.

Next to the machine there is a record of the pages that were mapped for the process and not
unmapped since (`PageLog`); the kernel does not keep one.
-/

namespace KernelR.Proc

open List Foundations Mm

/-! ### The model -/

/-- The machine, and the pages that `sys_brk` and the page fault handler have mapped and not
unmapped since, by their addresses. -/
structure PageLog where
  machine : Machine
  mapped : List ℕ

/-- `(start..stop).step_by(4096)` -/
def stepBy (start stop : ℕ) : List ℕ := List.range' start ((stop - start + 4095) / 4096) 4096

/-- `sys_brk`: unmap a page and give its frame back. -/
def releasePage (pml4 : BitVec 64) (s : PageLog) (pageAddr : ℕ) : Option PageLog := do
  let virtAddr ← VirtAddr.new pageAddr
  let page := Page.containingAddress virtAddr
  let mapped := s.mapped.filter (· ≠ page.addr)
  match s.machine.unmap page pml4 with
  | some (freed, m) => some ⟨m.clearFrame (PhysFrame.containingAddress freed).start, mapped⟩
  | none => some ⟨s.machine, mapped⟩

/-- `sys_brk`: the loop that maps the new pages, from some page on; whether it got through. -/
def growHeap (pml4 : BitVec 64) (oldPageEnd : ℕ) : List ℕ → PageLog → Option (Bool × PageLog)
  | [], s => some (true, s)
  | pageAddr :: pageAddrs, s =>
    match s.machine.allocateZeroedFrame with
    | none => do
        let s ← (stepBy oldPageEnd pageAddr).foldlM (releasePage pml4) s
        some (false, s)
    | some (frame, m) => do
        let virtAddr ← VirtAddr.new pageAddr
        let page := Page.containingAddress virtAddr
        match m.mapTo page frame dataFlags pml4 with
        | (.ok (), m) => growHeap pml4 oldPageEnd pageAddrs ⟨m, page.addr :: s.mapped⟩
        | (.error _, m) => do
            let s ← (stepBy oldPageEnd pageAddr).foldlM (releasePage pml4) ⟨m, s.mapped⟩
            some (false, ⟨s.machine.clearFrame frame.start, s.mapped⟩)

/-- What `sys_brk` works on: the record of the process, `CURRENT_BOUNDS` and the pages. -/
structure UserMemory where
  process : Process
  bounds : CurrentBounds
  pages : PageLog

/-- `sys_brk`: the end of a call that succeeds. -/
def UserMemory.moveBreak (u : UserMemory) (requestedBreak : ℕ) (pages : PageLog) : UserMemory where
  process := { u.process with programBreak := requestedBreak }
  bounds := { u.bounds with programBreak := requestedBreak }
  pages := pages

/-- `sys_brk`, with `CR3` pointing to `pml4`: the value returned and the state afterwards. The
flushes of the TLB are left out. -/
def sysBrk (pml4 : BitVec 64) (requestedBreak : ℕ) (u : UserMemory) : Option (ℕ × UserMemory) :=
  let process := u.process
  if requestedBreak = 0 then some (process.programBreak, u)
  else if requestedBreak < process.heapStart then some (process.programBreak, u)
  else if requestedBreak ≥ process.stackStart then some (process.programBreak, u)
  -- the guard page; `saturating_sub`
  else if requestedBreak ≥ process.stackStart - 4096 then some (process.programBreak, u)
  else do
    let oldBreak := process.programBreak
    let _ ← checkedAdd oldBreak 4095
    let oldPageEnd := alignTo oldBreak 4096
    let _ ← checkedAdd requestedBreak 4095
    let newPageEnd := alignTo requestedBreak 4096
    if newPageEnd > oldPageEnd then
      match ← growHeap pml4 oldPageEnd (stepBy oldPageEnd newPageEnd) u.pages with
      | (true, pages) => some (requestedBreak, u.moveBreak requestedBreak pages)
      | (false, pages) => some (oldBreak, { u with pages })
    else if newPageEnd < oldPageEnd then do
      let pages ← (stepBy newPageEnd oldPageEnd).foldlM (releasePage pml4) u.pages
      some (requestedBreak, u.moveBreak requestedBreak pages)
    else some (requestedBreak, u.moveBreak requestedBreak u.pages)

/-- The request is between the start of the heap and the guard page. -/
def Accepted (process : Process) (requestedBreak : ℕ) : Prop :=
  requestedBreak ≠ 0 ∧ process.heapStart ≤ requestedBreak ∧
    requestedBreak < process.stackStart - 4096

instance (process : Process) (requestedBreak : ℕ) : Decidable (Accepted process requestedBreak) :=
  inferInstanceAs (Decidable (_ ∧ _ ∧ _))

/-! ### Pages by their addresses -/

section Addresses

variable {lo n a : ℕ} {page : Page}

theorem stepBy_eq (lo n : ℕ) : stepBy lo (lo + 4096 * n) = List.range' lo n 4096 := by
  rw [stepBy]
  congr 1
  omega

theorem mem_pageRange (hlo : 4096 ∣ lo) :
    a ∈ List.range' lo n 4096 ↔ 4096 ∣ a ∧ lo ≤ a ∧ a < lo + 4096 * n := by
  obtain ⟨l, rfl⟩ := hlo
  rw [mem_range']
  constructor
  · rintro ⟨i, hi, rfl⟩
    exact ⟨⟨l + i, by omega⟩, by omega, by omega⟩
  · rintro ⟨⟨b, rfl⟩, hle, hlt⟩
    exact ⟨b - l, by omega, by omega⟩

theorem exists_pageAt (hdvd : 4096 ∣ a) (hlt : a < 2 ^ 47) :
    ∃ v, VirtAddr.new a = some v ∧ (Page.containingAddress v).addr = a := by
  obtain ⟨v, hnew, -⟩ := VirtAddr.new_of_lt hlt
  exact ⟨v, hnew, Page.addr_of_new hnew (by omega) hdvd⟩

end Addresses

/-! ### Unmapping -/

/-- Some pages are not mapped any more; nothing else has changed. -/
structure Released (pml4 : BitVec 64) (hand : List PhysFrame) (s : PageLog) (addrs : List ℕ)
    (s' : PageLog) : Prop where
  inv : SpaceInv pml4 ⟨s'.machine, hand⟩
  keeps : Keeps pml4 s.machine s'.machine
  inside : ∀ page : Page, page.addr < 2 ^ 47 → page.addr ∈ addrs →
    s'.machine.frameOf pml4 page = none
  outside : ∀ page : Page, page.addr < 2 ^ 47 → page.addr ∉ addrs →
    s'.machine.frameOf pml4 page = s.machine.frameOf pml4 page
  log : ∀ a, a ∈ s'.mapped ↔ a ∈ s.mapped ∧ a ∉ addrs

section Release

variable {pml4 : BitVec 64} {hand : List PhysFrame} {s s₁ s' : PageLog} {lo n : ℕ}
  {addrs addrs' : List ℕ}

theorem Released.trans (h : Released pml4 hand s addrs s₁)
    (h' : Released pml4 hand s₁ addrs' s') : Released pml4 hand s (addrs ++ addrs') s' where
  inv := h'.inv
  keeps := h.keeps.trans h'.keeps
  inside page hlt hmem := by
    by_cases hmem' : page.addr ∈ addrs'
    · exact h'.inside page hlt hmem'
    · rw [h'.outside page hlt hmem']
      exact h.inside page hlt ((mem_append.mp hmem).resolve_right hmem')
  outside page hlt hmem := by
    rw [mem_append, not_or] at hmem
    exact (h'.outside page hlt hmem.2).trans (h.outside page hlt hmem.1)
  log a := by rw [h'.log, h.log, mem_append, not_or, and_assoc]

theorem releasePage_spec (h : SpaceInv pml4 ⟨s.machine, hand⟩) {pageAddr : ℕ}
    (hdvd : 4096 ∣ pageAddr) (hlt : pageAddr < 2 ^ 47) :
    ∃ s', releasePage pml4 s pageAddr = some s' ∧ Released pml4 hand s [pageAddr] s' := by
  obtain ⟨v, hnew, haddr⟩ := exists_pageAt hdvd hlt
  have hpage := Page.mem_userHalf (haddr.trans_lt hlt)
  have hlog : ∀ a, a ∈ s.mapped.filter (· ≠ (Page.containingAddress v).addr) ↔
      a ∈ s.mapped ∧ a ∉ [pageAddr] := by
    intro a
    rw [mem_filter, decide_eq_true_iff, haddr, mem_singleton]
  cases hunmap : s.machine.unmap (.containingAddress v) pml4 with
  | none =>
    have hnone : s.machine.frameOf pml4 (.containingAddress v) = none := by
      cases hframe : s.machine.frameOf pml4 (.containingAddress v) with
      | none => rfl
      | some f =>
        obtain ⟨m', hsome⟩ := h.unmap_of_frameOf hpage hframe
        cases hunmap.symm.trans hsome
    refine ⟨⟨s.machine, s.mapped.filter (· ≠ (Page.containingAddress v).addr)⟩, ?_, h,
      .refl _ _, fun page _ hmem => ?_, fun _ _ _ => rfl, hlog⟩
    · simp only [releasePage, hnew, hunmap, Option.bind_eq_bind, Option.bind_some]
    · have heq : page.addr = (Page.containingAddress v).addr :=
        (mem_singleton.mp hmem).trans haddr.symm
      rw [Machine.frameOf, Page.path_eq_iff.mpr heq]
      exact hnone
  | some r =>
    obtain ⟨f, m'⟩ := r
    obtain ⟨-, hframes⟩ := h.unmap_frames hpage hunmap
    have hinv := h.unmap hpage hunmap
    have hkeeps := (h.keeps_unmap hpage hunmap).trans (hinv.keeps_clear mem_cons_self)
    have hcleared := hinv.clear mem_cons_self
    rw [erase_cons_head] at hcleared
    -- the frame that went back is not a table
    have hpages : ∀ page : Page, page.addr < 2 ^ 47 →
        (m'.clearFrame (PhysFrame.containingAddress f).start).frameOf pml4 page =
          if page.addr = pageAddr then none else s.machine.frameOf pml4 page := by
      intro page hlt'
      have huser := Page.mem_userHalf hlt'
      rw [← haddr, ← hframes page huser]
      exact hinv.frameOf_clearFrame mem_cons_self huser
    refine ⟨⟨m'.clearFrame (PhysFrame.containingAddress f).start,
      s.mapped.filter (· ≠ (Page.containingAddress v).addr)⟩, ?_, hcleared, hkeeps,
      fun page hlt' hmem => ?_, fun page hlt' hmem => ?_, hlog⟩
    · simp only [releasePage, hnew, hunmap, Option.bind_eq_bind, Option.bind_some]
    · rw [hpages page hlt', if_pos (mem_singleton.mp hmem)]
    · rw [hpages page hlt', if_neg (mt mem_singleton.mpr hmem)]

/-- **The loops that unmap pages.** -/
theorem releasePages_spec (h : SpaceInv pml4 ⟨s.machine, hand⟩) (hlo : 4096 ∣ lo)
    (hhi : lo + 4096 * n ≤ 2 ^ 47) :
    ∃ s', (List.range' lo n 4096).foldlM (releasePage pml4) s = some s' ∧
      Released pml4 hand s (List.range' lo n 4096) s' := by
  induction n generalizing lo s with
  | zero =>
    exact ⟨s, rfl, h, .refl _ _, fun _ _ hmem => absurd hmem not_mem_nil,
      fun _ _ _ => rfl, fun _ => (and_iff_left not_mem_nil).symm⟩
  | succ n ih =>
    obtain ⟨s₁, hround, hone⟩ := releasePage_spec h hlo (by omega : lo < 2 ^ 47)
    obtain ⟨s', hrest, hall⟩ := ih hone.inv (hlo.add (dvd_refl 4096)) (by omega)
    rw [List.range'_succ, foldlM_cons, hround]
    exact ⟨s', hrest, hone.trans hall⟩

end Release

/-! ### Mapping -/

/-- Some pages are mapped now and were not before; nothing else has changed. -/
structure Grown (pml4 : BitVec 64) (s : PageLog) (addrs : List ℕ) (s' : PageLog) : Prop where
  inv : SpaceInv pml4 ⟨s'.machine, []⟩
  keeps : Keeps pml4 s.machine s'.machine
  inside : ∀ page : Page, page.addr < 2 ^ 47 → page.addr ∈ addrs →
    s.machine.frameOf pml4 page = none ∧ s'.machine.frameOf pml4 page ≠ none
  outside : ∀ page : Page, page.addr < 2 ^ 47 → page.addr ∉ addrs →
    s'.machine.frameOf pml4 page = s.machine.frameOf pml4 page
  log : ∀ a, a ∈ s'.mapped ↔ a ∈ s.mapped ∨ a ∈ addrs

/-- All pages are as before. -/
structure Restored (pml4 : BitVec 64) (s : PageLog) (addrs : List ℕ) (s' : PageLog) : Prop where
  inv : SpaceInv pml4 ⟨s'.machine, []⟩
  keeps : Keeps pml4 s.machine s'.machine
  pages : ∀ page : Page, page.addr < 2 ^ 47 →
    s'.machine.frameOf pml4 page = s.machine.frameOf pml4 page
  old : ∀ a ∈ s'.mapped, a ∈ s.mapped
  log : ∀ a ∈ s.mapped, a ∉ addrs → a ∈ s'.mapped

section Grow

variable {pml4 : BitVec 64} {s s₀ s₁ s' : PageLog} {lo k n : ℕ} {addrs addrs' : List ℕ}
  {frame : PhysFrame} {rest : List PhysFrame} {page : Page} {m : Machine}

theorem Grown.refl (h : SpaceInv pml4 ⟨s.machine, []⟩) : Grown pml4 s [] s :=
  ⟨h, .refl _ _, fun _ _ hmem => absurd hmem not_mem_nil, fun _ _ _ => rfl,
    fun _ => (or_iff_left not_mem_nil).symm⟩

theorem Grown.trans (h : Grown pml4 s addrs s₁) (h' : Grown pml4 s₁ addrs' s') :
    Grown pml4 s (addrs ++ addrs') s' where
  inv := h'.inv
  keeps := h.keeps.trans h'.keeps
  inside page hlt hmem := by
    by_cases hfirst : page.addr ∈ addrs
    · obtain ⟨hnone, hsome⟩ := h.inside page hlt hfirst
      refine ⟨hnone, ?_⟩
      by_cases hsecond : page.addr ∈ addrs'
      · exact (h'.inside page hlt hsecond).2
      · rwa [h'.outside page hlt hsecond]
    · obtain ⟨hnone, hsome⟩ := h'.inside page hlt ((mem_append.mp hmem).resolve_left hfirst)
      exact ⟨(h.outside page hlt hfirst).symm.trans hnone, hsome⟩
  outside page hlt hmem := by
    rw [mem_append, not_or] at hmem
    exact (h'.outside page hlt hmem.2).trans (h.outside page hlt hmem.1)
  log a := by rw [h'.log, h.log, mem_append, or_assoc]

theorem allocate_inv (h : SpaceInv pml4 ⟨s.machine, []⟩)
    (havail : s.machine.avail = frame :: rest) :
    SpaceInv pml4 ⟨takeZeroed s.machine frame rest, [frame]⟩ :=
  h.allocate havail (by rw [Function.update_self])

/-- **A page is mapped.** -/
theorem Grown.single (h : SpaceInv pml4 ⟨s.machine, []⟩)
    (havail : s.machine.avail = frame :: rest) (hlt : page.addr < 2 ^ 47) {flags : PageTableFlags}
    (hmap : (takeZeroed s.machine frame rest).mapTo page frame flags pml4 = (.ok (), m)) :
    Grown pml4 s [page.addr] ⟨m, page.addr :: s.mapped⟩ := by
  have hmaps := MapsNew.zeroed h havail hlt hmap
  refine ⟨hmaps.inv, ?_, fun page' hlt' hmem => ?_, fun page' hlt' hmem => ?_, fun a => ?_⟩
  · exact (h.keeps_allocate havail).trans
      ((allocate_inv h havail).keeps_mapTo (Page.mem_userHalf hlt) hmap)
  · have heq := mem_singleton.mp hmem
    refine ⟨?_, ?_⟩
    · rw [Machine.frameOf, Page.path_eq_iff.mpr heq]
      exact hmaps.new
    · rw [hmaps.mapped page' hlt', if_pos heq]
      exact Option.some_ne_none _
  · rw [hmaps.mapped page' hlt', if_neg (mt mem_singleton.mpr hmem)]
  · rw [mem_cons, mem_singleton, or_comm]

/-- **The pages mapped so far are unmapped again**: whatever is in the hand by now, and whatever
tables `map_to` has entered, the pages are those of the beginning. -/
theorem Grown.undo (h : Grown pml4 s₀ addrs s) {hand : List PhysFrame} {m : Machine}
    (hkeeps : Keeps pml4 s.machine m)
    (hpages : ∀ page : Page, page.addr < 2 ^ 47 → m.frameOf pml4 page = s.machine.frameOf pml4 page)
    (hreleased : Released pml4 hand ⟨m, s.mapped⟩ addrs s') :
    Keeps pml4 s₀.machine s'.machine ∧
      (∀ page : Page, page.addr < 2 ^ 47 →
        s'.machine.frameOf pml4 page = s₀.machine.frameOf pml4 page) ∧
      ∀ a, a ∈ s'.mapped ↔ a ∈ s₀.mapped ∧ a ∉ addrs := by
  refine ⟨(h.keeps.trans hkeeps).trans hreleased.keeps, fun page hlt => ?_, fun a => ?_⟩
  · by_cases hmem : page.addr ∈ addrs
    · rw [hreleased.inside page hlt hmem, (h.inside page hlt hmem).1]
    · rw [hreleased.outside page hlt hmem, hpages page hlt, h.outside page hlt hmem]
  · rw [hreleased.log, h.log]
    constructor
    · rintro ⟨hmem | hmem, hnot⟩
      · exact ⟨hmem, hnot⟩
      · exact absurd hmem hnot
    · exact fun ⟨hmem, hnot⟩ => ⟨Or.inl hmem, hnot⟩

/-- **The loop that maps pages**: it gets through and has mapped them all, or all pages are as
they were before. -/
theorem growHeap_spec (h : Grown pml4 s₀ (List.range' lo k 4096) s) (hlo : 4096 ∣ lo)
    (hhi : lo + 4096 * (k + n) ≤ 2 ^ 47) :
    ∃ ok s', growHeap pml4 lo (List.range' (lo + 4096 * k) n 4096) s = some (ok, s') ∧
      (ok = true → Grown pml4 s₀ (List.range' lo (k + n) 4096) s') ∧
      (ok = false → Restored pml4 s₀ (List.range' lo (k + n) 4096) s') := by
  induction n generalizing k s with
  | zero => exact ⟨true, s, rfl, fun _ => h, (fun h => by cases h)⟩
  | succ n ih =>
    have hlast : ∀ a ∈ List.range' lo k 4096, a ∈ List.range' lo (k + (n + 1)) 4096 := by
      intro a ha
      rw [mem_pageRange hlo] at ha ⊢
      omega
    have hundone : ∀ {s' : PageLog}, (∀ a, a ∈ s'.mapped ↔
        a ∈ s₀.mapped ∧ a ∉ List.range' lo k 4096) →
        (∀ a ∈ s'.mapped, a ∈ s₀.mapped) ∧
          ∀ a ∈ s₀.mapped, a ∉ List.range' lo (k + (n + 1)) 4096 → a ∈ s'.mapped :=
      fun hlog => ⟨fun a ha => ((hlog a).mp ha).1,
        fun a ha hnot => (hlog a).mpr ⟨ha, fun hmem => hnot (hlast a hmem)⟩⟩
    rw [List.range'_succ, growHeap]
    cases havail : s.machine.avail with
    | nil =>
      have hnone : s.machine.allocateZeroedFrame = none := by
        simp [Machine.allocateZeroedFrame, Machine.allocateFrame, havail]
      obtain ⟨s', hrun, hreleased⟩ := releasePages_spec h.inv hlo (n := k) (by omega)
      obtain ⟨hkeeps, hpages, hlog⟩ := h.undo (.refl _ _) (fun _ _ => rfl) hreleased
      refine ⟨false, s', ?_, (fun h => by cases h), fun _ =>
        ⟨hreleased.inv, hkeeps, hpages, (hundone hlog).1, (hundone hlog).2⟩⟩
      simp only [hnone, stepBy_eq, hrun, Option.bind_eq_bind, Option.bind_some]
    | cons frame rest =>
      have halloc : s.machine.allocateZeroedFrame = some (frame, takeZeroed s.machine frame rest) :=
        Machine.allocateZeroedFrame_eq_some.mpr ⟨rest, havail, rfl⟩
      have hdvd : 4096 ∣ lo + 4096 * k := hlo.add (Nat.dvd_mul_right _ _)
      have hlt : lo + 4096 * k < 2 ^ 47 := by omega
      obtain ⟨v, hnew, haddr⟩ := exists_pageAt hdvd hlt
      have hinv := allocate_inv h.inv havail
      have hpage := Page.mem_userHalf (haddr.trans_lt hlt)
      rcases hmap : (takeZeroed s.machine frame rest).mapTo (.containingAddress v) frame
        dataFlags pml4 with ⟨err | _, m⟩
      · have hinv' := (hinv.mapTo hpage mem_cons_self).2 err hmap
        have hframes := (hinv.mapTo_frames hpage).2 err hmap
        have hkept : ∀ page : Page, page.addr < 2 ^ 47 →
            m.frameOf pml4 page = s.machine.frameOf pml4 page := by
          intro page hlt'
          rw [hframes page (Page.mem_userHalf hlt')]
          exact h.inv.frameOf_overwrite
            (mem_append_left _ (havail ▸ mem_cons_self)) rfl (Page.mem_userHalf hlt')
        obtain ⟨s', hrun, hreleased⟩ := releasePages_spec (s := ⟨m, s.mapped⟩) hinv' hlo
          (n := k) (by omega)
        obtain ⟨hkeeps, hpages, hlog⟩ := h.undo
          ((h.inv.keeps_allocate havail).trans (hinv.keeps_mapTo hpage hmap)) hkept hreleased
        have hback := hreleased.inv.clear mem_cons_self
        rw [erase_cons_head] at hback
        refine ⟨false, ⟨s'.machine.clearFrame frame.start, s'.mapped⟩, ?_, (fun h => by cases h),
          fun _ => ⟨hback, hkeeps.trans (hreleased.inv.keeps_clear mem_cons_self),
            fun page hlt' => ?_, (hundone hlog).1, (hundone hlog).2⟩⟩
        · simp only [halloc, hnew, hmap, stepBy_eq, hrun, Option.bind_eq_bind, Option.bind_some]
        · rw [← hpages page hlt']
          exact hreleased.inv.frameOf_clearFrame mem_cons_self (Page.mem_userHalf hlt')
      · have hsingle := Grown.single h.inv havail (haddr.trans_lt hlt) hmap
        have hnext := h.trans hsingle
        rw [haddr, ← List.range'_concat] at hnext
        obtain ⟨ok, s', hrun, hok, hfail⟩ := ih hnext (by omega)
        rw [show k + 1 + n = k + (n + 1) by omega] at hok hfail
        rw [Nat.mul_succ, ← Nat.add_assoc] at hrun
        refine ⟨ok, s', ?_, hok, hfail⟩
        simp only [halloc, hnew, hmap, Option.bind_eq_bind, Option.bind_some, haddr, hrun]

end Grow

/-! ### The call -/

/-- What a call that succeeds does to the pages. -/
inductive HeapMoved (pml4 : BitVec 64) (s : PageLog) (oldPageEnd newPageEnd : ℕ) : PageLog → Prop
  | grown {s' : PageLog} : oldPageEnd < newPageEnd →
      Grown pml4 s (stepBy oldPageEnd newPageEnd) s' → HeapMoved pml4 s oldPageEnd newPageEnd s'
  | shrunk {s' : PageLog} : newPageEnd < oldPageEnd →
      Released pml4 [] s (stepBy newPageEnd oldPageEnd) s' →
      HeapMoved pml4 s oldPageEnd newPageEnd s'
  | same : oldPageEnd = newPageEnd → HeapMoved pml4 s oldPageEnd newPageEnd s

section Call

variable {pml4 : BitVec 64} {requestedBreak rax lo hi : ℕ} {u u' : UserMemory}

theorem sysBrk_of_not_accepted (h : ¬ Accepted u.process requestedBreak) :
    sysBrk pml4 requestedBreak u = some (u.process.programBreak, u) := by
  simp only [sysBrk]
  by_cases hzero : requestedBreak = 0
  · rw [if_pos hzero]
  by_cases hheap : requestedBreak < u.process.heapStart
  · rw [if_neg hzero, if_pos hheap]
  by_cases hstack : requestedBreak ≥ u.process.stackStart
  · rw [if_neg hzero, if_neg hheap, if_pos hstack]
  have hguard : requestedBreak ≥ u.process.stackStart - 4096 := by
    by_contra hlt
    exact h ⟨hzero, Nat.not_lt.mp hheap, Nat.not_le.mp hlt⟩
  rw [if_neg hzero, if_neg hheap, if_neg hstack, if_pos hguard]

theorem sysBrk_of_accepted (h : Accepted u.process requestedBreak)
    (hold : u.process.programBreak + 4095 < 2 ^ 64) (hnew : requestedBreak + 4095 < 2 ^ 64) :
    sysBrk pml4 requestedBreak u =
      if alignTo requestedBreak 4096 > alignTo u.process.programBreak 4096 then
        (growHeap pml4 (alignTo u.process.programBreak 4096)
          (stepBy (alignTo u.process.programBreak 4096) (alignTo requestedBreak 4096))
          u.pages).bind fun
        | (true, pages) => some (requestedBreak, u.moveBreak requestedBreak pages)
        | (false, pages) => some (u.process.programBreak, { u with pages })
      else if alignTo requestedBreak 4096 < alignTo u.process.programBreak 4096 then
        ((stepBy (alignTo requestedBreak 4096) (alignTo u.process.programBreak 4096)).foldlM
          (releasePage pml4) u.pages).bind fun pages =>
            some (requestedBreak, u.moveBreak requestedBreak pages)
      else some (requestedBreak, u.moveBreak requestedBreak u.pages) := by
  obtain ⟨hzero, hheap, hguard⟩ := h
  have hsum : checkedAdd u.process.programBreak 4095 = some (u.process.programBreak + 4095) :=
    checkedAdd_eq_some.mpr ⟨rfl, hold⟩
  have hsum' : checkedAdd requestedBreak 4095 = some (requestedBreak + 4095) :=
    checkedAdd_eq_some.mpr ⟨rfl, hnew⟩
  have hstack : ¬ requestedBreak ≥ u.process.stackStart := by omega
  simp only [sysBrk, if_neg hzero, if_neg (Nat.not_lt.mpr hheap), if_neg hstack,
    if_neg (Nat.not_le.mpr hguard), hsum, hsum', Option.bind_eq_bind, Option.bind_some]

theorem dvd_alignTo {a : ℕ} (h : a + 4095 < 2 ^ 64) : 4096 ∣ alignTo a 4096 :=
  alignTo_page h ▸ Nat.dvd_mul_left _ _

theorem exists_stepBy (hlo : 4096 ∣ lo) (hhi : 4096 ∣ hi) (hle : lo ≤ hi) :
    ∃ n, hi = lo + 4096 * n ∧ stepBy lo hi = List.range' lo n 4096 := by
  obtain ⟨n, hn⟩ := (Nat.dvd_sub hhi hlo)
  have heq : hi = lo + 4096 * n := by omega
  exact ⟨n, heq, heq ▸ stepBy_eq lo n⟩

theorem mem_stepBy (hlo : 4096 ∣ lo) (hhi : 4096 ∣ hi) (hle : lo ≤ hi) {a : ℕ} :
    a ∈ stepBy lo hi ↔ 4096 ∣ a ∧ lo ≤ a ∧ a < hi := by
  obtain ⟨n, rfl, hstep⟩ := exists_stepBy hlo hhi hle
  rw [hstep, mem_pageRange hlo]

theorem growHeap_stepBy (h : SpaceInv pml4 ⟨u.pages.machine, []⟩) (hlo : 4096 ∣ lo)
    (hhi : 4096 ∣ hi) (hle : lo ≤ hi) (hlt : hi ≤ 2 ^ 47) :
    ∃ ok s', growHeap pml4 lo (stepBy lo hi) u.pages = some (ok, s') ∧
      (ok = true → Grown pml4 u.pages (stepBy lo hi) s') ∧
      (ok = false → Restored pml4 u.pages (stepBy lo hi) s') := by
  obtain ⟨n, rfl, hstep⟩ := exists_stepBy hlo hhi hle
  have hspec := growHeap_spec (k := 0) (n := n) (Grown.refl h) hlo (by rwa [Nat.zero_add])
  rw [Nat.mul_zero, Nat.add_zero, Nat.zero_add] at hspec
  rwa [hstep]

/-- **A call that fails**: the request was accepted, and another value is returned. -/
theorem sysBrk_failed (h : SpaceInv pml4 ⟨u.pages.machine, []⟩)
    (hstack : u.process.stackStart ≤ 2 ^ 47) (haccepted : Accepted u.process requestedBreak)
    (hcall : sysBrk pml4 requestedBreak u = some (rax, u')) (hfail : rax ≠ requestedBreak) :
    rax = u.process.programBreak ∧ u.process.programBreak < requestedBreak ∧
      ∃ addrs s', u' = { u with pages := s' } ∧ Restored pml4 u.pages addrs s' := by
  have hguard := haccepted.2.2
  have hnew : requestedBreak + 4095 < 2 ^ 64 := by omega
  by_cases hold : u.process.programBreak + 4095 < 2 ^ 64
  · rw [sysBrk_of_accepted haccepted hold hnew] at hcall
    split_ifs at hcall with hgrow hshrink
    · have hbound : alignTo requestedBreak 4096 ≤ 2 ^ 47 := by
        rw [alignTo_page hnew]
        omega
      obtain ⟨ok, s', hrun, hok, hundone⟩ := growHeap_stepBy h (dvd_alignTo hold)
        (dvd_alignTo hnew) hgrow.le hbound
      rw [hrun, Option.bind_some] at hcall
      cases ok with
      | true => exact absurd (Prod.mk.inj (Option.some.inj hcall)).1.symm hfail
      | false =>
        cases hcall
        refine ⟨rfl, ?_, _, s', rfl, hundone rfl⟩
        rw [alignTo_page hold, alignTo_page hnew] at hgrow
        omega
    · obtain ⟨pages, -, hcall⟩ := Option.bind_eq_some_iff.mp hcall
      exact absurd (Prod.mk.inj (Option.some.inj hcall)).1.symm hfail
    · exact absurd (Prod.mk.inj (Option.some.inj hcall)).1.symm hfail
  · -- the sum overflows
    have hnone : checkedAdd u.process.programBreak 4095 = none := by
      cases hsum : checkedAdd u.process.programBreak 4095 with
      | none => rfl
      | some c => exact absurd (checkedAdd_eq_some.mp hsum) (by omega)
    obtain ⟨hzero, hheap, -⟩ := haccepted
    have hbelow : ¬ requestedBreak ≥ u.process.stackStart := by omega
    simp only [sysBrk, if_neg hzero, if_neg (Nat.not_lt.mpr hheap), if_neg hbelow,
      if_neg (Nat.not_le.mpr hguard), hnone, Option.bind_eq_bind, Option.bind_none] at hcall
    cases hcall

/-- **A call returns**: it moves the break and the pages of the heap follow, or it fails. -/
theorem sysBrk_spec (h : SpaceInv pml4 ⟨u.pages.machine, []⟩)
    (hstack : u.process.stackStart ≤ 2 ^ 47) (haccepted : Accepted u.process requestedBreak)
    (hbreak : u.process.programBreak + 4096 ≤ 2 ^ 47) :
    (∃ s', sysBrk pml4 requestedBreak u = some (requestedBreak, u.moveBreak requestedBreak s') ∧
      HeapMoved pml4 u.pages (alignTo u.process.programBreak 4096) (alignTo requestedBreak 4096)
        s') ∨
    ∃ s', sysBrk pml4 requestedBreak u = some (u.process.programBreak, { u with pages := s' }) ∧
      alignTo u.process.programBreak 4096 < alignTo requestedBreak 4096 ∧
      Restored pml4 u.pages
        (stepBy (alignTo u.process.programBreak 4096) (alignTo requestedBreak 4096)) s' := by
  have hguard := haccepted.2.2
  have hnew : requestedBreak + 4095 < 2 ^ 64 := by omega
  have hold : u.process.programBreak + 4095 < 2 ^ 64 := by omega
  rw [sysBrk_of_accepted haccepted hold hnew]
  have hboundNew : alignTo requestedBreak 4096 ≤ 2 ^ 47 := by
    rw [alignTo_page hnew]
    omega
  have hboundOld : alignTo u.process.programBreak 4096 ≤ 2 ^ 47 := by
    rw [alignTo_page hold]
    omega
  split_ifs with hgrow hshrink
  · obtain ⟨ok, s', hrun, hok, hundone⟩ := growHeap_stepBy h (dvd_alignTo hold)
      (dvd_alignTo hnew) hgrow.le hboundNew
    rw [hrun, Option.bind_some]
    cases ok with
    | true => exact Or.inl ⟨s', rfl, .grown hgrow (hok rfl)⟩
    | false => exact Or.inr ⟨s', rfl, hgrow, hundone rfl⟩
  · obtain ⟨n, hn, hstep⟩ := exists_stepBy (dvd_alignTo hnew) (dvd_alignTo hold) hshrink.le
    obtain ⟨s', hrun, hreleased⟩ := releasePages_spec h (dvd_alignTo hnew) (hn ▸ hboundOld)
    rw [← hstep] at hrun hreleased
    rw [hrun, Option.bind_some]
    exact Or.inl ⟨s', rfl, .shrunk hshrink hreleased⟩
  · exact Or.inl ⟨u.pages, rfl, .same (by omega)⟩

end Call

/-- **A call that fails has no effect** but for tables: the break and the bounds are as before,
every address translates as before, and the frames that were handed out are back, but for new
tables that map nothing. -/
theorem sysBrk_failure_atomic {pml4 : BitVec 64} {requestedBreak rax : ℕ} {u u' : UserMemory}
    (h : SpaceInv pml4 ⟨u.pages.machine, []⟩) (hstack : u.process.stackStart ≤ 2 ^ 47)
    (haccepted : Accepted u.process requestedBreak)
    (hcall : sysBrk pml4 requestedBreak u = some (rax, u')) (hfail : rax ≠ requestedBreak) :
    rax = u.process.programBreak ∧ u'.process = u.process ∧ u'.bounds = u.bounds ∧
      (∀ v, u'.pages.machine.translateAddr pml4 v = u.pages.machine.translateAddr pml4 v) ∧
      ∃ back held, u'.pages.machine.cleared = back ++ u.pages.machine.cleared ∧
        u'.pages.machine.handed.Perm (back ++ held ++ u.pages.machine.handed) ∧
        ∀ t ∈ held, NewEmptyTable pml4 u.pages.machine u'.pages.machine t := by
  obtain ⟨hrax, -, addrs, s', rfl, hrestored⟩ := sysBrk_failed h hstack haccepted hcall hfail
  have hpages : ∀ page : Page, page.start.p4Index ∈ userHalf →
      s'.machine.frameOf pml4 page = u.pages.machine.frameOf pml4 page := fun page hpage =>
    hrestored.pages page (VirtAddr.lt_of_userHalf hpage)
  refine ⟨hrax, rfl, rfl, fun v => ?_, h.account hrestored.inv hrestored.keeps hpages⟩
  by_cases hv : v.p4Index ∈ userHalf
  · have hpage : (Page.containingAddress v).start.p4Index ∈ userHalf := by
      rwa [(Page.indices_containingAddress v).1]
    rw [hrestored.inv.translateAddr_eq hv, h.translateAddr_eq hv, hpages _ hpage]
  · exact hrestored.keeps.translateAddr_kernel (Nat.not_lt.mp hv)

/-- A process whose heap begins at `0x402000`. -/
def smallProcess : Process :=
  ⟨1, 0, none, false, [], 0x100000, 0x402000, 0x402000, 0x7FC00000, 0x80000000, 1, 0⟩

/-- The program leaves one frame. The first page gets it, the second one gets none. -/
theorem sysBrk_failure_atomic_exhausted :
    ∃ pml4 m u', SpaceInv pml4 ⟨m, []⟩ ∧
      sysBrk pml4 0x404000 ⟨smallProcess, ⟨0x402000, 0x402000, 0x7FC00000, 0x80000000⟩, ⟨m, []⟩⟩ =
        some (0x402000, u') ∧
      u'.process = smallProcess ∧ ∀ v, u'.pages.machine.translateAddr pml4 v =
        m.translateAddr pml4 v := by
  have hrun : (loadUserProcess directMapMachine 0x1000#64 (some ∘ UInt8.ofNat)
      [⟨true, 0x400FFE, 6, 3, 64⟩]).any (fun r => (sysBrk r.1 0x404000
        ⟨smallProcess, ⟨0x402000, 0x402000, 0x7FC00000, 0x80000000⟩, ⟨r.2.2, []⟩⟩).any
          fun q => decide (q.1 ≠ 0x404000)) = true := by
    decide +kernel
  obtain ⟨⟨pml4, highestVaddr, m⟩, hload, hrun⟩ := (Option.any_eq_true _ _).mp hrun
  obtain ⟨⟨rax, u'⟩, hcall, hfail⟩ := (Option.any_eq_true _ _).mp hrun
  have hinv := (loadUserProcess_user directMapMachine_stocked (by decide) hload).inv
  have hstack : smallProcess.stackStart ≤ 2 ^ 47 := by decide
  have haccepted : Accepted smallProcess 0x404000 := by decide
  obtain ⟨hrax, hprocess, -, htranslate, -⟩ := sysBrk_failure_atomic hinv hstack haccepted hcall
    (of_decide_eq_true hfail)
  exact ⟨pml4, m, u', hinv, hcall.trans (by rw [hrax]; rfl), hprocess, htranslate⟩

end KernelR.Proc
