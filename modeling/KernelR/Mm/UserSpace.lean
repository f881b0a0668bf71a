import KernelR.Foundations.Run
import KernelR.Foundations.Teardown
import KernelR.Mm.PagingLaws

/-!
# The frames of a user address space

An address space is made by `create_user_address_space` and changed by `map_to` and `unmap`.
The kernel uses it as `sys_brk`, the page fault handler and `spawn_user_process` do: a frame
is allocated and then mapped; one that could not be mapped, or that `unmap` has returned, goes
back to the allocator. Frames that are allocated and not mapped are in the `hand` of the
caller. In between, the rest of the kernel may do anything to the memory, as long as it
leaves the user half of the tables alone.

`SpaceInv` is what all of this keeps: the tables and frames of the user half form a tree, all
used entries are present, and the frames handed out are those of the tree, those in the hand
and those that went back.
-/

namespace KernelR.Mm

open List Function Option Foundations

/-! ### The life of an address space -/

/-- The user half of a PML4. -/
def userHalf : Set (BitVec 9) := {i | i.toNat < 256}

/-- The kernel half of a PML4. -/
def kernelHalf : Set (BitVec 9) := {i | 256 ≤ i.toNat}

/-- Paths to the tables and frames of the user half. -/
def IsUser : List (BitVec 9) → Prop := Within 4 userHalf

namespace Machine

/-- The PML4, the tables reachable from its entries 0 to 255, and the frames mapped there. -/
def spaceFrames (m : Machine) (pml4 : BitVec 64) : Set (BitVec 64) :=
  {f | ∃ p, IsUser p ∧ m.tableAt pml4 p = some f}

/-- The tables reachable from the entries 256 to 511. -/
def kernelTables (m : Machine) (pml4 : BitVec 64) : Set (BitVec 64) :=
  {f | ∃ p, p ≠ [] ∧ Within 3 kernelHalf p ∧ m.tableAt pml4 p = some f}

end Machine

/-- The memory, and the frames that the users of an address space have allocated for it and
not mapped yet, or unmapped and not given back yet. -/
structure Space where
  machine : Machine
  hand : List PhysFrame

/-- What happens to an address space. -/
inductive SpaceAction where
  | allocate (zeroed : Bool)
  | mapTo (page : Page) (frame : PhysFrame) (flags : PageTableFlags)
  | unmap (page : Page)
  | clear (frame : PhysFrame)
  | other (machine : Machine)

/-- One step of the users of the address space at `pml4`, or of the rest of the kernel. -/
def Space.step (pml4 : BitVec 64) (s : Space) : SpaceAction → Option Space
  | .allocate zeroed =>
    (if zeroed then s.machine.allocateZeroedFrame else s.machine.allocateFrame).map
      fun (frame, m) => ⟨m, frame :: s.hand⟩
  | .mapTo page frame flags =>
    match s.machine.mapTo page frame flags pml4 with
    | (.ok _, m) => some ⟨m, s.hand.erase frame⟩
    | (.error _, m) => some ⟨m, s.hand⟩
  | .unmap page =>
    match s.machine.unmap page pml4 with
    | some (physAddr, m) => some ⟨m, .containingAddress physAddr :: s.hand⟩
    | none => some s
  | .clear frame => some ⟨s.machine.clearFrame frame.start, s.hand.erase frame⟩
  | .other m => some ⟨m, s.hand⟩

/-- The frames that the allocator hands out next, and those in the hand, are in no use: none of
them is there twice, or is a table or frame of the space or a table of the kernel. Neither are
the frames of its books. -/
structure Space.Apart (pml4 : BitVec 64) (s : Space) : Prop where
  distinct : ((s.machine.avail ++ s.hand).map PhysFrame.start).Nodup
  space : ∀ frame ∈ s.machine.avail ++ s.hand, frame.start ∉ s.machine.spaceFrames pml4
  kernel : ∀ frame ∈ s.machine.avail ++ s.hand, frame.start ∉ s.machine.kernelTables pml4
  disjoint : Disjoint (s.machine.kernelTables pml4) (s.machine.spaceFrames pml4)
  book : ∀ u ∈ s.machine.book, u ∉ (s.machine.avail ++ s.hand).map PhysFrame.start ∧
    u ∉ s.machine.spaceFrames pml4 ∧ u ∉ s.machine.kernelTables pml4

/-- What the steps must keep to: pages of the user half, frames of one's own; and whatever the
rest of the kernel does, it leaves the entries of the user half and the frames of the space
alone. -/
def Space.Allowed (pml4 : BitVec 64) (s : Space) : SpaceAction → Space → Prop
  | .allocate _, _ => True
  | .mapTo page frame _, _ => page.start.p4Index ∈ userHalf ∧ frame ∈ s.hand
  | .unmap page, _ => page.start.p4Index ∈ userHalf
  | .clear frame, _ => frame ∈ s.hand
  | .other m, s' => (∀ p, IsUser p → m.entryAt pml4 p = s.machine.entryAt pml4 p) ∧
      m.handed = s.machine.handed ∧ m.cleared = s.machine.cleared ∧ s'.Apart pml4

/-- The log of what is handed out starts here, and the frames that can be allocated and those
of the allocator's books are in no use. -/
structure Stocked (m : Machine) (activePml4 : BitVec 64) : Prop where
  handed : m.handed = []
  cleared : m.cleared = []
  distinct : (m.avail.map PhysFrame.start).Nodup
  fresh : ∀ frame ∈ m.avail, frame.start ≠ activePml4 ∧ frame.start ∉ m.kernelTables activePml4
  book : ∀ u ∈ m.book, u ∉ m.avail.map PhysFrame.start ∧ u ∉ m.kernelTables activePml4

/-- The space after `create_user_address_space`. -/
def Space.Created (pml4 : BitVec 64) (s : Space) : Prop :=
  s.hand = [] ∧ ∃ (m : Machine) (activePml4 : BitVec 64), Stocked m activePml4 ∧
    m.createUserAddressSpace activePml4 = some (pml4, s.machine)

/-- **What an address space keeps.** -/
structure SpaceInv (pml4 : BitVec 64) (s : Space) : Prop where
  unshared : Unshared follow s.machine.mem pml4 IsUser
  entries : ∀ i p, IsUser (i :: p) → ∀ entry ∈ s.machine.entryAt pml4 (i :: p),
    (entryFlags entry).contains .present = true ∧ (p.length = 2 → hugeFrame entry = none)
  apart : s.Apart pml4
  ledger : ∃ own : List (BitVec 64), own.Nodup ∧
    (∀ f, f ∈ own ↔ f ∈ s.machine.spaceFrames pml4) ∧
    s.machine.handed.Perm (own ++ s.hand.map PhysFrame.start ++ s.machine.cleared)

section Paths

variable {i : BitVec 9} {p : List (BitVec 9)} {page : Page}

theorem isUser_tailClosed : TailClosed IsUser := within_tailClosed _ _

theorem isUser_path (h : page.start.p4Index ∈ userHalf) : IsUser page.start.path := by
  refine ⟨le_rfl, ?_⟩
  intro i hi
  obtain rfl : page.start.p4Index = i := some.inj hi
  exact h

theorem isUser_nil : IsUser [] := within_nil

end Paths

namespace Machine

variable {m m' : Machine} {pml4 t f : BitVec 64} {i : BitVec 9} {p : List (BitVec 9)}

theorem pml4_mem_spaceFrames : pml4 ∈ m.spaceFrames pml4 := ⟨[], isUser_nil, rfl⟩

theorem spaceFrames_congr (h : ∀ q, IsUser q → m'.tableAt pml4 q = m.tableAt pml4 q) :
    m'.spaceFrames pml4 = m.spaceFrames pml4 := by
  ext f
  refine exists_congr fun q => and_congr_right fun hq => ?_
  rw [h q hq]

theorem tableAt_of_entryAt (h : ∀ q, IsUser q → m'.entryAt pml4 q = m.entryAt pml4 q)
    {q : List (BitVec 9)} (hq : IsUser q) : m'.tableAt pml4 q = m.tableAt pml4 q := by
  cases q with
  | nil => rfl
  | cons i p => rw [tableAt_cons, tableAt_cons, h _ hq]

/-- **The kernel half stays**, if only other tables and the user half of the PML4 are written. -/
theorem kernelTables_congr (h : ∀ u j, m'.mem u j ≠ m.mem u j →
    u ∉ m.kernelTables pml4 ∧ (u = pml4 → j ∈ userHalf)) :
    m'.kernelTables pml4 = m.kernelTables pml4 := by
  have hsame : ∀ {q}, Within 3 kernelHalf q → m'.tableAt pml4 q = m.tableAt pml4 q := by
    intro q hq
    refine reach_congr (within_tailClosed 3 kernelHalf) ?_ hq
    intro j r u hjr hu
    by_contra hne
    obtain ⟨hu', hj⟩ := h u j hne
    cases r with
    | nil =>
      have huser : j.toNat < 256 := hj (some.inj hu).symm
      have hkernel : 256 ≤ j.toNat := hjr.2 j rfl
      omega
    | cons k r => exact hu' ⟨k :: r, cons_ne_nil k r, within_tailClosed _ _ hjr, hu⟩
  ext f
  refine exists_congr fun q => and_congr_right fun _ => and_congr_right fun hq => ?_
  rw [hsame hq]

section Overwrite

variable (hmem : ∀ u ∈ m.spaceFrames pml4, m'.mem u = m.mem u)

include hmem in
theorem entryAt_overwrite {q : List (BitVec 9)} (hq : IsUser q) :
    m'.entryAt pml4 q = m.entryAt pml4 q := by
  cases q with
  | nil => rfl
  | cons i p =>
    have hp : IsUser p := isUser_tailClosed hq
    exact entryAt_congr isUser_tailClosed (fun hr hu => hmem _ ⟨_, hr, hu⟩) hp

include hmem in
theorem kernelTables_overwrite (hkernel : ∀ u ∈ m.kernelTables pml4, m'.mem u = m.mem u) :
    m'.kernelTables pml4 = m.kernelTables pml4 := by
  refine kernelTables_congr fun u j hne => ⟨fun hu => hne (congrFun (hkernel u hu) j), ?_⟩
  rintro rfl
  exact absurd (congrFun (hmem u pml4_mem_spaceFrames) j) hne

end Overwrite

theorem mem_update {S : Set (BitVec 64)} {mem mem' : BitVec 64 → BitVec 9 → BitVec 64}
    {c : BitVec 9 → BitVec 64} (hmem : mem' = Function.update mem f c) (hf : f ∉ S) :
    ∀ u ∈ S, mem' u = mem u := by
  intro u hu
  have hne : u ≠ f := fun heq => hf (heq ▸ hu)
  rw [hmem, update_of_ne hne]

end Machine

/-! ### Frames in no use -/

namespace Space.Apart

variable {pml4 : BitVec 64} {s s' : Space} {frame : PhysFrame}

theorem perm (h : s.Apart pml4)
    (hperm : (s'.machine.avail ++ s'.hand).Perm (s.machine.avail ++ s.hand))
    (hspace : s'.machine.spaceFrames pml4 = s.machine.spaceFrames pml4)
    (hkernel : s'.machine.kernelTables pml4 = s.machine.kernelTables pml4)
    (hbook : s'.machine.book = s.machine.book) : s'.Apart pml4 where
  distinct := (hperm.map PhysFrame.start).nodup_iff.mpr h.distinct
  space := fun frame hframe => hspace ▸ h.space frame (hperm.mem_iff.mp hframe)
  kernel := fun frame hframe => hkernel ▸ h.kernel frame (hperm.mem_iff.mp hframe)
  disjoint := by
    rw [hspace, hkernel]
    exact h.disjoint
  book := by
    intro u hu
    rw [hspace, hkernel, (hperm.map PhysFrame.start).mem_iff]
    exact h.book u (hbook ▸ hu)

theorem drop (h : s.Apart pml4)
    (hperm : (s.machine.avail ++ s.hand).Perm (frame :: (s'.machine.avail ++ s'.hand)))
    (hspace : s'.machine.spaceFrames pml4 = s.machine.spaceFrames pml4)
    (hkernel : s'.machine.kernelTables pml4 = s.machine.kernelTables pml4)
    (hbook : s'.machine.book = frame.start :: s.machine.book) : s'.Apart pml4 := by
  have hmap := hperm.map PhysFrame.start
  have hnodup := nodup_cons.mp (hmap.nodup_iff.mp h.distinct)
  have hin : ∀ {frame'}, frame' ∈ s'.machine.avail ++ s'.hand →
      frame' ∈ s.machine.avail ++ s.hand :=
    fun hframe => hperm.mem_iff.mpr (.tail _ hframe)
  refine ⟨hnodup.2, fun frame' hframe => ?_, fun frame' hframe => ?_, ?_, fun u hu => ?_⟩
  · exact hspace ▸ h.space frame' (hin hframe)
  · exact hkernel ▸ h.kernel frame' (hin hframe)
  · rw [hspace, hkernel]
    exact h.disjoint
  · rw [hspace, hkernel]
    rw [hbook] at hu
    rcases mem_cons.mp hu with rfl | hu
    · have hframe := hperm.mem_iff.mpr mem_cons_self
      exact ⟨hnodup.1, h.space frame hframe, h.kernel frame hframe⟩
    · obtain ⟨hfree, hrest⟩ := h.book u hu
      exact ⟨fun hmem => hfree (hmap.mem_iff.mpr (.tail _ hmem)), hrest⟩

theorem take (h : s.Apart pml4)
    (hperm : (s.machine.avail ++ s.hand).Perm (frame :: (s'.machine.avail ++ s'.hand)))
    (hspace : s'.machine.spaceFrames pml4 = insert frame.start (s.machine.spaceFrames pml4))
    (hkernel : s'.machine.kernelTables pml4 = s.machine.kernelTables pml4)
    (hbook : s'.machine.book = s.machine.book) : s'.Apart pml4 := by
  have hmap := hperm.map PhysFrame.start
  have hnodup := nodup_cons.mp (hmap.nodup_iff.mp h.distinct)
  have hframe := h.kernel frame (hperm.mem_iff.mpr (.head _))
  refine ⟨hnodup.2, ?_, ?_, ?_, ?_⟩
  · intro frame' hframe' hmem
    rw [hspace] at hmem
    rcases hmem with heq | hmem
    · exact hnodup.1 (mem_map.mpr ⟨frame', hframe', heq⟩)
    · exact h.space frame' (hperm.mem_iff.mpr (.tail _ hframe')) hmem
  · exact fun frame' hframe' => hkernel ▸ h.kernel frame' (hperm.mem_iff.mpr (.tail _ hframe'))
  · rw [hspace, hkernel, Set.disjoint_insert_right]
    exact ⟨hframe, h.disjoint⟩
  · intro u hu
    obtain ⟨hfree, hout, hkernel'⟩ := h.book u (hbook ▸ hu)
    rw [hspace, hkernel, Set.mem_insert_iff, not_or]
    exact ⟨fun hmem => hfree (hmap.mem_iff.mpr (.tail _ hmem)),
      ⟨fun heq => hfree (hmap.mem_iff.mpr (heq ▸ .head _)), hout⟩, hkernel'⟩

theorem give (h : s.Apart pml4)
    (hperm : (s'.machine.avail ++ s'.hand).Perm (frame :: (s.machine.avail ++ s.hand)))
    (hframe : frame.start ∈ s.machine.spaceFrames pml4)
    (hspace : s'.machine.spaceFrames pml4 = s.machine.spaceFrames pml4 \ {frame.start})
    (hkernel : s'.machine.kernelTables pml4 = s.machine.kernelTables pml4)
    (hbook : s'.machine.book = s.machine.book) : s'.Apart pml4 := by
  refine ⟨?_, ?_, ?_, ?_, ?_⟩
  · refine (hperm.map PhysFrame.start).nodup_iff.mpr (nodup_cons.mpr ⟨?_, h.distinct⟩)
    intro hmem
    obtain ⟨frame', hframe', heq⟩ := mem_map.mp hmem
    exact h.space frame' hframe' (heq ▸ hframe)
  · intro frame' hframe' hmem
    rw [hspace] at hmem
    rcases mem_cons.mp (hperm.mem_iff.mp hframe') with rfl | hold
    · exact hmem.2 rfl
    · exact h.space frame' hold hmem.1
  · intro frame' hframe' hmem
    rw [hkernel] at hmem
    rcases mem_cons.mp (hperm.mem_iff.mp hframe') with rfl | hold
    · exact Set.disjoint_left.mp h.disjoint hmem hframe
    · exact h.kernel frame' hold hmem
  · rw [hspace, hkernel]
    exact h.disjoint.mono_right Set.sdiff_subset
  · intro u hu
    obtain ⟨hfree, hout, hkernel'⟩ := h.book u (hbook ▸ hu)
    rw [hspace, hkernel, (hperm.map PhysFrame.start).mem_iff, map_cons, mem_cons, not_or]
    exact ⟨⟨fun heq => hout (heq ▸ hframe), hfree⟩, fun hmem => hout hmem.1, hkernel'⟩

/-- The frames in use are none that the allocator writes to. -/
theorem notMem_books (h : s.Apart pml4) {u : BitVec 64}
    (hu : u ∈ s.machine.spaceFrames pml4 ∨ u ∈ s.machine.kernelTables pml4) :
    u ∉ s.machine.book ∧ u ∉ (s.machine.avail ++ s.hand).map PhysFrame.start := by
  constructor
  · exact fun hbook => hu.elim (h.book u hbook).2.1 (h.book u hbook).2.2
  · intro hmem
    obtain ⟨frame, hframe, rfl⟩ := mem_map.mp hmem
    exact hu.elim (h.space frame hframe) (h.kernel frame hframe)

/-- **A frame goes back**: the frames in use are as they were. -/
theorem clearFrame_mem (h : s.Apart pml4) (hframe : frame ∈ s.hand) {u : BitVec 64}
    (hu : u ∈ s.machine.spaceFrames pml4 ∨ u ∈ s.machine.kernelTables pml4) :
    (s.machine.clearFrame frame.start).mem u = s.machine.mem u := by
  obtain ⟨hbook, hfree⟩ := h.notMem_books hu
  refine if_neg ?_
  rintro (rfl | hmem | hmem)
  · exact hfree (mem_map_of_mem (mem_append_right _ hframe))
  · exact hbook hmem
  · rw [map_append] at hfree
    exact hfree (mem_append_left _ hmem)

end Space.Apart

/-! ### One entry changes -/

namespace Machine

variable {m m' : Machine} {pml4 t f : BitVec 64} {i : BitVec 9} {p : List (BitVec 9)}

theorem spaceFrames_insert (hip : IsUser (i :: p)) (hnone : m.tableAt pml4 (i :: p) = none)
    (h : ∀ q, IsUser q → m'.tableAt pml4 q = if q = i :: p then some f else m.tableAt pml4 q) :
    m'.spaceFrames pml4 = insert f (m.spaceFrames pml4) := by
  ext g
  constructor
  · rintro ⟨q, hq, hg⟩
    rw [h q hq] at hg
    split_ifs at hg with hqip
    · exact Or.inl (some.inj hg).symm
    · exact Or.inr ⟨q, hq, hg⟩
  · rintro (rfl | ⟨q, hq, hg⟩)
    · exact ⟨i :: p, hip, (h _ hip).trans (if_pos rfl)⟩
    · refine ⟨q, hq, ?_⟩
      rw [h q hq, if_neg, hg]
      rintro rfl
      cases hnone.symm.trans hg

theorem unshared_insert (hunshared : Unshared follow m.mem pml4 IsUser)
    (hf : f ∉ m.spaceFrames pml4)
    (h : ∀ q, IsUser q → m'.tableAt pml4 q = if q = i :: p then some f else m.tableAt pml4 q) :
    Unshared follow m'.mem pml4 IsUser := by
  have hcase : ∀ {q g}, IsUser q → m'.tableAt pml4 q = some g →
      q = i :: p ∧ g = f ∨ m.tableAt pml4 q = some g ∧ g ≠ f := by
    intro q g hq hg
    rw [h q hq] at hg
    split_ifs at hg with hqip
    · exact Or.inl ⟨hqip, (some.inj hg).symm⟩
    · refine Or.inr ⟨hg, ?_⟩
      rintro rfl
      exact hf ⟨q, hq, hg⟩
  intro q r g hq hr hqg hrg
  rcases hcase hq hqg with ⟨rfl, rfl⟩ | ⟨hqg, hne⟩
  · rcases hcase hr hrg with ⟨rfl, -⟩ | ⟨-, hne⟩
    · rfl
    · exact absurd rfl hne
  · rcases hcase hr hrg with ⟨-, rfl⟩ | ⟨hrg, -⟩
    · exact absurd rfl hne
    · exact hunshared hq hr hqg hrg

theorem spaceFrames_remove (hunshared : Unshared follow m.mem pml4 IsUser) (hip : IsUser (i :: p))
    (hf : m.tableAt pml4 (i :: p) = some f)
    (h : ∀ q, IsUser q → m'.tableAt pml4 q = if q = i :: p then none else m.tableAt pml4 q) :
    m'.spaceFrames pml4 = m.spaceFrames pml4 \ {f} := by
  ext g
  constructor
  · rintro ⟨q, hq, hg⟩
    rw [h q hq] at hg
    split_ifs at hg with hqip
    refine ⟨⟨q, hq, hg⟩, ?_⟩
    rintro rfl
    exact hqip (hunshared hq hip hg hf)
  · rintro ⟨⟨q, hq, hg⟩, hgf⟩
    refine ⟨q, hq, ?_⟩
    rw [h q hq, if_neg, hg]
    rintro rfl
    exact hgf (some.inj (hg.symm.trans hf))

theorem unshared_remove (hunshared : Unshared follow m.mem pml4 IsUser)
    (h : ∀ q, IsUser q → m'.tableAt pml4 q = if q = i :: p then none else m.tableAt pml4 q) :
    Unshared follow m'.mem pml4 IsUser := by
  have hcase : ∀ {q g}, IsUser q → m'.tableAt pml4 q = some g → m.tableAt pml4 q = some g := by
    intro q g hq hg
    rw [h q hq] at hg
    split_ifs at hg with hqip
    exact hg
  intro q r g hq hr hqg hrg
  exact hunshared hq hr (hcase hq hqg) (hcase hr hrg)

end Machine

namespace SpaceInv

variable {pml4 t t' : BitVec 64} {m m' : Machine} {hand : List PhysFrame} {i : BitVec 9}
  {p : List (BitVec 9)} {frame : PhysFrame} {flags : PageTableFlags}

/-- The kernel half does not see what is written into the tables of the user half and into
frames in no use. -/
theorem kernelTables_eq (h : SpaceInv pml4 ⟨m, hand⟩) (hip : IsUser (i :: p))
    (ht : m.tableAt pml4 p = some t)
    (hmem : ∀ u j, m'.mem u j ≠ m.mem u j →
      u ∉ m.spaceFrames pml4 ∧ u ∉ m.kernelTables pml4 ∨ u = t ∧ j = i) :
    m'.kernelTables pml4 = m.kernelTables pml4 := by
  have hp := isUser_tailClosed hip
  refine Machine.kernelTables_congr fun u j hne => ?_
  rcases hmem u j hne with ⟨hspace, hkernel⟩ | ⟨rfl, rfl⟩
  · refine ⟨hkernel, ?_⟩
    rintro rfl
    exact absurd Machine.pml4_mem_spaceFrames hspace
  · refine ⟨fun hkernel => Set.disjoint_left.mp h.apart.disjoint hkernel ⟨p, hp, ht⟩, ?_⟩
    rintro rfl
    obtain rfl : p = [] := h.unshared hp isUser_nil ht rfl
    exact hip.2 j rfl

theorem pageTree (h : SpaceInv pml4 ⟨m, hand⟩) : PageTree IsUser m pml4 where
  unshared := h.unshared
  fresh := fun frame hframe p hp ht =>
    h.apart.space frame (mem_append_left hand hframe) ⟨p, hp, ht⟩
  distinct := by
    have hdistinct := h.apart.distinct
    rw [map_append] at hdistinct
    exact hdistinct.of_append_left

theorem noHuge (h : SpaceInv pml4 ⟨m, hand⟩) (hip : IsUser (i :: p)) (hp : p.length = 2) :
    (m.entryAt pml4 (i :: p)).bind hugeFrame = none := by
  cases hentry : m.entryAt pml4 (i :: p) with
  | none => rfl
  | some entry => exact (h.entries i p hip entry hentry).2 hp

theorem entries_nextStep (h : SpaceInv pml4 ⟨m, hand⟩) (hip : IsUser (i :: p))
    (step : NextStep IsUser pml4 flags i p m t' m') (j : BitVec 9) (q : List (BitVec 9))
    (hjq : IsUser (j :: q)) (entry : BitVec 64) (hentry : m'.entryAt pml4 (j :: q) = some entry) :
    (entryFlags entry).contains .present = true ∧ (q.length = 2 → hugeFrame entry = none) := by
  obtain ⟨new, -, -, hhuge, hpresent, hentries⟩ := step.entry
  rw [hentries j q (isUser_tailClosed hjq)] at hentry
  split_ifs at hentry with heq
  · cases hentry
    obtain ⟨rfl, rfl⟩ := List.cons.inj heq
    refine ⟨hpresent.mpr (Or.inr fun old hold => (h.entries j q hip old hold).1), ?_⟩
    intro hq
    rw [h.noHuge hip hq] at hhuge
    exact hhuge
  · exact h.entries j q hjq entry hentry

theorem enterTable (h : SpaceInv pml4 ⟨m, hand⟩) (hip : IsUser (i :: p))
    (ht : m.tableAt pml4 p = some t) (hentry : m.mem t i = 0#64) {rest : List PhysFrame}
    (havail : m.avail = frame :: rest) :
    SpaceInv pml4 ⟨m.enterTable t i frame rest, hand⟩ ∧
      (m.enterTable t i frame rest).tableAt pml4 (i :: p) = some frame.start := by
  have step := NextStep.of_new isUser_tailClosed h.pageTree (isUser_tailClosed hip) ht hentry
    havail .table
  have hnone : m.tableAt pml4 (i :: p) = none := by
    rw [Machine.tableAt_cons, Machine.entryAt_of_tableAt ht, if_pos hentry, bind_none]
  have hperm : (m.avail ++ hand).Perm (frame :: (rest ++ hand)) := by
    rw [havail]
    exact List.Perm.refl _
  have hframe := hperm.mem_iff.mpr (mem_cons_self)
  have htables := fun q (hq : IsUser q) => step.tableAt isUser_tailClosed hq
  have hspace := Machine.spaceFrames_insert hip hnone htables
  refine ⟨⟨step.tree.unshared, h.entries_nextStep hip step, ?_, ?_⟩, ?_⟩
  · refine h.apart.take hperm hspace (h.kernelTables_eq hip ht ?_) rfl
    intro u j hne
    by_cases huf : u = frame.start
    · subst huf
      exact Or.inl ⟨h.apart.space frame hframe, h.apart.kernel frame hframe⟩
    · refine Or.inr (by_contra fun hti => hne ?_)
      show setEntry _ t i _ u j = _
      rw [setEntry_of_ne fun hu hj => hti ⟨hu, hj⟩, update_of_ne huf]
  · obtain ⟨own, hnodup, hmem, hledger⟩ := h.ledger
    refine ⟨frame.start :: own, nodup_cons.mpr ⟨?_, hnodup⟩, ?_, hledger.cons _⟩
    · rw [hmem]
      exact h.apart.space frame hframe
    · intro f
      rw [hspace, mem_cons, hmem]
      rfl
  · exact (htables _ hip).trans (if_pos rfl)

theorem widenEntry (h : SpaceInv pml4 ⟨m, hand⟩) (hip : IsUser (i :: p))
    (ht : m.tableAt pml4 p = some t) (hentry : m.mem t i ≠ 0#64) (flags : PageTableFlags) :
    SpaceInv pml4 ⟨m.widenEntry t i flags, hand⟩ ∧
      (m.widenEntry t i flags).tableAt pml4 (i :: p) = some (entryAddr (m.mem t i)) := by
  have hp : IsUser p := isUser_tailClosed hip
  have step := NextStep.of_used h.pageTree hp ht hentry (h.noHuge hip) flags
  have hspace := Machine.spaceFrames_congr fun q (_ : IsUser q) =>
    Machine.tableAt_widenEntry hentry flags pml4 q
  refine ⟨⟨step.tree.unshared, h.entries_nextStep hip step, ?_, ?_⟩, ?_⟩
  · refine h.apart.perm (List.Perm.refl _) hspace (h.kernelTables_eq hip ht ?_) rfl
    intro u j hne
    refine Or.inr (by_contra fun hti => hne ?_)
    exact setEntry_of_ne fun hu hj => hti ⟨hu, hj⟩
  · obtain ⟨own, hnodup, hmem, hledger⟩ := h.ledger
    exact ⟨own, hnodup, fun f => hspace ▸ hmem f, hledger⟩
  · exact (step.tableAt isUser_tailClosed hip).trans (if_pos rfl)

/-- **The walk of `map_to`** in the user half. -/
theorem walks (h : SpaceInv pml4 ⟨m, hand⟩) {indices : List (BitVec 9)}
    {r : Except MapToError (BitVec 64)} (hwalk : Machine.Walks flags m t indices r m')
    (ht : m.tableAt pml4 p = some t) (hpath : IsUser (indices.reverse ++ p)) :
    SpaceInv pml4 ⟨m', hand⟩ ∧
      ∀ t', r = .ok t' → m'.tableAt pml4 (indices.reverse ++ p) = some t' := by
  have hstep : ∀ {i : BitVec 9} {indices p : List (BitVec 9)},
      (i :: indices).reverse ++ p = indices.reverse ++ i :: p := by
    intro i indices p
    rw [reverse_cons, append_assoc, singleton_append]
  induction hwalk generalizing p with
  | done => exact ⟨h, fun t' ht' => Except.ok.inj ht' ▸ ht⟩
  | fail => exact ⟨h, fun t' ht' => by cases ht'⟩
  | enter hentry havail _ ih =>
    rw [hstep] at hpath ⊢
    have hip := isUser_tailClosed.suffix hpath (suffix_append _ _)
    obtain ⟨hinv, htable⟩ := h.enterTable hip ht hentry havail
    exact ih hinv htable hpath
  | widen hentry _ ih =>
    rw [hstep] at hpath ⊢
    have hip := isUser_tailClosed.suffix hpath (suffix_append _ _)
    obtain ⟨hinv, htable⟩ := h.widenEntry hip ht hentry flags
    exact ih hinv htable hpath

theorem entryAt_leaf (h : SpaceInv pml4 ⟨m, hand⟩) (hip : IsUser (i :: p)) (hlen : p.length = 3)
    (ht : m.tableAt pml4 p = some t) (entry : BitVec 64) {j : BitVec 9} {q : List (BitVec 9)}
    (hjq : IsUser (j :: q)) :
    (m.write t i entry).entryAt pml4 (j :: q) =
      if j :: q = i :: p then if entry = 0#64 then none else some entry
      else m.entryAt pml4 (j :: q) := by
  have hp : IsUser p := isUser_tailClosed hip
  refine entryAt_write_leaf isUser_tailClosed h.pageTree hp ht entry (isUser_tailClosed hjq)
    fun hsuffix => ?_
  have hle := hsuffix.length_le
  have hq := hjq.1
  rw [length_cons] at hle hq
  omega

theorem tableAt_leaf (h : SpaceInv pml4 ⟨m, hand⟩) (hip : IsUser (i :: p)) (hlen : p.length = 3)
    (ht : m.tableAt pml4 p = some t) (entry : BitVec 64) (q : List (BitVec 9)) (hq : IsUser q) :
    (m.write t i entry).tableAt pml4 q =
      if q = i :: p then follow 3 entry else m.tableAt pml4 q := by
  cases q with
  | nil => rfl
  | cons j q =>
    rw [Machine.tableAt_cons, h.entryAt_leaf hip hlen ht entry hq]
    split_ifs with heq hzero
    · rw [hzero, bind_none, follow_zero]
    · rw [bind_some, (List.cons.inj heq).2, hlen]
    · rw [← Machine.tableAt_cons]

theorem kernelTables_write (h : SpaceInv pml4 ⟨m, hand⟩) (hip : IsUser (i :: p))
    (ht : m.tableAt pml4 p = some t) (entry : BitVec 64) :
    (m.write t i entry).kernelTables pml4 = m.kernelTables pml4 := by
  refine h.kernelTables_eq hip ht fun u j hne => Or.inr (by_contra fun hti => hne ?_)
  exact setEntry_of_ne fun hu hj => hti ⟨hu, hj⟩

/-- **The last step of `map_to`**: the frame goes from the hand into the space. -/
theorem mapLeaf (h : SpaceInv pml4 ⟨m, hand⟩) (hip : IsUser (i :: p)) (hlen : p.length = 3)
    (ht : m.tableAt pml4 p = some t) (hunused : m.mem t i = 0#64) (hframe : frame ∈ hand)
    (flags : PageTableFlags) :
    SpaceInv pml4 ⟨m.write t i (setAddr frame (flags.union .present)), hand.erase frame⟩ := by
  have hleaf : follow 3 (setAddr frame (flags.union .present)) = some frame.start := by
    rw [follow_of_used (ne_zero_of_present present_leaf) (fun h => by cases h), entryAddr_setAddr]
  have htables := h.tableAt_leaf hip hlen ht (setAddr frame (flags.union .present))
  rw [hleaf] at htables
  have hnone : m.tableAt pml4 (i :: p) = none := by
    rw [Machine.tableAt_cons, Machine.entryAt_of_tableAt ht, if_pos hunused, bind_none]
  have hspace := Machine.spaceFrames_insert hip hnone htables
  have hfresh := h.apart.space frame (mem_append_right _ hframe)
  refine ⟨Machine.unshared_insert h.unshared hfresh htables, ?_, ?_, ?_⟩
  · intro j q hjq entry hentry
    rw [Option.mem_def, h.entryAt_leaf hip hlen ht _ hjq,
      if_neg (ne_zero_of_present present_leaf)] at hentry
    split_ifs at hentry with heq
    · cases hentry
      obtain ⟨rfl, rfl⟩ := List.cons.inj heq
      exact ⟨present_leaf, fun h => by omega⟩
    · exact h.entries j q hjq entry hentry
  · have hperm : (m.avail ++ hand).Perm (frame :: (m.avail ++ hand.erase frame)) :=
      ((perm_cons_erase hframe).append_left _).trans perm_middle
    exact h.apart.take hperm hspace (h.kernelTables_write hip ht _) rfl
  · obtain ⟨own, hnodup, hmem, hledger⟩ := h.ledger
    refine ⟨frame.start :: own, nodup_cons.mpr ⟨?_, hnodup⟩, ?_, ?_⟩
    · rwa [hmem]
    · intro f
      rw [hspace, mem_cons, hmem]
      rfl
    · refine hledger.trans (List.Perm.append_right _ ?_)
      have hmove := (perm_cons_erase hframe).map PhysFrame.start
      exact (hmove.append_left own).trans perm_middle

/-- **`map_to`** in the user half, with a frame of one's own. -/
theorem mapTo (h : SpaceInv pml4 ⟨m, hand⟩) {page : Page} (hpage : page.start.p4Index ∈ userHalf)
    (hframe : frame ∈ hand) :
    (m.mapTo page frame flags pml4 = (.ok (), m') → SpaceInv pml4 ⟨m', hand.erase frame⟩) ∧
    ∀ err, m.mapTo page frame flags pml4 = (.error err, m') → SpaceInv pml4 ⟨m', hand⟩ := by
  have hpath := isUser_path hpage
  have hwalked := fun {r m'} (hwalk : Machine.Walks flags m pml4 page.start.upperIndices r m') =>
    h.walks (p := []) hwalk rfl (isUser_tailClosed hpath)
  refine ⟨fun hmap => ?_, fun err hmap => ?_⟩
  · obtain ⟨p1, m₁, hwalk, hunused, rfl⟩ := Machine.mapTo_ok hmap
    obtain ⟨hinv, htable⟩ := hwalked hwalk
    exact hinv.mapLeaf hpath rfl (htable p1 rfl) hunused hframe flags
  · obtain ⟨r, hwalk⟩ := Machine.mapTo_error hmap
    exact (hwalked hwalk).1

theorem tableAt_of_presentTable (h : SpaceInv pml4 ⟨m, hand⟩) (hip : IsUser (i :: p))
    (ht : m.tableAt pml4 p = some t) (hpresent : m.presentTable t i = some t') :
    m.tableAt pml4 (i :: p) = some t' := by
  obtain ⟨hbit, haddr⟩ := (m.presentTable_eq_some t i).mp hpresent
  have hentry := Machine.entryAt_of_used ht (ne_zero_of_present hbit)
  rw [Machine.tableAt_cons, hentry, bind_some, ← haddr]
  refine follow_of_used (ne_zero_of_present hbit) fun hlen => ?_
  have hhuge := (h.entries i p hip _ hentry).2 hlen
  rw [hugeFrame] at hhuge
  split_ifs at hhuge with hset
  exact Bool.eq_false_iff.mpr hset

/-- `unmap` gets to the frame of the page, and clears an entry of a table of level 1. -/
theorem unmap_eq (h : SpaceInv pml4 ⟨m, hand⟩) {page : Page} (hpage : page.start.p4Index ∈ userHalf)
    {f : BitVec 64} (hunmap : m.unmap page pml4 = some (f, m')) :
    ∃ p1, m.tableAt pml4 page.start.path.tail = some p1 ∧ m.tableAt pml4 page.start.path = some f ∧
      entryAddr (m.mem p1 page.start.p1Index) = f ∧ m' = m.write p1 page.start.p1Index 0#64 := by
  have hpath := isUser_path hpage
  have hpath1 := isUser_tailClosed hpath
  have hpath2 := isUser_tailClosed hpath1
  obtain ⟨p3, hp3, hunmap⟩ := bind_eq_some_iff.mp hunmap
  obtain ⟨p2, hp2, hunmap⟩ := bind_eq_some_iff.mp hunmap
  obtain ⟨p1, hp1, hunmap⟩ := bind_eq_some_iff.mp hunmap
  obtain ⟨f, hleaf, hunmap⟩ := bind_eq_some_iff.mp hunmap
  cases hunmap
  have ht3 := h.tableAt_of_presentTable (isUser_tailClosed hpath2) rfl hp3
  have ht2 := h.tableAt_of_presentTable hpath2 ht3 hp2
  have ht1 := h.tableAt_of_presentTable hpath1 ht2 hp1
  exact ⟨p1, ht1, h.tableAt_of_presentTable hpath ht1 hleaf,
    ((m.presentTable_eq_some _ _).mp hleaf).2, rfl⟩

/-- **`unmap`** in the user half: the frame goes from the space into the hand. -/
theorem unmap (h : SpaceInv pml4 ⟨m, hand⟩) {page : Page} (hpage : page.start.p4Index ∈ userHalf)
    {physAddr : BitVec 64} (hunmap : m.unmap page pml4 = some (physAddr, m')) :
    SpaceInv pml4 ⟨m', .containingAddress physAddr :: hand⟩ := by
  have hpath := isUser_path hpage
  obtain ⟨p1, ht1, hframe, hleaf, rfl⟩ := h.unmap_eq hpage hunmap
  have haddr : (PhysFrame.containingAddress physAddr).start = physAddr := by
    rw [← hleaf]
    show entryAddr _ &&& addrMask = _
    rw [entryAddr, BitVec.and_assoc, BitVec.and_self]
  have htables := h.tableAt_leaf hpath rfl ht1 0#64
  rw [follow_zero] at htables
  have hspace := Machine.spaceFrames_remove h.unshared hpath hframe htables
  have hmemFrame : physAddr ∈ m.spaceFrames pml4 := ⟨_, hpath, hframe⟩
  refine ⟨Machine.unshared_remove h.unshared htables, ?_, ?_, ?_⟩
  · intro j q hjq entry hentry
    rw [Option.mem_def, h.entryAt_leaf hpath rfl ht1 _ hjq, if_pos rfl] at hentry
    split_ifs at hentry with heq
    exact h.entries j q hjq entry hentry
  · have hperm : (m.avail ++ .containingAddress physAddr :: hand).Perm
        (.containingAddress physAddr :: (m.avail ++ hand)) := perm_middle
    refine h.apart.give hperm ?_ ?_ (h.kernelTables_write hpath ht1 _) rfl
    · rwa [haddr]
    · rw [haddr]
      exact hspace
  · obtain ⟨own, hnodup, hmem, hledger⟩ := h.ledger
    have hown : physAddr ∈ own := (hmem physAddr).mpr hmemFrame
    refine ⟨own.erase physAddr, hnodup.erase _, ?_, ?_⟩
    · intro f
      rw [hspace, hnodup.mem_erase_iff, hmem, and_comm]
      rfl
    · refine hledger.trans (List.Perm.append_right _ ?_)
      rw [map_cons, haddr]
      refine ((perm_cons_erase hown).append_right _).trans ?_
      exact perm_middle.symm

theorem of_entries {s s' : Space} (h : SpaceInv pml4 s)
    (hentry : ∀ q, IsUser q → s'.machine.entryAt pml4 q = s.machine.entryAt pml4 q)
    (hapart : s'.Apart pml4)
    (hledger : ∀ own : List (BitVec 64),
      s.machine.handed.Perm (own ++ s.hand.map PhysFrame.start ++ s.machine.cleared) →
      s'.machine.handed.Perm (own ++ s'.hand.map PhysFrame.start ++ s'.machine.cleared)) :
    SpaceInv pml4 s' := by
  have htables : ∀ q, IsUser q → s'.machine.tableAt pml4 q = s.machine.tableAt pml4 q :=
    fun q hq => Machine.tableAt_of_entryAt hentry hq
  refine ⟨?_, ?_, hapart, ?_⟩
  · intro q r f hq hr hqf hrf
    exact h.unshared hq hr ((htables q hq).symm.trans hqf) ((htables r hr).symm.trans hrf)
  · intro i p hip entry hmem
    exact h.entries i p hip entry ((hentry _ hip).symm.trans hmem)
  · obtain ⟨own, hnodup, hmem, hperm⟩ := h.ledger
    refine ⟨own, hnodup, ?_, hledger own hperm⟩
    rwa [Machine.spaceFrames_congr htables]

theorem allocate (h : SpaceInv pml4 ⟨m, hand⟩) {rest : List PhysFrame}
    (havail : m.avail = frame :: rest) {mem : BitVec 64 → BitVec 9 → BitVec 64}
    (hmem : mem = update m.mem frame.start (mem frame.start)) :
    SpaceInv pml4 ⟨{ m with avail := rest, handed := frame.start :: m.handed, mem := mem },
      frame :: hand⟩ := by
  have hframe : frame ∈ m.avail ++ hand := by
    rw [havail]
    exact mem_append_left _ mem_cons_self
  have hspace := Machine.mem_update hmem (h.apart.space frame hframe)
  have hentry : ∀ q, IsUser q → Machine.entryAt
      { m with avail := rest, handed := frame.start :: m.handed, mem := mem } pml4 q =
        m.entryAt pml4 q := fun q hq => Machine.entryAt_overwrite hspace hq
  refine h.of_entries hentry (h.apart.perm ?_ ?_ ?_ rfl) ?_
  · show (rest ++ frame :: hand).Perm (m.avail ++ hand)
    rw [havail]
    exact perm_middle
  · exact Machine.spaceFrames_congr fun q hq => Machine.tableAt_of_entryAt hentry hq
  · exact Machine.kernelTables_overwrite hspace
      (Machine.mem_update hmem (h.apart.kernel frame hframe))
  · intro own hperm
    have hmove : (frame.start :: (own ++ hand.map PhysFrame.start)).Perm
        (own ++ frame.start :: hand.map PhysFrame.start) := perm_middle.symm
    exact (hperm.cons frame.start).trans (hmove.append_right m.cleared)

theorem clear (h : SpaceInv pml4 ⟨m, hand⟩) (hframe : frame ∈ hand) :
    SpaceInv pml4 ⟨m.clearFrame frame.start, hand.erase frame⟩ := by
  have hspace : ∀ u ∈ m.spaceFrames pml4, (m.clearFrame frame.start).mem u = m.mem u :=
    fun u hu => h.apart.clearFrame_mem hframe (Or.inl hu)
  have hentry : ∀ q, IsUser q →
      (m.clearFrame frame.start).entryAt pml4 q = m.entryAt pml4 q := fun q hq =>
    Machine.entryAt_overwrite hspace hq
  have hdrop : (m.avail ++ hand).Perm (frame :: (m.avail ++ hand.erase frame)) :=
    ((perm_cons_erase hframe).append_left _).trans perm_middle
  refine h.of_entries hentry (h.apart.drop hdrop ?_ ?_ rfl) ?_
  · exact Machine.spaceFrames_congr fun q hq => Machine.tableAt_of_entryAt hentry hq
  · exact Machine.kernelTables_overwrite hspace fun u hu =>
      h.apart.clearFrame_mem hframe (Or.inr hu)
  · intro own hperm
    refine hperm.trans ?_
    have hmove := (perm_cons_erase hframe).map PhysFrame.start
    refine ((hmove.append_left own).append_right m.cleared).trans ?_
    refine (List.Perm.append_right m.cleared perm_middle).trans ?_
    exact perm_middle.symm

/-- **Every step keeps the invariant.** -/
theorem step {s s' : Space} {action : SpaceAction} (h : SpaceInv pml4 s)
    (hstep : s.step pml4 action = some s') (hok : s.Allowed pml4 action s') :
    SpaceInv pml4 s' := by
  cases action with
  | allocate zeroed =>
    obtain ⟨⟨frame, m⟩, halloc, rfl⟩ := map_eq_some_iff.mp hstep
    cases havail : s.machine.avail with
    | nil =>
      simp [Machine.allocateZeroedFrame, Machine.allocateFrame, havail] at halloc
    | cons frame' rest =>
      simp only [Machine.allocateZeroedFrame, Machine.allocateFrame, havail] at halloc
      split_ifs at halloc
      · cases halloc
        refine h.allocate havail ?_
        rw [update_self]
      · cases halloc
        exact h.allocate havail (update_eq_self _ _).symm
  | mapTo page frame flags =>
    rw [Space.step] at hstep
    split at hstep
    · rename_i heq
      cases hstep
      exact (h.mapTo hok.1 hok.2).1 heq
    · rename_i heq
      cases hstep
      exact (h.mapTo hok.1 hok.2).2 _ heq
  | unmap page =>
    rw [Space.step] at hstep
    split at hstep
    · rename_i heq
      cases hstep
      exact h.unmap hok heq
    · cases hstep
      exact h
  | clear frame =>
    cases hstep
    exact h.clear hok
  | other m =>
    cases hstep
    obtain ⟨hentry, hhanded, hcleared, hapart⟩ := hok
    refine h.of_entries hentry hapart fun own hperm => ?_
    show m.handed.Perm (own ++ s.hand.map PhysFrame.start ++ m.cleared)
    rwa [hhanded, hcleared]

end SpaceInv

/-! ### The new address space -/

theorem copyEntries_eq (m : Machine) {pml4 activePml4 : BitVec 64} (hne : activePml4 ≠ pml4)
    (l : List (BitVec 9)) :
    l.foldl (fun m i => m.write pml4 i (m.mem activePml4 i)) m =
      { m with mem := update m.mem pml4 fun i =>
          if i ∈ l then m.mem activePml4 i else m.mem pml4 i } := by
  induction l generalizing m with
  | nil => simp [update_eq_self]
  | cons j l ih =>
    rw [foldl_cons, ih]
    simp only [Machine.write, setEntry, update_of_ne hne, update_idem, update_self, mem_cons]
    congr 2
    funext i
    by_cases hij : i = j
    · subst hij
      simp
    · simp [hij]

/-- **`create_user_address_space`**: a new PML4 with the kernel half of the active one. -/
theorem createUserAddressSpace_eq {m m' : Machine} {pml4 activePml4 : BitVec 64}
    (h : m.createUserAddressSpace activePml4 = some (pml4, m'))
    (hactive : ∀ frame ∈ m.avail, frame.start ≠ activePml4) :
    ∃ frame rest, m.avail = frame :: rest ∧ pml4 = frame.start ∧ m'.avail = rest ∧
      m'.handed = frame.start :: m.handed ∧ m'.cleared = m.cleared ∧ m'.book = m.book ∧
      m'.mem = update m.mem frame.start fun i =>
        if i ∈ Machine.kernelIndices then m.mem activePml4 i else 0#64 := by
  cases havail : m.avail with
  | nil =>
    simp [Machine.createUserAddressSpace, Machine.allocateZeroedFrame, Machine.allocateFrame,
      havail] at h
  | cons frame rest =>
    have hne : activePml4 ≠ frame.start := (hactive frame (havail ▸ mem_cons_self)).symm
    simp only [Machine.createUserAddressSpace, Machine.allocateZeroedFrame,
      Machine.allocateFrame, havail, bind_eq_bind, bind_some] at h
    cases h
    rw [copyEntries_eq _ hne]
    refine ⟨frame, rest, rfl, rfl, rfl, rfl, rfl, rfl, ?_⟩
    simp only [update_idem, update_self, update_of_ne hne]

theorem mem_kernelIndices (i : BitVec 9) : i ∈ Machine.kernelIndices ↔ i ∈ kernelHalf := by
  constructor
  · intro hi
    obtain ⟨j, hj, rfl⟩ := mem_map.mp hi
    rw [mem_range'_1] at hj
    show 256 ≤ (BitVec.ofNat 9 j).toNat
    rw [BitVec.toNat_ofNat, Nat.mod_eq_of_lt (by omega)]
    exact hj.1
  · intro hi
    have hle : 256 ≤ i.toNat := hi
    have hlt := i.isLt
    refine mem_map.mpr ⟨i.toNat, mem_range'_1.mpr ⟨hle, by omega⟩, ?_⟩
    rw [BitVec.ofNat_toNat, BitVec.setWidth_eq]

section Created

variable {m m' : Machine} {pml4 activePml4 : BitVec 64}

theorem entryAt_empty (hroot : ∀ i ∈ userHalf, m.mem pml4 i = 0#64) {q : List (BitVec 9)}
    (hq : IsUser q) : m.entryAt pml4 q = none := by
  rcases eq_nil_or_concat q with rfl | ⟨r, i, rfl⟩
  · rfl
  · rw [List.concat_eq_append] at hq ⊢
    have hi : i ∈ userHalf := (within_append_singleton.mp hq).2
    have hentry : m.entryAt pml4 [i] = none := by
      rw [Machine.entryAt_of_tableAt (t := pml4) rfl, if_pos (hroot i hi)]
    exact entryAt_eq_none_of_suffix follow_zero hentry ⟨r, rfl⟩

theorem eq_nil_of_tableAt (hroot : ∀ i ∈ userHalf, m.mem pml4 i = 0#64) {q : List (BitVec 9)}
    {f : BitVec 64} (hq : IsUser q) (hf : m.tableAt pml4 q = some f) : q = [] := by
  cases q with
  | nil => rfl
  | cons i p =>
    rw [Machine.tableAt_cons, entryAt_empty hroot hq] at hf
    cases hf

theorem spaceFrames_empty (hroot : ∀ i ∈ userHalf, m.mem pml4 i = 0#64) :
    m.spaceFrames pml4 = {pml4} := by
  ext f
  constructor
  · rintro ⟨q, hq, hf⟩
    obtain rfl := eq_nil_of_tableAt hroot hq hf
    exact (some.inj hf).symm
  · rintro rfl
    exact Machine.pml4_mem_spaceFrames

/-- **A copy of the kernel half leads to the same tables**, as long as nobody writes to them. -/
theorem tableAt_copy (hcopy : ∀ i ∈ kernelHalf, m'.mem pml4 i = m.mem activePml4 i)
    (hmem : ∀ u ∈ m.kernelTables activePml4, m'.mem u = m.mem u) {q : List (BitVec 9)}
    (hne : q ≠ []) (hq : Within 3 kernelHalf q) :
    m'.tableAt pml4 q = m.tableAt activePml4 q := by
  induction q with
  | nil => exact absurd rfl hne
  | cons j r ih =>
    cases r with
    | nil =>
      have hj : j ∈ kernelHalf := hq.2 j rfl
      show follow 0 (m'.mem pml4 j) = follow 0 (m.mem activePml4 j)
      rw [hcopy j hj]
    | cons k r =>
      have hr := within_tailClosed _ _ hq
      show (m'.tableAt pml4 (k :: r)).bind _ = (m.tableAt activePml4 (k :: r)).bind _
      rw [ih (cons_ne_nil k r) hr]
      refine Option.bind_congr fun u hu => ?_
      rw [hmem u ⟨k :: r, cons_ne_nil k r, hr, hu⟩]

theorem entryAt_copy (hcopy : ∀ i ∈ kernelHalf, m'.mem pml4 i = m.mem activePml4 i)
    (hmem : ∀ u ∈ m.kernelTables activePml4, m'.mem u = m.mem u) {i : BitVec 9}
    {p : List (BitVec 9)} (hip : Within 4 kernelHalf (i :: p)) :
    m'.entryAt pml4 (i :: p) = m.entryAt activePml4 (i :: p) := by
  cases p with
  | nil =>
    have hi : i ∈ kernelHalf := hip.2 i rfl
    rw [Machine.entryAt_of_tableAt (t := pml4) rfl, hcopy i hi,
      Machine.entryAt_of_tableAt (t := activePml4) rfl]
  | cons j r =>
    have hr : Within 3 kernelHalf (j :: r) := ⟨Nat.le_of_succ_le_succ hip.1, hip.2⟩
    rw [Machine.entryAt_cons, Machine.entryAt_cons, tableAt_copy hcopy hmem (cons_ne_nil j r) hr]
    refine Option.bind_congr fun u hu => ?_
    rw [hmem u ⟨j :: r, cons_ne_nil j r, hr, hu⟩]

/-- The kernel half of the new space is that of the active PML4. -/
theorem kernelTables_copy (hcopy : ∀ i ∈ kernelHalf, m'.mem pml4 i = m.mem activePml4 i)
    (hmem : ∀ u, u ≠ pml4 → m'.mem u = m.mem u) (hpml4 : pml4 ∉ m.kernelTables activePml4) :
    m'.kernelTables pml4 = m.kernelTables activePml4 := by
  ext f
  refine exists_congr fun q => and_congr_right fun hne => and_congr_right fun hq => ?_
  rw [tableAt_copy hcopy (fun u hu => hmem u fun heq => hpml4 (heq ▸ hu)) hne hq]

/-- **A new address space keeps the invariant.** -/
theorem Space.Created.inv {s : Space} (h : s.Created pml4) : SpaceInv pml4 s := by
  obtain ⟨hhand, m, activePml4, ⟨hhanded, hcleared, hnodup, hfresh, hbook⟩, hcreate⟩ := h
  obtain ⟨frame, rest, havail, rfl, havail', hhanded', hcleared', hbook', hmem⟩ :=
    createUserAddressSpace_eq hcreate fun frame hframe => (hfresh frame hframe).1
  obtain ⟨m', hand⟩ := s
  obtain rfl : hand = [] := hhand
  have hframe : frame ∈ m.avail := havail ▸ mem_cons_self
  rw [havail, map_cons, nodup_cons] at hnodup
  have hroot : ∀ i ∈ userHalf, m'.mem frame.start i = 0#64 := by
    intro i hi
    have hnot : i ∉ Machine.kernelIndices := by
      rw [mem_kernelIndices]
      exact Nat.not_le.mpr hi
    rw [hmem, update_self, if_neg hnot]
  have hspace := spaceFrames_empty hroot
  have hkernel : m'.kernelTables frame.start = m.kernelTables activePml4 := by
    refine kernelTables_copy ?_ ?_ (hfresh frame hframe).2
    · intro i hi
      rw [hmem, update_self, if_pos ((mem_kernelIndices i).mpr hi)]
    · intro u hu
      rw [hmem, update_of_ne hu]
  have hsupply : m'.avail ++ [] = rest := (append_nil _).trans havail'
  refine ⟨?_, ?_, ⟨?_, ?_, ?_, ?_, ?_⟩, [frame.start], nodup_singleton _, ?_, ?_⟩
  · intro p q t hp hq hpt hqt
    rw [eq_nil_of_tableAt hroot hp hpt, eq_nil_of_tableAt hroot hq hqt]
  · intro i p hip entry hentry
    rw [entryAt_empty hroot hip] at hentry
    cases hentry
  · rw [hsupply]
    exact hnodup.2
  · intro frame' hmem'
    rw [hsupply] at hmem'
    rw [hspace]
    rintro heq
    exact hnodup.1 (mem_map.mpr ⟨frame', hmem', heq⟩)
  · intro frame' hmem'
    rw [hsupply] at hmem'
    rw [hkernel]
    exact (hfresh frame' (havail ▸ mem_cons_of_mem _ hmem')).2
  · rw [hspace, hkernel, Set.disjoint_singleton_right]
    exact (hfresh frame hframe).2
  · intro u hu
    obtain ⟨hfree, hout⟩ := hbook u (hbook' ▸ hu)
    rw [havail, map_cons, mem_cons, not_or] at hfree
    rw [hsupply, hspace, hkernel]
    exact ⟨hfree.2, hfree.1, hout⟩
  · intro f
    rw [hspace]
    exact mem_singleton
  · rw [hhanded', hcleared', hhanded, hcleared]
    exact List.Perm.refl _

end Created

/-- **In every run an address space keeps the invariant.** -/
theorem SpaceInv.of_run {pml4 : BitVec 64} {s : Space}
    (h : Run (Space.Created pml4) (Space.step pml4) (Space.Allowed pml4) s) : SpaceInv pml4 s :=
  h.invariant (fun _ hcreated => hcreated.inv) fun _ _ _ _ hinv hstep hok => hinv.step hstep hok

end KernelR.Mm
