import KernelR.Mm.UserPages

/-!
# What the users of an address space leave alone

Frames are allocated, mapped, unmapped and given back. None of these steps takes a table of
the user half out of its place, none writes into the kernel half, and what went back to the
allocator stays there. `Keeps` is this relation between two states of a machine.

If moreover all pages are as they were, then the frames that were handed out in between are
back at the allocator, but for tables that were entered and map nothing (`SpaceInv.account`).
That is what a call that fails half way has to achieve.
-/

namespace KernelR.Mm

open List Option Foundations

/-- The tables are where they were, the kernel half is not written to, and the frames that went
back are still among those that did. -/
structure Keeps (pml4 : BitVec 64) (m m' : Machine) : Prop where
  tables : ∀ {q t}, Within 3 userHalf q → m.tableAt pml4 q = some t → m'.tableAt pml4 q = some t
  root : ∀ j ∈ kernelHalf, m'.mem pml4 j = m.mem pml4 j
  kernel : ∀ u ∈ m.kernelTables pml4, m'.mem u = m.mem u
  cleared : m.cleared <:+ m'.cleared

namespace Keeps

variable {pml4 : BitVec 64} {m m' m'' : Machine}

theorem refl (pml4 : BitVec 64) (m : Machine) : Keeps pml4 m m :=
  ⟨fun _ h => h, fun _ _ => rfl, fun _ _ => rfl, suffix_rfl⟩

theorem kernelTables_eq (h : Keeps pml4 m m') : m'.kernelTables pml4 = m.kernelTables pml4 := by
  ext f
  refine exists_congr fun q => and_congr_right fun hne => and_congr_right fun hq => ?_
  rw [tableAt_copy h.root h.kernel hne hq]

theorem trans (h : Keeps pml4 m m') (h' : Keeps pml4 m' m'') : Keeps pml4 m m'' where
  tables hq ht := h'.tables hq (h.tables hq ht)
  root j hj := (h'.root j hj).trans (h.root j hj)
  kernel u hu := (h'.kernel u (h.kernelTables_eq ▸ hu)).trans (h.kernel u hu)
  cleared := h.cleared.trans h'.cleared

theorem translateAddr_kernel (h : Keeps pml4 m m') {v : VirtAddr} (hv : v.p4Index ∈ kernelHalf) :
    m'.translateAddr pml4 v = m.translateAddr pml4 v := by
  have hlast : ∀ i, some v.p4Index = some i → i ∈ kernelHalf := by
    intro i hi
    cases hi
    exact hv
  have hdir : Within 4 kernelHalf [v.p2Index, v.p3Index, v.p4Index] := ⟨Nat.le_succ 3, hlast⟩
  have hleaf : Within 4 kernelHalf [v.p1Index, v.p2Index, v.p3Index, v.p4Index] := ⟨le_rfl, hlast⟩
  refine Machine.translateAddr_congr ?_ (entryAt_copy h.root h.kernel hleaf)
  exact congrArg (Option.bind · hugeFrame) (entryAt_copy h.root h.kernel hdir)

theorem overwrite (hspace : ∀ u ∈ m.spaceFrames pml4, m'.mem u = m.mem u)
    (hkernel : ∀ u ∈ m.kernelTables pml4, m'.mem u = m.mem u)
    (hcleared : m.cleared <:+ m'.cleared) : Keeps pml4 m m' := by
  refine ⟨fun hq ht => ?_, fun j _ => ?_, hkernel, hcleared⟩
  · rwa [Machine.tableAt_of_entryAt (fun _ => Machine.entryAt_overwrite hspace)
      (hq.mono_length (Nat.le_succ 3))]
  · rw [hspace pml4 Machine.pml4_mem_spaceFrames]

end Keeps

/-! ### The steps -/

namespace SpaceInv

variable {pml4 t : BitVec 64} {m m' : Machine} {hand : List PhysFrame} {page : Page}
  {frame : PhysFrame} {flags : PageTableFlags} {i : BitVec 9} {p : List (BitVec 9)}

theorem keeps_allocate (h : SpaceInv pml4 ⟨m, hand⟩) {rest : List PhysFrame}
    (havail : m.avail = frame :: rest) : Keeps pml4 m (takeZeroed m frame rest) := by
  have hframe : frame ∈ m.avail ++ hand := mem_append_left _ (havail ▸ mem_cons_self)
  exact .overwrite (Machine.mem_update rfl (h.apart.space frame hframe))
    (Machine.mem_update rfl (h.apart.kernel frame hframe)) suffix_rfl

theorem keeps_clear (h : SpaceInv pml4 ⟨m, hand⟩) (hframe : frame ∈ hand) :
    Keeps pml4 m (m.clearFrame frame.start) :=
  .overwrite (fun _ hu => h.apart.clearFrame_mem hframe (Or.inl hu))
    (fun _ hu => h.apart.clearFrame_mem hframe (Or.inr hu)) (suffix_cons _ _)

theorem mapTo_tableAt (h : SpaceInv pml4 ⟨m, hand⟩) (hpage : page.start.p4Index ∈ userHalf)
    {r : Except MapToError Unit} (hmap : m.mapTo page frame flags pml4 = (r, m'))
    {q : List (BitVec 9)} (hq : Within 3 userHalf q) (ht : m.tableAt pml4 q = some t) :
    m'.tableAt pml4 q = some t := by
  cases q with
  | nil => exact ht
  | cons j p =>
    have hp : Within 3 userHalf p := within_tailClosed _ _ hq
    rcases mapTo_cases h.tree hpage (h.noHugePage hpage) frame flags with
      ⟨_, _, m₁, herr, walked, -⟩ | ⟨_, m₁, herr, walked, -⟩ | ⟨_, m₁, hok, walked, -⟩
    · obtain ⟨-, rfl⟩ := Prod.mk.inj (herr.symm.trans hmap)
      exact walked.kept hp ht
    · obtain ⟨-, rfl⟩ := Prod.mk.inj (herr.symm.trans hmap)
      exact walked.kept hp ht
    · obtain ⟨-, rfl⟩ := Prod.mk.inj (hok.symm.trans hmap)
      rw [tableAt_enter h.tree hpage walked hq]
      exact walked.kept hp ht

theorem keeps_mapTo (h : SpaceInv pml4 ⟨m, hand⟩) (hpage : page.start.p4Index ∈ userHalf)
    {r : Except MapToError Unit} (hmap : m.mapTo page frame flags pml4 = (r, m')) :
    Keeps pml4 m m' := by
  obtain ⟨hleaves, hroot⟩ := h.mapTo_leaves hpage hmap
  refine ⟨fun hq ht => h.mapTo_tableAt hpage hmap hq ht, fun j hj => hroot j ?_, fun u hu => ?_,
    (Machine.mapTo_grows hmap).cleared ▸ suffix_rfl⟩
  · exact Nat.not_lt.mpr hj
  · refine hleaves u (fun q hq htable => ?_) fun hmem => ?_
    · exact Set.disjoint_left.mp h.apart.disjoint hu ⟨q, hq.mono_length (Nat.le_succ 3), htable⟩
    · obtain ⟨frame', hframe', rfl⟩ := mem_map.mp hmem
      exact h.apart.kernel frame' (mem_append_left _ hframe') hu

theorem keeps_unmap (h : SpaceInv pml4 ⟨m, hand⟩) (hpage : page.start.p4Index ∈ userHalf)
    {f : BitVec 64} (hunmap : m.unmap page pml4 = some (f, m')) : Keeps pml4 m m' := by
  have hpath := isUser_path hpage
  obtain ⟨p1, hp1, -, -, rfl⟩ := h.unmap_eq hpage hunmap
  have hne : ∀ {u}, u ≠ p1 → (m.write p1 page.start.p1Index 0#64).mem u = m.mem u :=
    fun hu => setEntry_table hu
  refine ⟨fun {q t} hq ht => ?_, fun j _ => ?_, fun u hu => ?_, suffix_rfl⟩
  · rw [h.tableAt_leaf hpath rfl hp1 0#64 q (hq.mono_length (Nat.le_succ 3)), if_neg, ht]
    rintro rfl
    exact not_path_suffix (v := page.start) hq.1 suffix_rfl
  · have hroot : pml4 ≠ p1 := by
      rintro rfl
      cases h.unshared (isUser_tailClosed hpath) isUser_nil hp1 rfl
    rw [hne hroot]
  · have hkernel : u ≠ p1 := by
      rintro rfl
      exact Set.disjoint_left.mp h.apart.disjoint hu ⟨_, isUser_tailClosed hpath, hp1⟩
    rw [hne hkernel]

end SpaceInv

/-! ### The account -/

/-- Every path of four indices in the user half is that of a page. -/
theorem exists_page {q : List (BitVec 9)} (hq : IsUser q) (hlen : q.length = 4) :
    ∃ page : Page, page.start.path = q ∧ page.start.p4Index ∈ userHalf := by
  match q, hlen with
  | [i1, i2, i3, i4], _ =>
    have h4 : i4.toNat < 256 := hq.2 i4 rfl
    have h1 := i1.isLt
    have h2 := i2.isLt
    have h3 := i3.isLt
    let addr := (((i4.toNat * 512 + i3.toNat) * 512 + i2.toNat) * 512 + i1.toNat) * 4096
    obtain ⟨v, -, hv⟩ := VirtAddr.new_of_lt (show addr < 2 ^ 47 by omega)
    have hindex : ∀ (offset : ℕ) (i : BitVec 9), addr / 2 ^ offset % 512 = i.toNat →
        v.bits.extractLsb' offset 9 = i := by
      intro offset i hi
      refine BitVec.eq_of_toNat_eq ?_
      rw [BitVec.extractLsb'_toNat, Nat.shiftRight_eq_div_pow, hv]
      exact hi
    have hp1 : v.p1Index = i1 := hindex 12 i1 (by omega)
    have hp2 : v.p2Index = i2 := hindex 21 i2 (by omega)
    have hp3 : v.p3Index = i3 := hindex 30 i3 (by omega)
    have hp4 : v.p4Index = i4 := hindex 39 i4 (by omega)
    have hpath : (Page.containingAddress v).start.path = [i1, i2, i3, i4] := by
      rw [Page.path_containingAddress, VirtAddr.path, hp1, hp2, hp3, hp4]
    refine ⟨.containingAddress v, hpath, ?_⟩
    rw [(Page.indices_containingAddress v).1, hp4]
    exact h4

/-- A table of the user half that was entered in between and maps no page. -/
def NewEmptyTable (pml4 : BitVec 64) (m m' : Machine) (t : BitVec 64) : Prop :=
  ∃ q, IsUser q ∧ q ≠ [] ∧ q.length ≤ 3 ∧ m.tableAt pml4 q = none ∧ m'.tableAt pml4 q = some t ∧
    ∀ page : Page, q <:+ page.start.path → m'.frameOf pml4 page = none

namespace SpaceInv

variable {pml4 : BitVec 64} {m m' : Machine}

/-- The tables and frames of the space are still there, and what is new are empty tables. -/
theorem spaceFrames_of_pages (hkeeps : Keeps pml4 m m')
    (hpages : ∀ page : Page, page.start.p4Index ∈ userHalf →
      m'.frameOf pml4 page = m.frameOf pml4 page) :
    m.spaceFrames pml4 ⊆ m'.spaceFrames pml4 ∧
      ∀ t ∈ m'.spaceFrames pml4, t ∈ m.spaceFrames pml4 ∨ NewEmptyTable pml4 m m' t := by
  have hlong : ∀ {q}, IsUser q → ¬ q.length ≤ 3 → m'.tableAt pml4 q = m.tableAt pml4 q := by
    intro q hq hlen
    obtain ⟨page, rfl, hpage⟩ := exists_page hq (le_antisymm hq.1 (by omega))
    exact hpages page hpage
  constructor
  · rintro t ⟨q, hq, ht⟩
    refine ⟨q, hq, ?_⟩
    by_cases hlen : q.length ≤ 3
    · exact hkeeps.tables ⟨hlen, hq.2⟩ ht
    · rwa [hlong hq hlen]
  · rintro t ⟨q, hq, ht⟩
    by_cases hlen : q.length ≤ 3
    · cases hold : m.tableAt pml4 q with
      | some t' =>
        obtain rfl := some.inj ((hkeeps.tables ⟨hlen, hq.2⟩ hold).symm.trans ht)
        exact Or.inl ⟨q, hq, hold⟩
      | none =>
        refine Or.inr ⟨q, hq, ?_, hlen, hold, ht, fun page hsuffix => ?_⟩
        · rintro rfl
          cases hold
        · have hne : q ≠ [] := by
            rintro rfl
            cases hold
          have hpage : page.start.p4Index ∈ userHalf := by
            obtain ⟨r, hr⟩ := hsuffix
            refine hq.2 _ ?_
            have hlast := congrArg List.getLast? hr
            rwa [List.getLast?_append_of_ne_nil _ hne] at hlast
          rw [hpages page hpage]
          exact reach_eq_none_of_suffix hold hsuffix
    · exact Or.inl ⟨q, hq, hlong hq hlen ▸ ht⟩

/-- **The account.**  The frames handed out in between are back, but for new empty tables. -/
theorem account (h : SpaceInv pml4 ⟨m, []⟩) (h' : SpaceInv pml4 ⟨m', []⟩) (hkeeps : Keeps pml4 m m')
    (hpages : ∀ page : Page, page.start.p4Index ∈ userHalf →
      m'.frameOf pml4 page = m.frameOf pml4 page) :
    ∃ back held, m'.cleared = back ++ m.cleared ∧ m'.handed.Perm (back ++ held ++ m.handed) ∧
      ∀ t ∈ held, NewEmptyTable pml4 m m' t := by
  obtain ⟨back, hback⟩ := hkeeps.cleared
  obtain ⟨own, hnodup, hown, hledger⟩ := h.ledger
  obtain ⟨own', hnodup', hown', hledger'⟩ := h'.ledger
  obtain ⟨hsubset, hnew⟩ := spaceFrames_of_pages hkeeps hpages
  simp only [map_nil, append_nil] at hledger hledger'
  refine ⟨back, own'.filter (· ∉ own), hback.symm, ?_, ?_⟩
  · have hsplit : own'.Perm (own'.filter (· ∉ own) ++ own) := by
      refine (perm_ext_iff_of_nodup hnodup' ?_).mpr fun f => ?_
      · refine nodup_append.mpr ⟨hnodup'.filter _, hnodup, ?_⟩
        rintro f hf g hg rfl
        exact of_decide_eq_true (mem_filter.mp hf).2 hg
      · rw [mem_append, mem_filter, decide_eq_true_iff]
        constructor
        · intro hf
          by_cases hmem : f ∈ own
          · exact Or.inr hmem
          · exact Or.inl ⟨hf, hmem⟩
        · rintro (⟨hf, -⟩ | hf)
          · exact hf
          · exact (hown' f).mpr (hsubset ((hown f).mp hf))
    have hmove := perm_append_comm_assoc (own'.filter (· ∉ own) ++ own) back m.cleared
    rw [append_assoc _ own m.cleared, ← append_assoc back] at hmove
    rw [← hback] at hledger'
    exact ((hledger'.trans (hsplit.append_right _)).trans hmove).trans (hledger.symm.append_left _)
  · intro t ht
    obtain ⟨hmem, hnot⟩ := mem_filter.mp ht
    refine (hnew t ((hown' t).mp hmem)).resolve_left fun hold => ?_
    exact of_decide_eq_true hnot ((hown t).mpr hold)

end SpaceInv

end KernelR.Mm
