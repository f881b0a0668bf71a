import Mathlib.Algebra.BigOperators.Group.Finset.Basic
import KernelR.Mm.PagingWalk

/-!
# How many frames an address space takes

A page takes a frame, and so do the tables on the way to it; pages that are close to each
other share tables, and some tables are there before. `framesNeeded` counts the frames for a
set of pages, by their paths: the last indices of a path lead to the table on a level.

`Occupies` says that an address space has these pages next to what it had before, and how much
of the supply is left. Mapping another page then succeeds exactly if the supply suffices for the
larger set. Only the tables behind some entries of the PML4 need to form a tree.
-/

namespace KernelR.Mm

open List Foundations

/-- The frames for a set of pages, by their paths: the PML4, and on each level one for all pages
with the same way to it, unless there is one already. -/
def framesNeeded (present : List (BitVec 9) → Bool) (pages : Finset (List (BitVec 9))) : ℕ :=
  1 + ∑ level ∈ Finset.range 4, ((pages.image (List.drop level)).filter (present · = false)).card

/-! ### The tables that `map_to` enters -/

namespace Machine

variable {m m' : Machine} {p4 table t : BitVec 64} {indices : List (BitVec 9)}
  {flags : PageTableFlags} {page : Page} {frame : PhysFrame}

theorem mapTo_supply (h : m.Supplied p4 page.start.upperIndices)
    (hmap : m.mapTo page frame flags p4 = (.ok (), m')) :
    m.avail.length = m.missingTables p4 page.start.upperIndices + m'.avail.length := by
  obtain ⟨p1, m₁, hwalk, -, rfl⟩ := mapTo_ok hmap
  exact ((hwalk.spec h).2 p1 rfl).1

/-- **The tables that are missing on the way to a page**, level by level. -/
theorem missingTables_eq (hhuge : NoHugePage m p4 page) :
    m.missingTables p4 page.start.upperIndices = ∑ level ∈ Finset.Ico 1 4,
        if m.tableAt p4 (page.start.path.drop level) = none then 1 else 0 := by
  have hsum : ∀ f : ℕ → ℕ, ∑ level ∈ Finset.Ico 1 4, f level = f 1 + f 2 + f 3 := by
    intro f
    simp [Finset.sum_Ico_eq_sum_range, Finset.sum_range_succ]
  have h4 : m.usedTable p4 page.start.p4Index = m.tableAt p4 [page.start.p4Index] :=
    usedTable_eq_tableAt hhuge ⟨[_, _], rfl⟩ rfl
  rw [hsum]
  simp only [VirtAddr.path, drop_succ_cons, drop_zero, VirtAddr.upperIndices,
    missingTables, h4]
  cases ht3 : m.tableAt p4 [page.start.p4Index] with
  | none =>
    have ht2 := reach_eq_none_of_suffix ht3
      (q := [page.start.p3Index, page.start.p4Index]) ⟨[_], rfl⟩
    have ht1 := reach_eq_none_of_suffix ht3
      (q := [page.start.p2Index, page.start.p3Index, page.start.p4Index]) ⟨[_, _], rfl⟩
    simp only [tableAt, ht2, ht1, if_true]
    rfl
  | some t3 =>
    have h3 : m.usedTable t3 page.start.p3Index =
        m.tableAt p4 [page.start.p3Index, page.start.p4Index] :=
      usedTable_eq_tableAt hhuge ⟨[_], rfl⟩ ht3
    simp only [h3]
    cases ht2 : m.tableAt p4 [page.start.p3Index, page.start.p4Index] with
    | none =>
      have ht1 := reach_eq_none_of_suffix ht2
        (q := [page.start.p2Index, page.start.p3Index, page.start.p4Index]) ⟨[_], rfl⟩
      simp [tableAt, ht1]
    | some t2 =>
      have h2 : m.usedTable t2 page.start.p2Index =
          m.tableAt p4 [page.start.p2Index, page.start.p3Index, page.start.p4Index] :=
        usedTable_eq_tableAt hhuge ⟨[], rfl⟩ ht2
      simp only [h2]
      cases m.tableAt p4 [page.start.p2Index, page.start.p3Index, page.start.p4Index] with
      | none => simp
      | some t1 => simp

end Machine

/-! ### Sets of pages -/

section Count

variable {present : List (BitVec 9) → Bool} {pages pages' : Finset (List (BitVec 9))}
  {path : List (BitVec 9)}

theorem framesNeeded_empty : framesNeeded present ∅ = 1 := rfl

theorem framesNeeded_insert : framesNeeded present (insert path pages) =
    framesNeeded present pages + ∑ level ∈ Finset.range 4,
      if present (path.drop level) = true ∨ ∃ d ∈ pages, d.drop level = path.drop level then 0
      else 1 := by
  rw [framesNeeded, framesNeeded, Nat.add_assoc, ← Finset.sum_add_distrib]
  congr 1
  refine Finset.sum_congr rfl fun level _ => ?_
  rw [Finset.image_insert, Finset.filter_insert]
  cases hpresent : present (path.drop level) with
  | true => simp
  | false =>
    rw [if_pos rfl]
    by_cases hmem : ∃ d ∈ pages, d.drop level = path.drop level
    · rw [if_pos (Or.inr hmem), Finset.card_insert_of_mem]
      · rfl
      · exact Finset.mem_filter.mpr ⟨Finset.mem_image.mpr hmem, hpresent⟩
    · rw [if_neg (by simpa using hmem), Finset.card_insert_of_notMem]
      exact fun h => hmem (Finset.mem_image.mp (Finset.mem_filter.mp h).1)

theorem framesNeeded_insert_of_new (hpresent : present path = false) (hpath : path ∉ pages) :
    framesNeeded present (insert path pages) = framesNeeded present pages + 1 +
      ∑ level ∈ Finset.Ico 1 4,
        if present (path.drop level) = true ∨ ∃ d ∈ pages, d.drop level = path.drop level then 0
        else 1 := by
  rw [framesNeeded_insert, Finset.range_eq_Ico, Finset.sum_eq_sum_Ico_succ_bot (Nat.succ_pos 3),
    ← Nat.add_assoc, if_neg]
  simpa [hpresent] using hpath

end Count

/-- The address space has just these pages next to the tables and frames that it had before, and
this is how much of a supply is left. The tables behind the entries `H` of the PML4 form a tree,
and no page of `G` is inside a huge page. -/
structure Occupies (H : Set (BitVec 9)) (G : Set Page) (old : List (BitVec 9) → Bool)
    (pml4 : BitVec 64) (total : ℕ) (m : Machine) (pages : Finset (List (BitVec 9))) : Prop where
  tree : PageTree (Within 3 H) m pml4
  reachable : ∀ page ∈ G, page.start.p4Index ∈ H ∧ NoHugePage m pml4 page
  tables : ∀ {v : VirtAddr}, v.p4Index ∈ H → ∀ {level}, level < 4 →
    (m.tableAt pml4 (v.path.drop level) ≠ none ↔
      old (v.path.drop level) = true ∨ ∃ d ∈ pages, d.drop level = v.path.drop level)
  supply : m.avail.length + framesNeeded old pages = total

namespace Occupies

variable {H : Set (BitVec 9)} {G : Set Page} {old : List (BitVec 9) → Bool} {pml4 : BitVec 64}
  {m m₂ m' : Machine} {total : ℕ} {pages : Finset (List (BitVec 9))} {page : Page}
  {frame : PhysFrame} {flags : PageTableFlags}

theorem path_iff (h : Occupies H G old pml4 total m pages) {v : VirtAddr} (hv : v.p4Index ∈ H) :
    m.tableAt pml4 v.path ≠ none ↔ old v.path = true ∨ v.path ∈ pages := by
  have htables := h.tables hv (Nat.succ_pos 3)
  simpa using htables

theorem congr (h : Occupies H G old pml4 total m pages)
    (hmem : ∀ {q u}, Within 3 H q → m.tableAt pml4 q = some u → m'.mem u = m.mem u)
    (havail : m'.avail = m.avail) : Occupies H G old pml4 total m' pages ∧
      ∀ {i q}, Within 3 H q → m'.tableAt pml4 (i :: q) = m.tableAt pml4 (i :: q) := by
  have hentry : ∀ {i q}, Within 3 H q → m'.entryAt pml4 (i :: q) = m.entryAt pml4 (i :: q) :=
    Machine.entryAt_congr (within_tailClosed 3 H) hmem
  have htable : ∀ {i q}, Within 3 H q → m'.tableAt pml4 (i :: q) = m.tableAt pml4 (i :: q) := by
    intro i q hq
    rw [Machine.tableAt_cons, Machine.tableAt_cons, hentry hq]
  have hsame : ∀ {q}, Within 3 H q → m'.tableAt pml4 q = m.tableAt pml4 q := by
    intro q hq
    cases q with
    | nil => rfl
    | cons i q => exact htable (within_tailClosed 3 H hq)
  refine ⟨⟨⟨fun p q u hp hq hpu hqu => ?_, fun f hf p hp => ?_, havail ▸ h.tree.distinct⟩,
    fun page hpage => ?_, fun {v} hv {level} hlevel => ?_, by rw [havail, h.supply]⟩, htable⟩
  · exact h.tree.unshared hp hq ((hsame hp).symm.trans hpu) ((hsame hq).symm.trans hqu)
  · rw [hsame hp]
    exact h.tree.fresh f (havail ▸ hf) p hp
  · obtain ⟨hin, hhuge⟩ := h.reachable page hpage
    refine ⟨hin, (congrArg (Option.bind · hugeFrame) (hentry ?_)).trans hhuge⟩
    exact within_tailClosed 3 H (VirtAddr.within_tail hin)
  · rw [← h.tables hv hlevel]
    cases level with
    | zero => exact not_congr (Eq.congr_left (htable (VirtAddr.within_tail hv)))
    | succ level =>
      have hq : Within 3 H (v.path.drop (level + 1)) :=
        (within_tailClosed 3 H).suffix (VirtAddr.within_tail hv) (drop_suffix level v.path.tail)
      rw [hsame hq]

section MapTo

variable (h : Occupies H G old pml4 total m pages) (havail : m.avail = frame :: m₂.avail)
  (hmem : ∀ u, u ≠ frame.start → m₂.mem u = m.mem u) (hpage : page ∈ G)

include h havail hmem in
theorem take : Occupies H G old pml4 (total - 1) m₂ pages ∧
    Machine.Aside H pml4 m₂ frame.start ∧
    ∀ {i q}, Within 3 H q → m₂.tableAt pml4 (i :: q) = m.tableAt pml4 (i :: q) := by
  have hdistinct := h.tree.distinct
  have hsupply := h.supply
  rw [havail, map_cons, nodup_cons] at hdistinct
  rw [havail, length_cons] at hsupply
  have hfresh := h.tree.fresh frame (havail ▸ mem_cons_self)
  obtain ⟨hkept, hsame⟩ : Occupies H G old pml4 total { m with mem := m₂.mem } pages ∧ _ := by
    refine h.congr (fun {q u} hq hu => hmem u ?_) rfl
    rintro rfl
    exact hfresh q hq hu
  refine ⟨⟨⟨hkept.tree.unshared, fun f hf => hkept.tree.fresh f ?_, hdistinct.2⟩, hkept.reachable,
    hkept.tables, by omega⟩, ⟨fun q hq => ?_, hdistinct.1⟩, hsame⟩
  · rw [show ({ m with mem := m₂.mem } : Machine).avail = _ from havail]
    exact mem_cons_of_mem _ hf
  · exact hkept.tree.fresh frame (havail ▸ mem_cons_self) q hq

include h hpage in
theorem missingTables_eq : m.missingTables pml4 page.start.upperIndices =
    ∑ level ∈ Finset.Ico 1 4, if old (page.start.path.drop level) = true ∨
        ∃ d ∈ pages, d.drop level = page.start.path.drop level then 0 else 1 := by
  obtain ⟨hin, hhuge⟩ := h.reachable page hpage
  rw [Machine.missingTables_eq hhuge]
  refine Finset.sum_congr rfl fun level hlevel => ?_
  rw [← ite_not]
  exact if_congr (h.tables hin (Finset.mem_Ico.mp hlevel).2) rfl rfl

include h havail hmem hpage in
/-- A frame is allocated and `map_to` is called: **success**. -/
theorem mapTo_ok_iff : (m₂.mapTo page frame flags pml4).1 = .ok () ↔
    old page.start.path = false ∧ page.start.path ∉ pages ∧
      framesNeeded old (insert page.start.path pages) ≤ total := by
  obtain ⟨htake, -, -⟩ := h.take havail hmem
  obtain ⟨hin, hhuge⟩ := htake.reachable page hpage
  have hpath := htake.path_iff hin
  have hlen : m.avail.length = m₂.avail.length + 1 := by rw [havail, length_cons]
  have hsupply := h.supply
  by_cases hfree : m₂.tableAt pml4 page.start.path = none
  · have hnew := mt hpath.mpr (not_not.mpr hfree)
    rw [not_or, Bool.not_eq_true] at hnew
    have hunmapped : m₂.translateAddr pml4 page.start = none := by
      rw [Machine.translateAddr_eq, hhuge, hfree]
      rfl
    have hneeded := framesNeeded_insert_of_new hnew.1 hnew.2
    rw [Machine.mapTo_of_unmapped (Machine.supplied_of_tree htake.tree hin hhuge) hunmapped,
      htake.missingTables_eq hpage]
    split_ifs with hle
    · exact iff_of_true rfl ⟨hnew.1, hnew.2, by omega⟩
    · exact iff_of_false (fun hok => by cases hok) fun hfits => hle (by omega)
  · refine iff_of_false (fun hok => hfree ?_) fun hnot => ?_
    · exact (MapsPage.of_mapTo htake.tree hin hhuge (Prod.ext hok rfl)).new
    · rcases hpath.mp hfree with hold | hmem
      · exact Bool.false_ne_true (hnot.1.symm.trans hold)
      · exact hnot.2.1 hmem

include h havail hmem hpage in
/-- A frame is allocated and `map_to` is called: **the pages afterwards**. -/
theorem mapTo (hmap : m₂.mapTo page frame flags pml4 = (.ok (), m')) :
    Occupies H G old pml4 total m' (insert page.start.path pages) := by
  obtain ⟨htake, -, -⟩ := h.take havail hmem
  obtain ⟨hin, hhuge⟩ := htake.reachable page hpage
  have hmaps := MapsPage.of_mapTo htake.tree hin hhuge hmap
  refine ⟨hmaps.tree, fun page' hpage' => ?_, ?_, ?_⟩
  · obtain ⟨hin', hhuge'⟩ := htake.reachable page' hpage'
    exact ⟨hin', (hmaps.huge hin').trans hhuge'⟩
  · intro v hv level hlevel
    rw [Finset.exists_mem_insert, or_left_comm, ← htake.tables hv hlevel, or_comm]
    cases level with
    | zero =>
      rw [drop_zero, drop_zero, hmaps.mapped hv]
      split_ifs with heq
      · exact iff_of_true (Option.some_ne_none _) (Or.inr heq.symm)
      · exact (or_iff_left fun h => heq h.symm).symm
    | succ level =>
      have hq : Within 3 H (v.path.drop (level + 1)) :=
        (within_tailClosed 3 H).suffix (VirtAddr.within_tail hv) (drop_suffix level v.path.tail)
      rw [hmaps.tables hq]
      refine or_congr_right ⟨fun hsuffix => ?_, fun heq => heq ▸ drop_suffix _ _⟩
      have hdrop := suffix_iff_eq_drop.mp hsuffix
      rw [length_drop, show page.start.path.length - (v.path.length - (level + 1)) = level + 1
        by simp [VirtAddr.path]; omega] at hdrop
      exact hdrop.symm
  · obtain ⟨hold, hnew, -⟩ := (h.mapTo_ok_iff havail hmem hpage).mp (congrArg Prod.fst hmap)
    have hwalk := Machine.mapTo_supply (Machine.supplied_of_tree htake.tree hin hhuge) hmap
    have hlen : m.avail.length = m₂.avail.length + 1 := by rw [havail, length_cons]
    have hsupply := h.supply
    rw [htake.missingTables_eq hpage] at hwalk
    rw [framesNeeded_insert_of_new hold hnew]
    omega

include h havail hmem hpage in
/-- **The frames afterwards**: that of the new page has not changed, and neither has any other
that is no table. -/
theorem mapTo_aside (hmap : m₂.mapTo page frame flags pml4 = (.ok (), m')) :
    (Machine.Aside H pml4 m' frame.start ∧ m'.mem frame.start = m₂.mem frame.start) ∧
      ∀ u, Machine.Aside H pml4 m u → Machine.Aside H pml4 m' u ∧ m'.mem u = m.mem u := by
  obtain ⟨htake, hself, hsame⟩ := h.take havail hmem
  obtain ⟨hin, hhuge⟩ := htake.reachable page hpage
  refine ⟨hself.mapTo htake.tree hin hhuge hmap, fun u hu => ?_⟩
  have hnot := hu.2
  rw [havail, map_cons, mem_cons, not_or] at hnot
  have hu₂ : Machine.Aside H pml4 m₂ u := by
    refine ⟨fun q hq => ?_, hnot.2⟩
    cases q with
    | nil => exact hu.1 [] hq
    | cons i q =>
      have htail : Within 3 H q := within_tailClosed 3 H hq
      rw [hsame htail]
      exact hu.1 _ hq
  obtain ⟨hu', hmem'⟩ := hu₂.mapTo htake.tree hin hhuge hmap
  exact ⟨hu', hmem'.trans (hmem u hnot.1)⟩

include h havail hmem hpage in
/-- **The frames of the pages.** -/
theorem mapTo_mapped (hmap : m₂.mapTo page frame flags pml4 = (.ok (), m')) {v : VirtAddr}
    (hv : v.p4Index ∈ H) : m'.tableAt pml4 v.path =
      if v.path = page.start.path then some frame.start else m.tableAt pml4 v.path := by
  obtain ⟨htake, -, hsame⟩ := h.take havail hmem
  obtain ⟨hin, hhuge⟩ := htake.reachable page hpage
  rw [(MapsPage.of_mapTo htake.tree hin hhuge hmap).mapped hv]
  exact if_congr Iff.rfl rfl (hsame (VirtAddr.within_tail hv))

end MapTo

end Occupies

end KernelR.Mm
