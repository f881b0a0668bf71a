import KernelR.Mm.PagingLaws

/-!
# Pages inside huge pages

`translate_addr` stops at an entry of a page directory that has `HUGE_PAGE` set. `map_to` and
`unmap` walk on: they take the first 4 KiB of the 2 MiB frame for a page table, and what
happens depends on the word of it that the page selects. If that word is 0, `map_to` writes
an entry into the frame and succeeds; if its lowest bit is set, `unmap` writes 0 over it.

On its way `map_to` also adds flags to the three entries it passes. That changes no
translation (`translateAddr_widen`), but it is a change of the frame if one of the tables is in
it. `hugePage_untouched` says when nothing happens at all.
-/

namespace KernelR.Mm

open List Option Foundations

/-! ### Adding flags -/

/-- Memory, after the flags have been added to some of its words. -/
def widen (W : List (BitVec 64 × BitVec 9)) (flags : PageTableFlags)
    (mem : BitVec 64 → BitVec 9 → BitVec 64) : BitVec 64 → BitVec 9 → BitVec 64 :=
  fun table i => if (table, i) ∈ W then mem table i ||| (flags.inter .table).bits else mem table i

section Widen

variable {W : List (BitVec 64 × BitVec 9)} {flags : PageTableFlags}
  {mem : BitVec 64 → BitVec 9 → BitVec 64} {t : BitVec 64} {i : BitVec 9}

theorem widen_nil : widen [] flags mem = mem := by
  funext t i
  exact if_neg not_mem_nil

theorem setEntry_widen :
    setEntry (widen W flags mem) t i (widen W flags mem t i ||| (flags.inter .table).bits) =
      widen ((t, i) :: W) flags mem := by
  funext u j
  by_cases hword : (u, j) = (t, i)
  · cases hword
    rw [setEntry_self, widen, widen, if_pos mem_cons_self]
    split_ifs
    · rw [BitVec.or_assoc, BitVec.or_self]
    · rfl
  · rw [setEntry_of_ne fun hu hj => hword (congrArg₂ Prod.mk hu hj)]
    simp only [widen, mem_cons, hword, false_or]

theorem widen_eq_zero (hW : ∀ w ∈ W, mem w.1 w.2 ≠ 0#64) :
    widen W flags mem t i = 0#64 ↔ mem t i = 0#64 := by
  unfold widen
  split_ifs with hmem
  · refine iff_of_false (fun h => hW _ hmem (or_eq_zero_left h)) (hW _ hmem)
  · rfl

theorem entryAddr_widen : entryAddr (widen W flags mem t i) = entryAddr (mem t i) := by
  unfold widen
  split_ifs
  · exact entryAddr_or
  · rfl

theorem huge_widen_mem : (entryFlags (widen W flags mem t i)).contains .hugePage =
      (entryFlags (mem t i)).contains .hugePage := by
  unfold widen
  split_ifs
  · exact huge_widen
  · rfl

/-- **Flags for tables do not matter to translations.** -/
theorem translateAddr_widen (m : Machine) (hW : ∀ w ∈ W, m.mem w.1 w.2 ≠ 0#64)
    (p4 : BitVec 64) (v : VirtAddr) :
    { m with mem := widen W flags m.mem }.translateAddr p4 v = m.translateAddr p4 v := by
  have hused : ∀ t i, { m with mem := widen W flags m.mem }.usedTable t i = m.usedTable t i := by
    intro t i
    simp only [Machine.usedTable_eq, widen_eq_zero hW, entryAddr_widen]
  simp only [Machine.translateAddr, hused, huge_widen_mem]

theorem nextTable_widen (flags : PageTableFlags) {m : Machine} (hW : ∀ w ∈ W, m.mem w.1 w.2 ≠ 0#64)
    (hentry : m.mem t i ≠ 0#64) :
    { m with mem := widen W flags m.mem }.nextTable t i flags =
      (.ok (entryAddr (m.mem t i)), { m with mem := widen ((t, i) :: W) flags m.mem }) := by
  have hused : widen W flags m.mem t i ≠ 0#64 := (widen_eq_zero hW).not.mpr hentry
  rcases { m with mem := widen W flags m.mem }.nextTable_cases t i flags with
    ⟨hzero, -⟩ | ⟨_, _, hzero, -⟩ | ⟨-, hnext⟩
  · exact absurd hzero hused
  · exact absurd hzero hused
  · rw [hnext, Machine.widenEntry, Machine.write]
    simp only [entryAddr_widen, setEntry_widen]

end Widen

/-! ### The way to a huge page -/

/-- The page is in the huge page at `base`. -/
def InHugePage (m : Machine) (p4 : BitVec 64) (page : Page) (base : BitVec 64) : Prop :=
  (m.entryAt p4 page.start.path.tail).bind hugeFrame = some base

/-- The 2 MiB from `base` on. -/
def hugeRange (base : BitVec 64) : Set (BitVec 64) :=
  {f | base.toNat ≤ f.toNat ∧ f.toNat < base.toNat + 0x200000}

/-- Every address translates as before, and the 2 MiB from `base` on are as they were. -/
def Untouched (m m' : Machine) (p4 base : BitVec 64) : Prop :=
  (∀ v, m'.translateAddr p4 v = m.translateAddr p4 v) ∧ ∀ f ∈ hugeRange base, m'.mem f = m.mem f

/-- The entries on the way to the page that are inside the huge page, if any, have the flags for
tables that are asked for. -/
def FlagsThere (m : Machine) (p4 : BitVec 64) (page : Page) (flags : PageTableFlags)
    (base : BitVec 64) : Prop :=
  ∀ i p t, (i :: p) <:+ page.start.path.tail → m.tableAt p4 p = some t → t ∈ hugeRange base →
    (entryFlags (m.mem t i)).contains (flags.inter .table) = true

theorem tableAt_cons_eq_some {m : Machine} {p4 f : BitVec 64} {i : BitVec 9}
    {p : List (BitVec 9)} (h : m.tableAt p4 (i :: p) = some f) :
    ∃ t, m.tableAt p4 p = some t ∧ m.mem t i ≠ 0#64 ∧ entryAddr (m.mem t i) = f := by
  obtain ⟨t, ht, hfollow⟩ := bind_eq_some_iff.mp h
  refine ⟨t, ht, ?_, ?_⟩
  · rintro hzero
    rw [hzero, follow_zero] at hfollow
    cases hfollow
  · unfold follow at hfollow
    split_ifs at hfollow
    exact some.inj hfollow

section Huge

variable {m : Machine} {p4 base : BitVec 64} {page : Page} {frame : PhysFrame}
  {flags : PageTableFlags}

theorem InHugePage.tables (h : InHugePage m p4 page base) :
    ∃ p3 p2, m.tableAt p4 [page.start.p4Index] = some p3 ∧
      m.tableAt p4 [page.start.p3Index, page.start.p4Index] = some p2 ∧
      (m.mem p4 page.start.p4Index ≠ 0#64 ∧ entryAddr (m.mem p4 page.start.p4Index) = p3) ∧
      (m.mem p3 page.start.p3Index ≠ 0#64 ∧ entryAddr (m.mem p3 page.start.p3Index) = p2) ∧
      (m.mem p2 page.start.p2Index ≠ 0#64 ∧ entryAddr (m.mem p2 page.start.p2Index) = base) := by
  obtain ⟨entry, hentry, hbase⟩ := bind_eq_some_iff.mp h
  obtain ⟨p2, hp2, hused⟩ := bind_eq_some_iff.mp hentry
  obtain ⟨p3, hp3, h3⟩ := tableAt_cons_eq_some hp2
  obtain ⟨_, hroot, h4⟩ := tableAt_cons_eq_some hp3
  cases hroot
  refine ⟨p3, p2, hp3, hp2, h4, h3, ?_⟩
  split_ifs at hused with hzero
  cases hused
  unfold hugeFrame at hbase
  split_ifs at hbase
  exact ⟨hzero, some.inj hbase⟩

/-- The words that `map_to` passes. -/
def passed (page : Page) (p4 p3 p2 : BitVec 64) : List (BitVec 64 × BitVec 9) :=
  [(p2, page.start.p2Index), (p3, page.start.p3Index), (p4, page.start.p4Index)]

/-- **`map_to` inside a huge page** goes on to the frame. -/
theorem mapTo_eq_mapLeaf (frame : PhysFrame) (flags : PageTableFlags) {p3 p2 : BitVec 64}
    (h4 : m.mem p4 page.start.p4Index ≠ 0#64 ∧ entryAddr (m.mem p4 page.start.p4Index) = p3)
    (h3 : m.mem p3 page.start.p3Index ≠ 0#64 ∧ entryAddr (m.mem p3 page.start.p3Index) = p2)
    (h2 : m.mem p2 page.start.p2Index ≠ 0#64 ∧ entryAddr (m.mem p2 page.start.p2Index) = base) :
    m.mapTo page frame flags p4 =
      { m with mem := widen (passed page p4 p3 p2) flags m.mem }.mapLeaf base page.start.p1Index
        frame flags := by
  have hstart : m = { m with mem := widen [] flags m.mem } := by rw [widen_nil]
  have step4 := nextTable_widen flags (W := []) (m := m) (fun w hw => absurd hw not_mem_nil) h4.1
  have step3 := nextTable_widen flags (W := [(p4, page.start.p4Index)]) (m := m)
    (by simpa using h4.1) h3.1
  have step2 := nextTable_widen flags
    (W := [(p3, page.start.p3Index), (p4, page.start.p4Index)]) (m := m)
    (by simpa using ⟨h3.1, h4.1⟩) h2.1
  rw [h4.2] at step4
  rw [h3.2] at step3
  rw [h2.2] at step2
  conv_lhs => rw [hstart]
  simp only [Machine.mapTo, step4, step3, step2]
  rfl

theorem contains_iff_or {entry : BitVec 64} {other : PageTableFlags} :
    (entryFlags entry).contains other = true ↔ entry ||| other.bits = entry :=
  contains_entryFlags.trans and_eq_right_iff_or_eq_left

/-- The walk of `map_to` leaves the huge page alone exactly if it has no flags to add there. -/
theorem widen_passed_iff {p3 p2 : BitVec 64} (hp3 : m.tableAt p4 [page.start.p4Index] = some p3)
    (hp2 : m.tableAt p4 [page.start.p3Index, page.start.p4Index] = some p2) :
    (∀ f ∈ hugeRange base, widen (passed page p4 p3 p2) flags m.mem f = m.mem f) ↔
      FlagsThere m p4 page flags base := by
  constructor
  · intro h i p t hsuffix ht hrange
    have hmem : (t, i) ∈ passed page p4 p3 p2 := by
      simp only [VirtAddr.path, tail_cons, suffix_cons_iff, suffix_nil] at hsuffix
      rcases hsuffix with heq | heq | heq | heq
      · obtain ⟨rfl, rfl⟩ := List.cons.inj heq
        obtain rfl := some.inj (hp2.symm.trans ht)
        exact mem_cons_self
      · obtain ⟨rfl, rfl⟩ := List.cons.inj heq
        obtain rfl := some.inj (hp3.symm.trans ht)
        exact mem_cons_of_mem _ mem_cons_self
      · obtain ⟨rfl, rfl⟩ := List.cons.inj heq
        cases ht
        exact mem_cons_of_mem _ (mem_cons_of_mem _ mem_cons_self)
      · cases heq
    rw [contains_iff_or]
    have hword := congrFun (h t hrange) i
    rwa [widen, if_pos hmem] at hword
  · intro h f hf
    funext j
    rw [widen]
    split_ifs with hmem
    · refine contains_iff_or.mp ?_
      simp only [passed, mem_cons, not_mem_nil, or_false, Prod.mk.injEq] at hmem
      rcases hmem with ⟨rfl, rfl⟩ | ⟨rfl, rfl⟩ | ⟨rfl, rfl⟩
      · exact h _ _ _ ⟨[], rfl⟩ hp2 hf
      · exact h _ _ _ ⟨[_], rfl⟩ hp3 hf
      · exact h _ _ _ ⟨[_, _], rfl⟩ rfl hf
    · rfl

theorem base_mem_hugeRange (base : BitVec 64) : base ∈ hugeRange base := ⟨le_rfl, by omega⟩

/-- Where the frame has a 0, `map_to` succeeds and writes an entry over it. -/
theorem InHugePage.mapTo_of_zero (h : InHugePage m p4 page base)
    (hzero : m.mem base page.start.p1Index = 0#64) (frame : PhysFrame) (flags : PageTableFlags) :
    (m.mapTo page frame flags p4).1 = .ok () ∧
      ¬ Untouched m (m.mapTo page frame flags p4).2 p4 base := by
  obtain ⟨p3, p2, -, -, h4, h3, h2⟩ := h.tables
  have hW : ∀ w ∈ passed page p4 p3 p2, m.mem w.1 w.2 ≠ 0#64 := by
    simpa [passed] using ⟨h2.1, h3.1, h4.1⟩
  have hunused : isUnused (widen (passed page p4 p3 p2) flags m.mem base page.start.p1Index) :=
    isUnused_iff.mpr ((widen_eq_zero hW).mpr hzero)
  rw [mapTo_eq_mapLeaf frame flags h4 h3 h2, Machine.mapLeaf, if_pos hunused]
  refine ⟨rfl, fun huntouched => ?_⟩
  have hword := congrFun (huntouched.2 base (base_mem_hugeRange base)) page.start.p1Index
  rw [Machine.write_mem, setEntry_self, hzero] at hword
  exact ne_zero_of_present present_leaf hword

/-- **`map_to` on a page inside a huge page.** -/
theorem InHugePage.mapTo_untouched (h : InHugePage m p4 page base) (frame : PhysFrame)
    (flags : PageTableFlags) :
    ((∃ err, (m.mapTo page frame flags p4).1 = .error err) ∧
        Untouched m (m.mapTo page frame flags p4).2 p4 base) ↔
      m.mem base page.start.p1Index ≠ 0#64 ∧ FlagsThere m p4 page flags base := by
  by_cases hzero : m.mem base page.start.p1Index = 0#64
  · have hok := h.mapTo_of_zero hzero frame flags
    exact iff_of_false (fun hmap => hok.2 hmap.2) fun hne => hne.1 hzero
  · obtain ⟨p3, p2, hp3, hp2, h4, h3, h2⟩ := h.tables
    have hW : ∀ w ∈ passed page p4 p3 p2, m.mem w.1 w.2 ≠ 0#64 := by
      simpa [passed] using ⟨h2.1, h3.1, h4.1⟩
    have hused : ¬ isUnused (widen (passed page p4 p3 p2) flags m.mem base page.start.p1Index) :=
      isUnused_iff.not.mpr ((widen_eq_zero hW).not.mpr hzero)
    rw [mapTo_eq_mapLeaf frame flags h4 h3 h2, Machine.mapLeaf, if_neg hused,
      ← widen_passed_iff hp3 hp2]
    refine and_congr (iff_of_true ⟨_, rfl⟩ hzero) ?_
    exact and_iff_right (translateAddr_widen m hW p4)

/-- **`unmap` on a page inside a huge page.** -/
theorem InHugePage.unmap_untouched (h : InHugePage m p4 page base) :
    (∀ r, m.unmap page p4 = some r → Untouched m r.2 p4 base) ↔
      ¬ (PathPresent m p4 page ∧
        (entryFlags (m.mem base page.start.p1Index)).contains .present = true) := by
  obtain ⟨p3, p2, hp3, hp2, h4, h3, h2⟩ := h.tables
  have hpath := pathPresent_iff (Machine.entryAt_of_used (m := m) rfl h4.1)
    (Machine.entryAt_of_used hp3 h3.1) (Machine.entryAt_of_used hp2 h2.1)
  have hunmap := m.unmap_eq_some_iff h4.2 h3.2 h2.2
  rw [← hpath] at hunmap
  constructor
  · rintro huntouched ⟨hpresent, hword⟩
    have hsame := (huntouched _ ((hunmap _).mpr ⟨hpresent, hword, rfl⟩)).2 base
      (base_mem_hugeRange base)
    have hzero := congrFun hsame page.start.p1Index
    rw [Machine.write_mem, setEntry_self] at hzero
    exact ne_zero_of_present hword hzero.symm
  · intro hnot r hr
    obtain ⟨hpresent, hword, -⟩ := (hunmap r).mp hr
    exact absurd ⟨hpresent, hword⟩ hnot

end Huge

/-- **Pages inside huge pages.**  `map_to` fails and leaves everything alone exactly if the word
of the frame that it takes for an entry is not 0, and it adds no flags to entries inside the
frame; `unmap` leaves everything alone exactly if it does not get to that word, or its lowest
bit is clear. -/
theorem hugePage_untouched (m : Machine) (p4 base : BitVec 64) (page : Page) (frame : PhysFrame)
    (flags : PageTableFlags) (h : InHugePage m p4 page base) :
    (((∃ err, (m.mapTo page frame flags p4).1 = .error err) ∧
        Untouched m (m.mapTo page frame flags p4).2 p4 base) ↔
      m.mem base page.start.p1Index ≠ 0#64 ∧ FlagsThere m p4 page flags base) ∧
    ((∀ r, m.unmap page p4 = some r → Untouched m r.2 p4 base) ↔
      ¬ (PathPresent m p4 page ∧
        (entryFlags (m.mem base page.start.p1Index)).contains .present = true)) :=
  ⟨h.mapTo_untouched frame flags, h.unmap_untouched⟩

/-! ### The huge pages of the boot tables -/

/-- The frames where `boot.asm` has its tables: different ones below 4 GiB, zeroed. -/
structure BootTables (m : Machine) (p4 p3 p2 p1 p1' : BitVec 64) : Prop where
  distinct : [p4, p3, p2, p1, p1'].Nodup
  aligned : ∀ t ∈ [p4, p3, p2, p1, p1'], t &&& 0xFFFFF000#64 = t
  zeroed : ∀ t ∈ [p4, p3, p2, p1, p1'], ∀ i, m.mem t i = 0#64

section Boot

variable {m : Machine} {p4 p3 p2 p1 p1' table u : BitVec 64} {i j : BitVec 9}

/-- The words that `set_up_page_tables` writes, in order. -/
def bootWrites (p4 p3 p2 p1 p1' : BitVec 64) : List ((BitVec 64 × BitVec 9) × BitVec 32) :=
  [((p4, 0#9), p3.setWidth 32 ||| 0b11#32), ((p4, 256#9), p3.setWidth 32 ||| 0b11#32),
    ((p3, 0#9), p2.setWidth 32 ||| 0b11#32), ((p2, 0#9), p1.setWidth 32 ||| 0b11#32)] ++
  (List.range 512).map (fun ecx =>
    ((p1, .ofNat 9 ecx), .ofNat 32 ecx * 0x1000#32 ||| 0b11#32)) ++
  [((p2, 1#9), p1'.setWidth 32 ||| 0b11#32)] ++
  (List.range 512).map (fun ecx =>
    ((p1', .ofNat 9 ecx), .ofNat 32 ecx * 0x1000#32 + 0x200000#32 ||| 0b11#32)) ++
  (List.range' 2 510).map (fun ecx =>
    ((p2, .ofNat 9 ecx), .ofNat 32 ecx * 0x200000#32 ||| 0b10000011#32))

/-- Write words into tables, one after another. -/
def Machine.writeAll (m : Machine) (W : List ((BitVec 64 × BitVec 9) × BitVec 32)) : Machine :=
  W.foldl (fun m w => m.writeLow w.1.1 w.1.2 w.2) m

theorem setUpPageTables_eq (m : Machine) (p4 p3 p2 p1 p1' : BitVec 64) :
    m.setUpPageTables p4 p3 p2 p1 p1' = m.writeAll (bootWrites p4 p3 p2 p1 p1') := by
  simp only [Machine.writeAll, bootWrites, foldl_append, foldl_map, foldl_cons, foldl_nil]
  rfl

theorem writeAll_of_notMem {W : List ((BitVec 64 × BitVec 9) × BitVec 32)}
    (h : (u, j) ∉ W.map Prod.fst) (m : Machine) : (m.writeAll W).mem u j = m.mem u j := by
  induction W generalizing m with
  | nil => rfl
  | cons w W ih =>
    rw [map_cons, mem_cons, not_or] at h
    refine (ih h.2 _).trans (setEntry_of_ne fun hu hj => h.1 ?_)
    rw [hu, hj]

theorem writeAll_of_mem {W : List ((BitVec 64 × BitVec 9) × BitVec 32)}
    (hW : (W.map Prod.fst).Nodup) (hzero : m.mem u j = 0#64) {eax : BitVec 32}
    (h : ((u, j), eax) ∈ W) : (m.writeAll W).mem u j = eax.setWidth 64 := by
  induction W generalizing m with
  | nil => cases h
  | cons w W ih =>
    rw [map_cons, nodup_cons] at hW
    rcases mem_cons.mp h with rfl | h
    · refine (writeAll_of_notMem hW.1 _).trans ?_
      show (m.writeLow u j eax).mem u j = _
      rw [Machine.writeLow, Machine.write_mem, setEntry_self, hzero, BitVec.zero_and,
        BitVec.zero_or]
    · refine ih hW.2 ((setEntry_of_ne fun hu hj => hW.1 ?_).trans hzero) h
      exact mem_map.mpr ⟨_, h, by rw [hu, hj]⟩

theorem ofNat_toNat_index (i : BitVec 9) : BitVec.ofNat 9 i.toNat = i := by
  rw [BitVec.ofNat_toNat, BitVec.setWidth_eq]

/-- The last loop starts at the third entry of the page directory. -/
theorem lowIndex_ne {k b : ℕ} (hk : k ∈ List.range' 2 510) (hb : b < 2) :
    BitVec.ofNat 9 b ≠ BitVec.ofNat 9 k := by
  intro heq
  have hk' := mem_range'_1.mp hk
  have hbk := index_inj (by omega) (by omega) heq
  omega

variable (hboot : BootTables m p4 p3 p2 p1 p1')

include hboot

theorem BootTables.ne : (p4 ≠ p3 ∧ p4 ≠ p2 ∧ p4 ≠ p1 ∧ p4 ≠ p1') ∧ (p3 ≠ p2 ∧ p3 ≠ p1 ∧ p3 ≠ p1') ∧
      (p2 ≠ p1 ∧ p2 ≠ p1') ∧ p1 ≠ p1' := by
  have hne := hboot.distinct
  simp only [nodup_cons, mem_cons, not_mem_nil, or_false, not_or,
    nodup_nil, not_false_eq_true, and_true] at hne
  exact hne

theorem BootTables.writes_nodup : ((bootWrites p4 p3 p2 p1 p1').map Prod.fst).Nodup := by
  obtain ⟨⟨h43, h42, h41, h41'⟩, ⟨h32, h31, h31'⟩, ⟨h21, h21'⟩, h11'⟩ := hboot.ne
  have hloop : ∀ {L : List (BitVec 64 × BitVec 9)} (t : BitVec 64) {l : List ℕ}, L.Nodup →
      l.Nodup → (∀ k ∈ l, k < 512 ∧ (t, BitVec.ofNat 9 k) ∉ L) →
      (L ++ l.map fun k => (t, BitVec.ofNat 9 k)).Nodup := by
    intro L t l hL hl hlt
    refine hL.append (hl.map_on fun a ha b hb heq => ?_) fun w hw hw' => ?_
    · exact index_inj (hlt a ha).1 (hlt b hb).1 (Prod.mk.inj heq).2
    · obtain ⟨k, hk, rfl⟩ := mem_map.mp hw'
      exact (hlt k hk).2 hw
  simp only [bootWrites, map_append, List.map_map, map_cons, map_nil, Function.comp_def]
  refine hloop p2 (hloop p1' (hloop p2 (l := [1]) (hloop p1 ?_ nodup_range fun k hk =>
    ⟨mem_range.mp hk, ?_⟩) (nodup_singleton 1) ?_) nodup_range fun k hk =>
    ⟨mem_range.mp hk, ?_⟩) nodup_range' fun k hk => ⟨(mem_range'_1.mp hk).2, ?_⟩
  · simp [h43, h42, h32]
  · simp [h41.symm, h31.symm, h21.symm]
  · simp [h42.symm, h32.symm, h21.symm]
  · simp [h41'.symm, h31'.symm, h21'.symm, h11']
  · simp [h42.symm, h32.symm, h21.symm, h21'.symm, (lowIndex_ne hk (by decide : 0 < 2)).symm,
      (lowIndex_ne hk (by decide : 1 < 2)).symm]

theorem BootTables.mem_written (hu : u ∈ [p4, p3, p2, p1, p1']) {eax : BitVec 32}
    (h : ((u, j), eax) ∈ bootWrites p4 p3 p2 p1 p1') :
    (m.setUpPageTables p4 p3 p2 p1 p1').mem u j = eax.setWidth 64 := by
  rw [setUpPageTables_eq]
  exact writeAll_of_mem hboot.writes_nodup (hboot.zeroed u hu j) h

theorem BootTables.mem_p4 (hi : i = 0#9 ∨ i = 256#9) :
    (m.setUpPageTables p4 p3 p2 p1 p1').mem p4 i = (p3.setWidth 32 ||| 0b11#32).setWidth 64 :=
  hboot.mem_written (by simp) (by rcases hi with rfl | rfl <;> simp [bootWrites])

theorem BootTables.mem_p3 :
    (m.setUpPageTables p4 p3 p2 p1 p1').mem p3 0#9 = (p2.setWidth 32 ||| 0b11#32).setWidth 64 :=
  hboot.mem_written (by simp) (by simp [bootWrites])

theorem BootTables.mem_p2 (hi : 2 ≤ i.toNat) : (m.setUpPageTables p4 p3 p2 p1 p1').mem p2 i =
      (BitVec.ofNat 32 i.toNat * 0x200000#32 ||| 0b10000011#32).setWidth 64 := by
  have hrange : i.toNat ∈ List.range' 2 510 := mem_range'_1.mpr ⟨hi, i.isLt⟩
  refine hboot.mem_written (by simp) (mem_append_right _ (mem_map.mpr ⟨_, hrange, ?_⟩))
  rw [ofNat_toNat_index]

omit hboot

theorem setUpPageTables_of_ne (hu : u ∉ [p4, p3, p2, p1, p1']) (j : BitVec 9) :
    (m.setUpPageTables p4 p3 p2 p1 p1').mem u j = m.mem u j := by
  simp only [mem_cons, not_mem_nil, or_false, not_or] at hu
  obtain ⟨h4, h3, h2, h1, h1'⟩ := hu
  rw [setUpPageTables_eq]
  refine writeAll_of_notMem ?_ m
  simp [bootWrites, h4, h3, h2, Ne.symm h2, Ne.symm h1, Ne.symm h1']

/-- The entries that lead to tables: the table, `PRESENT` and `WRITABLE`. -/
theorem follow_boot_entry {t : BitVec 64} (ht : t &&& 0xFFFFF000#64 = t) (d : ℕ) :
    follow d ((t.setWidth 32 ||| 0b11#32).setWidth 64) = some t := by
  have hlt : t.toNat < 2 ^ 32 := by
    rw [← ht, BitVec.toNat_and]
    exact Nat.and_le_right.trans_lt (by decide)
  have haligned : t &&& addrMask = t := by
    rw [← ht, BitVec.and_assoc]
    rfl
  have hlow : (t.setWidth 32).setWidth 64 = t := by
    apply BitVec.eq_of_toNat_eq
    rw [BitVec.toNat_setWidth, BitVec.toNat_setWidth, Nat.mod_eq_of_lt hlt, Nat.mod_eq_of_lt t.isLt]
  have hword : (t.setWidth 32 ||| 0b11#32).setWidth 64 =
      setAddr ⟨t, haligned⟩ (.union .present .writable) := by
    rw [BitVec.setWidth_or, hlow]
    rfl
  have hpresent : (entryFlags (setAddr ⟨t, haligned⟩ (.union .present .writable))).contains
      .present = true := by
    rw [contains_setAddr]
    rfl
  rw [hword, follow_of_used (ne_zero_of_present hpresent), entryAddr_setAddr]
  intro _
  rw [contains_setAddr]
  rfl

/-- The entries that map huge pages: 2 MiB each, one after another. -/
theorem hugeFrame_boot_entry : ∀ i : BitVec 9, 2 ≤ i.toNat →
    (BitVec.ofNat 32 i.toNat * 0x200000#32 ||| 0b10000011#32).setWidth 64 ≠ 0#64 ∧
    hugeFrame ((BitVec.ofNat 32 i.toNat * 0x200000#32 ||| 0b10000011#32).setWidth 64) =
      some (i.setWidth 64 * 0x200000#64) := by
  decide +kernel

include hboot in
/-- **The huge pages after boot**: those of the first 1 GiB, from 4 MiB on, at 0 and at
`PHYS_OFFSET`. -/
theorem BootTables.inHugePage {page : Page}
    (h4 : page.start.p4Index = 0#9 ∨ page.start.p4Index = 256#9) (h3 : page.start.p3Index = 0#9)
    (h2 : 2 ≤ page.start.p2Index.toNat) :
    InHugePage (m.setUpPageTables p4 p3 p2 p1 p1') p4 page
      (page.start.p2Index.setWidth 64 * 0x200000#64) := by
  have hmem4 := hboot.mem_p4 h4
  have hmem3 := hboot.mem_p3
  have hmem2 := hboot.mem_p2 h2
  generalize m.setUpPageTables p4 p3 p2 p1 p1' = booted at *
  have hp3 : booted.tableAt p4 [page.start.p4Index] = some p3 := by
    refine (reach_cons_of_some rfl).trans ?_
    rw [hmem4, follow_boot_entry (hboot.aligned p3 (by simp))]
  have hp2 : booted.tableAt p4 [page.start.p3Index, page.start.p4Index] = some p2 := by
    refine (reach_cons_of_some hp3).trans ?_
    rw [h3, hmem3, follow_boot_entry (hboot.aligned p2 (by simp))]
  obtain ⟨hused, hhuge⟩ := hugeFrame_boot_entry page.start.p2Index h2
  have hat := Machine.entryAt_of_used (i := page.start.p2Index) hp2 (hmem2 ▸ hused)
  refine (congrArg (Option.bind · hugeFrame) hat).trans ?_
  rw [bind_some, hmem2, hhuge]

end Boot

/-! ### A machine with 1 GiB -/

/-- Memory before the page tables are set up: zeros, and a word at 4 MiB. -/
def bootMachine (word : BitVec 64) : Machine where
  mem := fun table i => if table = 0x400000#64 ∧ i = 0#9 then word else 0#64
  avail := []
  handed := []
  cleared := []
  book := []
  scribble _ mem := mem

/-- The tables after `set_up_page_tables` and `map_all_physical_memory`. -/
def bootedMachine (word : BitVec 64) : Option Machine :=
  ((bootMachine word).setUpPageTables 0x101000#64 0x102000#64 0x103000#64 0x104000#64
    0x105000#64).mapAllPhysicalMemory 0x40000000#64 0x101000#64

/-- The page at 4 MiB, in the direct mapping. -/
def pageInHuge : Page := ⟨⟨0xFFFF800000400000#64, by decide⟩, by decide⟩

theorem bootMachine_tables (word : BitVec 64) :
    BootTables (bootMachine word) 0x101000#64 0x102000#64 0x103000#64 0x104000#64 0x105000#64 where
  distinct := by simp
  aligned := by
    intro t ht
    simp only [mem_cons, not_mem_nil, or_false] at ht
    rcases ht with rfl | rfl | rfl | rfl | rfl <;> decide
  zeroed := by
    intro t ht i
    refine if_neg fun h => ?_
    obtain rfl := h.1
    revert ht
    decide

/-- On a machine with 1 GiB, `map_all_physical_memory` has nothing to do. -/
theorem mapAllPhysicalMemory_oneGiB (m : Machine) (p4 : BitVec 64) :
    m.mapAllPhysicalMemory 0x40000000#64 p4 = some m := rfl

/-- The first page of the first huge page, and the word that the walks find there. -/
theorem bootedMachine_eq (word : BitVec 64) :
    ∃ m, bootedMachine word = some m ∧ InHugePage m 0x101000#64 pageInHuge 0x400000#64 ∧
      m.mem 0x400000#64 pageInHuge.start.p1Index = word := by
  have h4 : pageInHuge.start.p4Index = 256#9 := by decide
  have h3 : pageInHuge.start.p3Index = 0#9 := by decide
  have h2 : pageInHuge.start.p2Index = 2#9 := by decide
  have h1 : pageInHuge.start.p1Index = 0#9 := by decide
  have hhuge := (bootMachine_tables word).inHugePage (Or.inr h4) h3 (by rw [h2]; decide)
  have hbase : (2#9).setWidth 64 * 0x200000#64 = 0x400000#64 := by decide
  rw [h2, hbase] at hhuge
  have hword : ((bootMachine word).setUpPageTables 0x101000#64 0x102000#64 0x103000#64 0x104000#64
      0x105000#64).mem 0x400000#64 pageInHuge.start.p1Index = word := by
    rw [setUpPageTables_of_ne (by simp), h1]
    simp [bootMachine]
  rw [bootedMachine, mapAllPhysicalMemory_oneGiB]
  exact ⟨_, rfl, hhuge, hword⟩

/-- `map_to` takes a frame full of zeros for a page table, and writes into it. -/
theorem mapTo_writes_into_huge_page :
    ∃ m, bootedMachine 0#64 = some m ∧ InHugePage m 0x101000#64 pageInHuge 0x400000#64 ∧
      (m.mapTo pageInHuge ⟨0x8000#64, by decide⟩ .present 0x101000#64).1 = .ok () ∧
      ¬ Untouched m (m.mapTo pageInHuge ⟨0x8000#64, by decide⟩ .present 0x101000#64).2
        0x101000#64 0x400000#64 := by
  obtain ⟨m, hm, hhuge, hword⟩ := bootedMachine_eq 0#64
  exact ⟨m, hm, hhuge, hhuge.mapTo_of_zero hword _ _⟩

/-- A frame whose first word is 2 happens to be left alone. -/
theorem hugePage_untouched_bootedMachine :
    ∃ m, bootedMachine 2#64 = some m ∧ InHugePage m 0x101000#64 pageInHuge 0x400000#64 ∧
      Untouched m (m.mapTo pageInHuge ⟨0x8000#64, by decide⟩ .noCache 0x101000#64).2
        0x101000#64 0x400000#64 ∧
      ∀ r, m.unmap pageInHuge 0x101000#64 = some r →
        Untouched m r.2 0x101000#64 0x400000#64 := by
  obtain ⟨m, hm, hhuge, hword⟩ := bootedMachine_eq 2#64
  obtain ⟨hmap, hunmap⟩ := hugePage_untouched m 0x101000#64 0x400000#64 pageInHuge
    ⟨0x8000#64, by decide⟩ .noCache hhuge
  refine ⟨m, hm, hhuge, (hmap.mpr ⟨?_, ?_⟩).2, hunmap.mpr ?_⟩
  · rw [hword]
    decide
  · intro i p t _ _ _
    rw [contains_entryFlags]
    exact BitVec.and_zero
  · rintro ⟨-, hpresent⟩
    rw [hword] at hpresent
    revert hpresent
    decide

end KernelR.Mm
