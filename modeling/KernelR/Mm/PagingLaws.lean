import KernelR.Foundations.Teardown
import KernelR.Mm.Paging

/-!
# What `map_to`, `unmap` and `translate_addr` do to each other

The page tables below a PML4 are a tree of tables, `follow`. An entry of a page
directory with `HUGE_PAGE` set ends the walk, as in `translate_addr`; everywhere else an
entry that is used leads on. `Machine.entryAt` is the tree as a partial function from
paths to entries, and `translateAddr_eq` reads all translations off it.

`map_to` changes the entries on the way to the page, one after another (`NextStep`), and
then the entry of the page. `unmap` goes the same way, but it stops at an entry that is
not `PRESENT`, while `map_to` and `translate_addr` only stop at one that is unused. So a
page that `map_to` has mapped can be unmapped exactly if the tables on its way were
present, or are made so by the flags that `map_to` is given (`mapTo_laws`).
-/

namespace KernelR.Mm

open List Option Foundations

/-! ### The tree of page tables -/

/-- The table, or at depth 3 the frame, that an entry of a table at depth `d` leads to. -/
def follow (d : ℕ) (entry : BitVec 64) : Option (BitVec 64) :=
  if entry = 0#64 ∨ (d = 2 ∧ (entryFlags entry).contains .hugePage = true) then none
  else some (entryAddr entry)

/-- The 2 MiB frame that an entry of a page directory maps. -/
def hugeFrame (entry : BitVec 64) : Option (BitVec 64) :=
  if (entryFlags entry).contains .hugePage then some (entryAddr entry) else none

/-- Paths to tables. -/
def IsTable (p : List (BitVec 9)) : Prop := p.length ≤ 3

theorem isTable_tailClosed : TailClosed IsTable := by
  intro p hp
  unfold IsTable at hp ⊢
  rw [length_tail]
  omega

namespace Machine

/-- The table or frame at the end of a path, last index first. -/
def tableAt (m : Machine) (p4 : BitVec 64) (p : List (BitVec 9)) : Option (BitVec 64) :=
  reach follow m.mem p4 p

/-- The entry that a path names, if it is used. -/
def entryAt (m : Machine) (p4 : BitVec 64) (p : List (BitVec 9)) : Option (BitVec 64) :=
  Foundations.entryAt follow m.mem p4 0#64 p

end Machine

/-- Page tables, along the paths of a set: no table is shared, and the frame allocator
hands out frames that are none of them. -/
structure PageTree (S : List (BitVec 9) → Prop) (m : Machine) (p4 : BitVec 64) : Prop where
  unshared : Unshared follow m.mem p4 S
  fresh : ∀ frame ∈ m.avail, ∀ p, S p → m.tableAt p4 p ≠ some frame.start
  distinct : (m.avail.map PhysFrame.start).Nodup

theorem PageTree.mono {S S' : List (BitVec 9) → Prop} {m : Machine} {p4 : BitVec 64}
    (h : PageTree S m p4) (hsub : ∀ {q}, S' q → S q) : PageTree S' m p4 where
  unshared _ _ _ hp hq := h.unshared (hsub hp) (hsub hq)
  fresh frame hframe p hp := h.fresh frame hframe p (hsub hp)
  distinct := h.distinct

section Entry

variable {d : ℕ} {entry : BitVec 64} {frame : PhysFrame} {flags : PageTableFlags}

theorem follow_zero (d : ℕ) : follow d 0#64 = none := if_pos (Or.inl rfl)

theorem follow_of_used (hentry : entry ≠ 0#64)
    (hhuge : d = 2 → (entryFlags entry).contains .hugePage = false) :
    follow d entry = some (entryAddr entry) := by
  refine if_neg ?_
  rintro (h | ⟨hd, h⟩)
  · exact hentry h
  · rw [hhuge hd] at h
    cases h

theorem follow_setAddr_table (d : ℕ) : follow d (setAddr frame .table) = some frame.start := by
  have hpresent : (entryFlags (setAddr frame .table)).contains .present = true := by
    rw [contains_setAddr]
    rfl
  have hhuge : (entryFlags (setAddr frame .table)).contains .hugePage = false := by
    rw [contains_setAddr]
    rfl
  rw [follow_of_used (ne_zero_of_present hpresent) fun _ => hhuge, entryAddr_setAddr]

theorem follow_widen (hentry : entry ≠ 0#64) (d : ℕ) :
    follow d (entry ||| (flags.inter .table).bits) = follow d entry := by
  have hused : entry ||| (flags.inter .table).bits ≠ 0#64 := fun h =>
    hentry (or_eq_zero_left h)
  simp only [follow, hused, hentry, huge_widen, entryAddr_or, false_or]

theorem hugeFrame_widen : hugeFrame (entry ||| (flags.inter .table).bits) = hugeFrame entry := by
  simp only [hugeFrame, huge_widen, entryAddr_or]

theorem hugeFrame_setAddr_table : hugeFrame (setAddr frame .table) = none := by
  rw [hugeFrame, contains_setAddr]
  rfl

end Entry

namespace Machine

variable {m m' : Machine} {p4 t t' : BitVec 64} {i : BitVec 9} {p : List (BitVec 9)}

theorem tableAt_cons (m : Machine) (p4 : BitVec 64) (i : BitVec 9) (p : List (BitVec 9)) :
    m.tableAt p4 (i :: p) = (m.entryAt p4 (i :: p)).bind (follow p.length) :=
  reach_cons_eq_bind_entryAt follow_zero

theorem entryAt_cons (m : Machine) (p4 : BitVec 64) (i : BitVec 9) (p : List (BitVec 9)) :
    m.entryAt p4 (i :: p) =
      (m.tableAt p4 p).bind fun t => if m.mem t i = 0#64 then none else some (m.mem t i) :=
  rfl

theorem entryAt_of_tableAt (h : m.tableAt p4 p = some t) :
    m.entryAt p4 (i :: p) = if m.mem t i = 0#64 then none else some (m.mem t i) :=
  entryAt_cons_of_some h

/-- The entry that is there, where a step of a walk goes on. -/
theorem entryAt_of_used (h : m.tableAt p4 p = some t) (hentry : m.mem t i ≠ 0#64) :
    m.entryAt p4 (i :: p) = some (m.mem t i) := by
  rw [entryAt_of_tableAt h, if_neg hentry]

/-- Above the page directories a step of `translate_addr` follows the tree. -/
theorem tableAt_bind_usedTable (m : Machine) (p4 : BitVec 64) (i : BitVec 9)
    (p : List (BitVec 9)) (hp : p.length ≠ 2) :
    m.tableAt p4 (i :: p) = (m.tableAt p4 p).bind fun t => m.usedTable t i := by
  refine Option.bind_congr fun t _ => ?_
  rw [usedTable_eq]
  simp only [follow, hp, false_and, or_false]

/-- **Translations, read off the tree.** -/
theorem translateAddr_eq (m : Machine) (p4 : BitVec 64) (v : VirtAddr) : m.translateAddr p4 v =
      (((m.entryAt p4 v.path.tail).bind hugeFrame).map (· + (v.bits &&& 0x1FFFFF#64))).or
        ((m.tableAt p4 v.path).map (· + (v.bits &&& 0xFFF#64))) := by
  have hp2 : m.tableAt p4 [v.p3Index, v.p4Index] =
      (m.usedTable p4 v.p4Index).bind fun p3 => m.usedTable p3 v.p3Index := by
    rw [tableAt_bind_usedTable _ _ _ _ (by simp), tableAt_bind_usedTable _ _ _ _ (by simp)]
    rfl
  have hwalk : m.translateAddr p4 v = (m.tableAt p4 [v.p3Index, v.p4Index]).bind fun p2 =>
      (m.usedTable p2 v.p2Index).bind fun p1 =>
        if (entryFlags (m.mem p2 v.p2Index)).contains .hugePage then
          some (p1 + (v.bits &&& 0x1FFFFF#64))
        else (m.usedTable p1 v.p1Index).bind fun f => some (f + (v.bits &&& 0xFFF#64)) := by
    rw [hp2, Option.bind_assoc]
    rfl
  have hleaf : m.tableAt p4 v.path = (m.tableAt p4 [v.p2Index, v.p3Index, v.p4Index]).bind fun p1 =>
        m.usedTable p1 v.p1Index := tableAt_bind_usedTable _ _ _ _ (by simp)
  have hdir : v.path.tail = [v.p2Index, v.p3Index, v.p4Index] := rfl
  rw [hwalk, hleaf, hdir, tableAt_cons m p4 v.p2Index, entryAt_cons m p4 v.p2Index]
  -- below, the page directory decides
  cases m.tableAt p4 [v.p3Index, v.p4Index] with
  | none => rfl
  | some p2 =>
    simp only [bind_some, usedTable_eq]
    by_cases hentry : m.mem p2 v.p2Index = 0#64
    · simp [hentry]
    · cases hhuge : (entryFlags (m.mem p2 v.p2Index)).contains .hugePage with
      | true => simp [hentry, hhuge, hugeFrame]
      | false =>
        rw [if_neg hentry, if_neg hentry, bind_some, bind_some,
          bind_some, follow_of_used hentry fun _ => hhuge, bind_some]
        simp only [hugeFrame, hhuge, Bool.false_eq_true, if_false, map_none, Option.none_or]
        exact Option.map_eq_bind.symm

/-- The entries of tables that have not changed are where they were. -/
theorem entryAt_congr {S : List (BitVec 9) → Prop} (hS : TailClosed S)
    (hmem : ∀ {q u}, S q → m.tableAt p4 q = some u → m'.mem u = m.mem u) (hp : S p) :
    m'.entryAt p4 (i :: p) = m.entryAt p4 (i :: p) := by
  have htable : m'.tableAt p4 p = m.tableAt p4 p := by
    refine reach_congr hS (fun {j r u} hjr hu => ?_) hp
    have hr : S r := hS hjr
    rw [hmem hr hu]
  rw [entryAt_cons, entryAt_cons, htable]
  refine Option.bind_congr fun u hu => ?_
  rw [hmem hp hu]

/-- An address translates as before, if it does so through the entries of its path. -/
theorem translateAddr_congr {v : VirtAddr}
    (hdir : (m'.entryAt p4 v.path.tail).bind hugeFrame = (m.entryAt p4 v.path.tail).bind hugeFrame)
    (hleaf : m'.entryAt p4 v.path = m.entryAt p4 v.path) :
    m'.translateAddr p4 v = m.translateAddr p4 v := by
  rw [translateAddr_eq, translateAddr_eq, hdir]
  unfold VirtAddr.path at hleaf ⊢
  rw [tableAt_cons, tableAt_cons, hleaf]

end Machine

/-! ### A step of `map_to` -/

/-- What a step of `map_to` does to the tree, where it goes on: the entry that it looks at
is used then and leads on to `t'`. -/
structure NextStep (S : List (BitVec 9) → Prop) (p4 : BitVec 64) (flags : PageTableFlags)
    (i : BitVec 9) (p : List (BitVec 9)) (m : Machine) (t' : BitVec 64) (m' : Machine) : Prop where
  tree : PageTree S m' p4
  origin : m.tableAt p4 (i :: p) = some t' ∨
    m.tableAt p4 (i :: p) = none ∧ t' ∈ m.avail.map PhysFrame.start
  supply : ∃ new, m.avail = new ++ m'.avail
  entry : ∃ entry, entryAddr entry = t' ∧ follow p.length entry = some t' ∧
    (some entry).bind hugeFrame = (m.entryAt p4 (i :: p)).bind hugeFrame ∧
    ((entryFlags entry).contains .present = true ↔
      flags.contains .present = true ∨
        ∀ old ∈ m.entryAt p4 (i :: p), (entryFlags old).contains .present = true) ∧
    ∀ j q, S q → m'.entryAt p4 (j :: q) =
      if j :: q = i :: p then some entry else m.entryAt p4 (j :: q)

section Step

variable {S : List (BitVec 9) → Prop} {m : Machine} {p4 t : BitVec 64} {i : BitVec 9}
  {p : List (BitVec 9)}

theorem NextStep.of_new (hS : TailClosed S) (htree : PageTree S m p4) (hp : S p)
    (ht : m.tableAt p4 p = some t) (hentry : m.mem t i = 0#64) {frame : PhysFrame}
    {rest : List PhysFrame} (havail : m.avail = frame :: rest) (flags : PageTableFlags) :
    NextStep S p4 flags i p m frame.start (m.enterTable t i frame rest) := by
  have hold : follow p.length (m.mem t i) = none := hentry.symm ▸ follow_zero _
  have hnew : follow p.length (setAddr frame .table) = some frame.start := follow_setAddr_table _
  have hfresh : ∀ r, S r → m.tableAt p4 r ≠ some frame.start :=
    htree.fresh frame (havail ▸ mem_cons_self)
  have hdistinct := htree.distinct
  rw [havail, map_cons, nodup_cons] at hdistinct
  have hnone : m.entryAt p4 (i :: p) = none := by
    rw [Machine.entryAt_of_tableAt ht, if_pos hentry]
  refine ⟨⟨htree.unshared.grow hS hp ht hold hfresh follow_zero hnew, ?_, hdistinct.2⟩,
    Or.inr ⟨?_, havail ▸ mem_cons_self⟩, ⟨[frame], havail⟩, setAddr frame .table, entryAddr_setAddr,
    hnew, ?_, ?_, ?_⟩
  · intro frame' hframe' q hq
    have hreach : (m.enterTable t i frame rest).tableAt p4 q = _ :=
      reach_grow hS htree.unshared hp ht hold hfresh follow_zero hnew (hS hq)
    rw [hreach]
    split_ifs with hqp
    · -- the supply has no frame twice
      intro heq
      refine hdistinct.1 (mem_map.mpr ⟨frame', hframe', ?_⟩)
      exact (some.inj heq).symm
    · exact htree.fresh frame' (havail ▸ mem_cons_of_mem _ hframe') q hq
  · rw [Machine.tableAt_cons, hnone, bind_none]
  · rw [hnone, bind_some, hugeFrame_setAddr_table, bind_none]
  · rw [hnone, contains_setAddr]
    exact iff_of_true rfl (Or.inr fun _ h => by cases h)
  · intro j q hq
    exact entryAt_grow hS htree.unshared hp ht hentry hfresh follow_zero hnew hq

theorem Machine.tableAt_widenEntry (hentry : m.mem t i ≠ 0#64) (flags : PageTableFlags)
    (p4 : BitVec 64) (q : List (BitVec 9)) :
    (m.widenEntry t i flags).tableAt p4 q = m.tableAt p4 q :=
  reach_setEntry_same (follow_widen hentry) q

theorem NextStep.of_used (htree : PageTree S m p4) (hp : S p)
    (ht : m.tableAt p4 p = some t) (hentry : m.mem t i ≠ 0#64)
    (hhuge : p.length = 2 → (m.entryAt p4 (i :: p)).bind hugeFrame = none)
    (flags : PageTableFlags) :
    NextStep S p4 flags i p m (entryAddr (m.mem t i)) (m.widenEntry t i flags) := by
  have hsame := Machine.tableAt_widenEntry hentry flags p4
  have hsome := Machine.entryAt_of_used ht hentry
  have hnot : p.length = 2 → (entryFlags (m.mem t i)).contains .hugePage = false := by
    intro hlen
    have hnone := hhuge hlen
    rw [hsome, bind_some, hugeFrame] at hnone
    split_ifs at hnone with h
    exact Bool.eq_false_iff.mpr h
  have hused : m.mem t i ||| (flags.inter .table).bits ≠ 0#64 := fun h =>
    hentry (or_eq_zero_left h)
  have htable : m.tableAt p4 (i :: p) = some (entryAddr (m.mem t i)) := by
    rw [Machine.tableAt_cons, hsome, bind_some, follow_of_used hentry hnot]
  refine ⟨⟨?_, ?_, htree.distinct⟩, Or.inl htable, ⟨[], rfl⟩,
    m.mem t i ||| (flags.inter .table).bits, entryAddr_or, ?_, ?_, ?_, ?_⟩
  · intro q r u hq hr hu hu'
    exact htree.unshared hq hr ((hsame q).symm.trans hu) ((hsame r).symm.trans hu')
  · intro frame hframe q hq
    rw [hsame]
    exact htree.fresh frame hframe q hq
  · rw [follow_widen hentry, follow_of_used hentry hnot]
  · rw [hsome, bind_some, bind_some, hugeFrame_widen]
  · rw [hsome, present_widen, Bool.or_eq_true, or_comm]
    simp only [Option.mem_some, forall_eq']
  · intro j q hq
    refine (entryAt_setEntry htree.unshared hp ht hq (hsame q)).trans ?_
    rw [if_neg hused]
    rfl

theorem NextStep.tableAt {t' : BitVec 64} {flags : PageTableFlags} {q : List (BitVec 9)}
    {m' : Machine} (hS : TailClosed S) (step : NextStep S p4 flags i p m t' m') (hq : S q) :
    m'.tableAt p4 q = if q = i :: p then some t' else m.tableAt p4 q := by
  obtain ⟨entry, -, hfollow, -, -, hentries⟩ := step.entry
  cases q with
  | nil => rfl
  | cons j q =>
    rw [Machine.tableAt_cons, hentries j q (hS hq)]
    split_ifs with heq
    · rw [bind_some, (List.cons.inj heq).2, hfollow]
    · rw [← Machine.tableAt_cons]

end Step

/-! ### The walk of `map_to` -/

/-- `map_to` has gone down a path, from the state `m`. -/
inductive Walked (S : List (BitVec 9) → Prop) (p4 : BitVec 64) (flags : PageTableFlags)
    (m : Machine) : List (BitVec 9) → BitVec 64 → Machine → Prop
  | root : Walked S p4 flags m [] p4 m
  | next {p t m' i t' m''} (walked : Walked S p4 flags m p t m') (hp : S p)
      (step : NextStep S p4 flags i p m' t' m'') : Walked S p4 flags m (i :: p) t' m''

namespace Walked

variable {S : List (BitVec 9) → Prop} {p4 t : BitVec 64} {flags : PageTableFlags}
  {m m' : Machine} {p q : List (BitVec 9)} {j : BitVec 9}

theorem tree (h : Walked S p4 flags m p t m') (htree : PageTree S m p4) : PageTree S m' p4 := by
  cases h with
  | root => exact htree
  | next _ _ step => exact step.tree

theorem tableAt (h : Walked S p4 flags m p t m') : m'.tableAt p4 p = some t := by
  cases h with
  | root => rfl
  | next _ hp step =>
    obtain ⟨entry, -, hfollow, -, -, hentries⟩ := step.entry
    rw [Machine.tableAt_cons, hentries _ _ hp, if_pos rfl]
    exact hfollow

theorem supply (h : Walked S p4 flags m p t m') : ∃ new, m.avail = new ++ m'.avail := by
  induction h with
  | root => exact ⟨[], rfl⟩
  | next _ _ step ih =>
    obtain ⟨new, hnew⟩ := ih
    obtain ⟨new', hnew'⟩ := step.supply
    exact ⟨new ++ new', by rw [hnew, hnew', append_assoc]⟩

theorem origin (hS : TailClosed S) (h : Walked S p4 flags m p t m') (hq : S q) {u : BitVec 64}
    (hu : m'.tableAt p4 q = some u) :
    m.tableAt p4 q = some u ∨ u ∈ m.avail.map PhysFrame.start := by
  induction h with
  | root => exact Or.inl hu
  | next walked _ step ih =>
    rw [step.tableAt hS hq] at hu
    split_ifs at hu with heq
    · cases hu
      rcases step.origin with hold | ⟨-, hnew⟩
      · exact ih (heq ▸ hold)
      · obtain ⟨new, hsupply⟩ := walked.supply
        rw [hsupply, map_append]
        exact Or.inr (mem_append_right _ hnew)
    · exact ih hu

theorem kept (h : Walked S p4 flags m p t m') (hq : S q) {u : BitVec 64}
    (hu : m.tableAt p4 (j :: q) = some u) : m'.tableAt p4 (j :: q) = some u := by
  induction h with
  | root => exact hu
  | next _ _ step ih =>
    obtain ⟨entry, -, hfollow, -, -, hentries⟩ := step.entry
    rw [Machine.tableAt_cons, hentries j q hq]
    split_ifs with heq
    · obtain ⟨rfl, rfl⟩ := List.cons.inj heq
      rw [bind_some, hfollow]
      rcases step.origin with hold | ⟨hnone, -⟩
      · exact hold.symm.trans ih
      · cases hnone.symm.trans ih
    · rw [← Machine.tableAt_cons]
      exact ih

theorem entry_off (h : Walked S p4 flags m p t m') (hq : S q) (hpq : ¬ (j :: q) <:+ p) :
    m'.entryAt p4 (j :: q) = m.entryAt p4 (j :: q) := by
  induction h with
  | root => rfl
  | next _ _ step ih =>
    obtain ⟨entry, -, -, -, -, hentries⟩ := step.entry
    rw [suffix_cons_iff, not_or] at hpq
    rw [hentries _ _ hq, if_neg hpq.1, ih hpq.2]

/-- On the path the entries are used, and map no other huge page. -/
theorem entry_on (hS : TailClosed S) (h : Walked S p4 flags m p t m') (hqp : (j :: q) <:+ p) :
    ∃ entry, m'.entryAt p4 (j :: q) = some entry ∧ follow q.length entry = m'.tableAt p4 (j :: q) ∧
      follow q.length entry = some (entryAddr entry) ∧
      (some entry).bind hugeFrame = (m.entryAt p4 (j :: q)).bind hugeFrame ∧
      ((entryFlags entry).contains .present = true ↔ flags.contains .present = true ∨
          ∀ old ∈ m.entryAt p4 (j :: q), (entryFlags old).contains .present = true) := by
  induction h with
  | root => cases suffix_nil.mp hqp
  | @next p t m' i t' m'' walked hp step ih =>
    obtain ⟨entry, haddr, hfollow, hhuge, hpresent, hentries⟩ := step.entry
    have hsome : ∀ {e}, m''.entryAt p4 (j :: q) = some e →
        follow q.length e = m''.tableAt p4 (j :: q) := by
      intro e he
      rw [Machine.tableAt_cons, he, bind_some]
    rcases suffix_cons_iff.mp hqp with heq | hsuffix
    · -- the entry of this step, which the steps before have left alone
      obtain ⟨rfl, rfl⟩ := List.cons.inj heq
      have hold := walked.entry_off hp (not_suffix_tail j q)
      rw [hold] at hhuge hpresent
      have hnew := (hentries j q hp).trans (if_pos rfl)
      exact ⟨entry, hnew, hsome hnew, haddr.symm ▸ hfollow, hhuge, hpresent⟩
    · have hne : j :: q ≠ i :: p := fun heq => not_suffix_tail i p (heq ▸ hsuffix)
      have hstay := (hentries j q (hS (hS.suffix hp hsuffix))).trans (if_neg hne)
      obtain ⟨old, hold, -, haddr', hrest⟩ := ih hsuffix
      have hnew := hstay.trans hold
      exact ⟨old, hnew, hsome hnew, haddr', hrest⟩

theorem pages (hS : TailClosed S) (h : Walked S p4 flags m p t m') (hp : p.length ≤ 3)
    {v : VirtAddr} (hv : S v.path.tail) :
    (m'.entryAt p4 v.path.tail).bind hugeFrame = (m.entryAt p4 v.path.tail).bind hugeFrame ∧
      m'.entryAt p4 v.path = m.entryAt p4 v.path := by
  constructor
  · by_cases hsuffix : v.path.tail <:+ p
    · obtain ⟨entry, hentry, -, -, hhuge, -⟩ := h.entry_on hS hsuffix
      exact (congrArg (Option.bind · hugeFrame) hentry).trans hhuge
    · exact congrArg (Option.bind · hugeFrame) (h.entry_off (hS hv) hsuffix)
  · refine h.entry_off hv fun hsuffix => ?_
    have hlen := hsuffix.length_le
    simp only [length_cons, length_nil] at hlen
    omega

theorem translateAddr (hS : TailClosed S) (h : Walked S p4 flags m p t m') (hp : p.length ≤ 3)
    {v : VirtAddr} (hv : S v.path.tail) : m'.translateAddr p4 v = m.translateAddr p4 v :=
  Machine.translateAddr_congr (h.pages hS hp hv).1 (h.pages hS hp hv).2

end Walked

section MapTo

variable {S : List (BitVec 9) → Prop} {m m' : Machine} {p4 t : BitVec 64} {page : Page}
  {frame : PhysFrame} {flags : PageTableFlags}

/-- **The walk of `map_to`** goes down the tree: either it ends at an unused entry for which
there is no frame, or it gets to the table of level 1. -/
theorem Walked.of_walks (hS : TailClosed S) (hpath : S page.start.path.tail) {m₀ : Machine}
    (hhuge : (m₀.entryAt p4 page.start.path.tail).bind hugeFrame = none)
    {indices p : List (BitVec 9)} {r : Except MapToError (BitVec 64)}
    (hwalk : Machine.Walks flags m t indices r m') (walked : Walked S p4 flags m₀ p t m)
    (htree : PageTree S m p4) (hp : indices.reverse ++ p = page.start.path.tail) :
    (∀ err, r = .error err → err = .frameAllocationFailed ∧ ∃ i q t',
      Walked S p4 flags m₀ q t' m' ∧ (i :: q) <:+ page.start.path.tail ∧
      m'.entryAt p4 (i :: q) = none) ∧
    ∀ t', r = .ok t' → Walked S p4 flags m₀ page.start.path.tail t' m' := by
  have hsuffix : ∀ {i : BitVec 9} {indices p : List (BitVec 9)},
      (i :: indices).reverse ++ p = page.start.path.tail → (i :: p) <:+ page.start.path.tail := by
    intro i indices p hp
    refine ⟨indices.reverse, ?_⟩
    rwa [reverse_cons, append_assoc] at hp
  induction hwalk generalizing p with
  | done =>
    obtain rfl : p = page.start.path.tail := hp
    exact ⟨(fun err herr => by cases herr), fun t' ht' => Except.ok.inj ht' ▸ walked⟩
  | fail hentry =>
    refine ⟨fun err herr => ⟨(Except.error.inj herr).symm, _, p, _, walked, hsuffix hp, ?_⟩,
      fun t' ht' => by cases ht'⟩
    rw [Machine.entryAt_of_tableAt walked.tableAt, if_pos hentry]
  | @enter _ _ i _ _ _ _ _ hentry havail _ ih =>
    have hSp : S p := hS (hS.suffix hpath (hsuffix hp))
    have step := NextStep.of_new hS htree hSp walked.tableAt hentry havail flags
    exact ih (walked.next hSp step) step.tree (by rwa [reverse_cons, append_assoc] at hp)
  | @widen _ _ i _ _ _ hentry _ ih =>
    have hSp : S p := hS (hS.suffix hpath (hsuffix hp))
    have step := NextStep.of_used htree hSp walked.tableAt hentry (fun hlen => by
      rw [walked.entry_off hSp (not_suffix_tail i p),
        (hsuffix hp).eq_of_length (congrArg (· + 1) hlen)]
      exact hhuge) flags
    exact ih (walked.next hSp step) step.tree (by rwa [reverse_cons, append_assoc] at hp)

/-- The entry of the page is the last one to change, and nothing else with it. -/
theorem entryAt_write_leaf (hS : TailClosed S) (htree : PageTree S m p4) {i j : BitVec 9}
    {p q : List (BitVec 9)} (hp : S p) (ht : m.tableAt p4 p = some t) (entry : BitVec 64)
    (hq : S q) (hpq : ¬ (i :: p) <:+ q) :
    (m.write t i entry).entryAt p4 (j :: q) =
      if j :: q = i :: p then if entry = 0#64 then none else some entry
      else m.entryAt p4 (j :: q) :=
  entryAt_setEntry htree.unshared hp ht hq
    (reach_setEntry_of_not_suffix hS htree.unshared hp ht (hS hq) hpq)

end MapTo

/-! ### The laws -/

/-- The page is not inside a huge page. -/
def NoHugePage (m : Machine) (p4 : BitVec 64) (page : Page) : Prop :=
  (m.entryAt p4 page.start.path.tail).bind hugeFrame = none

/-- The entries on the way to the page that are used are also present. -/
def PathPresent (m : Machine) (p4 : BitVec 64) (page : Page) : Prop :=
  ∀ q, q <:+ page.start.path.tail →
    ∀ entry ∈ m.entryAt p4 q, (entryFlags entry).contains .present = true

section Laws

variable {H : Set (BitVec 9)} {m m' : Machine} {p4 t : BitVec 64} {page : Page}
  {frame : PhysFrame} {flags : PageTableFlags}

theorem VirtAddr.within_tail {v : VirtAddr} (hv : v.p4Index ∈ H) : Within 3 H v.path.tail := by
  refine ⟨le_rfl, fun i hi => ?_⟩
  obtain rfl : v.p4Index = i := some.inj hi
  exact hv

theorem not_path_suffix {v : VirtAddr} {q : List (BitVec 9)} (hq : q.length ≤ 3) :
    ¬ v.path <:+ q := by
  intro h
  have hlen := h.length_le
  simp only [VirtAddr.path, length_cons, length_nil] at hlen
  omega

theorem pathPresent_iff {e4 e3 e2 : BitVec 64} (he4 : m.entryAt p4 [page.start.p4Index] = some e4)
    (he3 : m.entryAt p4 [page.start.p3Index, page.start.p4Index] = some e3)
    (he2 : m.entryAt p4 page.start.path.tail = some e2) :
    PathPresent m p4 page ↔ (entryFlags e4).contains .present = true ∧
      (entryFlags e3).contains .present = true ∧ (entryFlags e2).contains .present = true := by
  constructor
  · intro h
    exact ⟨h _ ⟨[_, _], rfl⟩ e4 he4, h _ ⟨[_], rfl⟩ e3 he3, h _ ⟨[], rfl⟩ e2 he2⟩
  · rintro ⟨h4, h3, h2⟩ q hq entry hentry
    simp only [VirtAddr.path, tail_cons, suffix_cons_iff, suffix_nil] at hq
    rcases hq with rfl | rfl | rfl | rfl
    · exact some.inj (he2.symm.trans hentry) ▸ h2
    · exact some.inj (he3.symm.trans hentry) ▸ h3
    · exact some.inj (he4.symm.trans hentry) ▸ h4
    · cases hentry

theorem tableAt_path_isSome (m : Machine) (p4 : BitVec 64) (v : VirtAddr) :
    (m.tableAt p4 v.path).isSome = (m.entryAt p4 v.path).isSome := by
  unfold VirtAddr.path
  rw [Machine.tableAt_bind_usedTable _ _ _ _ (by simp), Machine.entryAt_cons]
  cases m.tableAt p4 [v.p2Index, v.p3Index, v.p4Index] with
  | none => rfl
  | some t =>
    rw [bind_some, bind_some, Machine.usedTable_eq]
    split_ifs <;> rfl

theorem Machine.tableAt_path_eq_none {v : VirtAddr} (h : m.entryAt p4 v.path = none) :
    m.tableAt p4 v.path = none :=
  (Machine.tableAt_cons _ _ _ _).trans (congrArg (Option.bind · (follow 3)) h)

/-- Outside of huge pages, an address translates exactly if its entry is used. -/
theorem translateAddr_isSome (hhuge : NoHugePage m p4 page) :
    (m.translateAddr p4 page.start).isSome = true ↔ m.entryAt p4 page.start.path ≠ none := by
  rw [Machine.translateAddr_eq, hhuge, map_none, Option.none_or, isSome_map, tableAt_path_isSome,
    Option.isSome_iff_ne_none]

/-- **The three outcomes of `map_to`**, where the tables behind these entries of the PML4 form
a tree. -/
theorem mapTo_cases (htree : PageTree (Within 3 H) m p4) (hpage : page.start.p4Index ∈ H)
    (hhuge : NoHugePage m p4 page) (frame : PhysFrame) (flags : PageTableFlags) :
    (∃ p t m', m.mapTo page frame flags p4 = (.error .frameAllocationFailed, m') ∧
      Walked (Within 3 H) p4 flags m p t m' ∧ p.length ≤ 3 ∧
      m.entryAt p4 page.start.path = none) ∨
    (∃ t m', m.mapTo page frame flags p4 = (.error (.pageAlreadyMapped frame), m') ∧
      Walked (Within 3 H) p4 flags m page.start.path.tail t m' ∧
      m.entryAt p4 page.start.path ≠ none) ∨
    ∃ t m', m.mapTo page frame flags p4 = (.ok (), m'.enter t page frame flags) ∧
      Walked (Within 3 H) p4 flags m page.start.path.tail t m' ∧
      m'.mem t page.start.p1Index = 0#64 ∧ m.entryAt p4 page.start.path = none := by
  have hS := within_tailClosed 3 H
  have hpath := VirtAddr.within_tail hpage
  rcases m.mapTo_walks page frame flags p4 with ⟨err, m', hmap, hwalk⟩ | ⟨t, m', hmap, hwalk⟩
  · left
    obtain ⟨rfl, i, p, t, walked, hsuffix, hnone⟩ :=
      (Walked.of_walks hS hpath hhuge hwalk .root htree rfl).1 err rfl
    have hp : Within 3 H p := hS (hS.suffix hpath hsuffix)
    rw [walked.entry_off hp (not_suffix_tail i p)] at hnone
    refine ⟨p, t, m', hmap, walked, hp.1, ?_⟩
    exact entryAt_eq_none_of_suffix follow_zero hnone (hsuffix.trans (tail_suffix _))
  · right
    have walked := (Walked.of_walks hS hpath hhuge hwalk .root htree rfl).2 t rfl
    have hentry : m'.entryAt p4 page.start.path = if m'.mem t page.start.p1Index = 0#64 then none
        else some (m'.mem t page.start.p1Index) := Machine.entryAt_of_tableAt walked.tableAt
    rw [(walked.pages hS le_rfl hpath).2] at hentry
    by_cases hunused : m'.mem t page.start.p1Index = 0#64
    · rw [if_pos hunused] at hentry
      refine Or.inr ⟨t, m', ?_, walked, hunused, hentry⟩
      rw [hmap, Machine.mapLeaf, if_pos (isUnused_iff.mpr hunused)]
      rfl
    · refine Or.inl ⟨t, m', ?_, walked, ?_⟩
      · rw [hmap, Machine.mapLeaf, if_neg (isUnused_iff.not.mpr hunused)]
      · rw [hentry, if_neg hunused]
        exact some_ne_none _

theorem present_leaf :
    (entryFlags (setAddr frame (flags.union .present))).contains .present = true := by
  rw [contains_setAddr, contains_present]
  show (flags.bits ||| 1#64).getLsbD 0 = true
  rw [BitVec.getLsbD_or]
  exact Bool.or_true _

section Ok

variable (htree : PageTree (Within 3 H) m p4) (hpage : page.start.p4Index ∈ H)
  (hhuge : NoHugePage m p4 page)
  (walked : Walked (Within 3 H) p4 flags m page.start.path.tail t m')

include htree hpage walked in
theorem entryAt_enter {j : BitVec 9} {q : List (BitVec 9)} (hq : Within 3 H q) :
    (m'.enter t page frame flags).entryAt p4 (j :: q) =
      if j :: q = page.start.path then some (setAddr frame (flags.union .present))
      else m'.entryAt p4 (j :: q) := by
  refine (entryAt_write_leaf (within_tailClosed 3 H) (walked.tree htree)
    (VirtAddr.within_tail hpage) walked.tableAt _ hq (not_path_suffix hq.1)).trans ?_
  rw [if_neg (ne_zero_of_present present_leaf)]
  rfl

include htree hpage walked in
theorem tableAt_enter {q : List (BitVec 9)} (hq : Within 3 H q) :
    (m'.enter t page frame flags).tableAt p4 q = m'.tableAt p4 q :=
  reach_setEntry_of_not_suffix (within_tailClosed 3 H) (walked.tree htree).unshared
    (VirtAddr.within_tail hpage) walked.tableAt (within_tailClosed 3 H hq) (not_path_suffix hq.1)

include htree hpage walked in
theorem entryAt_enter_tail {v : VirtAddr} (hv : v.p4Index ∈ H) :
    (m'.enter t page frame flags).entryAt p4 v.path.tail = m'.entryAt p4 v.path.tail := by
  have htail := VirtAddr.within_tail hv
  refine (entryAt_enter htree hpage walked (within_tailClosed 3 H htail)).trans (if_neg ?_)
  intro heq
  refine not_path_suffix (v := page.start) htail.1 ?_
  rw [← heq]
  exact suffix_rfl

include htree hpage walked in
theorem tableAt_enter_path {v : VirtAddr} (hv : v.p4Index ∈ H) :
    (m'.enter t page frame flags).tableAt p4 v.path =
      if v.path = page.start.path then some frame.start else m.tableAt p4 v.path := by
  have hleaf : (m'.enter t page frame flags).entryAt p4 v.path = if v.path = page.start.path then
      some (setAddr frame (flags.union .present)) else m'.entryAt p4 v.path :=
    entryAt_enter htree hpage walked (VirtAddr.within_tail hv)
  have hsame : m'.entryAt p4 v.path = m.entryAt p4 v.path :=
    (walked.pages (within_tailClosed 3 H) le_rfl (VirtAddr.within_tail hv)).2
  refine (Machine.tableAt_cons _ _ _ _).trans ?_
  refine (congrArg (Option.bind · (follow 3)) hleaf).trans ?_
  split_ifs with heq
  · rw [bind_some, follow_of_used (ne_zero_of_present present_leaf) (fun h => by cases h),
      entryAddr_setAddr]
  · rw [hsame]
    exact (Machine.tableAt_cons _ _ _ _).symm

include htree hpage hhuge walked in
/-- The page is mapped to the frame, and all others are as they were. -/
theorem translateAddr_enter {v : VirtAddr} (hv : v.p4Index ∈ H) :
    (m'.enter t page frame flags).translateAddr p4 v =
      if v.path = page.start.path then some (frame.start + (v.bits &&& 0xFFF#64))
      else m.translateAddr p4 v := by
  have hdir : ((m'.enter t page frame flags).entryAt p4 v.path.tail).bind hugeFrame =
      (m.entryAt p4 v.path.tail).bind hugeFrame := by
    rw [entryAt_enter_tail htree hpage walked hv]
    exact (walked.pages (within_tailClosed 3 H) le_rfl (VirtAddr.within_tail hv)).1
  rw [Machine.translateAddr_eq, Machine.translateAddr_eq, hdir,
    tableAt_enter_path htree hpage walked hv]
  split_ifs with heq
  · rw [heq, hhuge]
    rfl
  · rfl

include htree hpage walked in
/-- The entries on the way to the page, as `unmap` reads them. -/
theorem mem_enter (frame : PhysFrame) {i : BitVec 9} {q : List (BitVec 9)} {u : BitVec 64}
    (hsuffix : (i :: q) <:+ page.start.path.tail) (hu : m'.tableAt p4 q = some u) :
    m'.entryAt p4 (i :: q) = some ((m'.enter t page frame flags).mem u i) ∧
      m'.tableAt p4 (i :: q) = some (entryAddr ((m'.enter t page frame flags).mem u i)) := by
  have hS := within_tailClosed 3 H
  have hiq : Within 3 H (i :: q) := hS.suffix (VirtAddr.within_tail hpage) hsuffix
  have hq : Within 3 H q := hS hiq
  obtain ⟨entry, hentry, htable, haddr, -, -⟩ := walked.entry_on hS hsuffix
  have hnew : (m'.enter t page frame flags).entryAt p4 (i :: q) = some entry := by
    rw [entryAt_enter htree hpage walked hq, if_neg, hentry]
    intro heq
    refine not_path_suffix (v := page.start) hiq.1 ?_
    rw [← heq]
  rw [Machine.entryAt_of_tableAt ((tableAt_enter htree hpage walked hq).trans hu)] at hnew
  split_ifs at hnew
  rw [some.inj hnew]
  exact ⟨hentry, htable.symm.trans haddr⟩

include htree hpage walked in
/-- **`unmap` after `map_to`** undoes the last write, if it gets there. -/
theorem unmap_enter (hunused : m'.mem t page.start.p1Index = 0#64) (x : BitVec 64 × Machine) :
    (m'.enter t page frame flags).unmap page p4 = some x ↔
      PathPresent m' p4 page ∧ x = (frame.start, m') := by
  obtain ⟨he4, ht3⟩ := mem_enter htree hpage walked frame (i := page.start.p4Index) (q := [])
    ⟨[_, _], rfl⟩ rfl
  obtain ⟨he3, ht2⟩ := mem_enter htree hpage walked frame (i := page.start.p3Index) ⟨[_], rfl⟩ ht3
  obtain ⟨he2, ht1⟩ := mem_enter htree hpage walked frame (i := page.start.p2Index) ⟨[], rfl⟩ ht2
  have hp1 := some.inj (ht1.symm.trans walked.tableAt)
  have hleaf : (m'.enter t page frame flags).mem t page.start.p1Index =
      setAddr frame (flags.union .present) := setEntry_self _ _ _ _
  have hundo : (m'.enter t page frame flags).write t page.start.p1Index 0#64 = m' := by
    rw [Machine.enter, Machine.write_write, ← hunused, Machine.write_self]
  rw [pathPresent_iff he4 he3 he2, Machine.unmap_eq_some_iff _ rfl rfl hp1, hleaf, hundo,
    entryAddr_setAddr]
  exact and_congr_right fun _ => and_iff_right present_leaf

include walked in
theorem pathPresent_walked :
    PathPresent m' p4 page ↔ flags.contains .present = true ∨ PathPresent m p4 page := by
  have hon : ∀ q, q <:+ page.start.path.tail →
      ((∀ entry ∈ m'.entryAt p4 q, (entryFlags entry).contains .present = true) ↔
        flags.contains .present = true ∨
          ∀ old ∈ m.entryAt p4 q, (entryFlags old).contains .present = true) := by
    intro q hq
    cases q with
    | nil => exact iff_of_true (fun _ h => by cases h) (Or.inr fun _ h => by cases h)
    | cons j q =>
      obtain ⟨entry, hentry, -, -, -, hpresent⟩ := walked.entry_on (within_tailClosed 3 H) hq
      rw [← hpresent, hentry]
      simp only [Option.mem_some, forall_eq']
  by_cases hflags : flags.contains .present = true
  · exact iff_of_true (fun q hq => (hon q hq).mpr (Or.inl hflags)) (Or.inl hflags)
  · simp only [hflags, Bool.false_eq_true, false_or] at hon ⊢
    exact forall₂_congr hon

end Ok

/-- What `map_to` does to a tree when it maps a page to a frame. -/
structure MapsPage (H : Set (BitVec 9)) (p4 : BitVec 64) (m : Machine) (page : Page)
    (frame : PhysFrame) (m' : Machine) : Prop where
  tree : PageTree (Within 3 H) m' p4
  new : m.tableAt p4 page.start.path = none
  mapped : ∀ {v : VirtAddr}, v.p4Index ∈ H → m'.tableAt p4 v.path =
    if v.path = page.start.path then some frame.start else m.tableAt p4 v.path
  huge : ∀ {v : VirtAddr}, v.p4Index ∈ H → (m'.entryAt p4 v.path.tail).bind hugeFrame =
    (m.entryAt p4 v.path.tail).bind hugeFrame
  tables : ∀ {q}, Within 3 H q →
    (m'.tableAt p4 q ≠ none ↔ m.tableAt p4 q ≠ none ∨ q <:+ page.start.path)
  origin : ∀ {q u}, Within 3 H q → m'.tableAt p4 q = some u →
    m.tableAt p4 q = some u ∨ u ∈ m.avail.map PhysFrame.start

/-- **`map_to`**, when it succeeds. -/
theorem MapsPage.of_mapTo (htree : PageTree (Within 3 H) m p4) (hpage : page.start.p4Index ∈ H)
    (hhuge : NoHugePage m p4 page) (hmap : m.mapTo page frame flags p4 = (.ok (), m')) :
    MapsPage H p4 m page frame m' := by
  have hS := within_tailClosed 3 H
  rcases mapTo_cases htree hpage hhuge frame flags with
    ⟨_, _, _, herr, -⟩ | ⟨_, _, herr, -⟩ | ⟨t, m₁, hok, walked, -, hnone⟩
  · cases (Prod.mk.inj (herr.symm.trans hmap)).1
  · cases (Prod.mk.inj (herr.symm.trans hmap)).1
  obtain ⟨-, rfl⟩ := Prod.mk.inj (hok.symm.trans hmap)
  have hsame : ∀ {q}, Within 3 H q →
      (m₁.enter t page frame flags).tableAt p4 q = m₁.tableAt p4 q :=
    tableAt_enter htree hpage walked
  have htree' := walked.tree htree
  refine ⟨⟨fun _ _ _ hp hq hpu hqu => ?_, fun f hf p hp => ?_, htree'.distinct⟩, ?_,
    tableAt_enter_path htree hpage walked, fun hv => ?_, fun {q} hq => ?_, fun hq hu => ?_⟩
  · exact htree'.unshared hp hq ((hsame hp).symm.trans hpu) ((hsame hq).symm.trans hqu)
  · rw [hsame hp]
    exact htree'.fresh f hf p hp
  · exact Machine.tableAt_path_eq_none hnone
  · rw [entryAt_enter_tail htree hpage walked hv]
    exact (walked.pages hS le_rfl (VirtAddr.within_tail hv)).1
  · -- below the page itself, the way to the page is that to its table of level 1
    have hsuffix : q <:+ page.start.path ↔ q <:+ page.start.path.tail := by
      rw [VirtAddr.path, suffix_cons_iff]
      refine or_iff_right fun heq => not_path_suffix (v := page.start) hq.1 ?_
      rw [heq]
      exact suffix_rfl
    rw [hsame hq, hsuffix]
    by_cases hon : q <:+ page.start.path.tail
    · refine iff_of_true (fun hnone => ?_) (Or.inr hon)
      cases (reach_eq_none_of_suffix hnone hon).symm.trans walked.tableAt
    · cases q with
      | nil => exact absurd List.nil_suffix hon
      | cons j r =>
        have hr : Within 3 H r := hS hq
        rw [Machine.tableAt_cons, walked.entry_off hr hon, ← Machine.tableAt_cons]
        exact (or_iff_left hon).symm
  · rw [hsame hq] at hu
    exact walked.origin hS hq hu

/-- **`map_to`, `translate_addr` and `unmap`.**  In a tree without shared tables, where the
page is not in a huge page: when `map_to` succeeds, the addresses of the page translate to
the frame and all others as before, and `unmap` gives the frame back and restores all
translations exactly if the flags have `PRESENT` or the used entries on the way have it;
when `map_to` fails, no translation changes; and it says that the page is mapped already
exactly if it is. -/
theorem mapTo_laws (m : Machine) (p4 : BitVec 64) (page : Page) (frame : PhysFrame)
    (flags : PageTableFlags) (htree : PageTree IsTable m p4) (hhuge : NoHugePage m p4 page) :
    ((m.mapTo page frame flags p4).1 = .ok () →
      (∀ v, page.Contains v → (m.mapTo page frame flags p4).2.translateAddr p4 v =
        some (frame.start + (v.bits &&& 0xFFF#64))) ∧
      (∀ v, ¬ page.Contains v →
        (m.mapTo page frame flags p4).2.translateAddr p4 v = m.translateAddr p4 v) ∧
      ((∃ m', (m.mapTo page frame flags p4).2.unmap page p4 = some (frame.start, m') ∧
          ∀ v, m'.translateAddr p4 v = m.translateAddr p4 v) ↔
        flags.contains .present = true ∨ PathPresent m p4 page)) ∧
    (∀ err, (m.mapTo page frame flags p4).1 = .error err →
      ∀ v, (m.mapTo page frame flags p4).2.translateAddr p4 v = m.translateAddr p4 v) ∧
    ((m.mapTo page frame flags p4).1 = .error (.pageAlreadyMapped frame) ↔
      (m.translateAddr p4 page.start).isSome = true) := by
  have hall : ∀ v : VirtAddr, v.p4Index ∈ Set.univ := fun v => Set.mem_univ _
  have htree : PageTree (Within 3 Set.univ) m p4 := htree.mono fun hq => hq.1
  rw [translateAddr_isSome hhuge]
  rcases mapTo_cases htree (hall _) hhuge frame flags with ⟨p, t, m', hmap, walked, hp, hnone⟩ |
    ⟨t, m', hmap, walked, hsome⟩ | ⟨t, m', hmap, walked, hunused, hnone⟩
  · rw [hmap]
    refine ⟨(fun h => by cases h), fun _ _ v => ?_, iff_of_false (fun h => by cases h) ?_⟩
    · exact walked.translateAddr (within_tailClosed _ _) hp (VirtAddr.within_tail (hall v))
    · exact not_not.mpr hnone
  · rw [hmap]
    refine ⟨(fun h => by cases h), fun _ _ v => ?_, iff_of_true rfl hsome⟩
    exact walked.translateAddr (within_tailClosed _ _) le_rfl (VirtAddr.within_tail (hall v))
  · rw [hmap]
    refine ⟨fun _ => ⟨?_, ?_, ?_⟩, (fun _ h => by cases h), iff_of_false (fun h => by cases h) ?_⟩
    · intro v hv
      rw [translateAddr_enter htree (hall _) hhuge walked (hall v),
        if_pos ((page.contains_iff v).mp hv)]
    · intro v hv
      rw [translateAddr_enter htree (hall _) hhuge walked (hall v),
        if_neg ((page.contains_iff v).not.mp hv)]
    · rw [← pathPresent_walked walked]
      constructor
      · rintro ⟨m'', hunmap, -⟩
        exact ((unmap_enter htree (hall _) walked hunused _).mp hunmap).1
      · intro hpresent
        refine ⟨m', (unmap_enter htree (hall _) walked hunused _).mpr ⟨hpresent, rfl⟩, fun v => ?_⟩
        exact walked.translateAddr (within_tailClosed _ _) le_rfl (VirtAddr.within_tail (hall v))
    · exact not_not.mpr hnone

/-! ### Two small trees -/

/-- The page at address 0. -/
def pageZero : Page := ⟨⟨0#64, by decide⟩, by decide⟩

/-- A memory of zeros, where the frames `0x3000`, `0x4000` and `0x5000` can be had. -/
def zeroMachine : Machine where
  mem := fun _ _ => 0#64
  avail := [⟨0x3000#64, by decide⟩, ⟨0x4000#64, by decide⟩, ⟨0x5000#64, by decide⟩]
  handed := []
  cleared := []
  book := []
  scribble _ mem := mem

theorem zeroMachine_tableAt {p : List (BitVec 9)} {t : BitVec 64}
    (h : zeroMachine.tableAt 0x1000#64 p = some t) : t = 0x1000#64 := by
  by_cases hp : p = []
  · subst hp
    exact (some.inj h).symm
  · cases (reach_of_root_empty (fun _ => follow_zero 0) hp).symm.trans h

theorem zeroMachine_avail :
    ∀ frame ∈ zeroMachine.avail, frame.start ≠ 0x1000#64 ∧ frame.start ≠ 0x2000#64 := by
  decide

theorem zeroMachine_tree : PageTree IsTable zeroMachine 0x1000#64 := by
  refine ⟨.of_root_empty fun _ => follow_zero 0, ?_, by decide⟩
  intro frame hframe p _ hp
  exact (zeroMachine_avail frame hframe).1 (zeroMachine_tableAt hp)

/-- Mapping the first page into empty tables, and unmapping it again. -/
theorem mapTo_laws_zeroMachine :
    PageTree IsTable zeroMachine 0x1000#64 ∧ NoHugePage zeroMachine 0x1000#64 pageZero ∧
    (zeroMachine.mapTo pageZero ⟨0x8000#64, by decide⟩ .present 0x1000#64).1 = .ok () ∧
    ∃ m', (zeroMachine.mapTo pageZero ⟨0x8000#64, by decide⟩ .present 0x1000#64).2.unmap pageZero
        0x1000#64 = some (0x8000#64, m') ∧
      ∀ v, m'.translateAddr 0x1000#64 v = zeroMachine.translateAddr 0x1000#64 v := by
  have hlaws := mapTo_laws zeroMachine 0x1000#64 pageZero ⟨0x8000#64, by decide⟩ .present
    zeroMachine_tree rfl
  have hok : (zeroMachine.mapTo pageZero ⟨0x8000#64, by decide⟩ .present 0x1000#64).1 = .ok () :=
    rfl
  exact ⟨zeroMachine_tree, rfl, hok, (hlaws.1 hok).2.2.mpr (Or.inl rfl)⟩

/-- The first entry of the PML4 leads to the empty table at `0x2000`. It is writable, but
not present. -/
def absentMachine : Machine :=
  { zeroMachine with
    mem := setEntry (Function.update zeroMachine.mem 0x2000#64 fun _ => 0#64) 0x1000#64 0#9
      0x2002#64 }

/-- A page is mapped below a table that is not present: it translates, but `unmap` does not
find it. -/
theorem unmap_misses_page :
    PageTree IsTable absentMachine 0x1000#64 ∧ NoHugePage absentMachine 0x1000#64 pageZero ∧
    (absentMachine.mapTo pageZero ⟨0x8000#64, by decide⟩ .writable 0x1000#64).1 = .ok () ∧
    (absentMachine.mapTo pageZero ⟨0x8000#64, by decide⟩ .writable 0x1000#64).2.unmap pageZero
      0x1000#64 = none := by
  have hold : follow 0 (zeroMachine.mem 0x1000#64 0#9) = none := follow_zero 0
  have hnew : follow 0 0x2002#64 = some 0x2000#64 := by decide
  have hfresh : ∀ r, IsTable r → zeroMachine.tableAt 0x1000#64 r ≠ some 0x2000#64 := by
    intro r _ hr
    cases zeroMachine_tableAt hr
  have hnil : IsTable [] := Nat.zero_le 3
  refine ⟨⟨?_, ?_, by decide⟩, rfl, rfl, rfl⟩
  · exact zeroMachine_tree.unshared.grow isTable_tailClosed hnil rfl hold hfresh follow_zero hnew
  · intro frame hframe p hp hreach
    have hgrow := reach_grow isTable_tailClosed zeroMachine_tree.unshared hnil rfl hold hfresh
      follow_zero hnew (isTable_tailClosed hp)
    have hcase := hgrow.symm.trans hreach
    split_ifs at hcase
    · exact (zeroMachine_avail frame hframe).2 (Option.some.inj hcase).symm
    · exact (zeroMachine_avail frame hframe).1 (zeroMachine_tableAt hcase)

end Laws

end KernelR.Mm
