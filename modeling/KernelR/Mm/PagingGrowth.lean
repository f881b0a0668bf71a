import KernelR.Mm.UserPages

/-!
# What page tables keep while pages are mapped

Whatever `map_to` is given, even a PML4 whose entries lead to memory that is no table, an entry
that is used once outside of the frames of the supply goes on leading to the same place, and
never loses a flag: `Machine.Grows`.

A page that `map_to` has mapped with the flags for user programs is open to them, on all levels:
`Opened`, and stays so.
-/

namespace KernelR.Mm

open List Foundations

/-! ### Ways that are open to user programs -/

/-- The flags that let user programs pass. -/
def openFlags : PageTableFlags := PageTableFlags.present.union .userAccessible

/-- An entry lets user programs pass, to this table or frame. It is outside of the supply, and
of some frames in use. -/
structure Leads (S : Set (BitVec 64)) (m : Machine) (table : BitVec 64) (i : BitVec 9)
    (next : BitVec 64) : Prop where
  outside : table ∉ m.avail.map PhysFrame.start
  apart : table ∉ S
  flags : (entryFlags (m.mem table i)).contains openFlags = true
  addr : entryAddr (m.mem table i) = next

/-- The way from a table through these entries is open; it ends at a huge page, or at a table
with this property. -/
def Opened (S : Set (BitVec 64)) (m : Machine) (P : BitVec 64 → Prop) (table : BitVec 64) :
    List (BitVec 9) → Prop
  | [] => P table
  | i :: indices => ∃ next, Leads S m table i next ∧
      (indices = [] ∧ (entryFlags (m.mem table i)).contains .hugePage = true ∨
        Opened S m P next indices)

/-- The tables on a way are outside of the supply, and of some frames in use. -/
def FreshOn (S : Set (BitVec 64)) (m : Machine) (table : BitVec 64) : List (BitVec 9) → Prop
  | [] => table ∉ m.avail.map PhysFrame.start ∧ table ∉ S
  | i :: indices => (table ∉ m.avail.map PhysFrame.start ∧ table ∉ S) ∧ (m.mem table i ≠ 0#64 →
      (indices = [] → (entryFlags (m.mem table i)).contains .hugePage = false) →
      FreshOn S m (entryAddr (m.mem table i)) indices)

section Open

variable {S : Set (BitVec 64)} {m m' : Machine} {table next : BitVec 64} {i : BitVec 9}
  {indices : List (BitVec 9)} {P Q : BitVec 64 → Prop} {flags : PageTableFlags}
  {entry : BitVec 64}

theorem ne_zero_of_open (h : (entryFlags entry).contains openFlags = true) : entry ≠ 0#64 := by
  rintro rfl
  exact absurd h (by decide)

theorem Leads.grows (h : Leads S m table i next) (hgrows : m.Grows m') :
    Leads S m' table i next := by
  have hwidens := hgrows.entries h.outside (ne_zero_of_open h.flags)
  exact ⟨hgrows.notMem h.outside, h.apart, hwidens.contains h.flags, hwidens.entryAddr.trans h.addr⟩

/-- **What is open stays open.** -/
theorem Opened.grows (h : Opened S m P table indices) (hgrows : m.Grows m')
    (hP : ∀ t, P t → Q t) : Opened S m' Q table indices := by
  induction indices generalizing table with
  | nil => exact hP table h
  | cons i indices ih =>
    obtain ⟨next, hleads, hrest⟩ := h
    have hwidens := hgrows.entries hleads.outside (ne_zero_of_open hleads.flags)
    refine ⟨next, hleads.grows hgrows, hrest.imp ?_ ih⟩
    exact fun ⟨hnil, hhuge⟩ => ⟨hnil, hwidens.huge.trans hhuge⟩

theorem Leads.store {f : BitVec 64} (h : Leads {f} m table i next) (c : BitVec 9 → BitVec 64) :
    Leads ∅ (m.store f c) table i next := by
  have hword : (m.store f c).mem table = m.mem table := Machine.store_of_ne h.apart
  exact ⟨h.outside, Set.notMem_empty _, by rw [hword]; exact h.flags, by rw [hword]; exact h.addr⟩

theorem Opened.store {f : BitVec 64} (h : Opened {f} m P table indices)
    (c : BitVec 9 → BitVec 64) (hP : ∀ t, P t → Q t) :
    Opened ∅ (m.store f c) Q table indices := by
  induction indices generalizing table with
  | nil => exact hP table h
  | cons i indices ih =>
    obtain ⟨next, hleads, hrest⟩ := h
    refine ⟨next, hleads.store c, hrest.imp ?_ ih⟩
    rw [Machine.store_of_ne hleads.apart]
    exact id

theorem FreshOn.widenEntry (h : FreshOn S m table indices) {u : BitVec 64} {j : BitVec 9}
    (hused : m.mem u j ≠ 0#64) (flags : PageTableFlags) :
    FreshOn S (m.widenEntry u j flags) table indices := by
  induction indices generalizing table with
  | nil => exact h
  | cons i indices ih =>
    refine ⟨h.1, fun hentry hhuge => ?_⟩
    by_cases heq : table = u ∧ i = j
    · obtain ⟨rfl, rfl⟩ := heq
      have hwidens := Widens.of_flags (m.mem table i) flags
      rw [Machine.widenEntry, Machine.write_mem, setEntry_self] at hhuge ⊢
      rw [hwidens.entryAddr]
      exact ih (h.2 hused fun hnil => hwidens.huge.symm.trans (hhuge hnil))
    · have hsame : (m.widenEntry u j flags).mem table i = m.mem table i :=
        setEntry_of_ne fun htu hij => heq ⟨htu, hij⟩
      rw [hsame] at hentry hhuge ⊢
      exact ih (h.2 hentry hhuge)

end Open

end KernelR.Mm
