import KernelR.Mm.PagingLaws

/-!
# `map_to` in page tables of any shape

The laws of `map_to` are about trees. Whether it succeeds is a question that needs no tree:
its walk makes the tables that are missing, and it fails exactly if the frame allocator has
too few frames for them (`Walks.spec`) or if the page is mapped. What is asked for is
that the frame allocator hands out no frame twice, and none that is a table on the way to
the page.
-/

namespace KernelR.Mm

open List Function Option Foundations

/-! ### Entries -/

/-- An entry gets more of the flags for tables. -/
def Widens (entry entry' : BitVec 64) : Prop :=
  ∃ b : BitVec 64, b &&& 7#64 = b ∧ entry' = entry ||| b

namespace Widens

variable {e e' e'' : BitVec 64}

theorem refl (e : BitVec 64) : Widens e e := ⟨0#64, by decide, BitVec.or_zero.symm⟩

theorem trans (h : Widens e e') (h' : Widens e' e'') : Widens e e'' := by
  obtain ⟨b, hb, rfl⟩ := h
  obtain ⟨b', hb', rfl⟩ := h'
  exact ⟨b ||| b', by rw [or_and_mask, hb, hb'], BitVec.or_assoc ..⟩

theorem of_flags (e : BitVec 64) (flags : PageTableFlags) :
    Widens e (e ||| (flags.inter .table).bits) := by
  refine ⟨_, ?_, rfl⟩
  show flags.bits &&& 7#64 &&& 7#64 = flags.bits &&& 7#64
  rw [BitVec.and_assoc, BitVec.and_self]

theorem ne_zero (h : Widens e e') (he : e ≠ 0#64) : e' ≠ 0#64 := by
  obtain ⟨b, -, rfl⟩ := h
  intro hzero
  exact he (BitVec.or_eq_zero_iff.mp hzero).1

theorem entryAddr (h : Widens e e') : entryAddr e' = entryAddr e := by
  obtain ⟨b, hb, rfl⟩ := h
  rw [Mm.entryAddr, Mm.entryAddr, or_and_mask, ← hb, BitVec.and_assoc,
    show 7#64 &&& addrMask = 0#64 by decide, BitVec.and_zero, BitVec.or_zero]

theorem contains (h : Widens e e') {flags : PageTableFlags}
    (he : (entryFlags e).contains flags = true) : (entryFlags e').contains flags = true := by
  obtain ⟨b, -, rfl⟩ := h
  rw [contains_entryFlags] at he ⊢
  rw [or_and_mask, he, BitVec.or_comm]
  refine BitVec.eq_of_getLsbD_eq fun k _ => ?_
  simp only [BitVec.getLsbD_or, BitVec.getLsbD_and]
  cases flags.bits.getLsbD k <;> simp

theorem huge (h : Widens e e') :
    (entryFlags e').contains .hugePage = (entryFlags e).contains .hugePage := by
  obtain ⟨b, hb, rfl⟩ := h
  have hbit : b &&& PageTableFlags.hugePage.bits = 0#64 := by
    rw [← hb, BitVec.and_assoc, show 7#64 &&& PageTableFlags.hugePage.bits = 0#64 by decide,
      BitVec.and_zero]
  rw [Bool.eq_iff_iff, contains_entryFlags, contains_entryFlags, or_and_mask, hbit, BitVec.or_zero]

end Widens

namespace Machine

/-! ### The walk of `map_to` -/

section Walk

/-- The tables on a way, from a table on. -/
def tablesOn (m : Machine) (table : BitVec 64) : List (BitVec 9) → List (BitVec 64)
  | [] => [table]
  | i :: indices =>
    table :: match m.usedTable table i with
      | none => []
      | some next => m.tablesOn next indices

/-- How many tables are missing on a way. -/
def missingTables (m : Machine) (table : BitVec 64) : List (BitVec 9) → ℕ
  | [] => 0
  | i :: indices =>
    match m.usedTable table i with
    | none => indices.length + 1
    | some next => m.missingTables next indices

/-- The table at the end of a way. -/
def lastTable (m : Machine) (table : BitVec 64) : List (BitVec 9) → Option (BitVec 64)
  | [] => some table
  | i :: indices => (m.usedTable table i).bind fun next => m.lastTable next indices

/-- The allocator hands out no frame twice, and no table of the way. -/
structure Supplied (m : Machine) (table : BitVec 64) (indices : List (BitVec 9)) : Prop where
  distinct : (m.avail.map PhysFrame.start).Nodup
  fresh : ∀ frame ∈ m.avail, frame.start ∉ m.tablesOn table indices

variable {m m' : Machine} {table : BitVec 64} {flags : PageTableFlags} {i : BitVec 9}
  {indices : List (BitVec 9)} {frame : PhysFrame} {rest : List PhysFrame}

/-! Walks that see the same entries are the same. -/

/-- The tables of the way are read alike in both states. -/
def SameOn (m m' : Machine) (table : BitVec 64) (indices : List (BitVec 9)) : Prop :=
  ∀ u ∈ m.tablesOn table indices, ∀ j, m'.usedTable u j = m.usedTable u j

theorem SameOn.next {next : BitVec 64} (h : SameOn m m' table (i :: indices))
    (hnext : m.usedTable table i = some next) : SameOn m m' next indices := by
  intro u hu
  refine h u ?_
  rw [tablesOn, hnext]
  exact mem_cons_of_mem _ hu

theorem SameOn.head (h : SameOn m m' table (i :: indices)) :
    m'.usedTable table i = m.usedTable table i :=
  h table mem_cons_self i

theorem SameOn.walk (h : SameOn m m' table indices) :
    m'.tablesOn table indices = m.tablesOn table indices ∧
      m'.missingTables table indices = m.missingTables table indices ∧
      m'.lastTable table indices = m.lastTable table indices := by
  induction indices generalizing table with
  | nil => exact ⟨rfl, rfl, rfl⟩
  | cons i indices ih =>
    simp only [tablesOn, missingTables, lastTable, h.head]
    cases hnext : m.usedTable table i with
    | none => exact ⟨rfl, rfl, rfl⟩
    | some next =>
      obtain ⟨htables, hmissing, hlast⟩ := ih (h.next hnext)
      exact ⟨congrArg _ htables, hmissing, hlast⟩

/-- A frame that is no table of the way may be overwritten. -/
theorem sameOn_overwrite {frame : BitVec 64} (hframe : frame ∉ m.tablesOn table indices)
    (hmem : ∀ u, u ≠ frame → m'.mem u = m.mem u) : SameOn m m' table indices := by
  intro u hu j
  have hne : u ≠ frame := fun heq => hframe (heq ▸ hu)
  rw [usedTable_eq, usedTable_eq, hmem u hne]

theorem usedTable_widenEntry (hentry : m.mem table i ≠ 0#64) (flags : PageTableFlags)
    (u : BitVec 64) (j : BitVec 9) :
    (m.widenEntry table i flags).usedTable u j = m.usedTable u j := by
  rw [usedTable_eq, usedTable_eq, widenEntry, write_mem]
  by_cases hu : u = table ∧ j = i
  · obtain ⟨rfl, rfl⟩ := hu
    have hused : m.mem u j ||| (flags.inter .table).bits ≠ 0#64 := fun h =>
      hentry (or_eq_zero_left h)
    rw [setEntry_self, if_neg hused, if_neg hentry, entryAddr_or]
  · rw [setEntry_of_ne fun hut hji => hu ⟨hut, hji⟩]

theorem sameOn_widenEntry (hentry : m.mem table i ≠ 0#64) (flags : PageTableFlags)
    (next : BitVec 64) (indices : List (BitVec 9)) :
    SameOn m (m.widenEntry table i flags) next indices :=
  fun u _ j => usedTable_widenEntry hentry flags u j

theorem walk_empty (h : ∀ j, m.mem table j = 0#64) (indices : List (BitVec 9)) :
    m.tablesOn table indices = [table] ∧ m.missingTables table indices = indices.length ∧
      ∀ i, ((m.lastTable table indices).bind fun t => m.usedTable t i) = none := by
  have hnone : ∀ j, m.usedTable table j = none := fun j => by rw [usedTable_eq, if_pos (h j)]
  cases indices with
  | nil => exact ⟨rfl, rfl, fun i => hnone i⟩
  | cons i indices => simp only [tablesOn, missingTables, lastTable, hnone, bind_none,
      length_cons, implies_true, and_self]

/-! One step: a new, empty table is entered, or an entry that is used gets more flags. -/

theorem enterTable_empty (m : Machine) (i : BitVec 9) (rest : List PhysFrame)
    (hne : frame.start ≠ table) (j : BitVec 9) :
    (m.enterTable table i frame rest).mem frame.start j = 0#64 := by
  show setEntry (update m.mem frame.start fun _ => 0#64) table i _ _ j = 0#64
  rw [setEntry_of_ne fun heq => absurd heq hne, update_self]

namespace Supplied

theorem root_notMem (h : m.Supplied table indices) : table ∉ m.avail.map PhysFrame.start := by
  intro hmem
  obtain ⟨frame, hframe, heq⟩ := mem_map.mp hmem
  refine h.fresh frame hframe ?_
  rw [heq]
  cases indices <;> exact mem_cons_self

theorem head_ne (h : m.Supplied table indices) (havail : m.avail = frame :: rest) :
    frame.start ≠ table := by
  rintro rfl
  exact h.root_notMem (havail ▸ mem_cons_self)

theorem rest_notMem (h : m.Supplied table indices) (havail : m.avail = frame :: rest) :
    frame.start ∉ rest.map PhysFrame.start ∧ (rest.map PhysFrame.start).Nodup := by
  have hdistinct := h.distinct
  rwa [havail, map_cons, nodup_cons] at hdistinct

theorem enterTable (h : m.Supplied table indices) (havail : m.avail = frame :: rest)
    (i : BitVec 9) (indices' : List (BitVec 9)) :
    (m.enterTable table i frame rest).Supplied frame.start indices' := by
  obtain ⟨hnotMem, hnodup⟩ := h.rest_notMem havail
  refine ⟨hnodup, fun frame' hframe' hon => hnotMem ?_⟩
  rw [(walk_empty (enterTable_empty m i rest (h.head_ne havail)) indices').1, mem_singleton] at hon
  exact mem_map.mpr ⟨frame', hframe', hon⟩

theorem widenEntry (h : m.Supplied table (i :: indices)) (hentry : m.mem table i ≠ 0#64)
    (flags : PageTableFlags) :
    (m.widenEntry table i flags).Supplied (entryAddr (m.mem table i)) indices := by
  refine ⟨h.distinct, fun frame hframe hon => h.fresh frame hframe ?_⟩
  rw [(sameOn_widenEntry hentry flags _ indices).walk.1] at hon
  rw [tablesOn, usedTable_eq, if_neg hentry]
  exact mem_cons_of_mem _ hon

end Supplied

variable {r : Except MapToError (BitVec 64)}

/-- **The steps of `map_to`** take a frame for every table that is missing, and fail exactly if
the supply is too small for them. They get to a table that has the entries the last table of the
way had. -/
theorem Walks.spec (hwalk : Walks flags m table indices r m') (h : m.Supplied table indices) :
    (∀ err, r = .error err →
      err = .frameAllocationFailed ∧ m.avail.length < m.missingTables table indices) ∧
    ∀ t, r = .ok t → m.avail.length = m.missingTables table indices + m'.avail.length ∧
      ∀ i, m'.usedTable t i = (m.lastTable table indices).bind fun t => m.usedTable t i := by
  induction hwalk with
  | done =>
    refine ⟨(fun err herr => by cases herr), fun t ht => ?_⟩
    cases ht
    exact ⟨(Nat.zero_add _).symm, fun _ => rfl⟩
  | fail hentry havail =>
    refine ⟨fun err herr => ⟨(Except.error.inj herr).symm, ?_⟩, fun t ht => by cases ht⟩
    rw [missingTables, usedTable_eq, if_pos hentry, havail]
    exact Nat.succ_pos _
  | @enter m table i indices frame rest _ _ hentry havail _ ih =>
    -- the new table is empty, so that all tables after it are missing, too
    have hunused : m.usedTable table i = none := by rw [usedTable_eq, if_pos hentry]
    obtain ⟨-, hmissing, hlast⟩ :=
      walk_empty (enterTable_empty m i rest (h.head_ne havail)) indices
    obtain ⟨hsmall, henough⟩ := ih (h.enterTable havail i indices)
    have hlength : (m.enterTable table i frame rest).avail.length = rest.length := rfl
    simp only [hmissing, hlength, hlast] at hsmall henough
    simp only [missingTables, hunused, lastTable, bind_none, havail, length_cons]
    refine ⟨fun err herr => ?_, fun t ht => ?_⟩
    · exact (hsmall err herr).imp_right Nat.succ_lt_succ
    · obtain ⟨hsupply, hentries⟩ := henough t ht
      exact ⟨by omega, hentries⟩
  | @widen m table i indices _ _ hentry _ ih =>
    have hnext : m.usedTable table i = some (entryAddr (m.mem table i)) := by
      rw [usedTable_eq, if_neg hentry]
    obtain ⟨-, hmissing, hlast⟩ :=
      (sameOn_widenEntry hentry flags (entryAddr (m.mem table i)) indices).walk
    have hrest := ih (h.widenEntry hentry flags)
    simp only [hmissing, hlast, usedTable_widenEntry hentry] at hrest
    simp only [missingTables, hnext, lastTable, bind_some]
    exact hrest

/-! ### What a walk leaves alone -/

theorem tablesOn_eq_cons (m : Machine) (table : BitVec 64) (indices : List (BitVec 9)) :
    m.tablesOn table indices = table :: (m.tablesOn table indices).tail := by
  cases indices <;> rfl

/-- Where entries have come to lead to an empty table, no way has other new tables. -/
theorem tablesOn_grow {f : BitVec 64} (hempty : ∀ j, m'.mem f j = 0#64)
    (hstep : ∀ a j, a ≠ f → m'.usedTable a j = m.usedTable a j ∨ m'.usedTable a j = some f)
    (a : BitVec 64) (indices : List (BitVec 9)) {u : BitVec 64}
    (hu : u ∈ (m'.tablesOn a indices).tail) : u ∈ (m.tablesOn a indices).tail ∨ u = f := by
  have hend : ∀ indices, m'.tablesOn f indices = [f] := fun indices => (walk_empty hempty indices).1
  induction indices generalizing a with
  | nil => cases hu
  | cons i indices ih =>
    by_cases ha : a = f
    · rw [ha, hend] at hu
      cases hu
    · rw [tablesOn, tail_cons] at hu
      rw [tablesOn, tail_cons]
      rcases hstep a i ha with hsame | hnew
      · rw [hsame] at hu
        cases hnext : m.usedTable a i with
        | none =>
          rw [hnext] at hu
          cases hu
        | some next =>
          simp only [hnext] at hu ⊢
          rw [tablesOn_eq_cons, mem_cons] at hu ⊢
          rcases hu with rfl | hu
          · exact Or.inl (Or.inl rfl)
          · exact (ih next hu).imp_left Or.inr
      · rw [hnew] at hu
        simp only [hend, mem_singleton] at hu
        exact Or.inr hu

/-- Frames of the supply have become tables, and no others. -/
structure Extends (m : Machine) (new : List PhysFrame) (m' : Machine) : Prop where
  supply : m.avail = new ++ m'.avail
  lower : ∀ a indices, ∀ u ∈ (m'.tablesOn a indices).tail,
    u ∈ (m.tablesOn a indices).tail ∨ u ∈ new.map PhysFrame.start

namespace Extends

variable {m'' : Machine} {new new' : List PhysFrame}

theorem refl (m : Machine) : m.Extends [] m := ⟨rfl, fun _ _ _ hu => Or.inl hu⟩

theorem trans (h : m.Extends new m') (h' : m'.Extends new' m'') : m.Extends (new ++ new') m'' := by
  refine ⟨by rw [h.supply, h'.supply, append_assoc], fun a indices u hu => ?_⟩
  rw [map_append, mem_append]
  rcases h'.lower a indices u hu with hold | hnew
  · exact (h.lower a indices u hold).imp_right Or.inl
  · exact Or.inr (Or.inr hnew)

theorem widenEntry (hentry : m.mem table i ≠ 0#64) (flags : PageTableFlags) :
    m.Extends [] (m.widenEntry table i flags) := by
  refine ⟨rfl, fun a indices u hu => Or.inl ?_⟩
  rwa [(sameOn_widenEntry hentry flags a indices).walk.1] at hu

/-- An entry of a table, after it has come to lead to a frame. -/
theorem usedTable_setAddr {flags : PageTableFlags} (hpresent : flags.contains .present = true)
    {mem : BitVec 64 → BitVec 9 → BitVec 64} (hmem : ∀ a, a ≠ frame.start → mem a = m.mem a)
    (hm' : m'.mem = setEntry mem table i (setAddr frame flags)) (a : BitVec 64) (j : BitVec 9)
    (ha : a ≠ frame.start) :
    m'.usedTable a j = m.usedTable a j ∨ m'.usedTable a j = some frame.start := by
  rw [usedTable_eq, usedTable_eq, hm']
  by_cases haj : a = table ∧ j = i
  · obtain ⟨rfl, rfl⟩ := haj
    have hused : setAddr frame flags ≠ 0#64 := ne_zero_of_present (contains_setAddr.trans hpresent)
    rw [setEntry_self, if_neg hused, entryAddr_setAddr]
    exact Or.inr rfl
  · rw [setEntry_of_ne fun hat hji => haj ⟨hat, hji⟩, hmem a ha]
    exact Or.inl rfl

theorem enterTable (havail : m.avail = frame :: rest) (hne : frame.start ≠ table) (i : BitVec 9) :
    m.Extends [frame] (m.enterTable table i frame rest) := by
  refine ⟨havail, fun a indices u hu => ?_⟩
  refine (tablesOn_grow (enterTable_empty m i rest hne) ?_ a indices hu).imp_right mem_singleton.mpr
  exact usedTable_setAddr rfl (fun a ha => update_of_ne ha _ _) rfl

end Extends

variable {p4 : BitVec 64} {page : Page}

/-- **What the steps of `map_to` change**: an entry of the first table, the other tables on the
way, and frames of the supply. -/
theorem Walks.writes (hwalk : Walks flags m table indices r m') (h : m.Supplied table indices) :
    ∃ new, m.Extends new m' ∧
      (∀ u j, u ∉ (m.tablesOn table indices).tail → u ∉ new.map PhysFrame.start →
        (u = table → indices.head? ≠ some j) → m'.mem u j = m.mem u j) ∧
      ∀ t, r = .ok t → t ∈ (m.tablesOn table indices).tail ∨ t ∈ new.map PhysFrame.start ∨
        indices = [] ∧ t = table := by
  induction hwalk with
  | done =>
    refine ⟨[], .refl _, fun _ _ _ _ _ => rfl, fun t ht => Or.inr (Or.inr ⟨rfl, ?_⟩)⟩
    exact (Except.ok.inj ht).symm
  | fail => exact ⟨[], .refl _, fun _ _ _ _ _ => rfl, fun t ht => by cases ht⟩
  | @enter m table i indices frame rest _ _ hentry havail _ ih =>
    have hne := h.head_ne havail
    obtain ⟨new, hextends, hmem, hlast⟩ := ih (h.enterTable havail i indices)
    rw [(walk_empty (enterTable_empty m i rest hne) indices).1, tail_cons] at hmem hlast
    refine ⟨frame :: new, (Extends.enterTable havail hne i).trans hextends, ?_, ?_⟩
    · intro u j _ hnew htable
      rw [map_cons, mem_cons, not_or] at hnew
      rw [hmem u j not_mem_nil hnew.2 fun heq => absurd heq hnew.1]
      refine (setEntry_of_ne fun heq hji => htable heq (congrArg some hji.symm)).trans ?_
      rw [update_of_ne hnew.1]
    · intro t ht
      rw [map_cons, mem_cons]
      rcases hlast t ht with hon | hnew | ⟨-, rfl⟩
      · cases hon
      · exact Or.inr (Or.inl (Or.inr hnew))
      · exact Or.inr (Or.inl (Or.inl rfl))
  | @widen m table i indices _ _ hentry _ ih =>
    obtain ⟨new, hextends, hmem, hlast⟩ := ih (h.widenEntry hentry flags)
    rw [(sameOn_widenEntry hentry flags _ indices).walk.1] at hmem hlast
    have hon : (m.tablesOn table (i :: indices)).tail =
        m.tablesOn (entryAddr (m.mem table i)) indices := by
      rw [tablesOn, usedTable_eq, if_neg hentry]
      rfl
    rw [hon, tablesOn_eq_cons]
    refine ⟨new, (Extends.widenEntry hentry flags).trans hextends, ?_, ?_⟩
    · intro u j hu hnew htable
      rw [mem_cons, not_or] at hu
      rw [hmem u j hu.2 hnew fun heq => absurd heq hu.1]
      exact setEntry_of_ne fun heq hji => htable heq (congrArg some hji.symm)
    · intro t ht
      rw [mem_cons]
      rcases hlast t ht with hon' | hnew | ⟨-, rfl⟩
      · exact Or.inl (Or.inr hon')
      · exact Or.inr (Or.inl hnew)
      · exact Or.inl (Or.inl rfl)

/-! What is entered stays. -/

/-- Frames are taken from the supply, and outside of it used entries get flags at most. -/
structure Grows (m m' : Machine) : Prop where
  supply : ∃ new, m.avail = new ++ m'.avail
  entries : ∀ {u}, u ∉ m.avail.map PhysFrame.start → ∀ {i}, m.mem u i ≠ 0#64 →
    Widens (m.mem u i) (m'.mem u i)
  handed : ∀ u ∈ m'.handed, u ∈ m.handed ∨ u ∈ m.avail.map PhysFrame.start
  cleared : m'.cleared = m.cleared

namespace Grows

variable {m m' m'' : Machine} {u : BitVec 64}

theorem refl (m : Machine) : Grows m m :=
  ⟨⟨[], rfl⟩, fun _ _ _ => .refl _, fun _ hu => Or.inl hu, rfl⟩

theorem notMem (h : Grows m m') (hu : u ∉ m.avail.map PhysFrame.start) :
    u ∉ m'.avail.map PhysFrame.start := by
  obtain ⟨new, hnew⟩ := h.supply
  intro hmem
  rw [hnew, map_append] at hu
  exact hu (mem_append_right _ hmem)

theorem trans (h : Grows m m') (h' : Grows m' m'') : Grows m m'' where
  supply := by
    obtain ⟨new, hnew⟩ := h.supply
    obtain ⟨new', hnew'⟩ := h'.supply
    exact ⟨new ++ new', by rw [hnew, hnew', append_assoc]⟩
  entries hu _ hentry := by
    have hfirst := h.entries hu hentry
    exact hfirst.trans (h'.entries (h.notMem hu) (hfirst.ne_zero hentry))
  handed u hu := by
    rcases h'.handed u hu with hold | hnew
    · exact h.handed u hold
    · exact Or.inr (not_imp_not.mp h.notMem hnew)
  cleared := h'.cleared.trans h.cleared

theorem take {frame : PhysFrame} {rest : List PhysFrame} (havail : m.avail = frame :: rest)
    {mem : BitVec 64 → BitVec 9 → BitVec 64} (hmem : ∀ u, u ≠ frame.start → mem u = m.mem u) :
    Grows m { m with avail := rest, handed := frame.start :: m.handed, mem := mem } where
  supply := ⟨[frame], havail⟩
  entries {u} hu {i} _ := by
    rw [havail, map_cons, mem_cons, not_or] at hu
    exact (hmem u hu.1).symm ▸ .refl _
  handed u hu := by
    rw [havail]
    rcases mem_cons.mp hu with rfl | hu
    · exact Or.inr mem_cons_self
    · exact Or.inl hu
  cleared := rfl

theorem write {i : BitVec 9} (hunused : m.mem u i = 0#64) (entry : BitVec 64) :
    Grows m (m.write u i entry) where
  supply := ⟨[], rfl⟩
  entries {t} _ {j} hentry := by
    have hne : t = u → j ≠ i := by
      rintro rfl rfl
      exact hentry hunused
    rw [write_mem, setEntry_of_ne hne]
    exact .refl _
  handed _ hu := Or.inl hu
  cleared := rfl

theorem enterTable {i : BitVec 9} {frame : PhysFrame} {rest : List PhysFrame}
    (havail : m.avail = frame :: rest) (hunused : m.mem u i = 0#64) :
    Grows m (m.enterTable u i frame rest) := by
  have hempty : (takeZeroed m frame rest).mem u i = 0#64 := by
    show update m.mem frame.start (fun _ => 0#64) u i = 0#64
    by_cases hu : u = frame.start
    · rw [hu, update_self]
    · rw [update_of_ne hu, hunused]
  exact (take havail fun t ht => update_of_ne ht _ _).trans (write hempty _)

theorem widenEntry (m : Machine) (u : BitVec 64) (i : BitVec 9) (flags : PageTableFlags) :
    Grows m (m.widenEntry u i flags) where
  supply := ⟨[], rfl⟩
  entries {t} _ {j} _ := by
    rw [Machine.widenEntry, write_mem]
    by_cases heq : t = u ∧ j = i
    · obtain ⟨rfl, rfl⟩ := heq
      rw [setEntry_self]
      exact .of_flags _ _
    · rw [setEntry_of_ne fun htu hji => heq ⟨htu, hji⟩]
      exact .refl _
  handed _ hu := Or.inl hu
  cleared := rfl

theorem usedTable (h : Grows m m') (hu : u ∉ m.avail.map PhysFrame.start) {j : BitVec 9}
    {next : BitVec 64} (hnext : m.usedTable u j = some next) : m'.usedTable u j = some next := by
  rw [usedTable_eq] at hnext ⊢
  split_ifs at hnext with hentry
  have hwidens := h.entries hu hentry
  rw [if_neg (hwidens.ne_zero hentry), hwidens.entryAddr, hnext]

end Grows

theorem Walks.grows (hwalk : Walks flags m table indices r m') : Grows m m' := by
  induction hwalk with
  | done => exact .refl _
  | fail => exact .refl _
  | enter hentry havail _ ih => exact (Grows.enterTable havail hentry).trans ih
  | widen _ _ ih => exact (Grows.widenEntry ..).trans ih

/-- **`map_to`**, whatever it finds on its way. -/
theorem mapTo_grows {r : Except MapToError Unit}
    (hmap : m.mapTo page frame flags p4 = (r, m')) : Grows m m' := by
  cases r with
  | error err =>
    obtain ⟨r, hwalk⟩ := mapTo_error hmap
    exact hwalk.grows
  | ok _ =>
    obtain ⟨p1, m₁, hwalk, hunused, rfl⟩ := mapTo_ok hmap
    exact hwalk.grows.trans (.write hunused _)

theorem Walks.last {t : BitVec 64} (hwalk : Walks flags m table indices r m')
    (h : m.Supplied table indices) (hr : r = .ok t) : m'.lastTable table indices = some t := by
  induction hwalk with
  | done => exact congrArg some (Except.ok.inj hr)
  | fail => cases hr
  | @enter m table i indices frame rest _ _ hentry havail walk ih =>
    have hnext : (m.enterTable table i frame rest).usedTable table i = some frame.start := by
      have hpresent : (entryFlags (setAddr frame .table)).contains .present = true :=
        contains_setAddr
      rw [usedTable_eq]
      simp only [enterTable, setEntry_self, if_neg (ne_zero_of_present hpresent),
        entryAddr_setAddr]
    have htable := h.root_notMem
    rw [havail, map_cons, mem_cons, not_or] at htable
    rw [lastTable, walk.grows.usedTable htable.2 hnext]
    exact ih (h.enterTable havail i indices) hr
  | @widen m table i indices _ _ hentry walk ih =>
    have hnext : (m.widenEntry table i flags).usedTable table i =
        some (entryAddr (m.mem table i)) := by
      rw [usedTable_widenEntry hentry, usedTable_eq, if_neg hentry]
    rw [lastTable, walk.grows.usedTable h.root_notMem hnext]
    exact ih (h.widenEntry hentry flags) hr

/-- A way that is there does not go through an entry that is unused. -/
theorem lastTable_write {t u : BitVec 64} {j : BitVec 9} (hunused : m.mem u j = 0#64)
    (entry : BitVec 64) (h : m.lastTable table indices = some t) :
    (m.write u j entry).lastTable table indices = some t := by
  induction indices generalizing table with
  | nil => exact h
  | cons i indices ih =>
    obtain ⟨next, hnext, h⟩ := bind_eq_some_iff.mp h
    have hne : table = u → i ≠ j := by
      rintro rfl rfl
      rw [usedTable_eq, if_pos hunused] at hnext
      cases hnext
    have hsame : (m.write u j entry).usedTable table i = some next := by
      rw [usedTable_eq, write_mem, setEntry_of_ne hne, ← usedTable_eq, hnext]
    rw [lastTable, hsame]
    exact ih h

/-- **A page that `map_to` has mapped** translates. -/
theorem translateAddr_of_mapTo (h : m.Supplied p4 page.start.upperIndices)
    (hmap : m.mapTo page frame flags p4 = (.ok (), m')) :
    m'.translateAddr p4 page.start ≠ none := by
  obtain ⟨p1, m₁, hwalk, hunused, rfl⟩ := mapTo_ok hmap
  have hlast := lastTable_write hunused (setAddr frame (flags.union .present))
    (hwalk.last h rfl)
  have hleaf : (m₁.enter p1 page frame flags).usedTable p1 page.start.p1Index =
      some frame.start := by
    rw [usedTable_eq, enter, write_mem, setEntry_self, if_neg (ne_zero_of_present present_leaf),
      entryAddr_setAddr]
  obtain ⟨p3, hp3, hlast⟩ := bind_eq_some_iff.mp hlast
  obtain ⟨p2, hp2, hlast⟩ := bind_eq_some_iff.mp hlast
  obtain ⟨p1', hp1, hlast⟩ := bind_eq_some_iff.mp hlast
  obtain rfl : p1' = p1 := some.inj hlast
  rw [← enter] at hp3 hp2 hp1
  simp only [translateAddr, hp3, hp2, hp1, hleaf, bind_eq_bind, bind_some]
  split_ifs <;> exact some_ne_none _

/-- **What `map_to` changes**, whether it succeeds or not: an entry of the PML4, the tables on the
way below it, and frames of the supply. -/
theorem mapTo_changes {r : Except MapToError Unit} (h : m.Supplied p4 page.start.upperIndices)
    (hmap : m.mapTo page frame flags p4 = (r, m')) :
    ∃ new, m.avail = new ++ m'.avail ∧ ∀ u j, u ∉ (m.tablesOn p4 page.start.upperIndices).tail →
      u ∉ new.map PhysFrame.start → (u = p4 → j ≠ page.start.p4Index) → m'.mem u j = m.mem u j := by
  have hhead : ∀ {u j}, (u = p4 → j ≠ page.start.p4Index) →
      u = p4 → page.start.upperIndices.head? ≠ some j :=
    fun hj hu heq => hj hu (some.inj heq).symm
  cases r with
  | error err =>
    obtain ⟨r, hwalk⟩ := mapTo_error hmap
    obtain ⟨new, hextends, hmem, -⟩ := hwalk.writes h
    exact ⟨new, hextends.supply, fun u j hu hnew hj => hmem u j hu hnew (hhead hj)⟩
  | ok _ =>
    obtain ⟨p1, m₁, hwalk, -, rfl⟩ := mapTo_ok hmap
    obtain ⟨new, hextends, hmem, hlast⟩ := hwalk.writes h
    refine ⟨new, hextends.supply, fun u j hu hnew hj => ?_⟩
    have hne : u ≠ p1 := by
      rintro rfl
      rcases hlast u rfl with hon | hnew' | ⟨hnil, -⟩
      · exact hu hon
      · exact hnew hnew'
      · cases hnil
    rw [← hmem u j hu hnew (hhead hj)]
    exact congrFun (setEntry_table hne) j

/-- `map_to` maps a page to an empty frame: no way has other new tables than those that
`map_to` has entered, and the frame. -/
theorem tablesOn_mapTo (h : m.Supplied p4 page.start.upperIndices)
    (hzero : ∀ j, m.mem frame.start j = 0#64)
    (hframe : frame.start ∉ m.tablesOn p4 page.start.upperIndices)
    (havail : frame.start ∉ m.avail.map PhysFrame.start)
    (hmap : m.mapTo page frame flags p4 = (.ok (), m')) {new : List PhysFrame}
    (hsupply : m.avail = new ++ m'.avail) (a : BitVec 64) (indices : List (BitVec 9))
    {u : BitVec 64} (hu : u ∈ (m'.tablesOn a indices).tail) :
    u ∈ (m.tablesOn a indices).tail ∨ u ∈ (frame :: new).map PhysFrame.start := by
  obtain ⟨p1, m₁, hwalk, -, rfl⟩ := mapTo_ok hmap
  obtain ⟨new', hextends, hmem, hlast⟩ := hwalk.writes h
  obtain rfl : new' = new := append_cancel_right (hextends.supply.symm.trans hsupply)
  have hnew : frame.start ∉ new'.map PhysFrame.start := by
    intro hmemNew
    refine havail ?_
    rw [hsupply, map_append]
    exact mem_append_left _ hmemNew
  have hon : frame.start ∉ (m.tablesOn p4 page.start.upperIndices).tail :=
    fun hon => hframe (mem_of_mem_tail hon)
  have hroot : frame.start ≠ p4 := fun heq => hframe (heq ▸ mem_cons_self)
  have hp1 : frame.start ≠ p1 := by
    rintro rfl
    rcases hlast _ rfl with hon' | hnew' | ⟨hnil, -⟩
    · exact hon hon'
    · exact hnew hnew'
    · cases hnil
  have hempty : ∀ j, (m₁.enter p1 page frame flags).mem frame.start j = 0#64 := by
    intro j
    rw [enter, write_mem, setEntry_of_ne fun heq => absurd heq hp1,
      hmem frame.start j hon hnew fun heq => absurd heq hroot, hzero]
  have hpresent : (flags.union .present).contains .present = true :=
    contains_setAddr.symm.trans (@present_leaf frame flags)
  rw [map_cons, mem_cons]
  rcases tablesOn_grow hempty (Extends.usedTable_setAddr hpresent (fun _ _ => rfl) rfl) a indices hu
    with hold | rfl
  · exact (hextends.lower a indices u hold).imp_right Or.inr
  · exact Or.inr (Or.inl rfl)

end Walk

/-! ### Pages that are not mapped -/

section Unmapped

variable {m m' : Machine} {p4 : BitVec 64} {v : VirtAddr}

theorem lastTable_of_unmapped (h : m.translateAddr p4 v = none) :
    ((m.lastTable p4 v.upperIndices).bind fun t => m.usedTable t v.p1Index) = none := by
  simp only [VirtAddr.upperIndices, lastTable, Option.bind_assoc, bind_some]
  rw [bind_eq_none_iff]
  intro p3 hp3
  rw [bind_eq_none_iff]
  intro p2 hp2
  rw [bind_eq_none_iff]
  intro p1 hp1
  simp only [translateAddr, hp3, hp2, hp1, bind_eq_bind, bind_some] at h
  split_ifs at h
  cases hleaf : m.usedTable p1 v.p1Index with
  | none => rfl
  | some frameBase =>
    rw [hleaf] at h
    cases h

/-- A frame that is no table on the way of an address may be overwritten. -/
theorem translateAddr_overwrite {frame : BitVec 64} (hframe : frame ∉ m.tablesOn p4 v.upperIndices)
    (hmem : ∀ u, u ≠ frame → m'.mem u = m.mem u) :
    m'.translateAddr p4 v = m.translateAddr p4 v := by
  have hsame : ∀ u ∈ m.tablesOn p4 v.upperIndices, m'.mem u = m.mem u := fun u hu =>
    hmem u fun heq => hframe (heq ▸ hu)
  have hused : ∀ u ∈ m.tablesOn p4 v.upperIndices, ∀ j, m'.usedTable u j = m.usedTable u j := by
    intro u hu j
    rw [usedTable_eq, usedTable_eq, hsame u hu]
  unfold translateAddr
  rw [hused p4 (by simp [VirtAddr.upperIndices, tablesOn])]
  refine Option.bind_congr fun p3 hp3 => ?_
  rw [hused p3 (by simp [VirtAddr.upperIndices, tablesOn, hp3])]
  refine Option.bind_congr fun p2 hp2 => ?_
  have hon2 : p2 ∈ m.tablesOn p4 v.upperIndices := by
    simp [VirtAddr.upperIndices, tablesOn, hp3, hp2]
  rw [hused p2 hon2, hsame p2 hon2]
  refine Option.bind_congr fun p1 hp1 => ?_
  rw [hused p1 (by simp [VirtAddr.upperIndices, tablesOn, hp3, hp2, hp1])]

/-- **`map_to` of a page that is not mapped** succeeds exactly if there are frames for the
tables that are missing; otherwise the allocation of a frame fails. -/
theorem mapTo_of_unmapped {page : Page} (hsupplied : m.Supplied p4 page.start.upperIndices)
    (hnone : m.translateAddr p4 page.start = none) (frame : PhysFrame) (flags : PageTableFlags) :
    (m.mapTo page frame flags p4).1 =
      if m.missingTables p4 page.start.upperIndices ≤ m.avail.length then .ok ()
      else .error .frameAllocationFailed := by
  rcases m.mapTo_walks page frame flags p4 with ⟨err, m', hmap, hwalk⟩ | ⟨p1, m₁, hmap, hwalk⟩
  · obtain ⟨rfl, hlt⟩ := (hwalk.spec hsupplied).1 err rfl
    rw [hmap, if_neg (Nat.not_le_of_lt hlt)]
  · obtain ⟨hsupply, hentries⟩ := (hwalk.spec hsupplied).2 p1 rfl
    have hleaf := (hentries page.start.p1Index).trans (lastTable_of_unmapped hnone)
    have hunused : m₁.mem p1 page.start.p1Index = 0#64 := by
      rw [usedTable_eq] at hleaf
      split_ifs at hleaf with hzero
      exact hzero
    rw [hmap, mapLeaf, if_pos (isUnused_iff.mpr hunused), if_pos (by omega)]

end Unmapped

/-! ### Trees -/

section Tree

variable {H : Set (BitVec 9)} {m m' : Machine} {p4 t u : BitVec 64} {page : Page} {i : BitVec 9}
  {p : List (BitVec 9)} {frame : PhysFrame} {flags : PageTableFlags}

/-- On the way to a page that is not in a huge page, a step follows the tree. -/
theorem usedTable_eq_tableAt (hhuge : NoHugePage m p4 page)
    (hsuffix : (i :: p) <:+ page.start.path.tail) (ht : m.tableAt p4 p = some t) :
    m.usedTable t i = m.tableAt p4 (i :: p) := by
  by_cases hlen : p.length = 2
  · obtain hpath : i :: p = page.start.path.tail := hsuffix.eq_of_length (congrArg (· + 1) hlen)
    have hentry : (m.entryAt p4 (i :: p)).bind hugeFrame = none := hpath ▸ hhuge
    rw [entryAt_of_tableAt ht] at hentry
    rw [tableAt_cons, entryAt_of_tableAt ht, usedTable_eq]
    split_ifs at hentry ⊢ with hzero
    · rfl
    · rw [bind_some, hugeFrame] at hentry
      split_ifs at hentry with hbit
      exact (follow_of_used hzero fun _ => Bool.eq_false_iff.mpr hbit).symm
  · rw [tableAt_bind_usedTable _ _ _ _ hlen, ht, bind_some]

/-- The tables on the way to a page are tables of the tree. -/
theorem mem_tablesOn (hhuge : NoHugePage m p4 page) {indices : List (BitVec 9)}
    (ht : m.tableAt p4 p = some t) (hp : indices.reverse ++ p <:+ page.start.path.tail)
    (hu : u ∈ m.tablesOn t indices) :
    ∃ q, p <:+ q ∧ q <:+ page.start.path.tail ∧ m.tableAt p4 q = some u := by
  induction indices generalizing p t with
  | nil =>
    obtain rfl := mem_singleton.mp hu
    exact ⟨p, suffix_rfl, hp, ht⟩
  | cons i indices ih =>
    rw [reverse_cons, append_assoc, singleton_append] at hp
    have hip := (suffix_append indices.reverse (i :: p)).trans hp
    rw [tablesOn, mem_cons] at hu
    rcases hu with rfl | hu
    · exact ⟨p, suffix_rfl, (suffix_cons i p).trans hip, ht⟩
    · cases hused : m.usedTable t i with
      | none =>
        rw [hused] at hu
        cases hu
      | some next =>
        rw [hused] at hu
        obtain ⟨q, hpq, hrest⟩ :=
          ih ((usedTable_eq_tableAt hhuge hip ht).symm.trans hused) hp hu
        exact ⟨q, (suffix_cons i p).trans hpq, hrest⟩

variable (htree : PageTree (Within 3 H) m p4) (hpage : page.start.p4Index ∈ H)
  (hhuge : NoHugePage m p4 page)

include hpage hhuge in
theorem tables_of_page (hu : u ∈ m.tablesOn p4 page.start.upperIndices) :
    ∃ q, Within 3 H q ∧ m.tableAt p4 q = some u := by
  obtain ⟨q, -, hq, htable⟩ := mem_tablesOn (p := []) hhuge rfl suffix_rfl hu
  exact ⟨q, (within_tailClosed 3 H).suffix (VirtAddr.within_tail hpage) hq, htable⟩

include htree hpage hhuge in
theorem root_notMem_of_tree : p4 ∉ (m.tablesOn p4 page.start.upperIndices).tail := by
  intro hmem
  rw [VirtAddr.upperIndices, tablesOn, tail_cons] at hmem
  cases hused : m.usedTable p4 page.start.p4Index with
  | none =>
    rw [hused] at hmem
    cases hmem
  | some next =>
    rw [hused] at hmem
    have hnext := (usedTable_eq_tableAt hhuge ⟨[_, _], rfl⟩ rfl).symm.trans hused
    obtain ⟨q, hq, hle, htable⟩ := mem_tablesOn hhuge hnext suffix_rfl hmem
    have hroot := htree.unshared ((within_tailClosed 3 H).suffix (VirtAddr.within_tail hpage) hle)
      within_nil htable rfl
    rw [hroot] at hq
    exact absurd (suffix_nil.mp hq) (cons_ne_nil _ _)

include htree hpage hhuge in
theorem supplied_of_tree : m.Supplied p4 page.start.upperIndices where
  distinct := htree.distinct
  fresh frame hframe hmem := by
    obtain ⟨q, hq, htable⟩ := tables_of_page hpage hhuge hmem
    exact htree.fresh frame hframe q hq htable

include htree hpage hhuge in
/-- **What `map_to` leaves alone** in a tree: all frames but its tables and frames of the supply,
and the other entries of the PML4. -/
theorem mapTo_leaves {r : Except MapToError Unit}
    (hmap : m.mapTo page frame flags p4 = (r, m')) :
    (∀ u, (∀ q, Within 3 H q → m.tableAt p4 q ≠ some u) → u ∉ m.avail.map PhysFrame.start →
        m'.mem u = m.mem u) ∧ ∀ j, j ∉ H → m'.mem p4 j = m.mem p4 j := by
  have hsupplied := supplied_of_tree htree hpage hhuge
  obtain ⟨new, havail, hmem⟩ := mapTo_changes hsupplied hmap
  have hnew : ∀ {u}, u ∉ m.avail.map PhysFrame.start → u ∉ new.map PhysFrame.start := by
    intro u hu hnew
    rw [havail, map_append] at hu
    exact hu (mem_append_left _ hnew)
  refine ⟨fun u hu hsupply => funext fun j => hmem u j (fun hon => ?_) (hnew hsupply)
    fun heq => absurd rfl (heq ▸ hu [] within_nil), fun j hj => ?_⟩
  · obtain ⟨q, hq, htable⟩ := tables_of_page hpage hhuge (mem_of_mem_tail hon)
    exact hu q hq htable
  · refine hmem p4 j (root_notMem_of_tree htree hpage hhuge) (hnew hsupplied.root_notMem) ?_
    rintro - rfl
    exact hj hpage

/-- The frame is no table behind these entries of the PML4, and it is not in the supply. -/
def Aside (H : Set (BitVec 9)) (p4 : BitVec 64) (m : Machine) (f : BitVec 64) : Prop :=
  (∀ q, Within 3 H q → m.tableAt p4 q ≠ some f) ∧ f ∉ m.avail.map PhysFrame.start

include htree hpage hhuge in
theorem Aside.mapTo (hmap : m.mapTo page frame flags p4 = (.ok (), m')) (h : Aside H p4 m u) :
    Aside H p4 m' u ∧ m'.mem u = m.mem u := by
  have hmaps := MapsPage.of_mapTo htree hpage hhuge hmap
  refine ⟨⟨fun q hq htable => ?_, (mapTo_grows hmap).notMem h.2⟩,
    (mapTo_leaves htree hpage hhuge hmap).1 u h.1 h.2⟩
  exact (hmaps.origin hq htable).elim (h.1 q hq) h.2

end Tree

end Machine

end KernelR.Mm
