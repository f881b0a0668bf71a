import KernelR.Mm.PagingLaws

/-!
# The direct map

`map_all_physical_memory` of `paging.rs` extends the mapping of physical memory at
`PHYS_OFFSET` by one huge page after the other. It gets frames for new tables from the bump
allocator, and it clears and fills them through the very mapping that it is about to build.
A frame or a table that is not mapped there yet cannot be accessed; `mapAllMapped` is the
function with these accesses, and whatever it returns `mapAllPhysicalMemory` returns as well
(`mapAllMapped_eq_some`).

`DirectMapped m p4 n` says that the first `n` pages of 2 MiB are mapped and which tables
there are. Mapping page `n` takes a frame for each table that begins there, `demand n`, and
succeeds exactly if these frames lie in the pages that are mapped (`mapHugePageMapped_spec`).
-/

namespace KernelR.Mm

open List Option Foundations

/-! ### Addresses of the direct map -/

theorem direct_toNat {p : ℕ} (hp : p < 2 ^ 47) :
    (BitVec.ofNat 64 p + Machine.physOffset).toNat = 0xFFFF800000000000 + p := by
  rw [BitVec.toNat_add, BitVec.toNat_ofNat]
  show (p % 2 ^ 64 + 0xFFFF800000000000) % 2 ^ 64 = _
  omega

/-- `p + PHYS_OFFSET`. The sum overflows from `2 ^ 47` on. -/
def VirtAddr.direct (p : ℕ) (hp : p < 2 ^ 47) : VirtAddr :=
  ⟨BitVec.ofNat 64 p + Machine.physOffset,
    VirtAddr.canonical_iff.mpr (Or.inr (by rw [direct_toNat hp]; exact Nat.le_add_right _ _))⟩

namespace VirtAddr

variable {p q : ℕ} (hp : p < 2 ^ 47) (hq : q < 2 ^ 47)

theorem toNat_direct : (direct p hp).bits.toNat = 0xFFFF800000000000 + p := direct_toNat hp

theorem toNat_index (v : VirtAddr) (s : ℕ) :
    (v.bits.extractLsb' s 9).toNat = v.bits.toNat / 2 ^ s % 512 := by
  rw [BitVec.extractLsb'_toNat, Nat.shiftRight_eq_div_pow]

theorem p4Index_direct : (direct p hp).p4Index.toNat = 256 + p / 2 ^ 39 := by
  rw [p4Index, toNat_index, toNat_direct]
  omega

theorem p3Index_direct : (direct p hp).p3Index.toNat = p / 2 ^ 30 % 512 := by
  rw [p3Index, toNat_index, toNat_direct]
  omega

theorem p2Index_direct : (direct p hp).p2Index.toNat = p / 2 ^ 21 % 512 := by
  rw [p2Index, toNat_index, toNat_direct]
  omega

theorem p1Index_direct : (direct p hp).p1Index.toNat = p / 2 ^ 12 % 512 := by
  rw [p1Index, toNat_index, toNat_direct]
  omega

theorem offset_direct {k : ℕ} (hk : k ≤ 47) :
    (direct p hp).bits &&& BitVec.ofNat 64 (2 ^ k - 1) = BitVec.ofNat 64 (p % 2 ^ k) := by
  have hle : 2 ^ k ≤ 2 ^ 47 := Nat.pow_le_pow_right (by decide) hk
  have hmod : p % 2 ^ k < 2 ^ k := Nat.mod_lt _ (Nat.two_pow_pos k)
  have hdvd : 0xFFFF800000000000 % 2 ^ k = 0 :=
    Nat.mod_eq_zero_of_dvd ((pow_dvd_pow 2 hk).trans (by decide))
  apply BitVec.eq_of_toNat_eq
  rw [BitVec.toNat_and, toNat_direct, BitVec.toNat_ofNat, BitVec.toNat_ofNat,
    Nat.mod_eq_of_lt (a := 2 ^ k - 1) (by omega), Nat.mod_eq_of_lt (a := p % 2 ^ k) (by omega),
    Nat.and_two_pow_sub_one_eq_mod, Nat.add_mod, hdvd, Nat.zero_add, Nat.mod_mod]

theorem exists_direct {v : VirtAddr} (h : 256 ≤ v.p4Index.toNat) :
    ∃ p, ∃ hp : p < 2 ^ 47, v = direct p hp := by
  have hlt := v.bits.isLt
  have hhigh : 0xFFFF800000000000 ≤ v.bits.toNat := by
    refine (VirtAddr.canonical_iff.mp v.canonical).resolve_left fun hlow => ?_
    rw [p4Index, toNat_index] at h
    omega
  refine ⟨v.bits.toNat - 0xFFFF800000000000, by omega, ?_⟩
  have hbits : v.bits = BitVec.ofNat 64 (v.bits.toNat - 0xFFFF800000000000) +
      Machine.physOffset := by
    apply BitVec.eq_of_toNat_eq
    rw [direct_toNat (by omega)]
    omega
  obtain ⟨bits, canonical⟩ := v
  exact (mk.injEq _ _ _ _).mpr hbits

theorem path_tail_direct :
    (direct p hp).path.tail = (direct q hq).path.tail ↔ p / 2 ^ 21 = q / 2 ^ 21 := by
  simp only [path, tail_cons, List.cons.injEq, and_true, ← BitVec.toNat_inj, p2Index_direct,
    p3Index_direct, p4Index_direct]
  omega

end VirtAddr

/-! ### The function, with its accesses -/

namespace Machine

/-- The kernel can access the frame at `phys + PHYS_OFFSET`. -/
def accessible (m : Machine) (p4 phys : BitVec 64) : Bool :=
  if h : phys.toNat < 2 ^ 47 then m.translateAddr p4 (.direct phys.toNat h) == some phys
  else false

/-- `map_all_physical_memory`: an entry is read, and a new table is cleared and then entered,
through the direct map. -/
def earlyTableMapped (m : Machine) (p4 table : BitVec 64) (i : BitVec 9) :
    Option (BitVec 64 × Machine) :=
  if m.accessible p4 table &&
      (!isUnused (m.mem table i) || m.avail.head?.all fun frame => m.accessible p4 frame.start) then
    m.earlyTable table i
  else none

/-- `map_all_physical_memory`: one huge page. -/
def mapHugePageMapped (m : Machine) (p4 currentPhys : BitVec 64) : Option Machine :=
  let bits := currentPhys + physOffset
  if h : (bits.setWidth 48).signExtend 64 = bits then do
    let virtAddr : VirtAddr := ⟨bits, h⟩
    let (p3, m) ← m.earlyTableMapped p4 p4 virtAddr.p4Index
    let (p2, m) ← m.earlyTableMapped p4 p3 virtAddr.p3Index
    if m.accessible p4 p2 then
      some (m.write p2 virtAddr.p2Index (setAddr (.containingAddress currentPhys)
        (.union (.union .present .writable) .hugePage)))
    else none
  else none

/-- `map_all_physical_memory` -/
def mapAllMapped (m : Machine) (highestPhysAddr p4 : BitVec 64) : Option Machine :=
  let startPhys := 0x40000000#64
  let endPhys := (highestPhysAddr + 0x1FFFFF#64) &&& ~~~0x1FFFFF#64
  (List.range ((endPhys.toNat - startPhys.toNat) / 0x200000)).foldlM
    (fun m k => m.mapHugePageMapped p4 (startPhys + .ofNat 64 k * 0x200000#64)) m

theorem earlyTableMapped_eq_some {m : Machine} {p4 table : BitVec 64} {i : BitVec 9}
    {r : BitVec 64 × Machine} (h : m.earlyTableMapped p4 table i = some r) :
    m.earlyTable table i = some r :=
  (ite_none_right_eq_some.mp h).2

theorem mapHugePageMapped_eq_some {m m' : Machine} {p4 currentPhys : BitVec 64}
    (h : m.mapHugePageMapped p4 currentPhys = some m') :
    m.mapHugePage p4 currentPhys = some m' := by
  unfold mapHugePageMapped at h
  unfold mapHugePage
  dsimp only at h ⊢
  split at h
  next hcanonical =>
    obtain ⟨⟨p3, m₁⟩, h₁, h⟩ := bind_eq_some_iff.mp h
    obtain ⟨⟨p2, m₂⟩, h₂, h⟩ := bind_eq_some_iff.mp h
    rw [dif_pos hcanonical, earlyTableMapped_eq_some h₁, bind_eq_bind, bind_some]
    rw [earlyTableMapped_eq_some h₂, bind_some]
    exact (ite_none_right_eq_some.mp h).2
  next => cases h

/-- With all accesses possible, this is the function without them. -/
theorem mapAllMapped_eq_some {m m' : Machine} {highestPhysAddr p4 : BitVec 64}
    (h : m.mapAllMapped highestPhysAddr p4 = some m') :
    m.mapAllPhysicalMemory highestPhysAddr p4 = some m' := by
  have hfold : ∀ (addr : ℕ → BitVec 64) (l : List ℕ) (m : Machine),
      l.foldlM (fun m k => m.mapHugePageMapped p4 (addr k)) m = some m' →
        l.foldlM (fun m k => m.mapHugePage p4 (addr k)) m = some m' := by
    intro addr l
    induction l with
    | nil =>
      intro m h
      rw [foldlM_nil] at h ⊢
      exact h
    | cons k l ih =>
      intro m h
      rw [foldlM_cons] at h ⊢
      obtain ⟨m₁, h₁, h⟩ := bind_eq_some_iff.mp h
      exact bind_eq_some_iff.mpr ⟨m₁, mapHugePageMapped_eq_some h₁, ih m₁ h⟩
  exact hfold _ _ m h

end Machine

/-! ### The frames that are needed -/

/-- The pages at which the tables for page `n` begin, if it is the first one in them: a PDPT
for every 512 GiB, and a page directory for every 1 GiB. -/
def demand (n : ℕ) : List ℕ :=
  (if 2 ^ 18 ∣ n then [n] else []) ++ if 512 ∣ n then [n] else []

/-- The frames, in this order, lie in front of these pages. -/
def Supplies : List ℕ → List PhysFrame → Prop
  | [], _ => True
  | _ :: _, [] => False
  | n :: pages, frame :: frames => frame.start.toNat < n * 2 ^ 21 ∧ Supplies pages frames

theorem supplies_append {pages pages' : List ℕ} {frames : List PhysFrame} :
    Supplies (pages ++ pages') frames ↔
      Supplies pages frames ∧ Supplies pages' (frames.drop pages.length) := by
  induction pages generalizing frames with
  | nil => simp [Supplies]
  | cons n pages ih =>
    cases frames with
    | nil => simp [Supplies]
    | cons frame frames =>
      rw [cons_append, Supplies, Supplies, ih, and_assoc]
      rfl

/-! ### What is mapped -/

/-- Paths to tables that do not lead through the first entry of the PML4, which leads to the
same tables as the entry of the direct map does. -/
def NotLow (p : List (BitVec 9)) : Prop := p.length ≤ 3 ∧ p.getLast? ≠ some 0#9

theorem notLow_tailClosed : TailClosed NotLow := by
  rintro p ⟨hlen, hlast⟩
  cases p with
  | nil => exact ⟨hlen, hlast⟩
  | cons i p =>
    rw [length_cons] at hlen
    refine ⟨by rw [tail_cons]; omega, ?_⟩
    cases p with
    | nil => exact nofun
    | cons j p => rwa [List.getLast?_cons_cons] at hlast

theorem notLow_path {v : VirtAddr} (h : 256 ≤ v.p4Index.toNat) : NotLow v.path.tail := by
  refine ⟨le_rfl, fun hlast => ?_⟩
  have hzero : v.p4Index = 0#9 := some.inj hlast
  rw [hzero] at h
  exact absurd h (by decide)

/-- The pages in front of page `n` are mapped and hold all tables, and nothing else is
mapped in the direct map. -/
structure Charted (m : Machine) (p4 : BitVec 64) (n : ℕ) : Prop where
  tree : PageTree NotLow m p4
  tables : ∀ q, NotLow q → q.length ≤ 2 → ∀ t, m.tableAt p4 q = some t → t.toNat < n * 2 ^ 21
  translate : ∀ p (hp : p < 2 ^ 47), m.translateAddr p4 (.direct p hp) =
    if p < n * 2 ^ 21 then some (BitVec.ofNat 64 p) else none

/-- **The direct map of the first `n` pages of 2 MiB.**  There is a table exactly for what has
a page in front of page `n`, and the PML4 leads to the first of them in two ways. -/
structure DirectMapped (m : Machine) (p4 : BitVec 64) (n : ℕ) : Prop extends Charted m p4 n where
  slots : ∀ i : BitVec 9, 256 ≤ i.toNat →
    (m.entryAt p4 [i] = none ↔ n ≤ (i.toNat - 256) * 2 ^ 18)
  directories : ∀ i j : BitVec 9, 256 ≤ i.toNat →
    (m.entryAt p4 [j, i] = none ↔ n ≤ (i.toNat - 256) * 2 ^ 18 + j.toNat * 512)
  twice : m.entryAt p4 [0#9] = m.entryAt p4 [256#9]

variable {m m' : Machine} {p4 t t' : BitVec 64} {n : ℕ} {i : BitVec 9} {p : List (BitVec 9)}

theorem Charted.accessible_iff (h : Charted m p4 n) (hn : n ≤ 2 ^ 26) (phys : BitVec 64) :
    m.accessible p4 phys = true ↔ phys.toNat < n * 2 ^ 21 := by
  unfold Machine.accessible
  split
  next hp =>
    rw [beq_iff_eq, h.translate phys.toNat hp, BitVec.ofNat_toNat, BitVec.setWidth_eq]
    exact ⟨fun heq => (ite_none_right_eq_some.mp heq).1, fun hlt => if_pos hlt⟩
  next hp =>
    refine iff_of_false nofun fun hlt => hp ?_
    omega

/-! ### New tables -/

/-- The entry on the path leads to the table `t'` then, and nothing else has changed for the
direct map. -/
structure EarlyStep (p4 : BitVec 64) (n : ℕ) (m : Machine) (i : BitVec 9) (p : List (BitVec 9))
    (t' : BitVec 64) (m' : Machine) : Prop where
  charted : Charted m' p4 n
  table : m'.tableAt p4 (i :: p) = some t'
  entry : ∃ entry, (∀ old ∈ m.entryAt p4 (i :: p), entry = old) ∧ ∀ j q, NotLow q →
    m'.entryAt p4 (j :: q) = if j :: q = i :: p then some entry else m.entryAt p4 (j :: q)

theorem EarlyStep.of_used (h : Charted m p4 n) (hlen : p.length ≤ 1)
    (ht : m.tableAt p4 p = some t) (hentry : m.mem t i ≠ 0#64) :
    EarlyStep p4 n m i p (entryAddr (m.mem t i)) m := by
  have hused := Machine.entryAt_of_used ht hentry
  refine ⟨h, ?_, m.mem t i, fun old hold => some.inj (hused.symm.trans hold), fun j q _ => ?_⟩
  · rw [Machine.tableAt_cons, hused, bind_some, follow_of_used hentry fun hd => by omega]
  · split
    next heq => rw [heq, hused]
    next => rfl

theorem EarlyStep.of_new (h : Charted m p4 n) (hlen : p.length ≤ 1) (hp : NotLow (i :: p))
    (ht : m.tableAt p4 p = some t) (hentry : m.mem t i = 0#64) {frame : PhysFrame}
    {rest : List PhysFrame} (havail : m.avail = frame :: rest)
    (hframe : frame.start.toNat < n * 2 ^ 21) :
    EarlyStep p4 n m i p frame.start
      ((takeZeroed m frame rest).write t i (setAddr frame (.union .present .writable))) := by
  have hS := notLow_tailClosed
  have hpS : NotLow p := hS hp
  have hnew : ∀ d, follow d (setAddr frame (.union .present .writable)) = some frame.start := by
    intro d
    have hpresent : (entryFlags (setAddr frame (.union .present .writable))).contains
        .present = true := by
      rw [contains_setAddr]
      rfl
    rw [follow_of_used (ne_zero_of_present hpresent), entryAddr_setAddr]
    intro _
    rw [contains_setAddr]
    rfl
  have hold : follow p.length (m.mem t i) = none := hentry.symm ▸ follow_zero _
  have hfresh : ∀ r, NotLow r → m.tableAt p4 r ≠ some frame.start :=
    h.tree.fresh frame (havail ▸ mem_cons_self)
  have hdistinct := h.tree.distinct
  rw [havail, map_cons, nodup_cons] at hdistinct
  have htable : ∀ {q}, NotLow q.tail →
      ((takeZeroed m frame rest).write t i (setAddr frame (.union .present .writable))).tableAt
        p4 q = if q = i :: p then some frame.start else m.tableAt p4 q := fun hq =>
    reach_grow hS h.tree.unshared hpS ht hold hfresh follow_zero (hnew _) hq
  have hentries : ∀ j q, NotLow q →
      ((takeZeroed m frame rest).write t i (setAddr frame (.union .present .writable))).entryAt p4
          (j :: q) =
        if j :: q = i :: p then some (setAddr frame (.union .present .writable))
        else m.entryAt p4 (j :: q) := fun j q hq =>
    entryAt_grow hS h.tree.unshared hpS ht hentry hfresh follow_zero (hnew _) hq
  refine ⟨⟨⟨h.tree.unshared.grow hS hpS ht hold hfresh follow_zero (hnew _), ?_, hdistinct.2⟩,
    ?_, ?_⟩, ?_, _, fun old hold => ?_, hentries⟩
  · intro frame' hframe' q hq
    rw [htable (hS hq)]
    split_ifs
    · -- the supply has no frame twice
      intro heq
      exact hdistinct.1 (mem_map.mpr ⟨frame', hframe', (some.inj heq).symm⟩)
    · exact h.tree.fresh frame' (havail ▸ mem_cons_of_mem _ hframe') q hq
  · intro q hq hqlen u hu
    rw [htable (hS hq)] at hu
    split_ifs at hu
    · exact some.inj hu ▸ hframe
    · exact h.tables q hq hqlen u hu
  · intro x hx
    rw [← h.translate x hx]
    have hpath : NotLow (VirtAddr.direct x hx).path.tail :=
      notLow_path (by rw [VirtAddr.p4Index_direct]; omega)
    have hne : ∀ q : List (BitVec 9), 3 ≤ q.length → q ≠ i :: p := by
      rintro q hq rfl
      rw [length_cons] at hq
      omega
    refine Machine.translateAddr_congr (congrArg (Option.bind · hugeFrame) ?_) ?_
    · exact (hentries _ _ (hS hpath)).trans (if_neg (hne _ le_rfl))
    · exact (hentries _ _ hpath).trans (if_neg (hne (VirtAddr.direct x hx).path (Nat.le_succ 3)))
  · rw [htable (q := i :: p) hpS, if_pos rfl]
  · rw [Machine.entryAt_of_tableAt ht, if_pos hentry] at hold
    cases hold

/-- **One table.**  An unused entry takes the next frame, which has to be mapped. -/
theorem earlyTableMapped_spec (h : Charted m p4 n) (hn : n ≤ 2 ^ 26) (hlen : p.length ≤ 1)
    (hp : NotLow (i :: p)) (ht : m.tableAt p4 p = some t) :
    (Supplies (if m.entryAt p4 (i :: p) = none then [n] else []) m.avail ∧
      ∃ t' m', m.earlyTableMapped p4 t i = some (t', m') ∧
        m'.avail = m.avail.drop (if m.entryAt p4 (i :: p) = none then [n] else []).length ∧
        EarlyStep p4 n m i p t' m') ∨
    (¬Supplies (if m.entryAt p4 (i :: p) = none then [n] else []) m.avail ∧
      m.earlyTableMapped p4 t i = none) := by
  have htable : m.accessible p4 t = true :=
    (h.accessible_iff hn t).mpr (h.tables p (notLow_tailClosed hp) (by omega) t ht)
  by_cases hentry : m.mem t i = 0#64
  · have hnone : m.entryAt p4 (i :: p) = none := by
      rw [Machine.entryAt_of_tableAt ht, if_pos hentry]
    rw [if_pos hnone, Machine.earlyTableMapped, Machine.earlyTable, htable,
      isUnused_iff.mpr hentry, Machine.allocateZeroedFrame, Machine.allocateFrame]
    cases havail : m.avail with
    | nil => exact .inr ⟨id, rfl⟩
    | cons frame rest =>
      have hiff := h.accessible_iff hn frame.start
      by_cases hframe : frame.start.toNat < n * 2 ^ 21
      · refine .inl ⟨⟨hframe, trivial⟩, frame.start, _, ?_, rfl,
          .of_new h hlen hp ht hentry havail hframe⟩
        simp only [List.head?_cons, Option.all_some, hiff.mpr hframe, Bool.not_true,
          Bool.false_or, Bool.and_true, if_true, bind_eq_bind, bind_some]
        refine congrArg some (Prod.ext ?_ rfl)
        exact (congrArg entryAddr (setEntry_self _ _ _ _)).trans entryAddr_setAddr
      · refine .inr ⟨fun hs => hframe hs.1, ?_⟩
        have hno : m.accessible p4 frame.start = false :=
          Bool.eq_false_iff.mpr fun hyes => hframe (hiff.mp hyes)
        simp only [List.head?_cons, Option.all_some, hno, Bool.not_true, Bool.or_false,
          Bool.and_false, Bool.false_eq_true, if_false]
  · have hsome : m.entryAt p4 (i :: p) ≠ none := by
      rw [Machine.entryAt_of_used ht hentry]
      exact some_ne_none _
    have hused : isUnused (m.mem t i) = false :=
      Bool.eq_false_iff.mpr fun hunused => hentry (isUnused_iff.mp hunused)
    rw [if_neg hsome]
    refine .inl ⟨trivial, _, m, ?_, rfl, .of_used h hlen ht hentry⟩
    simp only [Machine.earlyTableMapped, Machine.earlyTable, htable, hused, Bool.not_false,
      Bool.true_or, Bool.and_true, if_true, Bool.false_eq_true, if_false]

/-! ### Huge pages -/

/-- An address of 52 bits whose lower 12 bits are zero fits into an entry. -/
theorem and_addrMask_of_dvd {x : ℕ} (hdvd : 2 ^ 12 ∣ x) (hlt : x < 2 ^ 52) :
    BitVec.ofNat 64 x &&& addrMask = BitVec.ofNat 64 x := by
  obtain ⟨y, rfl⟩ := hdvd
  have hmask : addrMask.toNat = (2 ^ 40 - 1) <<< 12 := by decide
  have hshift : 2 ^ 12 * y = y <<< 12 := by rw [Nat.shiftLeft_eq, Nat.mul_comm]
  apply BitVec.eq_of_toNat_eq
  rw [BitVec.toNat_and, BitVec.toNat_ofNat, Nat.mod_eq_of_lt (by omega), hmask, hshift,
    ← Nat.shiftLeft_and_distrib, Nat.and_two_pow_sub_one_eq_mod, Nat.mod_eq_of_lt (by omega)]

/-- The entry for page `n`. -/
def hugeEntry (n : ℕ) : BitVec 64 :=
  setAddr (.containingAddress (.ofNat 64 (n * 2 ^ 21)))
    (.union (.union .present .writable) .hugePage)

theorem hugeEntry_ne_zero (n : ℕ) : hugeEntry n ≠ 0#64 := by
  refine ne_zero_of_present ?_
  rw [hugeEntry, contains_setAddr]
  rfl

theorem hugeFrame_hugeEntry (hn : n < 2 ^ 26) :
    hugeFrame (hugeEntry n) = some (BitVec.ofNat 64 (n * 2 ^ 21)) := by
  have hhuge : (entryFlags (hugeEntry n)).contains .hugePage = true := by
    rw [hugeEntry, contains_setAddr]
    rfl
  rw [hugeFrame, if_pos hhuge, hugeEntry, entryAddr_setAddr]
  exact congrArg some (and_addrMask_of_dvd (by omega) (by omega))

theorem follow_hugeEntry (n : ℕ) : follow 2 (hugeEntry n) = none := by
  refine if_pos (Or.inr ⟨rfl, ?_⟩)
  rw [hugeEntry, contains_setAddr]
  rfl

section Huge

variable {i₂ i₃ i₄ : BitVec 9}

theorem tableAt_write_huge (h : PageTree NotLow m p4) (hp : NotLow [i₃, i₄])
    (ht : m.tableAt p4 [i₃, i₄] = some t) (n : ℕ) {q : List (BitVec 9)} (hq : NotLow q.tail) :
    (m.write t i₂ (hugeEntry n)).tableAt p4 q =
      if [i₂, i₃, i₄] <:+ q then none else m.tableAt p4 q := by
  split_ifs with hsuffix
  · exact reach_setEntry_dead notLow_tailClosed h.unshared hp ht (follow_hugeEntry n) hsuffix
  · exact reach_setEntry_of_not_suffix notLow_tailClosed h.unshared hp ht hq hsuffix

theorem entryAt_write_huge (h : PageTree NotLow m p4) (hp : NotLow [i₃, i₄])
    (ht : m.tableAt p4 [i₃, i₄] = some t) (n : ℕ) {j : BitVec 9} {q : List (BitVec 9)}
    (hq : NotLow q) (hne : q ≠ [i₂, i₃, i₄]) :
    (m.write t i₂ (hugeEntry n)).entryAt p4 (j :: q) =
      if j :: q = [i₂, i₃, i₄] then some (hugeEntry n) else m.entryAt p4 (j :: q) := by
  have hsuffix : ¬[i₂, i₃, i₄] <:+ q := by
    intro hs
    refine hne (hs.eq_of_length ?_).symm
    exact Nat.le_antisymm hs.length_le hq.1
  rw [entryAt_write_leaf notLow_tailClosed h hp ht _ hq hsuffix, if_neg (hugeEntry_ne_zero n)]

/-- **The huge page itself**, and all other pages as before. -/
theorem translateAddr_write_huge (h : PageTree NotLow m p4) (hn : n < 2 ^ 26)
    {v : VirtAddr} (hv : 256 ≤ v.p4Index.toNat)
    (ht : m.tableAt p4 [v.p3Index, v.p4Index] = some t) {x : ℕ} (hx : x < 2 ^ 47)
    (hpage : (VirtAddr.direct x hx).path.tail = v.path.tail ↔ x / 2 ^ 21 = n) :
    (m.write t v.p2Index (hugeEntry n)).translateAddr p4 (.direct x hx) =
      if x / 2 ^ 21 = n then some (BitVec.ofNat 64 x) else m.translateAddr p4 (.direct x hx) := by
  have hS := notLow_tailClosed
  have hp : NotLow [v.p3Index, v.p4Index] := hS (notLow_path hv)
  have hpath : NotLow (VirtAddr.direct x hx).path.tail :=
    notLow_path (by rw [VirtAddr.p4Index_direct]; omega)
  have hdir : (m.write t v.p2Index (hugeEntry n)).entryAt p4 (VirtAddr.direct x hx).path.tail =
      if (VirtAddr.direct x hx).path.tail = v.path.tail then some (hugeEntry n)
      else m.entryAt p4 (VirtAddr.direct x hx).path.tail :=
    entryAt_write_huge h hp ht n (hS hpath) fun heq =>
      absurd (congrArg List.length heq) (show ¬(2 : ℕ) = 3 by decide)
  split_ifs with hx'
  · have htail := hpage.mpr hx'
    have hentry : (m.write t v.p2Index (hugeEntry n)).entryAt p4
        (VirtAddr.direct x hx).path.tail = some (hugeEntry n) := hdir.trans (if_pos htail)
    rw [Machine.translateAddr_eq, hentry, bind_some, hugeFrame_hugeEntry hn,
      map_some, Option.some_or]
    have hoffset : (VirtAddr.direct x hx).bits &&& 0x1FFFFF#64 = BitVec.ofNat 64 (x % 2 ^ 21) :=
      VirtAddr.offset_direct hx (k := 21) (by decide)
    rw [hoffset, ← BitVec.ofNat_add, ← hx', Nat.div_add_mod']
  · have htail : (VirtAddr.direct x hx).path.tail ≠ v.path.tail := fun heq => hx' (hpage.mp heq)
    refine Machine.translateAddr_congr (congrArg (Option.bind · hugeFrame) ?_) ?_
    · exact hdir.trans (if_neg htail)
    · refine (entryAt_write_huge h hp ht n hpath htail).trans (if_neg ?_)
      exact fun heq => absurd (congrArg List.length heq) (show ¬(4 : ℕ) = 3 by decide)

end Huge

/-- With its tables there and its entry written, page `n` is mapped. -/
theorem DirectMapped.extend {m₂ : Machine} {p2 e₃ : BitVec 64} (h : DirectMapped m p4 n)
    (e₂ : BitVec 64) (hpos : 0 < n) (hn : n * 2 ^ 21 < 2 ^ 47) (hcharted : Charted m₂ p4 n)
    (ht : m₂.tableAt p4 [(VirtAddr.direct _ hn).p3Index, (VirtAddr.direct _ hn).p4Index] = some p2)
    (he₃ : ∀ old ∈ m.entryAt p4 [(VirtAddr.direct _ hn).p4Index], e₃ = old)
    (hentry : ∀ j q, NotLow q → m₂.entryAt p4 (j :: q) =
      if j :: q = [(VirtAddr.direct _ hn).p3Index, (VirtAddr.direct _ hn).p4Index] then some e₂
      else if j :: q = [(VirtAddr.direct _ hn).p4Index] then some e₃ else m.entryAt p4 (j :: q)) :
    DirectMapped (m₂.write p2 (VirtAddr.direct _ hn).p2Index (hugeEntry n)) p4 (n + 1) := by
  have hS := notLow_tailClosed
  have h4 : (VirtAddr.direct _ hn).p4Index.toNat = 256 + n / 2 ^ 18 := by
    rw [VirtAddr.p4Index_direct]
    omega
  have h3 : (VirtAddr.direct _ hn).p3Index.toNat = n / 512 % 512 := by
    rw [VirtAddr.p3Index_direct]
    omega
  have hpage : ∀ x (hx : x < 2 ^ 47),
      (VirtAddr.direct x hx).path.tail = (VirtAddr.direct _ hn).path.tail ↔ x / 2 ^ 21 = n := by
    intro x hx
    rw [VirtAddr.path_tail_direct, Nat.mul_div_cancel n (by decide)]
  generalize VirtAddr.direct (n * 2 ^ 21) hn = v at *
  have hhigh : 256 ≤ v.p4Index.toNat := by omega
  have hpath := notLow_path hhigh
  have htree := hcharted.tree
  have htable : ∀ q u, NotLow q →
      (m₂.write p2 v.p2Index (hugeEntry n)).tableAt p4 q = some u → m₂.tableAt p4 q = some u := by
    intro q u hq hu
    rw [tableAt_write_huge htree (hS hpath) ht n (hS hq)] at hu
    exact (ite_none_left_eq_some.mp hu).2
  -- the entries of the upper tables
  have hupper : ∀ j q, NotLow q → q.length ≤ 1 →
      (m₂.write p2 v.p2Index (hugeEntry n)).entryAt p4 (j :: q) =
        if j :: q = [v.p3Index, v.p4Index] then some e₂
        else if j :: q = [v.p4Index] then some e₃ else m.entryAt p4 (j :: q) := by
    intro j q hq hlen
    have hshort : ∀ r : List (BitVec 9), r.length ≤ 2 → r ≠ [v.p2Index, v.p3Index, v.p4Index] := by
      rintro r hr rfl
      exact absurd hr (show ¬(3 : ℕ) ≤ 2 by decide)
    rw [entryAt_write_huge htree (hS hpath) ht n hq (hshort q (by omega)),
      if_neg (hshort (j :: q) (by rw [length_cons]; omega)), hentry j q hq]
  have hnil : NotLow [] := ⟨by decide, nofun⟩
  refine ⟨⟨⟨?_, ?_, htree.distinct⟩, ?_, ?_⟩, ?_, ?_, ?_⟩
  · intro q r u hq hr hu hu'
    exact htree.unshared hq hr (htable q u hq hu) (htable r u hr hu')
  · intro frame hframe q hq hq'
    exact htree.fresh frame hframe q hq (htable q _ hq hq')
  · intro q hq hlen u hu
    exact (hcharted.tables q hq hlen u (htable q u hq hu)).trans_le
      (Nat.mul_le_mul_right _ (Nat.le_succ n))
  · intro x hx
    rw [translateAddr_write_huge htree (by omega) hhigh ht hx (hpage x hx), hcharted.translate x hx]
    split_ifs <;> first | rfl | omega
  · intro i hi
    rw [hupper i [] hnil (by decide), if_neg (by simp)]
    by_cases hi' : i = v.p4Index
    · rw [if_pos (by rw [hi']), hi', h4]
      exact iff_of_false nofun (by omega)
    · have hne : i.toNat ≠ v.p4Index.toNat := fun heq => hi' (BitVec.eq_of_toNat_eq heq)
      rw [if_neg (by simpa using hi'), h.slots i hi]
      omega
  · intro i j hi
    have hne0 : NotLow [i] := by
      refine ⟨by simp, fun heq => ?_⟩
      have hzero : i = 0#9 := by simpa using heq
      rw [hzero] at hi
      exact absurd hi (by decide)
    rw [hupper j [i] hne0 le_rfl, if_neg (c := [j, i] = [v.p4Index]) (by simp)]
    by_cases hji : j = v.p3Index ∧ i = v.p4Index
    · rw [if_pos (by rw [hji.1, hji.2]), hji.1, hji.2, h4, h3]
      exact iff_of_false nofun (by omega)
    · have hne : ¬(j.toNat = v.p3Index.toNat ∧ i.toNat = v.p4Index.toNat) := fun heq =>
        hji ⟨BitVec.eq_of_toNat_eq heq.1, BitVec.eq_of_toNat_eq heq.2⟩
      have hj := j.isLt
      rw [if_neg (by simpa using hji), h.directories i j hi]
      omega
  · have hzero : (0#9) ≠ v.p4Index := by
      intro heq
      rw [← heq] at hhigh
      exact absurd hhigh (by decide)
    -- the second way is the entry of the first 512 GiB, which was there before
    have hsecond : (m₂.write p2 v.p2Index (hugeEntry n)).entryAt p4 [256#9] =
        m.entryAt p4 [256#9] := by
      rw [hupper 256#9 [] hnil (by decide), if_neg (by simp)]
      split
      next heq =>
        have hindex : 256#9 = v.p4Index := by simpa using heq
        have hsome : m.entryAt p4 [256#9] ≠ none := fun hnone => by
          have hle := (h.slots 256#9 (by decide)).mp hnone
          have hz : (256#9).toNat - 256 = 0 := by decide
          rw [hz] at hle
          omega
        obtain ⟨old, hold⟩ := Option.ne_none_iff_exists'.mp hsome
        rw [hold, he₃ old (hindex ▸ hold)]
      next => rfl
    rw [hsecond, ← h.twice, hupper 0#9 [] hnil (by decide), if_neg (by simp),
      if_neg (by simpa using hzero)]

theorem mapHugePageMapped_eq (m : Machine) (p4 : BitVec 64) (hn : n * 2 ^ 21 < 2 ^ 47) :
    m.mapHugePageMapped p4 (.ofNat 64 (n * 2 ^ 21)) =
      (m.earlyTableMapped p4 p4 (VirtAddr.direct (n * 2 ^ 21) hn).p4Index).bind fun r₃ =>
        (r₃.2.earlyTableMapped p4 r₃.1 (VirtAddr.direct (n * 2 ^ 21) hn).p3Index).bind fun r₂ =>
          if r₂.2.accessible p4 r₂.1 then
            some (r₂.2.write r₂.1 (VirtAddr.direct (n * 2 ^ 21) hn).p2Index (hugeEntry n))
          else none := by
  unfold Machine.mapHugePageMapped
  exact dif_pos (VirtAddr.direct (n * 2 ^ 21) hn).canonical

/-- **One page.**  Mapping page `n` takes a frame for every table that begins with it, and
succeeds exactly if these frames are mapped already. -/
theorem mapHugePageMapped_spec (h : DirectMapped m p4 n) (hpos : 0 < n) (hn : n < 2 ^ 26) :
    (Supplies (demand n) m.avail ∧ ∃ m', m.mapHugePageMapped p4 (.ofNat 64 (n * 2 ^ 21)) = some m' ∧
        m'.avail = m.avail.drop (demand n).length ∧ DirectMapped m' p4 (n + 1)) ∨
    (¬Supplies (demand n) m.avail ∧ m.mapHugePageMapped p4 (.ofNat 64 (n * 2 ^ 21)) = none) := by
  have hlt : n * 2 ^ 21 < 2 ^ 47 := by omega
  have hS := notLow_tailClosed
  rw [mapHugePageMapped_eq m p4 hlt]
  have h4 : (VirtAddr.direct (n * 2 ^ 21) hlt).p4Index.toNat = 256 + n / 2 ^ 18 := by
    rw [VirtAddr.p4Index_direct]
    omega
  have h3 : (VirtAddr.direct (n * 2 ^ 21) hlt).p3Index.toNat = n / 512 % 512 := by
    rw [VirtAddr.p3Index_direct]
    omega
  generalize hv : VirtAddr.direct (n * 2 ^ 21) hlt = v at h4 h3 ⊢
  have hhigh : 256 ≤ v.p4Index.toNat := by omega
  have hpath := notLow_path hhigh
  -- a table is missing exactly if the page is the first one in it
  have hslot : m.entryAt p4 [v.p4Index] = none ↔ 2 ^ 18 ∣ n := by
    rw [h.slots _ hhigh, h4]
    omega
  have hdir : m.entryAt p4 [v.p3Index, v.p4Index] = none ↔ 512 ∣ n := by
    rw [h.directories _ _ hhigh, h4, h3]
    omega
  have hdemand : demand n = (if m.entryAt p4 [v.p4Index] = none then [n] else []) ++
      if m.entryAt p4 [v.p3Index, v.p4Index] = none then [n] else [] := by
    simp only [demand, hslot, hdir]
  rw [hdemand, supplies_append, length_append]
  rcases earlyTableMapped_spec h.toCharted hn.le (p := []) (by decide) (hS (hS hpath)) rfl with
    ⟨hsup₃, p3, m₁, hres₃, havail₁, step₃⟩ | ⟨hsup₃, hres₃⟩
  · obtain ⟨e₃, hold₃, hentry₃⟩ := step₃.entry
    have hdir₁ : m₁.entryAt p4 [v.p3Index, v.p4Index] = m.entryAt p4 [v.p3Index, v.p4Index] :=
      (hentry₃ v.p3Index [v.p4Index] (hS (hS hpath))).trans (if_neg (by simp))
    have hspec₂ := earlyTableMapped_spec step₃.charted hn.le (p := [v.p4Index]) le_rfl (hS hpath)
      step₃.table
    rw [hdir₁, havail₁] at hspec₂
    simp only [hres₃, bind_some]
    rcases hspec₂ with ⟨hsup₂, p2, m₂, hres₂, havail₂, step₂⟩ | ⟨hsup₂, hres₂⟩
    · obtain ⟨e₂, -, hentry₂⟩ := step₂.entry
      have haccess : m₂.accessible p4 p2 = true := (step₂.charted.accessible_iff hn.le p2).mpr
          (step₂.charted.tables _ (hS hpath) (le_refl 2) _ step₂.table)
      refine .inl ⟨⟨hsup₃, hsup₂⟩, m₂.write p2 v.p2Index (hugeEntry n), ?_, ?_, ?_⟩
      · simp only [hres₂, bind_some, haccess, if_true]
      · show m₂.avail = _
        rw [havail₂, drop_drop]
      · subst hv
        refine h.extend e₂ hpos hlt step₂.charted step₂.table hold₃ fun j q hq => ?_
        rw [hentry₂ j q hq, hentry₃ j q hq]
    · refine .inr ⟨fun hs => hsup₂ hs.2, ?_⟩
      rw [hres₂, bind_none]
  · refine .inr ⟨fun hs => hsup₃ hs.1, ?_⟩
    rw [hres₃, bind_none]

/-! ### All pages -/

/-- The pages at which tables begin, from page `n` on. -/
def demands (n r : ℕ) : List ℕ := (List.range' n r).flatMap demand

/-- **A run of pages.**  All of them are mapped, or some frame is missing or out of reach. -/
theorem mapHugePagesMapped_spec {r : ℕ} (h : DirectMapped m p4 n) (hpos : 0 < n)
    (hn : n + r ≤ 2 ^ 26) :
    (Supplies (demands n r) m.avail ∧ ∃ m', (List.range' n r).foldlM
          (fun m k => m.mapHugePageMapped p4 (.ofNat 64 (k * 2 ^ 21))) m = some m' ∧
        DirectMapped m' p4 (n + r)) ∨
    (¬Supplies (demands n r) m.avail ∧ (List.range' n r).foldlM
        (fun m k => m.mapHugePageMapped p4 (.ofNat 64 (k * 2 ^ 21))) m = none) := by
  induction r generalizing m n with
  | zero => exact .inl ⟨trivial, m, rfl, h⟩
  | succ r ih =>
    rw [demands, List.range'_succ, flatMap_cons, supplies_append, foldlM_cons]
    rcases mapHugePageMapped_spec h hpos (by omega) with
      ⟨hsup, m₁, hres, havail, h₁⟩ | ⟨hsup, hres⟩
    · have hrest := ih h₁ (Nat.succ_pos n) (by omega)
      rw [havail, Nat.add_right_comm n 1 r, Nat.add_assoc n r 1] at hrest
      rw [hres]
      rcases hrest with ⟨hsup', m', hres', h'⟩ | ⟨hsup', hres'⟩
      · exact .inl ⟨⟨hsup, hsup'⟩, m', hres', h'⟩
      · exact .inr ⟨fun hs => hsup' hs.2, hres'⟩
    · rw [hres]
      exact .inr ⟨fun hs => hsup hs.1, rfl⟩

/-- The number of pages up to an address. -/
def pagesUpTo (highest : ℕ) : ℕ := (highest + 0x1FFFFF) / 2 ^ 21

/-- The loop of `map_all_physical_memory`, by the numbers of the pages. -/
theorem mapAllMapped_eq (m : Machine) (p4 : BitVec 64) {highest : BitVec 64}
    (hle : highest.toNat ≤ 2 ^ 44) :
    m.mapAllMapped highest p4 = (List.range' 512 (pagesUpTo highest.toNat - 512)).foldlM
        (fun m k => m.mapHugePageMapped p4 (.ofNat 64 (k * 2 ^ 21))) m := by
  have hend : ((highest + 0x1FFFFF#64) &&& ~~~0x1FFFFF#64).toNat =
      pagesUpTo highest.toNat * 2 ^ 21 := by
    refine (toNat_and_not_low (highest + 0x1FFFFF#64) 21).trans ?_
    rw [BitVec.toNat_add]
    show (highest.toNat + 0x1FFFFF) % 2 ^ 64 / 2 ^ 21 * 2 ^ 21 = _
    rw [Nat.mod_eq_of_lt (by omega)]
    rfl
  have hcount : (((highest + 0x1FFFFF#64) &&& ~~~0x1FFFFF#64).toNat - (0x40000000#64).toNat) /
      0x200000 = pagesUpTo highest.toNat - 512 := by
    rw [hend]
    show (pagesUpTo highest.toNat * 2 ^ 21 - 0x40000000) / 0x200000 = _
    omega
  have haddr : ∀ k : ℕ, 0x40000000#64 + BitVec.ofNat 64 k * 0x200000#64 =
      BitVec.ofNat 64 ((512 + k) * 2 ^ 21) := by
    intro k
    apply BitVec.eq_of_toNat_eq
    rw [BitVec.toNat_add, BitVec.toNat_mul, BitVec.toNat_ofNat, BitVec.toNat_ofNat,
      BitVec.toNat_ofNat, BitVec.toNat_ofNat]
    omega
  unfold Machine.mapAllMapped
  dsimp only
  rw [hcount, List.range'_eq_map_range, foldlM_map]
  simp only [haddr]

end KernelR.Mm
