import KernelR.Mm.PagingWalk
import KernelR.Mm.UserSpace

/-!
# The pages of a user address space

To a program its address space is a partial function from pages to frames,
`Machine.frameOf`. In an address space that keeps `SpaceInv` this function says all there is
to say: an address translates through it, `map_to` extends it by one page and fails on a
page that it has, `unmap` takes a page out and fails on no page that it has, and neither
changes it elsewhere. No two pages have the same frame.
-/

namespace KernelR.Mm

open List Function Option Foundations

/-! ### Pages by their addresses -/

/-- The first address of a page. -/
def Page.addr (page : Page) : ℕ := page.start.bits.toNat

/-- The address itself, if it is canonical. -/
def VirtAddr.ofCanonical (addr : ℕ) : Option VirtAddr :=
  if h : ((BitVec.ofNat 64 addr).setWidth 48).signExtend 64 = BitVec.ofNat 64 addr then
    some ⟨BitVec.ofNat 64 addr, h⟩
  else none

/-- `VirtAddr::new_truncate`: the upper 16 bits are made to repeat bit 47. -/
def VirtAddr.newTruncate (addr : ℕ) : VirtAddr where
  bits := ((BitVec.ofNat 64 addr).setWidth 48).signExtend 64
  canonical := by
    refine BitVec.eq_of_getLsbD_eq fun k hk => ?_
    simp only [BitVec.getLsbD_signExtend, BitVec.getLsbD_setWidth, BitVec.msb_eq_getLsbD_last]
    grind

/-- `VirtAddr::new`. An address with bit 47 set and the bits above it clear is made canonical;
at any other address that is not, it panics. -/
def VirtAddr.new (addr : ℕ) : Option VirtAddr :=
  (ofCanonical addr).or (if addr / 2 ^ 47 % 2 ^ 17 = 1 then some (newTruncate addr) else none)

section Addresses

variable {addr : ℕ} {v : VirtAddr} {page page' : Page}

theorem VirtAddr.new_of_canonical (h : ofCanonical addr = some v) : VirtAddr.new addr = some v := by
  rw [VirtAddr.new, h, some_or]

theorem VirtAddr.ofCanonical_of_half (hlt : addr < 2 ^ 64)
    (h : addr < 2 ^ 47 ∨ 2 ^ 64 - 2 ^ 47 ≤ addr) :
    ∃ v, ofCanonical addr = some v ∧ v.bits.toNat = addr := by
  have htoNat : (BitVec.ofNat 64 addr).toNat = addr := Nat.mod_eq_of_lt hlt
  have hcanonical := (VirtAddr.canonical_iff (x := BitVec.ofNat 64 addr)).mpr (by omega)
  exact ⟨_, dif_pos hcanonical, htoNat⟩

theorem VirtAddr.new_of_lt (h : addr < 2 ^ 47) :
    ∃ v, VirtAddr.new addr = some v ∧ v.bits.toNat = addr :=
  (ofCanonical_of_half (by omega) (Or.inl h)).imp fun _ => And.imp_left new_of_canonical

theorem Page.addr_dvd (page : Page) : 4096 ∣ page.addr := by
  have hmod := congrArg BitVec.toNat page.aligned
  rw [BitVec.toNat_and] at hmod
  have hlow : page.addr % 2 ^ 12 = 0 :=
    (Nat.and_two_pow_sub_one_eq_mod page.addr 12).symm.trans hmod
  exact Nat.dvd_of_mod_eq_zero hlow

theorem Page.addr_containingAddress (v : VirtAddr) :
    (Page.containingAddress v).addr = v.bits.toNat / 4096 * 4096 :=
  Page.toNat_containingAddress v

theorem Page.addr_of_new (hnew : VirtAddr.new addr = some v) (hlt : addr < 2 ^ 47)
    (hdvd : 4096 ∣ addr) : (Page.containingAddress v).addr = addr := by
  obtain ⟨v', hnew', hv'⟩ := VirtAddr.new_of_lt hlt
  obtain rfl := some.inj (hnew'.symm.trans hnew)
  rw [Page.addr_containingAddress, hv']
  exact Nat.div_mul_cancel hdvd

theorem Page.path_eq_iff : page.start.path = page'.start.path ↔ page.addr = page'.addr := by
  rw [← Page.contains_iff page' page.start]
  have hpage := page.addr_dvd
  have hpage' := page'.addr_dvd
  constructor
  · intro h
    have hval := congrArg BitVec.toNat h
    rw [BitVec.toNat_ushiftRight, BitVec.toNat_ushiftRight, Nat.shiftRight_eq_div_pow,
      Nat.shiftRight_eq_div_pow] at hval
    unfold Page.addr at hpage hpage' ⊢
    omega
  · intro h
    rw [Page.Contains, BitVec.eq_of_toNat_eq h]

theorem Page.mem_userHalf (h : page.addr < 2 ^ 47) : page.start.p4Index ∈ userHalf := by
  show (page.start.bits.extractLsb' 39 9).toNat < 256
  rw [BitVec.extractLsb'_toNat, Nat.shiftRight_eq_div_pow]
  unfold Page.addr at h
  omega

/-- The upper bits of an address of the user half are zero. -/
theorem VirtAddr.lt_of_userHalf (h : v.p4Index ∈ userHalf) : v.bits.toNat < 2 ^ 47 := by
  have h4 : v.bits.toNat / 2 ^ 39 % 512 < 256 := by
    rw [← Nat.shiftRight_eq_div_pow, show 512 = 2 ^ 9 from rfl, ← BitVec.extractLsb'_toNat]
    exact h
  have hbit : v.bits.getLsbD 47 = false := by
    rw [BitVec.getLsbD, Nat.testBit_eq_decide_div_mod_eq, decide_eq_false]
    omega
  refine Nat.lt_pow_two_of_testBit _ fun k hk => ?_
  rcases Nat.lt_or_ge k 64 with hlt | hge
  · exact (v.getLsbD_high hk hlt).trans hbit
  · exact BitVec.getLsbD_of_ge _ _ hge

end Addresses

/-! ### Frames of pages -/

/-- The frame of a page. -/
def Machine.frameOf (m : Machine) (pml4 : BitVec 64) (page : Page) : Option (BitVec 64) :=
  m.tableAt pml4 page.start.path

namespace Machine

/-- Write a frame, whatever it is used for. -/
def store (m : Machine) (f : BitVec 64) (c : BitVec 9 → BitVec 64) : Machine :=
  { m with mem := Function.update m.mem f c }

variable {m m' : Machine} {pml4 : BitVec 64} {page : Page}

theorem store_of_ne {f u : BitVec 64} {c : BitVec 9 → BitVec 64} (h : u ≠ f) :
    (m.store f c).mem u = m.mem u := update_of_ne h _ _

theorem frameOf_eq (m : Machine) (pml4 : BitVec 64) (page : Page) :
    m.frameOf pml4 page = (m.entryAt pml4 page.start.path).bind (follow 3) :=
  m.tableAt_cons pml4 _ _

theorem frameOf_of_entries (h : ∀ q, IsUser q → m'.entryAt pml4 q = m.entryAt pml4 q)
    (hpage : page.start.p4Index ∈ userHalf) : m'.frameOf pml4 page = m.frameOf pml4 page := by
  rw [frameOf_eq, frameOf_eq, h _ (isUser_path hpage)]

end Machine

namespace SpaceInv

variable {pml4 : BitVec 64} {m m' : Machine} {hand : List PhysFrame} {page page' : Page}
  {frame : PhysFrame} {flags : PageTableFlags}

theorem tree (h : SpaceInv pml4 ⟨m, hand⟩) : PageTree (Within 3 userHalf) m pml4 :=
  h.pageTree.mono fun hq => hq.mono_length (Nat.le_succ 3)

theorem noHugePage (h : SpaceInv pml4 ⟨m, hand⟩) (hpage : page.start.p4Index ∈ userHalf) :
    NoHugePage m pml4 page :=
  h.noHuge (isUser_tailClosed (isUser_path hpage)) rfl

/-- An address translates to the frame of its page, at its offset. -/
theorem translateAddr_eq (h : SpaceInv pml4 ⟨m, hand⟩) {v : VirtAddr} (hv : v.p4Index ∈ userHalf) :
    m.translateAddr pml4 v =
      (m.frameOf pml4 (.containingAddress v)).map fun f => f + (v.bits &&& 0xFFF#64) := by
  have hpath := Page.path_containingAddress v
  have hpage : (Page.containingAddress v).start.p4Index ∈ userHalf := by
    rwa [(Page.indices_containingAddress v).1]
  have hhuge := h.noHuge (isUser_tailClosed (isUser_path hpage)) rfl
  have hnone : (m.entryAt pml4 v.path.tail).bind hugeFrame = none := by
    rw [← hpath]
    exact hhuge
  rw [Machine.translateAddr_eq, hnone, map_none, Option.none_or, Machine.frameOf, hpath]

theorem translateAddr (h : SpaceInv pml4 ⟨m, hand⟩) (hpage : page.start.p4Index ∈ userHalf) :
    m.translateAddr pml4 page.start = m.frameOf pml4 page := by
  have hoffset : ∀ f : BitVec 64, f + (page.start.bits &&& 0xFFF#64) = f := by
    intro f
    rw [page.aligned]
    exact BitVec.add_zero f
  rw [h.translateAddr_eq hpage]
  simp only [hoffset, Option.map_id', Machine.frameOf, Page.path_containingAddress]

variable {f : BitVec 64} {i : BitVec 9} {p : List (BitVec 9)}

/-- **No two pages have the same frame.** -/
theorem frameOf_inj (h : SpaceInv pml4 ⟨m, hand⟩) (hpage : page.start.p4Index ∈ userHalf)
    (hpage' : page'.start.p4Index ∈ userHalf) (hf : m.frameOf pml4 page = some f)
    (hf' : m.frameOf pml4 page' = some f) : page.addr = page'.addr :=
  Page.path_eq_iff.mp (h.unshared (isUser_path hpage) (isUser_path hpage') hf hf')

/-- **What `map_to` does to the pages.** -/
theorem mapTo_frames (h : SpaceInv pml4 ⟨m, hand⟩) (hpage : page.start.p4Index ∈ userHalf) :
    (m.mapTo page frame flags pml4 = (.ok (), m') → m.frameOf pml4 page = none ∧
      ∀ page', page'.start.p4Index ∈ userHalf → m'.frameOf pml4 page' =
        if page'.addr = page.addr then some frame.start else m.frameOf pml4 page') ∧
    ∀ err, m.mapTo page frame flags pml4 = (.error err, m') → ∀ page',
      page'.start.p4Index ∈ userHalf → m'.frameOf pml4 page' = m.frameOf pml4 page' := by
  have hsame : ∀ {p t m₁}, Walked (Within 3 userHalf) pml4 flags m p t m₁ → p.length ≤ 3 →
      ∀ page' : Page, page'.start.p4Index ∈ userHalf →
        m₁.frameOf pml4 page' = m.frameOf pml4 page' := by
    intro p t m₁ walked hp page' hpage'
    rw [Machine.frameOf_eq, Machine.frameOf_eq,
      (walked.pages (within_tailClosed _ _) hp (VirtAddr.within_tail hpage')).2]
  rcases mapTo_cases h.tree hpage (h.noHugePage hpage) frame flags with
    ⟨p, t, m₁, hmap, walked, hp, -⟩ | ⟨t, m₁, hmap, walked, -⟩ | ⟨t, m₁, hmap, walked, -, hnone⟩
  · rw [hmap]
    refine ⟨(fun hok => by cases hok), fun err herr => ?_⟩
    cases herr
    exact hsame walked hp
  · rw [hmap]
    refine ⟨(fun hok => by cases hok), fun err herr => ?_⟩
    cases herr
    exact hsame walked le_rfl
  · rw [hmap]
    refine ⟨fun hok => ?_, (fun err herr => by cases herr)⟩
    cases hok
    refine ⟨Machine.tableAt_path_eq_none hnone, fun page' hpage' => ?_⟩
    rw [Machine.frameOf, tableAt_enter_path h.tree hpage walked hpage']
    exact if_congr Page.path_eq_iff rfl rfl

/-- The entries on the way to a table or frame are present. -/
theorem presentTable_of_tableAt (h : SpaceInv pml4 ⟨m, hand⟩)
    (hip : IsUser (i :: p)) {t t' : BitVec 64}
    (ht : m.tableAt pml4 p = some t) (ht' : m.tableAt pml4 (i :: p) = some t') :
    m.presentTable t i = some t' := by
  rw [Machine.tableAt_cons, Machine.entryAt_of_tableAt ht] at ht'
  split_ifs at ht' with hzero
  · cases ht'
  · have hentry := Machine.entryAt_of_used ht hzero
    refine (m.presentTable_eq_some t i).mpr ⟨(h.entries i p hip _ hentry).1, ?_⟩
    rw [bind_some, follow] at ht'
    split_ifs at ht'
    exact some.inj ht'

/-- **`unmap` finds every page that is mapped.** -/
theorem unmap_of_frameOf (h : SpaceInv pml4 ⟨m, hand⟩) (hpage : page.start.p4Index ∈ userHalf)
    (hf : m.frameOf pml4 page = some f) :
    ∃ m', m.unmap page pml4 = some (f, m') := by
  have hpath := isUser_path hpage
  have hpath1 := isUser_tailClosed hpath
  have hpath2 := isUser_tailClosed hpath1
  have htable : ∀ {q : List (BitVec 9)}, q <:+ page.start.path →
      ∃ t, m.tableAt pml4 q = some t := by
    intro q hq
    cases ht : m.tableAt pml4 q with
    | some t => exact ⟨t, rfl⟩
    | none => cases (reach_eq_none_of_suffix ht hq).symm.trans hf
  obtain ⟨p3, hp3⟩ := htable (q := [page.start.p4Index]) ⟨[_, _, _], rfl⟩
  obtain ⟨p2, hp2⟩ := htable (q := [page.start.p3Index, page.start.p4Index]) ⟨[_, _], rfl⟩
  obtain ⟨p1, hp1⟩ := htable (q := page.start.path.tail) ⟨[_], rfl⟩
  have h4 := h.presentTable_of_tableAt (isUser_tailClosed hpath2) rfl hp3
  have h3 := h.presentTable_of_tableAt hpath2 hp3 hp2
  have h2 := h.presentTable_of_tableAt hpath1 hp2 hp1
  have h1 := h.presentTable_of_tableAt hpath hp1 hf
  refine ⟨m.write p1 page.start.p1Index 0#64, ?_⟩
  simp only [Machine.unmap, h4, h3, h2, h1, bind_eq_bind, bind_some]

/-- **What `unmap` does to the pages.** -/
theorem unmap_frames (h : SpaceInv pml4 ⟨m, hand⟩) (hpage : page.start.p4Index ∈ userHalf)
    (hunmap : m.unmap page pml4 = some (f, m')) :
    m.frameOf pml4 page = some f ∧ ∀ page', page'.start.p4Index ∈ userHalf →
      m'.frameOf pml4 page' = if page'.addr = page.addr then none else m.frameOf pml4 page' := by
  have hpath := isUser_path hpage
  obtain ⟨p1, ht1, hf, -, rfl⟩ := h.unmap_eq hpage hunmap
  refine ⟨hf, fun page' hpage' => ?_⟩
  have hwrite : (m.write p1 page.start.p1Index 0#64).frameOf pml4 page' =
      if page'.start.path = page.start.path then follow 3 0#64 else m.frameOf pml4 page' :=
    h.tableAt_leaf hpath rfl ht1 0#64 _ (isUser_path hpage')
  rw [hwrite, follow_zero]
  by_cases heq : page'.addr = page.addr
  · rw [if_pos heq, if_pos (Page.path_eq_iff.mpr heq)]
  · rw [if_neg heq, if_neg fun hpaths => heq (Page.path_eq_iff.mp hpaths)]

/-- **What `map_to` leaves alone**: all frames but tables of the space and frames of the supply,
and the kernel half of the PML4. -/
theorem mapTo_leaves (h : SpaceInv pml4 ⟨m, hand⟩) (hpage : page.start.p4Index ∈ userHalf)
    {r : Except MapToError Unit} (hmap : m.mapTo page frame flags pml4 = (r, m')) :
    (∀ u, (∀ q, Within 3 userHalf q → m.tableAt pml4 q ≠ some u) →
        u ∉ m.avail.map PhysFrame.start → m'.mem u = m.mem u) ∧
      ∀ j, j ∉ userHalf → m'.mem pml4 j = m.mem pml4 j :=
  Machine.mapTo_leaves h.tree hpage (h.noHugePage hpage) hmap

theorem page_frame (h : SpaceInv pml4 ⟨m, hand⟩) (hpage : page.start.p4Index ∈ userHalf)
    (hf : m.frameOf pml4 page = some f) :
    (∀ q, Within 3 userHalf q → m.tableAt pml4 q ≠ some f) ∧ f ∉ m.avail.map PhysFrame.start := by
  constructor
  · intro q hq htable
    obtain rfl := h.unshared (hq.mono_length (Nat.le_succ 3)) (isUser_path hpage) htable hf
    exact not_path_suffix hq.1 suffix_rfl
  · intro hmem
    obtain ⟨frame, hframe, rfl⟩ := mem_map.mp hmem
    exact h.apart.space frame (mem_append_left _ hframe) ⟨_, isUser_path hpage, hf⟩

theorem frameOf_overwrite (h : SpaceInv pml4 ⟨m, hand⟩) (hframe : frame ∈ m.avail ++ hand)
    {c : BitVec 9 → BitVec 64} (hmem : m'.mem = update m.mem frame.start c)
    (hpage : page.start.p4Index ∈ userHalf) : m'.frameOf pml4 page = m.frameOf pml4 page :=
  Machine.frameOf_of_entries (fun _ hq => Machine.entryAt_overwrite
    (Machine.mem_update hmem (h.apart.space frame hframe)) hq) hpage

theorem frameOf_clearFrame (h : SpaceInv pml4 ⟨m, hand⟩) (hframe : frame ∈ hand)
    (hpage : page.start.p4Index ∈ userHalf) :
    (m.clearFrame frame.start).frameOf pml4 page = m.frameOf pml4 page :=
  Machine.frameOf_of_entries (fun _ hq => Machine.entryAt_overwrite
    (fun _ hu => h.apart.clearFrame_mem hframe (Or.inl hu)) hq) hpage

/-- **A page is written to.**  Its frame is no table, so the address space does not change. -/
theorem store (h : SpaceInv pml4 ⟨m, hand⟩) (hpage : page.start.p4Index ∈ userHalf)
    (hf : m.frameOf pml4 page = some f) (c : BitVec 9 → BitVec 64) :
    SpaceInv pml4 ⟨m.store f c, hand⟩ ∧ ∀ q, IsUser q → (m.store f c).entryAt pml4 q =
        m.entryAt pml4 q := by
  have hpath := isUser_path hpage
  have hspace : f ∈ m.spaceFrames pml4 := ⟨_, hpath, hf⟩
  have hentry : ∀ q, IsUser q → (m.store f c).entryAt pml4 q = m.entryAt pml4 q := by
    intro q hq
    cases q with
    | nil => rfl
    | cons i p =>
      have hp : Within 3 userHalf p :=
        ⟨Nat.le_of_succ_le_succ hq.1, (isUser_tailClosed hq).2⟩
      refine Machine.entryAt_congr (within_tailClosed 3 userHalf) (fun {r u} hr hu => ?_) hp
      refine Machine.store_of_ne ?_
      rintro rfl
      exact (h.page_frame hpage hf).1 r hr hu
  have htables : ∀ q, IsUser q → (m.store f c).tableAt pml4 q =
      m.tableAt pml4 q := fun q hq => Machine.tableAt_of_entryAt hentry hq
  have hkernel : (m.store f c).kernelTables pml4 = m.kernelTables pml4 := by
    refine Machine.kernelTables_congr fun u j hchanged => ?_
    have huf : u = f := by
      by_contra huf
      rw [Machine.store_of_ne huf] at hchanged
      exact hchanged rfl
    subst huf
    refine ⟨fun hmem => Set.disjoint_left.mp h.apart.disjoint hmem hspace, ?_⟩
    rintro rfl
    exact absurd (h.unshared isUser_nil hpath rfl hf) (cons_ne_nil _ _).symm
  refine ⟨h.of_entries hentry (h.apart.perm (List.Perm.refl _) ?_ hkernel rfl)
    fun _ hperm => hperm, hentry⟩
  exact Machine.spaceFrames_congr htables

end SpaceInv

/-! ### A new page -/

/-- A page is mapped to a frame of the supply. -/
structure MapsNew (pml4 : BitVec 64) (m : Machine) (page : Page) (frame : PhysFrame)
    (m' : Machine) : Prop where
  inv : SpaceInv pml4 ⟨m', []⟩
  grows : m.Grows m'
  new : m.frameOf pml4 page = none
  mapped : ∀ page' : Page, page'.addr < 2 ^ 47 → m'.frameOf pml4 page' =
    if page'.addr = page.addr then some frame.start else m.frameOf pml4 page'
  outside : ∀ u, u ∉ m.spaceFrames pml4 → u ∉ m.avail.map PhysFrame.start → m'.mem u = m.mem u
  kernel : ∀ j, j ∉ userHalf → m'.mem pml4 j = m.mem pml4 j

section MapsNew

variable {pml4 : BitVec 64} {m m' : Machine} {page : Page} {frame : PhysFrame}
  {flags : PageTableFlags} {rest : List PhysFrame} {mem : BitVec 64 → BitVec 9 → BitVec 64}

theorem MapsNew.of_mapTo (h : SpaceInv pml4 ⟨m, []⟩) (havail : m.avail = frame :: rest)
    (hmem : mem = update m.mem frame.start (mem frame.start)) (hpage : page.addr < 2 ^ 47)
    (hmap : Machine.mapTo { m with avail := rest, handed := frame.start :: m.handed, mem := mem }
      page frame flags pml4 = (.ok (), m')) :
    MapsNew pml4 m page frame m' := by
  have hframe : frame ∈ m.avail ++ [] := mem_append_left _ (havail ▸ mem_cons_self)
  have hinv := h.allocate havail hmem
  have huser := Page.mem_userHalf hpage
  have hinv' := (hinv.mapTo huser mem_cons_self).1 hmap
  rw [erase_cons_head] at hinv'
  obtain ⟨hnone, hframes⟩ := (hinv.mapTo_frames huser).1 hmap
  obtain ⟨hleaves, hkernel⟩ := hinv.mapTo_leaves huser hmap
  have hsame : ∀ u, u ≠ frame.start → mem u = m.mem u := by
    intro u hu
    rw [hmem, update_of_ne hu]
  have hold : ∀ page' : Page, page'.addr < 2 ^ 47 → Machine.frameOf
      { m with avail := rest, handed := frame.start :: m.handed, mem := mem } pml4 page' =
        m.frameOf pml4 page' := fun page' hlt =>
    h.frameOf_overwrite hframe hmem (Page.mem_userHalf hlt)
  refine ⟨hinv', (Machine.Grows.take havail hsame).trans (Machine.mapTo_grows hmap),
    (hold page hpage).symm.trans hnone, fun page' hlt => ?_, fun u hspace hu => ?_, fun j hj => ?_⟩
  · rw [hframes page' (Page.mem_userHalf hlt), hold page' hlt]
  · rw [havail, map_cons, mem_cons, not_or] at hu
    refine (hleaves u (fun q hq htable => hspace ⟨q, hq.mono_length (Nat.le_succ 3), ?_⟩)
      hu.2).trans (hsame u hu.1)
    rw [← htable]
    exact (Machine.tableAt_of_entryAt (fun _ => Machine.entryAt_overwrite
      (Machine.mem_update hmem (h.apart.space frame hframe)))
      (hq.mono_length (Nat.le_succ 3))).symm
  · rw [hkernel j hj]
    exact congrFun (hsame pml4 fun heq =>
      h.apart.space frame hframe (heq ▸ Machine.pml4_mem_spaceFrames)) j

theorem MapsNew.zeroed (h : SpaceInv pml4 ⟨m, []⟩) (havail : m.avail = frame :: rest)
    (hpage : page.addr < 2 ^ 47)
    (hmap : (takeZeroed m frame rest).mapTo page frame flags pml4 = (.ok (), m')) :
    MapsNew pml4 m page frame m' :=
  .of_mapTo h havail (by rw [update_self]) hpage hmap

end MapsNew

end KernelR.Mm
