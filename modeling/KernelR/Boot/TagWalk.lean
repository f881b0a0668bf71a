import KernelR.Foundations.Bits
import KernelR.Foundations.Bytes

/-!
# The tags of the boot loader

`boot/boot_info.rs`: GRUB leaves a structure in memory whose tags lie one behind the other, each
with its own size in its header. `TagIterator` goes from tag to tag by these sizes, until it finds
the terminal tag or comes to the end that the structure claims to have.

Memory is a function from addresses to bytes. Addresses are 64-bit words, and the additions of
`next` panic when they overflow, which is the outer `none`. Iterating runs on fuel, since nothing
in the code bounds it.

On a structure that is what the specification asks for, the iterator yields the tags of which it
was made (`tags_of_encodes`). On arbitrary memory it follows `Reached`, the tags that the sizes
lead to, and does so properly exactly if all of these are `TagOk` (`tags_walk_iff`).
-/

namespace KernelR.Boot

open List Option Foundations

/-! ### The iterator -/

/-- The bytes of memory. -/
abbrev Memory := ℕ → UInt8

/-- A read through a `*const u32`. -/
def readU32 (mem : Memory) (addr : ℕ) : ℕ := leValue (cells mem addr 4)

/-- `TagHeader` -/
structure TagHeader where
  typ : ℕ
  size : ℕ
deriving DecidableEq, Repr

/-- The header at an address. -/
def tagHeader (mem : Memory) (addr : ℕ) : TagHeader := ⟨readU32 mem addr, readU32 mem (addr + 4)⟩

/-- The terminal tag. -/
def TagHeader.Terminal (header : TagHeader) : Prop := header.typ = 0 ∧ header.size = 8

instance (header : TagHeader) : Decidable header.Terminal := inferInstanceAs (Decidable (_ ∧ _))

/-- `TagIterator` -/
structure TagIterator where
  currentAddress : ℕ
  endAddress : ℕ
deriving DecidableEq, Repr

namespace TagIterator

/-- `TagIterator::new` -/
def new (mem : Memory) (mbiAddr : ℕ) : Option TagIterator := do
  let totalSize := readU32 mem mbiAddr
  let currentAddress ← checkedAdd mbiAddr 8
  let endAddress ← checkedAdd mbiAddr totalSize
  some ⟨currentAddress, endAddress⟩

/-- `TagIterator::next`: the tag, and the iterator afterwards. -/
def next (mem : Memory) (it : TagIterator) : Option (Option ℕ × TagIterator) :=
  if it.currentAddress ≥ it.endAddress then some (none, it)
  else
    let tagPtr := it.currentAddress
    let header := tagHeader mem tagPtr
    if header.Terminal then some (none, it)
    else do
      let nextAddr ← checkedAdd it.currentAddress header.size
      let rounded ← checkedAdd nextAddr 7
      some (some tagPtr, { it with currentAddress := andNot rounded 7 })

/-- A `for` loop over the iterator: the tags that it goes through. -/
def collect (mem : Memory) : ℕ → TagIterator → Option (List ℕ)
  | 0, _ => none
  | fuel + 1, it => do
      match ← it.next mem with
      | (none, _) => some []
      | (some tag, it) => (collect mem fuel it).map (tag :: ·)

end TagIterator

/-- Iterating `TagIterator::new(base)`. -/
def tags (mem : Memory) (fuel base : ℕ) : Option (List ℕ) :=
  (TagIterator.new mem base).bind (TagIterator.collect mem fuel)

/-! ### One step -/

/-- There is a tag at the address. -/
def IsTag (mem : Memory) (stop addr : ℕ) : Prop :=
  addr < stop ∧ ¬ (tagHeader mem addr).Terminal

/-- Where the next tag is. -/
def nextTag (mem : Memory) (addr : ℕ) : ℕ := (addr + (tagHeader mem addr).size + 7) / 8 * 8

theorem nextTag_dvd (mem : Memory) (addr : ℕ) : 8 ∣ nextTag mem addr := Nat.dvd_mul_left _ _

namespace TagIterator

variable {mem : Memory} {addr stop fuel : ℕ}

theorem collect_stop (h : ¬ IsTag mem stop addr) (fuel : ℕ) :
    collect mem (fuel + 1) ⟨addr, stop⟩ = some [] := by
  have hnext : next mem ⟨addr, stop⟩ = some (none, ⟨addr, stop⟩) := by
    rw [next]
    by_cases hend : addr ≥ stop
    · exact if_pos hend
    · have hterminal : (tagHeader mem addr).Terminal :=
        not_not.mp fun hnot => h ⟨Nat.lt_of_not_le hend, hnot⟩
      exact (if_neg hend).trans (if_pos hterminal)
  rw [collect, hnext]
  rfl

theorem next_of_isTag (h : IsTag mem stop addr) :
    next mem ⟨addr, stop⟩ = (checkedAdd addr (tagHeader mem addr).size).bind fun nextAddr =>
      (checkedAdd nextAddr 7).bind fun rounded => some (some addr, ⟨andNot rounded 7, stop⟩) := by
  rw [next]
  exact (if_neg (Nat.not_le_of_lt h.1)).trans (if_neg h.2)

theorem collect_tag (h : IsTag mem stop addr)
    (hfits : addr + (tagHeader mem addr).size + 7 < 2 ^ 64) (fuel : ℕ) :
    collect mem (fuel + 1) ⟨addr, stop⟩ =
      (collect mem fuel ⟨nextTag mem addr, stop⟩).map (addr :: ·) := by
  have hsize : checkedAdd addr (tagHeader mem addr).size =
      some (addr + (tagHeader mem addr).size) := checkedAdd_eq_some.mpr ⟨rfl, by omega⟩
  have hround : checkedAdd (addr + (tagHeader mem addr).size) 7 =
      some (addr + (tagHeader mem addr).size + 7) := checkedAdd_eq_some.mpr ⟨rfl, hfits⟩
  have hnext : next mem ⟨addr, stop⟩ = some (some addr, ⟨nextTag mem addr, stop⟩) := by
    rw [next_of_isTag h, hsize, bind_some, hround, bind_some,
      show (7 : ℕ) = 2 ^ 3 - 1 from rfl, andNot_low]
    rfl
  rw [collect, hnext]
  rfl

/-- An iteration that ends has yielded the tag, and has gone on behind it. -/
theorem collect_inv {l : List ℕ} (h : IsTag mem stop addr)
    (hcollect : collect mem fuel ⟨addr, stop⟩ = some l) :
    addr + (tagHeader mem addr).size + 7 < 2 ^ 64 ∧ ∃ fuel' l', fuel = fuel' + 1 ∧ l = addr :: l' ∧
      collect mem fuel' ⟨nextTag mem addr, stop⟩ = some l' := by
  cases fuel with
  | zero => cases hcollect
  | succ fuel =>
    have hfits : addr + (tagHeader mem addr).size + 7 < 2 ^ 64 := by
      rw [collect, next_of_isTag h] at hcollect
      obtain ⟨r, hnext, -⟩ := bind_eq_some_iff.mp hcollect
      obtain ⟨nextAddr, hsize, hnext⟩ := bind_eq_some_iff.mp hnext
      obtain ⟨rounded, hround, -⟩ := bind_eq_some_iff.mp hnext
      obtain ⟨rfl, -⟩ := checkedAdd_eq_some.mp hsize
      obtain ⟨rfl, hlt⟩ := checkedAdd_eq_some.mp hround
      exact hlt
    rw [collect_tag h hfits] at hcollect
    obtain ⟨l', hl', rfl⟩ := map_eq_some_iff.mp hcollect
    exact ⟨hfits, fuel, l', rfl, rfl, hl'⟩

end TagIterator

theorem tags_eq_some {mem : Memory} {fuel base : ℕ} {l : List ℕ} :
    tags mem fuel base = some l ↔ (base + 8 < 2 ^ 64 ∧ base + readU32 mem base < 2 ^ 64) ∧
      TagIterator.collect mem fuel ⟨base + 8, base + readU32 mem base⟩ = some l := by
  simp only [tags, TagIterator.new, bind_eq_bind, bind_eq_some_iff, checkedAdd_eq_some]
  constructor
  · rintro ⟨it, ⟨start, ⟨rfl, hstart⟩, stop, ⟨rfl, hstop⟩, hit⟩, hcollect⟩
    cases hit
    exact ⟨⟨hstart, hstop⟩, hcollect⟩
  · rintro ⟨⟨hstart, hstop⟩, hcollect⟩
    exact ⟨_, ⟨_, ⟨rfl, hstart⟩, _, ⟨rfl, hstop⟩, rfl⟩, hcollect⟩

/-! ### Structures that are well formed -/

/-- A tag other than the terminal one. -/
structure Tag where
  typ : ℕ
  payload : List UInt8
  typ_lt : typ < 2 ^ 32
  not_terminal : ¬ (typ = 0 ∧ payload = [])

/-- The padding behind a tag. -/
def padding (payload : List UInt8) : ℕ := (8 - payload.length % 8) % 8

/-- The tags, one behind the other, and the terminal tag. The padding can be anything. -/
inductive Encodes : List Tag → List UInt8 → Prop
  | nil : Encodes [] (leBytes 4 0 ++ leBytes 4 8)
  | cons {tag : Tag} {tags : List Tag} {pad bytes : List UInt8} :
      pad.length = padding tag.payload → Encodes tags bytes →
      Encodes (tag :: tags) (leBytes 4 tag.typ ++ (leBytes 4 (8 + tag.payload.length) ++
        (tag.payload ++ (pad ++ bytes))))

/-- The addresses of tags that lie one behind the other. -/
def tagAddrs (addr : ℕ) : List Tag → List ℕ
  | [] => []
  | tag :: tags => addr :: tagAddrs (addr + (8 + tag.payload.length + padding tag.payload)) tags

theorem readU32_of_at {mem : Memory} {addr x : ℕ} (h : At mem addr (leBytes 4 x))
    (hx : x < 2 ^ 32) : readU32 mem addr = x := by
  rw [readU32, h.cells_eq (length_leBytes 4 x), leValue_leBytes]
  exact Nat.mod_eq_of_lt hx

/-- **The walk along tags that are well formed.** -/
theorem Encodes.collect {mem : Memory} {addr stop : ℕ} {ts : List Tag} {bytes : List UInt8}
    (h : Encodes ts bytes) (halign : 8 ∣ addr) (hmem : At mem addr bytes)
    (hcover : addr + bytes.length ≤ stop) (hsmall : bytes.length < 2 ^ 32) (hstop : stop < 2 ^ 64) :
    ∀ fuel > ts.length, TagIterator.collect mem fuel ⟨addr, stop⟩ = some (tagAddrs addr ts) := by
  induction h generalizing addr with
  | nil =>
    intro fuel hfuel
    obtain ⟨fuel, rfl⟩ : ∃ f, fuel = f + 1 := ⟨fuel - 1, by omega⟩
    refine TagIterator.collect_stop (fun htag => htag.2 ⟨?_, ?_⟩) fuel
    · exact readU32_of_at hmem.left (by decide)
    · exact readU32_of_at hmem.right (by decide)
  | @cons tag ts pad bytes hpad hrest ih =>
    intro fuel hfuel
    obtain ⟨fuel, rfl⟩ : ∃ f, fuel = f + 1 := ⟨fuel - 1, by omega⟩
    simp only [length_append, length_leBytes, hpad] at hcover hsmall
    have htyp : (tagHeader mem addr).typ = tag.typ := readU32_of_at hmem.left tag.typ_lt
    have hsize : (tagHeader mem addr).size = 8 + tag.payload.length :=
      readU32_of_at hmem.right.left (by omega)
    have hnext : nextTag mem addr = addr + (8 + tag.payload.length + padding tag.payload) := by
      obtain ⟨k, rfl⟩ := halign
      rw [nextTag, hsize, padding]
      omega
    have htag : IsTag mem stop addr := by
      refine ⟨by omega, fun hterminal => tag.not_terminal ?_⟩
      have hempty : 8 + tag.payload.length = 8 := hsize.symm.trans hterminal.2
      exact ⟨htyp.symm.trans hterminal.1, eq_nil_of_length_eq_zero (by omega)⟩
    have hrestmem : At mem (addr + (8 + tag.payload.length + padding tag.payload)) bytes := by
      have hbytes := hmem.right.right.right.right
      simp only [length_leBytes, hpad] at hbytes
      rw [show addr + (8 + tag.payload.length + padding tag.payload) =
        addr + 4 + 4 + tag.payload.length + padding tag.payload by omega]
      exact hbytes
    have haligned : 8 ∣ addr + (8 + tag.payload.length + padding tag.payload) :=
      hnext ▸ nextTag_dvd mem addr
    rw [length_cons] at hfuel
    rw [TagIterator.collect_tag htag (by rw [hsize]; omega), hnext,
      ih haligned hrestmem (by omega) (by omega) fuel (by omega)]
    rfl

/-- **Structures that are well formed.**  If a structure with these tags is in memory at an aligned
address, then the iterator yields the addresses of the tags, in their order, and ends, whatever
is in memory behind the structure. -/
theorem tags_of_encodes {mem : Memory} {base totalSize : ℕ} {ts : List Tag}
    {reserved bytes : List UInt8} (halign : 8 ∣ base) (hbytes : Encodes ts bytes)
    (hreserved : reserved.length = 4)
    (hmem : At mem base (leBytes 4 totalSize ++ (reserved ++ bytes)))
    (hcover : 8 + bytes.length ≤ totalSize) (htotal : totalSize < 2 ^ 32)
    (hend : base + totalSize < 2 ^ 64) :
    ∀ fuel > ts.length, tags mem fuel base = some (tagAddrs (base + 8) ts) := by
  intro fuel hfuel
  have hsize : readU32 mem base = totalSize := readU32_of_at hmem.left htotal
  have hat : At mem (base + 8) bytes := by
    have hright := hmem.right.right
    rw [length_leBytes, hreserved] at hright
    exact hright
  rw [tags_eq_some, hsize]
  refine ⟨⟨by omega, hend⟩, ?_⟩
  exact hbytes.collect (Nat.dvd_add halign (Nat.dvd_refl 8)) hat (by omega) (by omega) hend fuel
    hfuel

/-- A tag of 13 bytes with its padding, one that is only a header, and the terminal tag. -/
def sampleTags : List UInt8 :=
  leBytes 4 6 ++ (leBytes 4 13 ++ ([1, 2, 3, 4, 5] ++ ([9, 9, 9] ++
    (leBytes 4 14 ++ (leBytes 4 8 ++ ([] ++ ([] ++ (leBytes 4 0 ++ leBytes 4 8))))))))

/-- The memory with these tags at 64 KiB. -/
def sampleMemory : Memory := fun a =>
  (leBytes 4 40 ++ (leBytes 4 0 ++ sampleTags)).getD (a - 0x10000) 0

theorem tags_of_encodes_sample : 8 ∣ 0x10000 ∧
    ∀ fuel > 2, tags sampleMemory fuel 0x10000 = some [0x10008, 0x10018] := by
  have hbytes : Encodes [⟨6, [1, 2, 3, 4, 5], by decide, nofun⟩, ⟨14, [], by decide, nofun⟩]
      sampleTags := .cons rfl (.cons rfl .nil)
  exact ⟨by decide, tags_of_encodes (by decide) hbytes rfl (at_getD 0x10000 _ 0) (by decide)
    (by decide) (by decide)⟩

/-! ### Any memory -/

/-- The addresses that the sizes lead to. -/
inductive Reached (mem : Memory) (stop : ℕ) : ℕ → ℕ → Prop
  | here {addr : ℕ} : Reached mem stop addr addr
  | next {addr addr' : ℕ} : IsTag mem stop addr → Reached mem stop (nextTag mem addr) addr' →
      Reached mem stop addr addr'

/-- A tag that leads on: its header is in front of the end, its size is not 0, and the address of
the next tag does not overflow. -/
structure TagOk (mem : Memory) (stop addr : ℕ) : Prop where
  sized : 0 < (tagHeader mem addr).size
  inside : addr + 8 ≤ stop
  fits : addr + (tagHeader mem addr).size + 7 < 2 ^ 64

/-- All tags that are reached lead on. -/
structure WalkOk (mem : Memory) (base : ℕ) : Prop where
  start : base + 8 < 2 ^ 64
  stop : base + readU32 mem base < 2 ^ 64
  tags : ∀ {addr}, Reached mem (base + readU32 mem base) (base + 8) addr →
    IsTag mem (base + readU32 mem base) addr → TagOk mem (base + readU32 mem base) addr

/-- The iterator yields tags at increasing addresses whose headers are in the structure, and
ends. -/
def WalksWell (mem : Memory) (base : ℕ) : Prop :=
  ∃ fuel l, tags mem fuel base = some l ∧ l.Pairwise (· < ·) ∧
    ∀ tag ∈ l, base + 8 ≤ tag ∧ tag + 8 ≤ base + readU32 mem base

section Walk

variable {mem : Memory} {stop addr fuel : ℕ} {l : List ℕ}

theorem TagOk.lt_nextTag (h : TagOk mem stop addr) (halign : 8 ∣ addr) :
    addr < nextTag mem addr := by
  have hsize := h.sized
  obtain ⟨k, rfl⟩ := halign
  rw [nextTag]
  omega

theorem collect_of_reached (halign : 8 ∣ addr)
    (h : ∀ {addr'}, Reached mem stop addr addr' → IsTag mem stop addr' → TagOk mem stop addr') :
    ∃ fuel l, TagIterator.collect mem fuel ⟨addr, stop⟩ = some l ∧ l.Pairwise (· < ·) ∧
      ∀ tag ∈ l, addr ≤ tag ∧ tag + 8 ≤ stop := by
  induction hn : stop - addr using Nat.strong_induction_on generalizing addr with
  | _ n ih =>
    by_cases htag : IsTag mem stop addr
    · have hok := h .here htag
      have hlt := hok.lt_nextTag halign
      obtain ⟨fuel, l, hcollect, hsorted, hinside⟩ :=
        ih (stop - nextTag mem addr) (by have := htag.1; omega) (nextTag_dvd mem addr)
          (fun hreached => h (.next htag hreached)) rfl
      refine ⟨fuel + 1, addr :: l, ?_, ?_, ?_⟩
      · rw [TagIterator.collect_tag htag hok.fits, hcollect]
        rfl
      · exact pairwise_cons.mpr ⟨fun tag hmem => hlt.trans_le (hinside tag hmem).1, hsorted⟩
      · refine forall_mem_cons.mpr ⟨⟨le_rfl, hok.inside⟩, fun tag hmem => ?_⟩
        exact ⟨hlt.le.trans (hinside tag hmem).1, (hinside tag hmem).2⟩
    · exact ⟨1, [], TagIterator.collect_stop htag 0, .nil, nofun⟩

/-- A walk along increasing addresses has been led on by every tag. -/
theorem tagOk_of_collect (halign : 8 ∣ addr)
    (hcollect : TagIterator.collect mem fuel ⟨addr, stop⟩ = some l) (hsorted : l.Pairwise (· < ·))
    (hinside : ∀ tag ∈ l, tag + 8 ≤ stop) {addr' : ℕ} (hreached : Reached mem stop addr addr')
    (htag : IsTag mem stop addr') : TagOk mem stop addr' := by
  induction hreached generalizing fuel l with
  | here =>
    obtain ⟨hfits, fuel, l, rfl, rfl, hrest⟩ := TagIterator.collect_inv htag hcollect
    refine ⟨Nat.pos_of_ne_zero fun hzero => ?_, hinside _ mem_cons_self, hfits⟩
    -- a tag of size 0 leads to itself, and is yielded once more
    obtain ⟨k, rfl⟩ := halign
    have hsame : nextTag mem (8 * k) = 8 * k := by
      rw [nextTag, hzero]
      omega
    rw [hsame] at hrest
    obtain ⟨-, _, _, -, rfl, -⟩ := TagIterator.collect_inv htag hrest
    exact lt_irrefl _ ((pairwise_cons.mp hsorted).1 _ mem_cons_self)
  | next hfirst _ ih =>
    obtain ⟨-, fuel, l, rfl, rfl, hrest⟩ := TagIterator.collect_inv hfirst hcollect
    exact ih (nextTag_dvd mem _) hrest (pairwise_cons.mp hsorted).2
      (fun tag hmem => hinside tag (mem_cons_of_mem _ hmem)) htag

end Walk

theorem WalkOk.walksWell {mem : Memory} {base : ℕ} (halign : 8 ∣ base) (h : WalkOk mem base) :
    WalksWell mem base := by
  obtain ⟨fuel, l, hcollect, hl⟩ := collect_of_reached (Nat.dvd_add halign (Nat.dvd_refl 8)) h.tags
  exact ⟨fuel, l, tags_eq_some.mpr ⟨⟨h.start, h.stop⟩, hcollect⟩, hl⟩

theorem WalksWell.walkOk {mem : Memory} {base : ℕ} (halign : 8 ∣ base) (h : WalksWell mem base) :
    WalkOk mem base := by
  obtain ⟨fuel, l, htags, hsorted, hinside⟩ := h
  obtain ⟨⟨hstart, hstop⟩, hcollect⟩ := tags_eq_some.mp htags
  refine ⟨hstart, hstop, fun hreached htag => ?_⟩
  exact tagOk_of_collect (Nat.dvd_add halign (Nat.dvd_refl 8)) hcollect hsorted
    (fun tag hmem => (hinside tag hmem).2) hreached htag

/-- **Structures of any content.**  The iterator yields finitely many tags at increasing addresses
inside of the structure, and then ends, if and only if each of the tags that it is led to has a
size other than 0, has its header in front of the end, and is followed by an address that does not
overflow. -/
theorem tags_walk_iff {mem : Memory} {base : ℕ} (halign : 8 ∣ base) :
    WalksWell mem base ↔ WalkOk mem base :=
  ⟨fun h => h.walkOk halign, fun h => h.walksWell halign⟩

theorem tags_walk_sample : WalkOk sampleMemory 0x10000 :=
  (tags_walk_iff (by decide)).mp
    ⟨3, [0x10008, 0x10018], by decide +kernel, by decide, by decide +kernel⟩

/-- A structure of 24 bytes whose first tag has size 0. -/
def zeroSized : Memory := fun a => if a = 0x10000 then 24 else if a = 0x10008 then 1 else 0

/-- A tag of size 0 is yielded for ever. -/
theorem zero_sized_tag_repeats : 8 ∣ 0x10000 ∧ ¬ WalksWell zeroSized 0x10000 := by
  have halign : 8 ∣ 0x10000 := by decide
  refine ⟨halign, fun h => ?_⟩
  have hzero : (tagHeader zeroSized (0x10000 + 8)).size = 0 := by decide +kernel
  have htag : IsTag zeroSized (0x10000 + readU32 zeroSized 0x10000) (0x10000 + 8) :=
    ⟨by decide +kernel, by decide +kernel⟩
  exact Nat.lt_irrefl 0 (hzero ▸ ((h.walkOk halign).tags .here htag).sized)

end KernelR.Boot
