import KernelR.Mm.BringUp

/-!
# The search of the bump allocator

Before the buddy allocator works, `BumpAllocator` of `memory.rs` hands out frames: it
goes through the usable entries of the memory map, tries one position after the other
and jumps behind a reserved frame as soon as it meets one.

A `Window` is what it looks for. No window begins at or before a reserved frame that
the position tried has run into, so a jump loses none; the search finds a window if
there is one (`searchFrames_found`).

The sums of the search are sums of `usize`, and the kernel is built with overflow checks.
Where there is no window, the last position tried lies behind the first reserved frame
from the last place on where the block would still fit, and the search comes to its end
if and only if the block could be added to that position (`searchFrames_not_found`).
`Fits` says so of a whole call, and `allocateContiguousFrames_iff` that a call does what
it is for exactly if it fits.
-/

namespace KernelR.Mm

open List Option Foundations

/-- `BumpAllocator::init` -/
def BumpAllocator.init (kernelEnd : ℕ) (memoryMap : List MemoryMapEntry) : Option BumpAllocator :=
  (checkedAdd kernelEnd 4095).map fun above => ⟨andNot above 4095, memoryMap⟩

/-! ### Windows -/

/-- `count` frames from `a` on without a reserved byte. -/
def UnreservedRun (regions : List ReservedRegion) (count a : ℕ) : Prop :=
  ∀ i < count, Unreserved regions (a + i * 4096)

/-- A block of `count` unreserved frames at or above `lo` and below `hi`. -/
structure Window (regions : List ReservedRegion) (count lo hi a : ℕ) : Prop where
  aligned : 4096 ∣ a
  lower : lo ≤ a
  upper : a + count * 4096 ≤ hi
  free : UnreservedRun regions count a

/-- The first reserved frame at or above `lo`. -/
structure IsFirstReserved (regions : List ReservedRegion) (lo f : ℕ) : Prop where
  aligned : 4096 ∣ f
  lower : lo ≤ f
  reserved : ¬Unreserved regions f
  first : ∀ g, 4096 ∣ g → lo ≤ g → g < f → Unreserved regions g

variable {regions : List ReservedRegion} {count : ℕ}

theorem Window.mono {lo lo' hi a : ℕ} (h : Window regions count lo hi a) (hlo : lo' ≤ lo) :
    Window regions count lo' hi a :=
  ⟨h.aligned, hlo.trans h.lower, h.upper, h.free⟩

/-- **A jump loses no window.**  A window that does not begin behind a reserved frame
which it could contain would contain it. -/
theorem Window.jump {lo hi a f : ℕ} (h : Window regions count lo hi a) (hf : 4096 ∣ f)
    (hreserved : ¬Unreserved regions f) (hlt : f < lo + count * 4096) :
    Window regions count (f + 4096) hi a := by
  refine ⟨h.aligned, ?_, h.upper, h.free⟩
  by_contra hle
  have hlower := h.lower
  have haligned := h.aligned
  refine hreserved ?_
  have hi := h.free ((f - a) / 4096) (by omega)
  rwa [show a + (f - a) / 4096 * 4096 = f by omega] at hi

theorem IsFirstReserved.unique {lo f g : ℕ} (hf : IsFirstReserved regions lo f)
    (hg : IsFirstReserved regions lo g) : f = g := by
  rcases Nat.lt_trichotomy f g with hlt | heq | hlt
  · exact absurd (hg.first f hf.aligned hf.lower hlt) hf.reserved
  · exact heq
  · exact absurd (hf.first g hg.aligned hg.lower hlt) hg.reserved

/-- The first reserved frame is also the first one from any later address below it on. -/
theorem IsFirstReserved.later {lo lo' f : ℕ} (h : IsFirstReserved regions lo f) (hlo : lo ≤ lo')
    (hle : lo' ≤ f) : IsFirstReserved regions lo' f :=
  ⟨h.aligned, hle, h.reserved, fun g hg hlower => h.first g hg (hlo.trans hlower)⟩

/-! ### One position -/

section
variable (hregions : ∀ r ∈ regions, r.start < r.stop)
include hregions

theorem isReserved_frame {p : ℕ} (hp : 4096 ∣ p) (hlt : p + 4096 < 2 ^ 64) :
    ∃ b, isReserved regions p 4096 = some b ∧ (b = false ↔ Unreserved regions p) := by
  refine ⟨overlapsReserved regions p (p + 4096), ?_,
    overlapsReserved_eq_false (fun r hr => Or.inl (hregions r hr)) hp⟩
  simp only [isReserved, checkedAdd, if_pos hlt, map_some]

/-- The inner loop finds the first reserved frame of the block, if there is one. -/
theorem firstReserved_spec {c s n : ℕ} (hc : 4096 ∣ c) (hfits : c + s * 4096 + n * 4096 < 2 ^ 64) :
    (firstReserved regions c (List.range' s n) = some none ∧
        ∀ i, s ≤ i → i < s + n → Unreserved regions (c + i * 4096)) ∨
      ∃ j, s ≤ j ∧ j < s + n ∧
        firstReserved regions c (List.range' s n) = some (some (c + j * 4096)) ∧
        ¬Unreserved regions (c + j * 4096) ∧
        ∀ i, s ≤ i → i < j → Unreserved regions (c + i * 4096) := by
  induction n generalizing s with
  | zero => exact .inl ⟨rfl, fun i hle hlt => by omega⟩
  | succ n ih =>
    have hadd : checkedAdd c (s * 4096) = some (c + s * 4096) :=
      checkedAdd_eq_some.mpr ⟨rfl, by omega⟩
    obtain ⟨b, hb, hiff⟩ := isReserved_frame hregions (p := c + s * 4096) (by omega) (by omega)
    have hstep : firstReserved regions c (List.range' s (n + 1)) =
        if b then some (some (c + s * 4096))
        else firstReserved regions c (List.range' (s + 1) n) := by
      simp only [List.range'_succ, firstReserved, hadd, hb, bind_eq_bind, bind_some]
    rw [hstep]
    cases b with
    | true =>
      refine .inr ⟨s, le_rfl, by omega, rfl, fun hfree => ?_, fun i hle hlt => by omega⟩
      exact nomatch hiff.mpr hfree
    | false =>
      have hfree : Unreserved regions (c + s * 4096) := hiff.mp rfl
      have hall : ∀ j, (∀ i, s + 1 ≤ i → i < j → Unreserved regions (c + i * 4096)) →
          ∀ i, s ≤ i → i < j → Unreserved regions (c + i * 4096) := by
        intro j hrest i hle hlt
        rcases Nat.eq_or_lt_of_le hle with rfl | hlt'
        · exact hfree
        · exact hrest i hlt' hlt
      have hfits' : c + (s + 1) * 4096 + n * 4096 < 2 ^ 64 := by
        rwa [show c + (s + 1) * 4096 + n * 4096 = c + s * 4096 + (n + 1) * 4096 by ring]
      rcases ih hfits' with ⟨hnone, hrest⟩ | ⟨j, hle, hlt, hsome, hres, hrest⟩
      · refine .inl ⟨hnone, hall _ fun i hle hlt => hrest i hle (by omega)⟩
      · exact .inr ⟨j, by omega, by omega, hsome, hres, hall j hrest⟩

/-- **One position.**  A block that fits is taken if it is free; otherwise the search goes on
behind its first reserved frame. -/
theorem searchFrames_step {regionEnd c : ℕ} (fuel : ℕ) (hc : 4096 ∣ c)
    (hend : regionEnd < 2 ^ 64) (hle : c + count * 4096 ≤ regionEnd) :
    (UnreservedRun regions count c ∧
        searchFrames regions count regionEnd (fuel + 1) c = some (some c)) ∨
      ∃ f, IsFirstReserved regions c f ∧ f < c + count * 4096 ∧
        searchFrames regions count regionEnd (fuel + 1) c =
          searchFrames regions count regionEnd fuel (f + 4096) := by
  have hstop : checkedAdd c (count * 4096) = some (c + count * 4096) :=
    checkedAdd_eq_some.mpr ⟨rfl, by omega⟩
  rcases firstReserved_spec hregions (s := 0) (n := count) hc (by omega) with
    ⟨hnone, hfree⟩ | ⟨j, -, hj, hsome, hres, hfree⟩
  · refine .inl ⟨fun i hi => hfree i (Nat.zero_le i) (by omega), ?_⟩
    simp only [searchFrames, hstop, range_eq_range', hnone, bind_eq_bind, bind_some, if_pos hle]
  · have hnext : checkedAdd (c + j * 4096) 4096 = some (c + j * 4096 + 4096) :=
      checkedAdd_eq_some.mpr ⟨rfl, by omega⟩
    have hround : andNot (c + j * 4096 + 4096) 4095 = c + j * 4096 + 4096 :=
      andNot_low_of_dvd (k := 12) (by omega)
    refine .inr ⟨c + j * 4096, ⟨by omega, by omega, hres, fun g hg hlower hlt => ?_⟩, by omega, ?_⟩
    · have hg' := hfree ((g - c) / 4096) (Nat.zero_le _) (by omega)
      rwa [show c + (g - c) / 4096 * 4096 = g by omega] at hg'
    · simp only [searchFrames, hstop, range_eq_range', hsome, hnext, hround,
        bind_eq_bind, bind_some, if_pos hle]

/-! ### The search in one entry -/

/-- If there is a window from the position on, the search finds one. -/
theorem searchFrames_found {regionEnd fuel c : ℕ} (hc : 4096 ∣ c) (hend : regionEnd < 2 ^ 64)
    (hfuel : regionEnd + 1 - c < fuel) (hwindow : ∃ a, Window regions count c regionEnd a) :
    ∃ a, searchFrames regions count regionEnd fuel c = some (some a) ∧
      Window regions count c regionEnd a := by
  induction fuel generalizing c with
  | zero => exact absurd hfuel (Nat.not_lt_zero _)
  | succ fuel ih =>
    obtain ⟨a, ha⟩ := hwindow
    have hle : c + count * 4096 ≤ regionEnd := (Nat.add_le_add_right ha.lower _).trans ha.upper
    rcases searchFrames_step hregions fuel hc hend hle with ⟨hfree, hres⟩ | ⟨f, hf, hlt, hres⟩
    · exact ⟨c, hres, hc, le_rfl, hle, hfree⟩
    · have hlower := hf.lower
      have hjump := ha.jump hf.aligned hf.reserved hlt
      obtain ⟨w, hw, hwindow⟩ := ih (c := f + 4096) (by have := hf.aligned; omega) (by omega)
        ⟨a, hjump⟩
      exact ⟨w, hres.trans hw, hwindow.mono (by omega)⟩

/-- The sums of a search from `c` on that finds nothing: the block is added to the first
position, and to the one behind the first reserved frame from the last place on where the
block fits. -/
def SearchFits (regions : List ReservedRegion) (count regionEnd c : ℕ) : Prop :=
  c + count * 4096 < 2 ^ 64 ∧
    (c + count * 4096 ≤ regionEnd →
      ∀ f, IsFirstReserved regions (andNot (regionEnd - count * 4096) 4095) f →
        f + 4096 + count * 4096 < 2 ^ 64)

omit hregions in
/-- A jump does not change what the search has to add up in the end. -/
theorem SearchFits.jump_iff {regionEnd c f : ℕ} (hc : 4096 ∣ c) (hend : regionEnd < 2 ^ 64)
    (hle : c + count * 4096 ≤ regionEnd) (hf : IsFirstReserved regions c f) :
    SearchFits regions count regionEnd (f + 4096) ↔ SearchFits regions count regionEnd c := by
  have hlast : andNot (regionEnd - count * 4096) 4095 = (regionEnd - count * 4096) / 4096 * 4096 :=
    andNot_low _ 12
  have haligned := hf.aligned
  unfold SearchFits
  rw [hlast]
  rcases Nat.lt_or_ge f ((regionEnd - count * 4096) / 4096 * 4096) with hlt | hge
  · -- the block fits again behind the frame
    constructor
    · rintro ⟨-, hlater⟩
      exact ⟨by omega, fun _ => hlater (by omega)⟩
    · rintro ⟨-, hlater⟩
      exact ⟨by omega, fun _ => hlater hle⟩
  · -- the block does not fit any more, and `f` is the frame in question
    have hfirst : IsFirstReserved regions ((regionEnd - count * 4096) / 4096 * 4096) f :=
      hf.later (by omega) hge
    constructor
    · rintro ⟨hsum, -⟩
      refine ⟨by omega, fun _ g hg => ?_⟩
      rw [hg.unique hfirst]
      exact hsum
    · rintro ⟨-, hlater⟩
      exact ⟨hlater hle f hfirst, fun hagain => by omega⟩

/-- Without a window, the search ends with nothing or in an overflow. -/
theorem searchFrames_not_found {regionEnd fuel c : ℕ} (hc : 4096 ∣ c) (hend : regionEnd < 2 ^ 64)
    (hfuel : regionEnd + 1 - c < fuel) (hwindow : ¬∃ a, Window regions count c regionEnd a) :
    (SearchFits regions count regionEnd c ∧
        searchFrames regions count regionEnd fuel c = some none) ∨
      (¬SearchFits regions count regionEnd c ∧
        searchFrames regions count regionEnd fuel c = none) := by
  induction fuel generalizing c with
  | zero => exact absurd hfuel (Nat.not_lt_zero _)
  | succ fuel ih =>
    rcases Nat.lt_or_ge (c + count * 4096) (2 ^ 64) with hlt | hge
    · have hstop : checkedAdd c (count * 4096) = some (c + count * 4096) :=
        checkedAdd_eq_some.mpr ⟨rfl, hlt⟩
      by_cases hle : c + count * 4096 ≤ regionEnd
      · rcases searchFrames_step hregions fuel hc hend hle with ⟨hfree, -⟩ | ⟨f, hf, -, hres⟩
        · exact absurd ⟨c, hc, le_rfl, hle, hfree⟩ hwindow
        · have hlower := hf.lower
          have haligned := hf.aligned
          rw [hres, ← SearchFits.jump_iff hc hend hle hf]
          refine ih (by omega) (by omega) fun ⟨a, ha⟩ => hwindow ⟨a, ha.mono (by omega)⟩
      · refine .inl ⟨⟨hlt, fun h => absurd h hle⟩, ?_⟩
        simp only [searchFrames, hstop, bind_eq_bind, bind_some, if_neg hle]
    · refine .inr ⟨fun h => absurd h.1 (Nat.not_lt.mpr hge), ?_⟩
      simp only [searchFrames, checkedAdd, if_neg (Nat.not_lt.mpr hge), bind_eq_bind, bind_none]

end

/-! ### The whole map -/

namespace BumpAllocator

/-- The lowest address a block of the entry may have. -/
def floor (self : BumpAllocator) (mem : MemoryMapEntry) : ℕ := max self.nextFreeFrame mem.baseAddr

/-- Some block of `count` unreserved frames fits into the entry, at or above
`next_free_frame`. -/
def HasWindow (self : BumpAllocator) (regions : List ReservedRegion) (count : ℕ)
    (mem : MemoryMapEntry) : Prop :=
  ∃ a, Window regions count (self.floor mem) (mem.baseAddr + mem.length) a

/-- The sums of the search in one entry. -/
structure EntryFits (bump : BumpAllocator) (regions : List ReservedRegion) (count : ℕ)
    (mem : MemoryMapEntry) : Prop where
  stop : mem.baseAddr + mem.length < 2 ^ 64
  lower : bump.floor mem + 4095 < 2 ^ 64
  search : ¬bump.HasWindow regions count mem →
    SearchFits regions count (mem.baseAddr + mem.length) (andNot (bump.floor mem + 4095) 4095)

/-- The sums of the search in the usable entries, up to the first one with a window. -/
def MapFits (self : BumpAllocator) (regions : List ReservedRegion) (count : ℕ) :
    List MemoryMapEntry → Prop
  | [] => True
  | mem :: rest =>
    if mem.typ = 1 then
      self.EntryFits regions count mem ∧
        (self.HasWindow regions count mem ∨ self.MapFits regions count rest)
    else self.MapFits regions count rest

/-- **A call fits** if none of the sums it forms overflows. -/
def Fits (self : BumpAllocator) (regions : List ReservedRegion) (count : ℕ) : Prop :=
  count * 4096 < 2 ^ 64 ∧ self.MapFits regions count self.memoryMap

/-- `allocate_contiguous_frames`: the body of the loop over the memory map. -/
def searchEntry (self : BumpAllocator) (regions : List ReservedRegion) (count : ℕ)
    (mem : MemoryMapEntry) : Option (Option ℕ) := do
  let regionEnd ← checkedAdd mem.baseAddr mem.length
  let candidate ← self.firstCandidate mem
  searchFrames regions count regionEnd (regionEnd + 2) candidate

theorem allocateFrom_cons (self : BumpAllocator) (mem : MemoryMapEntry)
    (rest : List MemoryMapEntry) (htyp : mem.typ = 1) :
    self.allocateFrom regions count (mem :: rest) =
      (self.searchEntry regions count mem).bind fun result =>
        result.elim (self.allocateFrom regions count rest) fun found =>
          some (some found, { self with nextFreeFrame := found + count * 4096 }) := by
  rw [allocateFrom, if_pos htyp, searchEntry]
  simp only [bind_eq_bind, Option.bind_assoc]
  refine Option.bind_congr fun regionEnd _ => Option.bind_congr fun candidate _ =>
    Option.bind_congr fun result _ => ?_
  cases result with
  | none => rfl
  | some found => rfl

section
variable (hregions : ∀ r ∈ regions, r.start < r.stop)
include hregions

/-- **One entry**: a window, the certainty that there is none, or an overflow. -/
theorem searchEntry_spec (self : BumpAllocator) (mem : MemoryMapEntry) :
    (self.EntryFits regions count mem ∧ ∃ a, self.searchEntry regions count mem = some (some a) ∧
          Window regions count (self.floor mem) (mem.baseAddr + mem.length) a) ∨
      (self.EntryFits regions count mem ∧ ¬self.HasWindow regions count mem ∧
        self.searchEntry regions count mem = some none) ∨
      (¬self.EntryFits regions count mem ∧ self.searchEntry regions count mem = none) := by
  by_cases hstop : mem.baseAddr + mem.length < 2 ^ 64
  · by_cases hfloor : self.floor mem + 4095 < 2 ^ 64
    · have hround : andNot (self.floor mem + 4095) 4095 = (self.floor mem + 4095) / 4096 * 4096 :=
        andNot_low _ 12
      have haligned : 4096 ∣ andNot (self.floor mem + 4095) 4095 := andNot_low_dvd _ 12
      have hsearch : self.searchEntry regions count mem =
          searchFrames regions count (mem.baseAddr + mem.length) (mem.baseAddr + mem.length + 2)
            (andNot (self.floor mem + 4095) 4095) := by
        have hmax : checkedAdd (max self.nextFreeFrame mem.baseAddr) 4095 =
            some (self.floor mem + 4095) := checkedAdd_eq_some.mpr ⟨rfl, hfloor⟩
        simp only [searchEntry, firstCandidate, checkedAdd_eq_some.mpr ⟨rfl, hstop⟩, hmax,
          map_some, bind_eq_bind, bind_some]
      -- no frame lies between the bound and the first position
      have hwindow : self.HasWindow regions count mem ↔
          ∃ a, Window regions count (andNot (self.floor mem + 4095) 4095)
            (mem.baseAddr + mem.length) a := by
        refine exists_congr fun a => ⟨fun h => ⟨h.aligned, ?_, h.upper, h.free⟩,
          fun h => h.mono (by omega)⟩
        have hlower := h.lower
        have hdvd := h.aligned
        omega
      have hfuel : mem.baseAddr + mem.length + 1 - andNot (self.floor mem + 4095) 4095 <
          mem.baseAddr + mem.length + 2 := by
        omega
      rw [hsearch]
      by_cases hhas : self.HasWindow regions count mem
      · obtain ⟨a, hres, ha⟩ := searchFrames_found hregions haligned hstop hfuel (hwindow.mp hhas)
        exact .inl ⟨⟨hstop, hfloor, fun h => absurd hhas h⟩, a, hres, ha.mono (by omega)⟩
      · rcases searchFrames_not_found hregions haligned hstop hfuel (hwindow.not.mp hhas) with
          ⟨hfits, hres⟩ | ⟨hfits, hres⟩
        · exact .inr (.inl ⟨⟨hstop, hfloor, fun _ => hfits⟩, hhas, hres⟩)
        · exact .inr (.inr ⟨fun h => hfits (h.search hhas), hres⟩)
    · refine .inr (.inr ⟨fun h => hfloor h.lower, ?_⟩)
      have hmax : checkedAdd (max self.nextFreeFrame mem.baseAddr) 4095 = none := if_neg hfloor
      simp only [searchEntry, firstCandidate, hmax, map_none, bind_eq_bind,
        bind_none, Option.bind_fun_none]
  · refine .inr (.inr ⟨fun h => hstop h.stop, ?_⟩)
    simp only [searchEntry, checkedAdd, if_neg hstop, bind_eq_bind, bind_none]

/-- The loop over the memory map: the first window, nothing, or an overflow. -/
theorem allocateFrom_spec (self : BumpAllocator) (l : List MemoryMapEntry) :
    (self.MapFits regions count l ∧ ∃ mem ∈ l, mem.typ = 1 ∧
          ∃ a, Window regions count (self.floor mem) (mem.baseAddr + mem.length) a ∧
            self.allocateFrom regions count l =
              some (some a, { self with nextFreeFrame := a + count * 4096 })) ∨
      (self.MapFits regions count l ∧ (∀ mem ∈ l, mem.typ = 1 → ¬self.HasWindow regions count mem) ∧
        self.allocateFrom regions count l = some (none, self)) ∨
      (¬self.MapFits regions count l ∧ self.allocateFrom regions count l = none) := by
  induction l with
  | nil => exact .inr (.inl ⟨trivial, nofun, rfl⟩)
  | cons mem rest ih =>
    by_cases htyp : mem.typ = 1
    · rw [allocateFrom_cons self mem rest htyp, MapFits, if_pos htyp]
      rcases searchEntry_spec hregions self mem with
        ⟨hfits, a, hres, ha⟩ | ⟨hfits, hnone, hres⟩ | ⟨hfits, hres⟩
      · exact .inl ⟨⟨hfits, .inl ⟨a, ha⟩⟩, mem, mem_cons_self, htyp, a, ha, by rw [hres]; rfl⟩
      · have hrest : (self.EntryFits regions count mem ∧
            (self.HasWindow regions count mem ∨ self.MapFits regions count rest)) ↔
              self.MapFits regions count rest :=
          ⟨fun h => h.2.resolve_left hnone, fun h => ⟨hfits, .inr h⟩⟩
        rw [hres, hrest, bind_some]
        rcases ih with ⟨hmap, mem', hmem, h⟩ | ⟨hmap, hno, hall⟩ | hover
        · exact .inl ⟨hmap, mem', mem_cons_of_mem _ hmem, h⟩
        · exact .inr (.inl ⟨hmap, forall_mem_cons.mpr ⟨fun _ => hnone, hno⟩, hall⟩)
        · exact .inr (.inr hover)
      · exact .inr (.inr ⟨fun h => hfits h.1, by rw [hres]; rfl⟩)
    · rw [allocateFrom, if_neg htyp, MapFits, if_neg htyp]
      rcases ih with ⟨hmap, mem', hmem, h⟩ | ⟨hmap, hno, hall⟩ | hover
      · exact .inl ⟨hmap, mem', mem_cons_of_mem _ hmem, h⟩
      · exact .inr (.inl ⟨hmap, forall_mem_cons.mpr ⟨fun h => absurd h htyp, hno⟩, hall⟩)
      · exact .inr (.inr hover)

end

/-! ### Sequences of calls -/

/-- What is handed out by the calls that lead from one allocator to another, one after the
other. -/
inductive Calls (regions : List ReservedRegion) (self : BumpAllocator) :
    List Extent → BumpAllocator → Prop
  | nil : Calls regions self [] self
  | call {given : List Extent} {bump bump' : BumpAllocator} {count : ℕ} {result : Option ℕ} :
      Calls regions self given bump →
      bump.allocateContiguousFrames regions count = some (result, bump') →
      Calls regions self
        (given ++ result.toList.map fun a => ⟨a, count * 4096⟩) bump'

end BumpAllocator

/-- `[start, stop)` -/
def ReservedRegion.extent (r : ReservedRegion) : Extent := ⟨r.start, r.stop - r.start⟩

namespace BumpAllocator

variable {self bump : BumpAllocator} {given : List Extent}

theorem apart_of_unreservedRun {a : ℕ} (h : UnreservedRun regions count a) {r : ReservedRegion}
    (hr : r ∈ regions) : Extent.Apart ⟨a, count * 4096⟩ r.extent := by
  rintro x ⟨hlo, hhi⟩ ⟨hstart, hstop⟩
  dsimp only [ReservedRegion.extent] at hlo hhi hstart hstop
  exact h ((x - a) / 4096) (by omega) r hr x (by omega) (by omega) ⟨hstart, by omega⟩

/-- What holds after any calls: the blocks handed out follow one another in memory, up to
`next_free_frame`, and none of them has a reserved byte. -/
structure Handed (regions : List ReservedRegion) (given : List Extent) (bump : BumpAllocator) :
    Prop where
  below : ∀ e ∈ given, e.base + e.size ≤ bump.nextFreeFrame
  ascending : given.Pairwise fun e f => e.base + e.size ≤ f.base
  unreserved : ∀ e ∈ given, ∀ r ∈ regions, e.Apart r.extent

theorem Handed.give (h : Handed regions given bump) {a : ℕ} (ha : bump.nextFreeFrame ≤ a)
    (hfree : UnreservedRun regions count a) :
    Handed regions (given ++ [⟨a, count * 4096⟩])
      { bump with nextFreeFrame := a + count * 4096 } := by
  refine ⟨forall_mem_append.mpr ⟨fun e he => ?_, fun e he => ?_⟩,
    pairwise_append.mpr ⟨h.ascending, pairwise_singleton _ _, fun e he f hf => ?_⟩,
    forall_mem_append.mpr ⟨h.unreserved, fun e he r hr => ?_⟩⟩
  · have hold := h.below e he
    show e.base + e.size ≤ a + count * 4096
    omega
  · obtain rfl := mem_singleton.mp he
    exact le_rfl
  · obtain rfl := mem_singleton.mp hf
    exact (h.below e he).trans ha
  · obtain rfl := mem_singleton.mp he
    exact apart_of_unreservedRun hfree hr

/-- **Runs of calls.** -/
theorem Calls.handed (hregions : ∀ r ∈ regions, r.start < r.stop)
    (h : Calls regions self given bump) :
    bump.memoryMap = self.memoryMap ∧ Handed regions given bump := by
  induction h with
  | nil => exact ⟨rfl, nofun, List.Pairwise.nil, nofun⟩
  | @call given bump bump' count result _ hcall ih =>
    obtain ⟨hmap, hhanded⟩ := ih
    obtain ⟨-, hcall⟩ := ite_none_right_eq_some.mp hcall
    rcases allocateFrom_spec hregions bump bump.memoryMap with
      ⟨-, mem, -, -, a, ha, hres⟩ | ⟨-, -, hres⟩ | ⟨-, hres⟩
    · obtain ⟨rfl, rfl⟩ := Prod.mk.inj (some.inj (hres.symm.trans hcall))
      exact ⟨hmap, hhanded.give ((le_max_left _ _).trans ha.lower) ha.free⟩
    · obtain ⟨rfl, rfl⟩ := Prod.mk.inj (some.inj (hres.symm.trans hcall))
      rw [Option.toList_none, map_nil, append_nil]
      exact ⟨hmap, hhanded⟩
    · exact nomatch hres.symm.trans hcall

/-- **The bump allocator.**  After any calls that returned, the next one returns, with a
block that is aligned, in one usable entry, apart from all reserved regions and from all
blocks handed out before, or with nothing exactly if there is no window at or above
`next_free_frame`, if and only if it fits. -/
theorem allocateContiguousFrames_iff {memoryMap : List MemoryMapEntry} {kernelEnd : ℕ}
    (hregions : ∀ r ∈ regions, r.start < r.stop)
    (hinit : BumpAllocator.init kernelEnd memoryMap = some self)
    (hcalls : Calls regions self given bump) :
    (∃ result bump', bump.allocateContiguousFrames regions count = some (result, bump') ∧
        (∀ a, result = some a →
          4096 ∣ a ∧
          (∃ mem ∈ memoryMap, mem.typ = 1 ∧ mem.baseAddr ≤ a ∧
            a + count * 4096 ≤ mem.baseAddr + mem.length) ∧
          (∀ r ∈ regions, Extent.Apart ⟨a, count * 4096⟩ r.extent) ∧
          ∀ e ∈ given, Extent.Apart ⟨a, count * 4096⟩ e) ∧
        (result = none ↔
          ¬∃ mem ∈ memoryMap, mem.typ = 1 ∧
            ∃ a, 4096 ∣ a ∧ bump.nextFreeFrame ≤ a ∧ mem.baseAddr ≤ a ∧
              a + count * 4096 ≤ mem.baseAddr + mem.length ∧
              ∀ i < count, Unreserved regions (a + i * 4096))) ↔
      bump.Fits regions count := by
  obtain ⟨above, -, rfl⟩ := Option.map_eq_some_iff.mp hinit
  obtain ⟨hmap, hhanded⟩ := hcalls.handed hregions
  replace hmap : bump.memoryMap = memoryMap := hmap
  have hwindow : ∀ mem a, Window regions count (bump.floor mem) (mem.baseAddr + mem.length) a ↔
      4096 ∣ a ∧ bump.nextFreeFrame ≤ a ∧ mem.baseAddr ≤ a ∧
        a + count * 4096 ≤ mem.baseAddr + mem.length ∧
        ∀ i < count, Unreserved regions (a + i * 4096) := by
    intro mem a
    constructor
    · exact fun h => ⟨h.aligned, (le_max_left _ _).trans h.lower, (le_max_right _ _).trans h.lower,
        h.upper, h.free⟩
    · exact fun ⟨haligned, hnext, hbase, hupper, hfree⟩ =>
        ⟨haligned, max_le hnext hbase, hupper, hfree⟩
  simp only [← hwindow]
  unfold Fits allocateContiguousFrames
  rw [hmap]
  split
  next hsize =>
    rcases allocateFrom_spec hregions bump memoryMap with
      ⟨hfits, mem, hmem, htyp, a, ha, hres⟩ | ⟨hfits, hno, hres⟩ | ⟨hfits, hres⟩
    · refine iff_of_true ⟨some a, _, hres, fun a' ha' => ?_, nofun, fun h => ?_⟩ ⟨hsize, hfits⟩
      · cases ha'
        obtain ⟨haligned, hnext, hbase, hupper, -⟩ := (hwindow mem a).mp ha
        refine ⟨haligned, ⟨mem, hmem, htyp, hbase, hupper⟩,
          fun r hr => apart_of_unreservedRun ha.free hr, fun e he x hx hx' => ?_⟩
        have hold := hhanded.below e he
        have hxa : a ≤ x := hx.1
        have hxe : x < e.base + e.size := hx'.2
        omega
      · exact absurd ⟨mem, hmem, htyp, a, ha⟩ h
    · refine iff_of_true ⟨none, bump, hres, nofun, fun _ => ?_, fun _ => rfl⟩ ⟨hsize, hfits⟩
      rintro ⟨mem, hmem, htyp, hhas⟩
      exact hno mem hmem htyp hhas
    · refine iff_of_false ?_ fun h => hfits h.2
      rintro ⟨result, bump', hcall, -⟩
      exact nomatch hres.symm.trans hcall
  next hsize =>
    refine iff_of_false ?_ fun h => hsize h.1
    rintro ⟨result, bump', hcall, -⟩
    exact nomatch hcall

/-- Memory from 1 MiB on in which one frame is reserved. -/
def sampleMap : List MemoryMapEntry := [⟨0x100000, 0x20000, 1⟩]

/-- One frame in front of the reserved one, and then two frames: these are found behind it. -/
theorem allocateContiguousFrames_jump :
    ∃ bump, Calls [⟨0x103000, 0x103800⟩] ⟨0x102000, sampleMap⟩ [⟨0x102000, 1 * 4096⟩] bump ∧
      bump.allocateContiguousFrames [⟨0x103000, 0x103800⟩] 2 =
        some (some 0x104000, ⟨0x106000, sampleMap⟩) ∧
      ∃ a bump', bump.allocateContiguousFrames [⟨0x103000, 0x103800⟩] 2 = some (some a, bump') ∧
        4096 ∣ a ∧ Extent.Apart ⟨a, 2 * 4096⟩ ⟨0x102000, 1 * 4096⟩ := by
  have hregions : ∀ r ∈ [(⟨0x103000, 0x103800⟩ : ReservedRegion)], r.start < r.stop := by decide
  have hinit : BumpAllocator.init 0x101800 sampleMap = some ⟨0x102000, sampleMap⟩ := by decide
  have hfirst : (⟨0x102000, sampleMap⟩ : BumpAllocator).allocateContiguousFrames
      [⟨0x103000, 0x103800⟩] 1 = some (some 0x102000, ⟨0x103000, sampleMap⟩) := by
    decide +kernel
  have hcalls : Calls [⟨0x103000, 0x103800⟩] ⟨0x102000, sampleMap⟩ [⟨0x102000, 1 * 4096⟩]
      ⟨0x103000, sampleMap⟩ := .call .nil hfirst
  have hsecond : (⟨0x103000, sampleMap⟩ : BumpAllocator).allocateContiguousFrames
      [⟨0x103000, 0x103800⟩] 2 = some (some 0x104000, ⟨0x106000, sampleMap⟩) := by
    decide +kernel
  have hwindow : HasWindow ⟨0x103000, sampleMap⟩ [⟨0x103000, 0x103800⟩] 2
      ⟨0x100000, 0x20000, 1⟩ := by
    refine ⟨0x104000, by decide, by decide, by decide, fun i _ r hr x hlo _ => ?_⟩
    rw [List.mem_singleton.mp hr]
    dsimp only
    omega
  have hfits : Fits ⟨0x103000, sampleMap⟩ [⟨0x103000, 0x103800⟩] 2 :=
    ⟨by decide, ⟨by decide, by decide, fun h => absurd hwindow h⟩, .inl hwindow⟩
  obtain ⟨result, bump', hcall, hgood, -⟩ :=
    (allocateContiguousFrames_iff hregions hinit hcalls).mpr hfits
  obtain ⟨rfl, rfl⟩ := Prod.mk.inj (Option.some.inj (hsecond.symm.trans hcall))
  obtain ⟨haligned, -, -, hapart⟩ := hgood _ rfl
  exact ⟨_, hcalls, hsecond, _, _, hcall, haligned, hapart _ (List.mem_singleton_self _)⟩

/-- A usable entry that ends just below `2 ^ 64`, and 511 MiB of memory from 1 MiB on. -/
def topMap : List MemoryMapEntry := [⟨0xFFFFFFFFFFFFF000, 0xFFF, 1⟩, ⟨0x100000, 0x1FF00000, 1⟩]

/-- The search for one frame overflows in the first entry, in which none fits, before it comes
to the second one, which has a window. -/
theorem allocateContiguousFrames_overflows :
    (∀ mem ∈ topMap, mem.baseAddr + mem.length < 2 ^ 64) ∧
      BumpAllocator.init 0x400000 topMap = some ⟨0x400000, topMap⟩ ∧
      (⟨0x400000, topMap⟩ : BumpAllocator).allocateContiguousFrames [⟨0x100000, 0x400000⟩] 1 =
        none ∧
      Window [⟨0x100000, 0x400000⟩] 1 0x400000 (0x100000 + 0x1FF00000) 0x400000 := by
  refine ⟨by decide, by decide, by decide +kernel, by decide, le_rfl, by decide,
    fun i _ r hr x hlo _ => ?_⟩
  rw [List.mem_singleton.mp hr]
  dsimp only
  omega

end BumpAllocator

end KernelR.Mm
