import KernelR.Foundations.Bytes
import KernelR.Mm.Allocator

/-!
# The initial ramdisk

`tar.rs`: the archive that the boot loader has put into memory is walked header by header,
and every file becomes a `TarVnode` that points to its data. Memory is a function from
addresses to bytes, and a `String` is the list of its bytes.

The walk ends at a header that begins with a zero byte. Nothing else bounds it, so
`parseTarball` runs on fuel; `parseTarball_roundTrip` says how much it takes.
-/

namespace KernelR.Fs

open List Foundations

/-- The bytes of memory. -/
abbrev Memory := ℕ → UInt8

/-- A sum in `u64`. -/
def addU64 (x y : ℕ) : ℕ := (x + y) % 2 ^ 64

/-- `TarVnode` -/
structure TarVnode where
  name : List UInt8
  size : ℕ
  dataPtr : ℕ
deriving DecidableEq, Repr

/-- `TarVnode::read`: the number of bytes read, and the buffer afterwards. -/
def TarVnode.read (v : TarVnode) (mem : Memory) (offset : ℕ) (buf : List UInt8) :
    Option (ℕ × List UInt8) :=
  if offset ≥ v.size then some (0, buf)
  else
    let bytesToRead := min buf.length (v.size - offset)
    some (bytesToRead, cells mem (addU64 v.dataPtr offset) bytesToRead ++ buf.drop bytesToRead)

/-- The loop of `parse_octal`. -/
def parseOctal : List UInt8 → ℕ → ℕ
  | [], result => result
  | b :: bytes, result =>
    if 48 ≤ b ∧ b ≤ 55 then parseOctal bytes (result * 8 + (b - 48).toNat)
    else if b = 0 ∨ b = 32 then
      if result > 0 then result else parseOctal bytes result
    else parseOctal bytes result

/-- `parse_tarball`: the index of the first zero byte of the name field, or 0. -/
def nullIdx (header : List UInt8) : ℕ := ((header.take 100).findIdx? (· == 0)).getD 0

/-- `parse_tarball`: the file that a header at an address describes. -/
def headerVnode (header : List UInt8) (currentAddr : ℕ) : TarVnode where
  name := header.take (nullIdx header)
  size := parseOctal ((header.drop 124).take 12) 0
  dataPtr := addU64 currentAddr 512

/-- The loop of `parse_tarball`. -/
def parseLoop (mem : Memory) : ℕ → List TarVnode → ℕ → Option (List TarVnode)
  | 0, _, _ => none
  | fuel + 1, files, currentAddr =>
    let header := cells mem currentAddr 512
    if header.head? = some 0 then some files
    else
      let vnode := headerVnode header currentAddr
      parseLoop mem fuel (files ++ [vnode])
        (addU64 currentAddr (512 + Mm.alignTo vnode.size 512))

/-- `parse_tarball`; the result is `TarDirectory.files`. Nothing bounds the loop of the source; if
the fuel is not enough for it there is no result. -/
def parseTarball (mem : Memory) (fuel base : ℕ) : Option (List TarVnode) :=
  parseLoop mem fuel [] base

/-! ### Archives -/

/-- A file that fits into the `ustar` format. -/
structure TarFile where
  name : List UInt8
  content : List UInt8
  name_pos : 0 < name.length
  name_lt : name.length < 100
  no_nul : 0 ∉ name
  content_lt : content.length < 8 ^ 11

/-- The size field: eleven octal digits. -/
def sizeField (size : ℕ) : List UInt8 := (digits 8 11 size).map fun d => UInt8.ofNat (48 + d)

/-- The header of a file. The name ends with a zero byte and the size with a zero byte or
a blank; the other fields can be anything. -/
structure IsHeader (file : TarFile) (header : List UInt8) : Prop where
  length : header.length = 512
  name : file.name ++ [0] <+: header
  size : (header.drop 124).take 11 = sizeField file.content.length
  terminator : header[135]? = some 0 ∨ header[135]? = some 32

/-- The bytes up to the next multiple of 512. -/
def padding (size : ℕ) : ℕ := Mm.alignTo size 512 - size

/-- The archive has these files, in this order, and then at least one block of zeros. -/
inductive Encodes : List TarFile → List UInt8 → Prop
  | nil (blocks : ℕ) : 0 < blocks → Encodes [] (List.replicate (512 * blocks) 0)
  | cons {file : TarFile} {files : List TarFile} {header pad archive : List UInt8} :
      IsHeader file header → pad.length = padding file.content.length → Encodes files archive →
      Encodes (file :: files) (header ++ (file.content ++ (pad ++ archive)))

/-! ### Reading a header -/

theorem parseOctal_digits {ds : List ℕ} (hds : ∀ d ∈ ds, d < 8) (rest : List UInt8) (result : ℕ) :
    parseOctal (ds.map (fun d => UInt8.ofNat (48 + d)) ++ rest) result =
      parseOctal rest (digitValue 8 ds result) := by
  induction ds generalizing result with
  | nil => rfl
  | cons d ds ih =>
    have hd : d < 8 := hds d mem_cons_self
    have hbyte : 48 ≤ UInt8.ofNat (48 + d) ∧ UInt8.ofNat (48 + d) ≤ 55 ∧
        (UInt8.ofNat (48 + d) - 48).toNat = d := by
      interval_cases d <;> decide
    obtain ⟨hlow, hhigh, hvalue⟩ := hbyte
    rw [map_cons, cons_append, parseOctal, if_pos ⟨hlow, hhigh⟩, hvalue]
    exact ih (fun e he => hds e (mem_cons_of_mem d he)) _

theorem parseOctal_sizeField {size : ℕ} (hsize : size < 8 ^ 11) {t : UInt8}
    (ht : t = 0 ∨ t = 32) : parseOctal (sizeField size ++ [t]) 0 = size := by
  rw [sizeField, parseOctal_digits (digits_lt (by decide) 11 size), digitValue_digits,
    Nat.mod_eq_of_lt hsize]
  rcases ht with rfl | rfl
  · simp [parseOctal]
  · simp [parseOctal]

variable {file : TarFile} {header : List UInt8}

theorem IsHeader.nullIdx (h : IsHeader file header) : Fs.nullIdx header = file.name.length := by
  obtain ⟨rest, hrest⟩ := h.name
  have hlt := file.name_lt
  have htake : header.take 100 = file.name ++ (0 :: rest.take (99 - file.name.length)) := by
    rw [← hrest, append_assoc, take_append, take_of_length_le hlt.le,
      show 100 - file.name.length = (99 - file.name.length) + 1 by omega]
    rfl
  have hname : file.name.findIdx? (· == 0) = none := by
    rw [List.findIdx?_eq_none_iff]
    intro b hb
    have hne : b ≠ 0 := fun heq => file.no_nul (heq ▸ hb)
    simpa using hne
  rw [Fs.nullIdx, htake, List.findIdx?_append, hname]
  simp [List.findIdx?_cons]

theorem IsHeader.head_ne (h : IsHeader file header) : header.head? ≠ some 0 := by
  obtain ⟨rest, hrest⟩ := h.name
  obtain ⟨b, bs, hb⟩ := exists_cons_of_length_pos file.name_pos
  have hne : b ≠ 0 := fun heq => file.no_nul (hb ▸ heq ▸ mem_cons_self)
  rw [← hrest, hb, cons_append, cons_append, List.head?_cons]
  exact fun heq => hne (Option.some.inj heq)

theorem IsHeader.vnode (h : IsHeader file header) (addr : ℕ) :
    headerVnode header addr = ⟨file.name, file.content.length, addU64 addr 512⟩ := by
  have hname : header.take (Fs.nullIdx header) = file.name := by
    obtain ⟨rest, hrest⟩ := h.name
    rw [h.nullIdx, ← hrest, append_assoc, take_left']
    rfl
  have hsize : parseOctal ((header.drop 124).take 12) 0 = file.content.length := by
    have hget : (header.drop 124)[11]? = header[135]? := by rw [List.getElem?_drop]
    rw [take_add_one, h.size, hget]
    rcases h.terminator with ht | ht
    · rw [ht]
      exact parseOctal_sizeField file.content_lt (Or.inl rfl)
    · rw [ht]
      exact parseOctal_sizeField file.content_lt (Or.inr rfl)
  rw [headerVnode, hname, hsize]

/-! ### Reading a file -/

/-- Every `read` returns the part of the content that it asks for, and leaves the rest of
the buffer alone. -/
def TarVnode.Yields (v : TarVnode) (mem : Memory) (content : List UInt8) : Prop :=
  ∀ offset buf, v.read mem offset buf =
    some (min buf.length (content.length - offset),
      (content.drop offset).take buf.length ++ buf.drop (content.length - offset))

theorem TarVnode.yields_of_at {v : TarVnode} {mem : Memory} {content : List UInt8}
    (hsize : v.size = content.length) (hat : At mem v.dataPtr content)
    (hfits : v.dataPtr + content.length ≤ 2 ^ 64) : v.Yields mem content := by
  intro offset buf
  rw [TarVnode.read, hsize]
  by_cases hend : offset ≥ content.length
  · have hnone : content.length - offset = 0 := by omega
    rw [if_pos hend, hnone, drop_eq_nil_of_le hend, Nat.min_zero, take_nil,
      drop_zero, List.nil_append]
  · have haddr : addU64 v.dataPtr offset = v.dataPtr + offset := Nat.mod_eq_of_lt (by omega)
    have hdata : cells mem (v.dataPtr + offset) (min buf.length (content.length - offset)) =
        (content.drop offset).take buf.length := by
      rw [hat.cells_drop (by omega), ← length_drop, take_eq_take_iff]
      omega
    have hrest : buf.drop (min buf.length (content.length - offset)) =
        buf.drop (content.length - offset) := by
      rcases Nat.le_total buf.length (content.length - offset) with hle | hle
      · rw [Nat.min_eq_left hle, drop_length, drop_eq_nil_of_le hle]
      · rw [Nat.min_eq_right hle]
    show (if _ then _ else some (_, cells mem _ _ ++ buf.drop _)) = _
    rw [if_neg hend, haddr, hdata, hrest]

/-! ### The walk -/

/-- The file that the kernel has is the one in the archive. -/
structure Unpacked (mem : Memory) (v : TarVnode) (file : TarFile) : Prop where
  name : v.name = file.name
  size : v.size = file.content.length
  content : v.Yields mem file.content

theorem padding_spec {size : ℕ} (hsize : size < 8 ^ 11) :
    size + padding size = Mm.alignTo size 512 := by
  have halign : size ≤ Mm.alignTo size 512 := (Mm.alignTo_spec (k := 9) (by omega)).2.1
  rw [padding]
  omega

/-- `parse_tarball`: the next header after this one. -/
def nextHeader (header : List UInt8) (currentAddr : ℕ) : ℕ :=
  addU64 currentAddr (512 + Mm.alignTo (headerVnode header currentAddr).size 512)

section Rounds

variable {mem : Memory} {addr : ℕ}

theorem parseLoop_stop (h : (cells mem addr 512).head? = some 0) (fuel : ℕ)
    (found : List TarVnode) : parseLoop mem (fuel + 1) found addr = some found := by
  rw [parseLoop]
  exact if_pos h

/-- Any other header is a file, and the walk goes on behind its data. -/
theorem parseLoop_entry (h : (cells mem addr 512).head? ≠ some 0) (fuel : ℕ)
    (found : List TarVnode) : parseLoop mem (fuel + 1) found addr =
      parseLoop mem fuel (found ++ [headerVnode (cells mem addr 512) addr])
        (nextHeader (cells mem addr 512) addr) := by
  rw [parseLoop]
  exact if_neg h

end Rounds

theorem Encodes.length_pos {files : List TarFile} {archive : List UInt8}
    (h : Encodes files archive) : 0 < archive.length := by
  cases h with
  | nil blocks hblocks =>
    rw [length_replicate]
    omega
  | cons hheader _ _ =>
    rw [length_append, hheader.length]
    omega

/-- **The walk finds the files.**  It starts with `found` already in hand. -/
theorem Encodes.parseLoop {mem : Memory} {files : List TarFile} {archive : List UInt8}
    (h : Encodes files archive) {addr : ℕ} (hat : At mem addr archive)
    (hfits : addr + archive.length ≤ 2 ^ 64) :
    ∃ vnodes, List.Forall₂ (Unpacked mem) vnodes files ∧
      ∀ fuel > files.length, ∀ found,
        Fs.parseLoop mem fuel found addr = some (found ++ vnodes) := by
  induction h generalizing addr with
  | nil blocks hblocks =>
    refine ⟨[], .nil, fun fuel hfuel found => ?_⟩
    obtain ⟨fuel, rfl⟩ : ∃ f, fuel = f + 1 := ⟨fuel - 1, by omega⟩
    -- the first block of zeros is the header that ends the walk
    have hheader : cells mem addr 512 = List.replicate 512 0 := by
      rw [show 512 * blocks = 512 + 512 * (blocks - 1) by omega, replicate_add] at hat
      exact hat.left.cells_eq length_replicate
    rw [parseLoop_stop (hheader.symm ▸ rfl), append_nil]
  | @cons file files header pad archive hheader hpad hrest ih =>
    have hspec := padding_spec file.content_lt
    have hpos := hrest.length_pos
    simp only [length_append, hheader.length, hpad] at hfits
    have hcells : cells mem addr 512 = header := hat.left.cells_eq hheader.length
    have hcontent : At mem (addr + 512) file.content := hheader.length ▸ hat.right.left
    have hnext : addU64 addr (512 + Mm.alignTo file.content.length 512) =
        addr + header.length + file.content.length + pad.length := by
      rw [addU64, ← hspec, hheader.length, hpad, Nat.mod_eq_of_lt (by omega)]
      omega
    have hdata : addU64 addr 512 = addr + 512 := Nat.mod_eq_of_lt (by omega)
    have harchive : At mem (addr + header.length + file.content.length + pad.length) archive :=
      hat.right.right.right
    obtain ⟨vnodes, hvnodes, hwalk⟩ := ih harchive (by rw [hheader.length, hpad]; omega)
    refine ⟨⟨file.name, file.content.length, addr + 512⟩ :: vnodes, .cons ⟨rfl, rfl, ?_⟩ hvnodes,
      fun fuel hfuel found => ?_⟩
    · exact TarVnode.yields_of_at rfl hcontent (by show addr + 512 + _ ≤ _; omega)
    · rw [length_cons] at hfuel
      obtain ⟨fuel, rfl⟩ : ∃ f, fuel = f + 1 := ⟨fuel - 1, by omega⟩
      have hvnode : headerVnode header addr = ⟨file.name, file.content.length, addr + 512⟩ :=
        hdata ▸ hheader.vnode addr
      rw [parseLoop_entry (hcells.symm ▸ hheader.head_ne), hcells, nextHeader, hvnode, hnext,
        hwalk fuel (by omega), append_assoc]
      rfl

/-- **Round trip.**  If the archive of a list of files is in memory at `base`, then
`parse_tarball` terminates and returns these files, in this order, with their names and
sizes; reading one of them yields its content. -/
theorem parseTarball_roundTrip {mem : Memory} {files : List TarFile} {archive : List UInt8}
    {base : ℕ} (harchive : Encodes files archive) (hmem : At mem base archive)
    (hfits : base + archive.length ≤ 2 ^ 64) :
    ∃ vnodes, (∀ fuel > files.length, parseTarball mem fuel base = some vnodes) ∧
      List.Forall₂ (Unpacked mem) vnodes files := by
  obtain ⟨vnodes, hvnodes, hwalk⟩ := harchive.parseLoop hmem hfits
  exact ⟨vnodes, fun fuel hfuel => hwalk fuel hfuel [], hvnodes⟩

/-! ### An archiver -/

/-- The header of a file, with all other fields zero. -/
def encodeHeader (file : TarFile) : List UInt8 :=
  file.name ++ (List.replicate (124 - file.name.length) 0 ++
    (sizeField file.content.length ++ List.replicate 377 0))

/-- The archive of a list of files. -/
def encode : List TarFile → List UInt8
  | [] => List.replicate 1024 0
  | file :: files =>
    encodeHeader file ++
      (file.content ++ (List.replicate (padding file.content.length) 0 ++ encode files))

theorem length_sizeField (size : ℕ) : (sizeField size).length = 11 := by
  rw [sizeField, length_map, length_digits]

theorem encodeHeader_isHeader (file : TarFile) : IsHeader file (encodeHeader file) where
  length := by
    have hlt := file.name_lt
    simp only [encodeHeader, length_append, length_replicate, length_sizeField]
    omega
  name := by
    have hlt := file.name_lt
    rw [encodeHeader, show 124 - file.name.length = 123 - file.name.length + 1 by omega]
    exact ⟨_, append_assoc _ _ _⟩
  size := by
    have hlt := file.name_lt
    have hfront : (file.name ++ List.replicate (124 - file.name.length) (0 : UInt8)).length =
        124 := by
      rw [length_append, length_replicate]
      omega
    rw [encodeHeader, ← append_assoc, drop_left' hfront, take_left' (length_sizeField _)]
  terminator := by
    have hlt := file.name_lt
    refine Or.inl ?_
    rw [encodeHeader, List.getElem?_append_right (by omega),
      List.getElem?_append_right (by rw [length_replicate]; omega),
      List.getElem?_append_right (by rw [length_sizeField, length_replicate]; omega),
      List.getElem?_replicate, if_pos]
    rw [length_sizeField, length_replicate]
    omega

theorem encode_encodes (files : List TarFile) : Encodes files (encode files) := by
  induction files with
  | nil => exact .nil 2 (by decide)
  | cons file files ih =>
    exact .cons (encodeHeader_isHeader file) length_replicate ih

/-- A file with three bytes, and an empty one. -/
theorem parseTarball_roundTrip_two :
    ∃ mem vnodes, parseTarball mem 3 0x100000 = some vnodes ∧
      vnodes.map TarVnode.size = [3, 0] := by
  let file : TarFile := ⟨[97], [1, 2, 3], by decide, by decide, by decide, by decide⟩
  let empty : TarFile := ⟨[98], [], by decide, by decide, by decide, by decide⟩
  have hfits : 0x100000 + (encode [file, empty]).length ≤ 2 ^ 64 := by decide +kernel
  obtain ⟨vnodes, hparse, hvnodes⟩ := parseTarball_roundTrip (encode_encodes [file, empty])
    (at_getD 0x100000 (encode [file, empty]) 0) hfits
  refine ⟨_, vnodes, hparse 3 (by decide), ?_⟩
  cases hvnodes with
  | cons hfile hrest =>
    cases hrest with
    | cons hempty hnil =>
      cases hnil
      rw [List.map_cons, List.map_cons, hfile.size, hempty.size]
      rfl

end KernelR.Fs
