import KernelR.Fs.Tar

/-!
# How far the archive is read

The boot loader says where the ramdisk begins and where it ends. `parse_tarball` is given the
beginning only, and takes every step on the authority of the size field that it has just read.

`parseReads` are the addresses of the bytes that the walk looks at, and `headerAddrs` those of
the headers that it takes for files. `WholeEntries` is the shape of a module in which the walk
stays: whole entries, and then a zero byte where the next header would begin. A walk that stays
inside has come along such entries (`wholeEntries_of_reads`), and along them it stays inside
(`WholeEntries.walk`).

The name of a file is read from a field of 100 bytes. It ends at the first zero byte, and the
search for it stands at 0 if there is none.
-/

namespace KernelR.Fs

open List Foundations

/-! ### What the walk looks at -/

/-- `parse_octal`: the number of bytes that the loop looks at. -/
def octalReads : List UInt8 → ℕ → ℕ
  | [], _ => 0
  | b :: bytes, result =>
    if 48 ≤ b ∧ b ≤ 55 then octalReads bytes (result * 8 + (b - 48).toNat) + 1
    else if b = 0 ∨ b = 32 then
      if result > 0 then 1 else octalReads bytes result + 1
    else octalReads bytes result + 1

/-- `parse_tarball`: the bytes of a header that a round looks at, by their offsets. -/
def headerReads (header : List UInt8) : List ℕ :=
  if header.head? = some 0 then [0]
  else
    0 :: (List.range (((header.take 100).findIdx? (· == 0)).elim 100 (· + 1)) ++
      (List.range (octalReads ((header.drop 124).take 12) 0)).map (124 + ·))

/-- `parse_tarball`: the addresses of the bytes of headers that the walk looks at. -/
def parseReads (mem : Memory) : ℕ → ℕ → List ℕ
  | 0, _ => []
  | fuel + 1, currentAddr =>
    let header := cells mem currentAddr 512
    (headerReads header).map (currentAddr + ·) ++
      if header.head? = some 0 then [] else parseReads mem fuel (nextHeader header currentAddr)

/-- `parse_tarball`: the addresses of the headers that are taken for files. -/
def headerAddrs (mem : Memory) : ℕ → ℕ → List ℕ
  | 0, _ => []
  | fuel + 1, currentAddr =>
    let header := cells mem currentAddr 512
    if header.head? = some 0 then []
    else currentAddr :: headerAddrs mem fuel (nextHeader header currentAddr)

/-- The walk from `base` ends, looks at bytes of the module only, and the data of every file that
it returns is in the module. -/
def ParsesWithin (mem : Memory) (base length : ℕ) : Prop :=
  ∃ fuel vnodes, parseTarball mem fuel base = some vnodes ∧
    (∀ addr ∈ parseReads mem fuel base, base ≤ addr ∧ addr < base + length) ∧
    ∀ v ∈ vnodes, ∀ addr, v.dataPtr ≤ addr → addr < v.dataPtr + v.size →
      base ≤ addr ∧ addr < base + length

/-- Whole entries, each of them a header and the blocks that its size field asks for, and then a
zero byte. -/
inductive WholeEntries : List UInt8 → Prop
  | stop (rest : List UInt8) : WholeEntries (0 :: rest)
  | entry {header data rest : List UInt8} : header.length = 512 → header.head? ≠ some 0 →
      data.length = Mm.alignTo (parseOctal ((header.drop 124).take 12) 0) 512 →
      WholeEntries rest → WholeEntries (header ++ (data ++ rest))

/-! ### Sizes and offsets -/

theorem parseOctal_lt (bytes : List UInt8) (result : ℕ) :
    parseOctal bytes result < (result + 1) * 8 ^ bytes.length := by
  induction bytes generalizing result with
  | nil => simp [parseOctal]
  | cons b bytes ih =>
    have hmore : (result + 1) * 8 ^ bytes.length ≤ (result + 1) * 8 ^ (b :: bytes).length :=
      Nat.mul_le_mul_left _ (Nat.pow_le_pow_right (by decide) (Nat.le_succ _))
    rw [parseOctal]
    split_ifs with hdigit hblank hpos
    · have hvalue : (b - 48).toNat < 8 := by
        have hlow := UInt8.le_iff_toNat_le.mp hdigit.1
        have hhigh := UInt8.le_iff_toNat_le.mp hdigit.2
        rw [UInt8.toNat_sub_of_le _ _ hdigit.1]
        have : (48 : UInt8).toNat = 48 := rfl
        have : (55 : UInt8).toNat = 55 := rfl
        omega
      calc parseOctal bytes (result * 8 + (b - 48).toNat)
          < (result * 8 + (b - 48).toNat + 1) * 8 ^ bytes.length := ih _
        _ ≤ ((result + 1) * 8) * 8 ^ bytes.length := Nat.mul_le_mul_right _ (by omega)
        _ = (result + 1) * 8 ^ (b :: bytes).length := by
            rw [Nat.mul_assoc, length_cons, Nat.pow_succ']
    · exact Nat.lt_of_lt_of_le (Nat.lt_succ_self result)
        (Nat.le_mul_of_pos_right _ (Nat.pow_pos (by decide)))
    · exact (ih result).trans_le hmore
    · exact (ih result).trans_le hmore

theorem headerVnode_size_lt (header : List UInt8) (addr : ℕ) :
    (headerVnode header addr).size < 8 ^ 12 := by
  have hlength : ((header.drop 124).take 12).length ≤ 12 := length_take_le 12 _
  calc parseOctal ((header.drop 124).take 12) 0
      < (0 + 1) * 8 ^ ((header.drop 124).take 12).length := parseOctal_lt _ 0
    _ ≤ 8 ^ 12 := by
        rw [Nat.zero_add, Nat.one_mul]
        exact Nat.pow_le_pow_right (by decide) hlength

theorem blocks_spec (header : List UInt8) (addr : ℕ) :
    (headerVnode header addr).size ≤ Mm.alignTo (headerVnode header addr).size 512 ∧
      512 + Mm.alignTo (headerVnode header addr).size 512 < 2 ^ 37 := by
  have hsize := headerVnode_size_lt header addr
  generalize (headerVnode header addr).size = size at hsize
  obtain ⟨-, hle, heq⟩ := Mm.alignTo_spec (k := 9) (show size + 2 ^ 9 - 1 < 2 ^ 64 by omega)
  exact ⟨hle, by rw [show (512 : ℕ) = 2 ^ 9 from rfl, heq]; omega⟩

theorem octalReads_le (bytes : List UInt8) (result : ℕ) :
    octalReads bytes result ≤ bytes.length := by
  induction bytes generalizing result with
  | nil => exact Nat.le_refl 0
  | cons b bytes ih =>
    rw [octalReads, length_cons]
    split_ifs
    · exact Nat.succ_le_succ (ih _)
    · exact Nat.succ_le_succ (Nat.zero_le _)
    · exact Nat.succ_le_succ (ih _)
    · exact Nat.succ_le_succ (ih _)

theorem headerReads_lt {header : List UInt8} {i : ℕ} (h : i ∈ headerReads header) : i < 512 := by
  unfold headerReads at h
  split at h
  · rw [mem_singleton.mp h]
    decide
  · rcases mem_cons.mp h with rfl | h
    · decide
    rcases mem_append.mp h with h | h
    · have hle : ((header.take 100).findIdx? (· == 0)).elim 100 (· + 1) ≤ 100 := by
        cases hidx : (header.take 100).findIdx? (· == 0) with
        | none => exact Nat.le_refl 100
        | some k =>
          have hk := (List.findIdx?_eq_some_iff_findIdx_eq.mp hidx).1
          exact hk.trans_le (length_take_le 100 header)
      have hi := mem_range.mp h
      omega
    · obtain ⟨j, hj, rfl⟩ := mem_map.mp h
      have hle := (octalReads_le ((header.drop 124).take 12) 0).trans (length_take_le 12 _)
      have hj := mem_range.mp hj
      omega

theorem zero_mem_headerReads (header : List UInt8) : 0 ∈ headerReads header := by
  unfold headerReads
  split
  · exact mem_singleton_self 0
  · exact mem_cons_self

/-! ### Rounds -/

section Rounds

variable {mem : Memory} {addr fuel : ℕ}

theorem parseReads_stop (h : (cells mem addr 512).head? = some 0) (fuel : ℕ) :
    parseReads mem (fuel + 1) addr = (headerReads (cells mem addr 512)).map (addr + ·) := by
  rw [parseReads]
  simp only [if_pos h, append_nil]

theorem parseReads_entry (h : (cells mem addr 512).head? ≠ some 0) (fuel : ℕ) :
    parseReads mem (fuel + 1) addr = (headerReads (cells mem addr 512)).map (addr + ·) ++
      parseReads mem fuel (nextHeader (cells mem addr 512) addr) := by
  rw [parseReads]
  simp only [if_neg h]

theorem head?_header (mem : Memory) (addr : ℕ) : (cells mem addr 512).head? = some (mem addr) := by
  rw [cells_succ mem addr 511]
  rfl

theorem addr_mem_parseReads {found vnodes : List TarVnode}
    (h : parseLoop mem fuel found addr = some vnodes) : addr ∈ parseReads mem fuel addr := by
  cases fuel with
  | zero => exact nomatch h
  | succ fuel =>
    rw [parseReads]
    exact mem_append_left _ (mem_map.mpr ⟨0, zero_mem_headerReads _, Nat.add_zero addr⟩)

theorem parseLoop_eq_headerAddrs {found vnodes : List TarVnode}
    (h : parseLoop mem fuel found addr = some vnodes) :
    vnodes = found ++ (headerAddrs mem fuel addr).map fun a => headerVnode (cells mem a 512) a := by
  induction fuel generalizing found addr with
  | zero => exact nomatch h
  | succ fuel ih =>
    by_cases hzero : (cells mem addr 512).head? = some 0
    · rw [parseLoop_stop hzero] at h
      rw [headerAddrs]
      simp only [if_pos hzero, map_nil, append_nil]
      exact (Option.some.inj h).symm
    · rw [parseLoop_entry hzero] at h
      rw [headerAddrs]
      simp only [if_neg hzero, map_cons]
      rw [ih h, append_assoc]
      rfl

end Rounds

/-! ### Staying inside -/

section Inside

variable {mem : Memory} {bytes : List UInt8} {addr fuel : ℕ}

/-- Below the end of the address space, the next header is behind the data. -/
theorem nextHeader_eq (header : List UInt8) (hfits : addr + 2 ^ 37 ≤ 2 ^ 64) :
    nextHeader header addr = addr + (512 + Mm.alignTo (headerVnode header addr).size 512) := by
  have hblocks := (blocks_spec header addr).2
  exact Nat.mod_eq_of_lt (by omega)

/-- **Along whole entries the walk stays inside.** -/
theorem WholeEntries.walk (h : WholeEntries bytes) (hmem : At mem addr bytes)
    (hfits : addr + bytes.length + 2 ^ 37 ≤ 2 ^ 64) :
    ∃ fuel vnodes, (∀ found, parseLoop mem fuel found addr = some (found ++ vnodes)) ∧
      (∀ r ∈ parseReads mem fuel addr, addr ≤ r ∧ r < addr + bytes.length) ∧
      ∀ v ∈ vnodes, addr ≤ v.dataPtr ∧ v.dataPtr + v.size ≤ addr + bytes.length := by
  induction h generalizing addr with
  | stop rest =>
    have hzero : (cells mem addr 512).head? = some 0 :=
      (head?_header mem addr).trans (congrArg some hmem.head)
    refine ⟨1, [], fun found => ?_, ?_, fun v hv => absurd hv not_mem_nil⟩
    · rw [parseLoop_stop hzero, append_nil]
    · intro r hr
      rw [parseReads_stop hzero, headerReads, if_pos hzero] at hr
      have hr : r = addr + 0 := mem_singleton.mp hr
      rw [length_cons]
      omega
  | @entry header data rest hheader hfirst hdata _ ih =>
    have hcells : cells mem addr 512 = header := hmem.left.cells_eq hheader
    have hsize : (headerVnode header addr).size ≤ data.length := hdata ▸ (blocks_spec header addr).1
    have hlength : (header ++ (data ++ rest)).length = 512 + (data.length + rest.length) := by
      rw [length_append, length_append, hheader]
    rw [hlength] at hfits ⊢
    have hnext : nextHeader header addr = addr + header.length + data.length := by
      rw [nextHeader_eq header (by omega), hheader, hdata]
      exact (Nat.add_assoc _ _ _).symm
    have hentry : (cells mem addr 512).head? ≠ some 0 := hcells.symm ▸ hfirst
    obtain ⟨fuel, vnodes, hloop, hreads, hvnodes⟩ := ih hmem.right.right (by rw [hheader]; omega)
    refine ⟨fuel + 1, headerVnode header addr :: vnodes, fun found => ?_, ?_, ?_⟩
    · rw [parseLoop_entry hentry, hcells, hnext, hloop, append_assoc]
      rfl
    · intro r hr
      rw [parseReads_entry hentry, hcells, hnext] at hr
      rcases mem_append.mp hr with hr | hr
      · obtain ⟨i, hi, rfl⟩ := mem_map.mp hr
        have hlt := headerReads_lt hi
        omega
      · have hin := hreads r hr
        rw [hheader] at hin
        omega
    · intro v hv
      rcases mem_cons.mp hv with rfl | hv
      · have hptr : (headerVnode header addr).dataPtr = addr + 512 := Nat.mod_eq_of_lt (by omega)
        rw [hptr]
        omega
      · have hin := hvnodes v hv
        rw [hheader] at hin
        omega

/-- **A walk that stays inside has come along whole entries.** -/
theorem wholeEntries_of_reads {found vnodes : List TarVnode} (hmem : At mem addr bytes)
    (hfits : addr + bytes.length + 2 ^ 37 ≤ 2 ^ 64)
    (hloop : parseLoop mem fuel found addr = some vnodes)
    (hreads : ∀ r ∈ parseReads mem fuel addr, r < addr + bytes.length) : WholeEntries bytes := by
  induction fuel generalizing addr bytes found with
  | zero => exact nomatch hloop
  | succ fuel ih =>
    by_cases hzero : (cells mem addr 512).head? = some 0
    · -- the zero byte that ends the walk is in the module
      have hin := hreads addr (addr_mem_parseReads hloop)
      obtain ⟨b, rest, rfl⟩ := exists_cons_of_length_pos (by omega : 0 < bytes.length)
      have hbyte : mem addr = 0 := Option.some.inj ((head?_header mem addr).symm.trans hzero)
      rw [← hmem.head, hbyte]
      exact .stop rest
    · rw [parseLoop_entry hzero] at hloop
      rw [parseReads_entry hzero] at hreads
      obtain ⟨header, hheader⟩ : ∃ header, cells mem addr 512 = header := ⟨_, rfl⟩
      have hlen : header.length = 512 := hheader ▸ length_cells mem addr 512
      rw [hheader] at hzero hloop hreads
      obtain ⟨blocks, hblocks⟩ :
        ∃ blocks, Mm.alignTo (parseOctal ((header.drop 124).take 12) 0) 512 = blocks := ⟨_, rfl⟩
      have hnext : nextHeader header addr = addr + (512 + blocks) :=
        (nextHeader_eq header (by omega)).trans (by rw [← hblocks]; rfl)
      have hreads' := fun r hr => hreads r (mem_append_right _ hr)
      rw [hnext] at hloop hreads'
      -- the next header begins in the module, so that this entry is whole
      have hin := hreads' _ (addr_mem_parseReads hloop)
      have htake : bytes.take 512 = header := by
        have hcells := hmem.cells_drop (show 0 + 512 ≤ bytes.length by omega)
        rw [drop_zero, Nat.add_zero] at hcells
        exact hcells.symm.trans hheader
      have hsplit : bytes = header ++
          ((bytes.drop 512).take blocks ++ (bytes.drop 512).drop blocks) := by
        rw [take_append_drop, ← htake, take_append_drop]
      have hdata : ((bytes.drop 512).take blocks).length = blocks := by
        rw [length_take, length_drop]
        omega
      have hrest : At mem (addr + (512 + blocks)) ((bytes.drop 512).drop blocks) := by
        have hright := (hsplit ▸ hmem).right.right
        rw [hlen, hdata, Nat.add_assoc] at hright
        exact hright
      have hbound : addr + (512 + blocks) + ((bytes.drop 512).drop blocks).length =
          addr + bytes.length := by
        rw [length_drop, length_drop]
        omega
      have hwhole := ih hrest (hbound.symm ▸ hfits) hloop (hbound.symm ▸ hreads')
      rw [hsplit]
      exact .entry hlen hzero (hdata.trans hblocks.symm) hwhole

end Inside

/-- The address at which the kernel finds a module. -/
def moduleAddr (modStart : ℕ) : ℕ := modStart + Mm.physOffset

/-- **Archives are read inside the module exactly if their entries are whole.**  The bounds of the
module are 32-bit words. -/
theorem parseTarball_within_iff {mem : Memory} {modStart : ℕ} {bytes : List UInt8}
    (hend : modStart + bytes.length < 2 ^ 32) (hmem : At mem (moduleAddr modStart) bytes) :
    ParsesWithin mem (moduleAddr modStart) bytes.length ↔ WholeEntries bytes := by
  have hfits : moduleAddr modStart + bytes.length + 2 ^ 37 ≤ 2 ^ 64 := by
    rw [moduleAddr, Mm.physOffset]
    omega
  constructor
  · rintro ⟨fuel, vnodes, hparse, hreads, -⟩
    exact wholeEntries_of_reads hmem hfits hparse fun r hr => (hreads r hr).2
  · intro hwhole
    obtain ⟨fuel, vnodes, hloop, hreads, hvnodes⟩ := hwhole.walk hmem hfits
    refine ⟨fuel, vnodes, hloop [], hreads, fun v hv addr hlow hhigh => ?_⟩
    have hin := hvnodes v hv
    omega

theorem WholeEntries.length_pos {bytes : List UInt8} (h : WholeEntries bytes) :
    0 < bytes.length := by
  cases h with
  | stop rest => exact Nat.succ_pos _
  | entry hheader _ _ _ =>
    rw [length_append, hheader]
    omega

theorem Encodes.wholeEntries {files : List TarFile} {archive : List UInt8}
    (h : Encodes files archive) : WholeEntries archive := by
  induction h with
  | nil blocks hblocks =>
    obtain ⟨n, hn⟩ : ∃ n, 512 * blocks = n + 1 := ⟨512 * blocks - 1, by omega⟩
    rw [hn, replicate_succ]
    exact .stop _
  | @cons file files header pad archive hheader hpad _ ih =>
    have hsize : parseOctal ((header.drop 124).take 12) 0 = file.content.length :=
      congrArg TarVnode.size (hheader.vnode 0)
    rw [← append_assoc file.content]
    refine .entry hheader.length hheader.head_ne ?_ ih
    rw [hsize, length_append, hpad, padding_spec file.content_lt]

/-- A file of one byte. -/
def oneByteFile : TarFile := ⟨[97], [1], by decide, by decide, by decide, by decide⟩

/-- An empty file with a longer name. -/
def emptyFile : TarFile := ⟨[97, 98], [], by decide, by decide, by decide, by decide⟩

/-- Memory in which a module begins at 1 MiB. -/
def moduleMemory (bytes : List UInt8) : Memory :=
  fun addr => bytes.getD (addr - moduleAddr 0x100000) 0

theorem parseTarball_within_oneByte :
    ParsesWithin (moduleMemory (encode [oneByteFile])) (moduleAddr 0x100000)
      (encode [oneByteFile]).length := by
  have hend : 0x100000 + (encode [oneByteFile]).length < 2 ^ 32 := by decide +kernel
  exact (parseTarball_within_iff hend (at_getD _ _ 0)).mpr (encode_encodes _).wholeEntries

/-- The archive of this file, cut off behind the header: the data of the file and the next header
are looked for behind the end of the module. -/
theorem truncated_archive_leaves_module :
    At (moduleMemory (encodeHeader oneByteFile)) (moduleAddr 0x100000) (encodeHeader oneByteFile) ∧
      ¬ ParsesWithin (moduleMemory (encodeHeader oneByteFile)) (moduleAddr 0x100000)
        (encodeHeader oneByteFile).length := by
  have hmem := at_getD (moduleAddr 0x100000) (encodeHeader oneByteFile) 0
  have hlength : (encodeHeader oneByteFile).length = 512 := (encodeHeader_isHeader _).length
  refine ⟨hmem, ?_⟩
  rintro ⟨fuel, vnodes, hparse, hreads, -⟩
  have hfits : moduleAddr 0x100000 + (encodeHeader oneByteFile).length + 2 ^ 37 ≤ 2 ^ 64 := by
    rw [hlength]
    decide
  have hwhole := wholeEntries_of_reads hmem hfits hparse fun r hr => (hreads r hr).2
  generalize hbytes : encodeHeader oneByteFile = bytes at hwhole hlength
  cases hwhole with
  | stop rest => exact (encodeHeader_isHeader oneByteFile).head_ne (congrArg List.head? hbytes)
  | entry hheader _ _ hrest =>
    have hpos := hrest.length_pos
    rw [List.length_append, List.length_append, hheader] at hlength
    omega

/-! ### Names -/

/-- The name in a header: the name field up to its first zero byte. -/
def nameField (header : List UInt8) : List UInt8 := (header.take 100).takeWhile (· != 0)

/-- `TarDirectory::lookup` -/
def lookup (files : List TarVnode) (name : List UInt8) : Option TarVnode :=
  files.find? fun file => file.name == name

theorem headerVnode_name_of_mem {header : List UInt8} (addr : ℕ) (h : 0 ∈ header.take 100) :
    (headerVnode header addr).name = nameField header := by
  have hidx : (header.take 100).findIdx? (· == 0) = some ((header.take 100).findIdx (· == 0)) :=
    List.findIdx?_eq_some_iff_findIdx_eq.mpr ⟨List.findIdx_lt_length_of_exists ⟨0, h, rfl⟩, rfl⟩
  have hle : (header.take 100).findIdx (· == 0) ≤ 100 :=
    List.findIdx_le_length.trans (length_take_le 100 header)
  have hnot : (fun b : UInt8 => !(b != 0)) = (· == 0) := by
    funext b
    exact Bool.not_not (b == 0)
  show header.take (nullIdx header) = _
  rw [nullIdx, hidx, Option.getD_some, nameField, List.takeWhile_eq_take_findIdx_not, hnot,
    take_take, Nat.min_eq_left hle]

theorem headerVnode_name_of_not_mem {header : List UInt8} (addr : ℕ) (h : 0 ∉ header.take 100) :
    (headerVnode header addr).name = [] := by
  have hidx : (header.take 100).findIdx? (· == 0) = none := by
    rw [List.findIdx?_eq_none_iff]
    intro b hb
    exact beq_eq_false_iff_ne.mpr fun heq => h (heq ▸ hb)
  show header.take (nullIdx header) = []
  rw [nullIdx, hidx]
  rfl

theorem nameField_ne_nil {header : List UInt8} (hlength : header.length = 512)
    (hfirst : header.head? ≠ some 0) : nameField header ≠ [] := by
  obtain ⟨b, rest, rfl⟩ := exists_cons_of_length_pos (by omega : 0 < header.length)
  have hb : (b != 0) = true := bne_iff_ne.mpr fun heq => hfirst (congrArg some heq)
  rw [nameField, take_succ_cons, List.takeWhile_cons_of_pos (p := (· != 0)) hb]
  exact cons_ne_nil _ _

theorem head_ne_of_headerAddrs {mem : Memory} {fuel base addr : ℕ}
    (h : addr ∈ headerAddrs mem fuel base) : (cells mem addr 512).head? ≠ some 0 := by
  induction fuel generalizing base with
  | zero => exact absurd h not_mem_nil
  | succ fuel ih =>
    rw [headerAddrs] at h
    by_cases hzero : (cells mem base 512).head? = some 0
    · simp only [if_pos hzero] at h
      exact absurd h not_mem_nil
    · simp only [if_neg hzero] at h
      rcases mem_cons.mp h with rfl | h
      · exact hzero
      · exact ih h

theorem lookup_of_first {files : List TarVnode} {k : ℕ} {v : TarVnode} (hv : files[k]? = some v)
    (hfirst : ∀ j < k, ∀ w, files[j]? = some w → w.name ≠ v.name) :
    lookup files v.name = some v := by
  obtain ⟨hk, hget⟩ := List.getElem?_eq_some_iff.mp hv
  rw [lookup, List.find?_eq_some_iff_getElem]
  refine ⟨beq_self_eq_true _, k, hk, hget, fun j hj => ?_⟩
  have hne := hfirst j hj _ (List.getElem?_eq_getElem (hj.trans hk))
  rw [beq_eq_false_iff_ne.mpr hne]
  rfl

/-- **Header names.**  The file that `parse_tarball` makes of a header has the name in the name
field, and is found under this name unless an earlier file has it too, exactly if there is a zero
byte in the field. -/
theorem storedName_iff {mem : Memory} {fuel base : ℕ} {vnodes : List TarVnode}
    (hparse : parseTarball mem fuel base = some vnodes) {k addr : ℕ}
    (haddr : (headerAddrs mem fuel base)[k]? = some addr) {header : List UInt8}
    (hheader : cells mem addr 512 = header) :
    (∃ v, vnodes[k]? = some v ∧ v.name = nameField header ∧
      ((∀ j < k, ∀ w, vnodes[j]? = some w → w.name ≠ nameField header) →
        lookup vnodes (nameField header) = some v)) ↔ 0 ∈ header.take 100 := by
  have hv : vnodes[k]? = some (headerVnode header addr) := by
    rw [parseLoop_eq_headerAddrs hparse, List.nil_append, List.getElem?_map, haddr, ← hheader]
    rfl
  constructor
  · rintro ⟨v, hv', hname, -⟩
    by_contra hnul
    obtain rfl := Option.some.inj (hv.symm.trans hv')
    rw [headerVnode_name_of_not_mem addr hnul] at hname
    have hfirst := head_ne_of_headerAddrs (List.mem_of_getElem? haddr)
    rw [hheader] at hfirst
    exact nameField_ne_nil (hheader ▸ length_cells mem addr 512) hfirst hname.symm
  · intro hnul
    have hname := headerVnode_name_of_mem addr hnul
    refine ⟨_, hv, hname, fun hfirst => ?_⟩
    rw [← hname] at hfirst ⊢
    exact lookup_of_first hv hfirst

theorem storedName_oneByte : ∃ vnodes v,
    parseTarball (moduleMemory (encode [oneByteFile])) 2 (moduleAddr 0x100000) = some vnodes ∧
      vnodes[0]? = some v ∧ v.name = [97] ∧ lookup vnodes [97] = some v := by
  have hsome : (parseTarball (moduleMemory (encode [oneByteFile])) 2
      (moduleAddr 0x100000)).isSome = true := by decide +kernel
  obtain ⟨vnodes, hparse⟩ := Option.isSome_iff_exists.mp hsome
  have haddr : (headerAddrs (moduleMemory (encode [oneByteFile])) 2
      (moduleAddr 0x100000))[0]? = some (moduleAddr 0x100000) := by decide +kernel
  obtain ⟨header, hheader⟩ : ∃ header, cells (moduleMemory (encode [oneByteFile]))
      (moduleAddr 0x100000) 512 = header ∧ 0 ∈ header.take 100 ∧ nameField header = [97] :=
    ⟨_, rfl, by decide +kernel, by decide +kernel⟩
  obtain ⟨v, hv, hname, hfound⟩ := (storedName_iff hparse haddr hheader.1).mpr hheader.2.1
  rw [hheader.2.2] at hname hfound
  exact ⟨vnodes, v, hparse, hv, hname, hfound fun j hj => absurd hj (Nat.not_lt_zero j)⟩

/-- Memory with an empty file at 1 MiB, whose name is 100 times the letter `a`. -/
def fullNameMemory : Memory := fun addr => if 0x100000 ≤ addr ∧ addr < 0x100064 then 97 else 0

/-- A name that fills its field is lost: the file is stored without a name and is not found. -/
theorem full_name_lost :
    nameField (cells fullNameMemory 0x100000 512) = List.replicate 100 97 ∧
      headerAddrs fullNameMemory 2 0x100000 = [0x100000] ∧
      parseTarball fullNameMemory 2 0x100000 = some [⟨[], 0, 0x100200⟩] ∧
      lookup [⟨[], 0, 0x100200⟩] (List.replicate 100 97) = none := by
  refine ⟨by decide +kernel, by decide +kernel, by decide +kernel, by decide +kernel⟩

end KernelR.Fs
