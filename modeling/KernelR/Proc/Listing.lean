import KernelR.Fs.TarBounds
import KernelR.Proc.Handler

/-!
# The listing and the names

`SYS_GETDENTS` shows the files of the ramdisk one by one, in records of a fixed size: a name has 63
bytes there, and one that is longer is cut. `SYS_OPEN` and `SYS_SPAWN` take a name from a program,
which is to be valid UTF-8 and not empty, and compare it with the whole name of each file;
`SYS_SPAWN` takes `./` or `/` off its front before.

A name that goes this way from the listing back to a call leads to the file that was listed unless
one of these things changes it (`listing_agrees_iff`).
-/

namespace KernelR.Fs

open List Option Foundations

/-- `DirEntry` -/
structure DirEntry where
  size : ℕ
  entryType : UInt8
  nameLen : UInt8
  name : List UInt8
deriving DecidableEq, Repr

/-- `TarDirectory::readdir` -/
def readdir (files : List TarVnode) (index : ℕ) : Option DirEntry :=
  (files[index]?).map fun file =>
    let len := min file.name.length 63
    { size := file.size
      entryType := 1
      nameLen := UInt8.ofNat len
      name := file.name.take len ++ List.replicate (64 - len) 0 }

/-- The name that a program sees: the first `name_len` bytes of `name`. -/
def DirEntry.shownName (e : DirEntry) : List UInt8 := e.name.take e.nameLen.toNat

/-- The bytes of a `DirEntry` in memory, with six bytes of padding. -/
def DirEntry.bytes (e : DirEntry) : List UInt8 :=
  Proc.Handler.littleEndian 8 e.size ++ [e.entryType, e.nameLen] ++ e.name ++ List.replicate 6 0

variable {files : List TarVnode} {index : ℕ} {file : TarVnode}

theorem dirEntry_eq_bytes {e : DirEntry} (h : readdir files index = some e)
    (hfile : files[index]? = some file) : Proc.Handler.dirEntry file = e.bytes := by
  rw [readdir, hfile] at h
  cases h
  simp only [Proc.Handler.dirEntry, DirEntry.bytes, append_assoc]

theorem readdir_isSome_iff (files : List TarVnode) (index : ℕ) :
    (readdir files index).isSome ↔ index < files.length := by
  simp [readdir]

/-- The entry has the size of the file, and the first 63 bytes of its name. -/
theorem readdir_spec {e : DirEntry} (h : readdir files index = some e) :
    ∃ file, files[index]? = some file ∧ e.size = file.size ∧ e.shownName = file.name.take 63 := by
  obtain ⟨file, hfile, rfl⟩ := map_eq_some_iff.mp h
  refine ⟨file, hfile, rfl, ?_⟩
  have hlen : (UInt8.ofNat (min file.name.length 63)).toNat = min file.name.length 63 :=
    UInt8.toNat_ofNat_of_lt' (show _ < 256 by omega)
  have htake : (file.name.take (min file.name.length 63)).length = min file.name.length 63 := by
    rw [length_take]
    omega
  rw [DirEntry.shownName, hlen, take_left' htake, take_eq_take_iff]
  omega

theorem name_of_lookup {name : List UInt8} (h : lookup files name = some file) : file.name = name :=
  eq_of_beq (List.find?_some (p := fun file : TarVnode => file.name == name) h)

/-- With different names, every file is found under its own. -/
theorem lookup_of_nodup (hnames : (files.map (·.name)).Nodup) (hfile : files[index]? = some file) :
    lookup files file.name = some file := by
  refine lookup_of_first hfile fun j hj w hw heq => ?_
  have hindex := (List.getElem?_eq_some_iff.mp hfile).1
  have hname : (files.map (·.name))[j]? = (files.map (·.name))[index]? := by
    rw [List.getElem?_map, List.getElem?_map, hw, hfile]
    exact congrArg some heq
  have hlt : j < (files.map (·.name)).length := by
    rw [length_map]
    exact hj.trans hindex
  exact absurd ((List.getElem?_inj hlt hnames).mp hname) (Nat.ne_of_lt hj)

theorem zero_notMem_parsed_name {mem : Memory} {fuel base : ℕ}
    (hparse : parseTarball mem fuel base = some files) (hfile : file ∈ files) :
    0 ∉ file.name := by
  rw [parseLoop_eq_headerAddrs hparse, List.nil_append] at hfile
  obtain ⟨addr, -, rfl⟩ := mem_map.mp hfile
  by_cases hnul : 0 ∈ (cells mem addr 512).take 100
  · rw [headerVnode_name_of_mem addr hnul]
    intro hzero
    have hne := all_eq_true.mp all_takeWhile 0 hzero
    exact absurd hne (by decide)
  · rw [headerVnode_name_of_not_mem addr hnul]
    exact not_mem_nil

end KernelR.Fs

namespace KernelR.Proc

open List Option Foundations

/-! ### Names from a program -/

section Names

variable {name : List UInt8} {filenamePtr : ℕ} {files : List Fs.TarVnode}

theorem filenameLen_eq {mem : Fs.Memory} (hmem : At mem filenamePtr (name ++ [0]))
    (hnul : 0 ∉ name) (hlen : name.length < 256) : filenameLen mem filenamePtr = name.length := by
  have hend : mem (filenamePtr + name.length) = 0 := hmem.get List.getElem?_concat_length
  have hfind : (List.range 256).find? (fun i => mem (filenamePtr + i) == 0) = some name.length := by
    rw [List.find?_range_eq_some]
    refine ⟨beq_iff_eq.mpr hend, mem_range.mpr hlen, fun j hj => ?_⟩
    obtain ⟨b, hb⟩ : ∃ b, name[j]? = some b := ⟨_, List.getElem?_eq_getElem hj⟩
    have hbyte : mem (filenamePtr + j) = b := hmem.left.get hb
    have hne : b ≠ 0 := fun heq => hnul (heq ▸ mem_of_getElem? hb)
    rw [hbyte, beq_eq_false_iff_ne.mpr hne]
    rfl
  rw [filenameLen, hfind, getD_some]

/-- Both calls give up on a name that is empty or is not a string. -/
theorem ite_string (utf8 : Bool) (found : Option Fs.TarVnode) :
    (if name.length = 0 then none else if utf8 = true then found else none) =
      if name = [] ∨ utf8 = false then none else found := by
  by_cases hempty : name = []
  · rw [if_pos (length_eq_zero_iff.mpr hempty), if_pos (Or.inl hempty)]
  · rw [if_neg (mt length_eq_zero_iff.mp hempty)]
    cases utf8 with
    | false => rw [if_pos (Or.inr rfl), if_neg Bool.false_ne_true]
    | true => rw [if_pos rfl, if_neg (not_or.mpr ⟨hempty, Bool.noConfusion⟩)]

/-- `SYS_OPEN` finds the file with the name, if the name is a string and not empty. -/
theorem FileEnv.lookup_eq {env : FileEnv} (hroot : env.rootFs = some files)
    (hmem : At env.userMem filenamePtr (name ++ [0])) (hnul : 0 ∉ name)
    (hlen : name.length < 256) : env.lookup filenamePtr =
      if name = [] ∨ env.fromUtf8 name = false then none else Fs.lookup files name := by
  have hcells : cells env.userMem filenamePtr name.length = name := hmem.left.cells_eq rfl
  simp only [FileEnv.lookup, filenameLen_eq hmem hnul hlen, hcells, hroot]
  exact ite_string _ _

/-- `SYS_SPAWN` finds the file with the name that is left of it, under the same condition. -/
theorem SpawnEnv.namedFile_eq {env : SpawnEnv} (hroot : env.rootFs = some files)
    (hlow : 0x1000 ≤ filenamePtr) (hhigh : filenamePtr < 0x80000000)
    (hmem : At env.userMem filenamePtr (name ++ [0])) (hnul : 0 ∉ name)
    (hlen : name.length < 256) : env.namedFile filenamePtr =
      if name = [] ∨ env.fromUtf8 name = false then none
      else Fs.lookup files (cleanName name) := by
  have hcells : cells env.userMem filenamePtr name.length = name := hmem.left.cells_eq rfl
  have hptr : ¬ (filenamePtr ≥ 0x80000000 ∨ filenamePtr < 0x1000) := by omega
  simp only [SpawnEnv.namedFile, SpawnEnv.lookup, if_neg hptr, filenameLen_eq hmem hnul hlen,
    hcells, hroot]
  exact ite_string _ _

end Names

/-! ### From the listing back to the files -/

/-- There is an entry for every file, and the name that it shows leads back to the file, which has
the size in the entry: in the directory, from `SYS_OPEN` and from `SYS_SPAWN`. -/
def ListingAgrees (fromUtf8 : List UInt8 → Bool) (files : List Fs.TarVnode) : Prop :=
  (∀ i, (Fs.readdir files i).isSome ↔ i < files.length) ∧
    ∀ i e, Fs.readdir files i = some e → ∃ file, files[i]? = some file ∧
      Fs.lookup files e.shownName = some file ∧ e.size = file.size ∧
      (∀ (env : FileEnv) (filenamePtr : ℕ), env.rootFs = some files → env.fromUtf8 = fromUtf8 →
        At env.userMem filenamePtr (e.shownName ++ [0]) → env.lookup filenamePtr = some file) ∧
      ∀ (env : SpawnEnv) (filenamePtr : ℕ), env.rootFs = some files → env.fromUtf8 = fromUtf8 →
        0x1000 ≤ filenamePtr → filenamePtr < 0x80000000 →
        At env.userMem filenamePtr (e.shownName ++ [0]) → env.namedFile filenamePtr = some file

/-- The name passes through the listing and through both calls as it is. -/
structure Passes (fromUtf8 : List UInt8 → Bool) (name : List UInt8) : Prop where
  ne_nil : name ≠ []
  short : name.length ≤ 63
  utf8 : fromUtf8 name = true
  clean : cleanName name = name

section Agrees

variable {fromUtf8 : List UInt8 → Bool} {files : List Fs.TarVnode}

theorem listingAgrees_of_passes (hnames : (files.map (·.name)).Nodup)
    (hnul : ∀ file ∈ files, 0 ∉ file.name) (h : ∀ file ∈ files, Passes fromUtf8 file.name) :
    ListingAgrees fromUtf8 files := by
  refine ⟨Fs.readdir_isSome_iff files, fun i e he => ?_⟩
  obtain ⟨file, hfile, hsize, hshown⟩ := Fs.readdir_spec he
  have hmem : file ∈ files := mem_of_getElem? hfile
  obtain ⟨hne, hshort, hutf8, hclean⟩ := h file hmem
  have hlookup := Fs.lookup_of_nodup hnames hfile
  have hlen : file.name.length < 256 := by omega
  rw [take_of_length_le hshort] at hshown
  rw [hshown]
  have hpass : ¬ (file.name = [] ∨ fromUtf8 file.name = false) := by simp [hne, hutf8]
  refine ⟨file, hfile, hlookup, hsize, ?_, ?_⟩
  · rintro env filenamePtr hroot rfl hat
    rw [FileEnv.lookup_eq hroot hat (hnul file hmem) hlen, if_neg hpass]
    exact hlookup
  · rintro env filenamePtr hroot rfl hlow hhigh hat
    rw [SpawnEnv.namedFile_eq hroot hlow hhigh hat (hnul file hmem) hlen, if_neg hpass, hclean]
    exact hlookup

/-- Where every name leads back to its file, all of them pass. -/
theorem passes_of_listingAgrees (hnul : ∀ file ∈ files, 0 ∉ file.name)
    (h : ListingAgrees fromUtf8 files) {file : Fs.TarVnode} (hmem : file ∈ files) :
    Passes fromUtf8 file.name := by
  obtain ⟨i, hi, hget⟩ := getElem_of_mem hmem
  have hfile : files[i]? = some file := hget ▸ List.getElem?_eq_getElem hi
  obtain ⟨e, he⟩ := isSome_iff_exists.mp ((h.1 i).mpr hi)
  obtain ⟨_, hfile', -, hshown⟩ := Fs.readdir_spec he
  obtain rfl := some.inj (hfile.symm.trans hfile')
  obtain ⟨_, hfile', hlookup, -, hopen, hspawn⟩ := h.2 i e he
  obtain rfl := some.inj (hfile.symm.trans hfile')
  -- the directory finds the file under the name that is shown, which is then the whole name
  have hname : file.name = e.shownName := Fs.name_of_lookup hlookup
  have hshort : file.name.length ≤ 63 := by
    rw [hname, hshown]
    exact length_take_le 63 _
  have hlen : file.name.length < 256 := by omega
  have hat := at_getD 0x400000 (file.name ++ [0]) 0
  rw [← hname] at hopen hspawn
  have hopened := hopen ⟨_, some files, fromUtf8⟩ 0x400000 rfl rfl hat
  rw [FileEnv.lookup_eq rfl hat (hnul file hmem) hlen] at hopened
  obtain ⟨hpass, -⟩ := ite_none_left_eq_some.mp hopened
  obtain ⟨hne, hutf8⟩ := not_or.mp hpass
  refine ⟨hne, hshort, Bool.eq_true_of_not_eq_false hutf8, ?_⟩
  -- and `SYS_SPAWN` under the name that is left of it
  have hspawned := hspawn { ramdiskEnv 97 with
    userMem := _, rootFs := some files, fromUtf8 } 0x400000 rfl rfl (by decide) (by decide) hat
  rw [SpawnEnv.namedFile_eq rfl (by decide) (by decide) hat (hnul file hmem) hlen] at hspawned
  obtain ⟨-, hclean⟩ := ite_none_left_eq_some.mp hspawned
  exact (Fs.name_of_lookup hclean).symm

end Agrees

/-- **The listing and the names.**  In an archive whose files have different names, every entry of
the listing leads back to its file exactly if every name has between 1 and 63 bytes, is valid
UTF-8, and does not begin with `/` or `./`. -/
theorem listing_agrees_iff {mem : Fs.Memory} {fuel base : ℕ} {files : List Fs.TarVnode}
    (hparse : Fs.parseTarball mem fuel base = some files) (hnames : (files.map (·.name)).Nodup)
    (fromUtf8 : List UInt8 → Bool) :
    ListingAgrees fromUtf8 files ↔ ∀ file ∈ files, Passes fromUtf8 file.name := by
  have hnul : ∀ file ∈ files, 0 ∉ file.name := fun _ => Fs.zero_notMem_parsed_name hparse
  constructor
  · intro h file hfile
    exact passes_of_listingAgrees hnul h hfile
  · exact listingAgrees_of_passes hnames hnul

/-- An archive with the files `a` and `ab`. -/
theorem listing_agrees_twoFiles :
    ∃ files, Fs.parseTarball (Fs.moduleMemory (Fs.encode [Fs.oneByteFile, Fs.emptyFile])) 3
        (Fs.moduleAddr 0x100000) = some files ∧ files.map (·.name) = [[97], [97, 98]] ∧
      ListingAgrees (fun bytes => bytes.all (· < 128)) files := by
  have hsome : (Fs.parseTarball (Fs.moduleMemory (Fs.encode [Fs.oneByteFile, Fs.emptyFile])) 3
      (Fs.moduleAddr 0x100000)).any (fun files =>
        decide (files.map (·.name) = [[97], [97, 98]])) = true := by
    decide +kernel
  obtain ⟨files, hparse, hnames⟩ := (Option.any_eq_true _ _).mp hsome
  have hnames := of_decide_eq_true hnames
  have hpasses : ∀ name ∈ [[97], [97, 98]], Passes (fun bytes => bytes.all (· < 128)) name := by
    intro name hname
    rcases List.mem_pair.mp hname with rfl | rfl
    · exact ⟨by decide, by decide, by decide, by decide⟩
    · exact ⟨by decide, by decide, by decide, by decide⟩
  refine ⟨files, hparse, hnames, (listing_agrees_iff hparse ?_ _).mpr fun file hfile => ?_⟩
  · rw [hnames]
    decide
  · refine hpasses _ ?_
    rw [← hnames]
    exact List.mem_map_of_mem hfile

/-- Memory with an empty file at 1 MiB, whose name is 64 times the letter `a`. -/
def longNameMemory : Fs.Memory := fun addr => if 0x100000 ≤ addr ∧ addr < 0x100040 then 97 else 0

/-- The listing shows 63 bytes of a name that has 64, and under this name there is no file. -/
theorem long_name_cut :
    Fs.parseTarball longNameMemory 2 0x100000 = some [⟨List.replicate 64 97, 0, 0x100200⟩] ∧
      (Fs.readdir [⟨List.replicate 64 97, 0, 0x100200⟩] 0).map Fs.DirEntry.shownName =
        some (List.replicate 63 97) ∧
      Fs.lookup [⟨List.replicate 64 97, 0, 0x100200⟩] (List.replicate 63 97) = none ∧
      ∀ fromUtf8, ¬ ListingAgrees fromUtf8 [⟨List.replicate 64 97, 0, 0x100200⟩] := by
  have hshown : (Fs.readdir [⟨List.replicate 64 97, 0, 0x100200⟩] 0).map Fs.DirEntry.shownName =
      some (List.replicate 63 97) := by decide +kernel
  have hnone : Fs.lookup [⟨List.replicate 64 97, 0, 0x100200⟩] (List.replicate 63 97) = none := by
    decide +kernel
  refine ⟨by decide +kernel, hshown, hnone, fun fromUtf8 h => ?_⟩
  obtain ⟨e, he, hname⟩ := Option.map_eq_some_iff.mp hshown
  obtain ⟨file, -, hlookup, -⟩ := h.2 0 e he
  rw [hname, hnone] at hlookup
  exact nomatch hlookup

end KernelR.Proc
