import KernelR.Proc.Files

/-!
# Reading a file from its beginning to its end

The offset of an open file is kept in the `OpenFile`, and the processes that have inherited a
descriptor share it. `SYS_READ` moves it by what the vnode says that it has read, so that a
read may be short, and is empty once the offset has come to the end of the file.

A run of the system is recorded together with what the open file has handed out: for each call
that has reached it, the length of the buffer and the bytes that were returned. The invariant
`Tracked` says that the record is a prefix of the file and that the offset is its length. It
does not matter which process makes a call, nor what happens in between: no other call and no
step of the scheduler changes the file (`Tracked.step`).
-/

namespace KernelR.Fs

open List Option Foundations

/-- The data of a file of the ramdisk, in the address space. -/
structure TarVnode.Backed (v : TarVnode) (content : List UInt8) : Prop where
  size : v.size = content.length
  size_lt : v.size < 2 ^ 64
  fits : v.dataPtr + v.size ≤ 2 ^ 64

/-- A file that was opened by `SYS_OPEN`, with the offset that it has come to. -/
def openedAt (v : TarVnode) (offset : ℕ) : OpenFile := { openedFile v with offset }

variable {v : TarVnode} {content : List UInt8} {mem : Memory} {offset : ℕ}

theorem openedAt_read (hv : v.Backed content) (hmem : At mem v.dataPtr content)
    (hoffset : offset ≤ content.length) (keys : List DecodedKey) (buf : List UInt8) :
    (openedAt v offset).read mem keys buf =
      some (some (min buf.length (content.length - offset)),
        (content.drop offset).take buf.length ++ buf.drop (content.length - offset),
        openedAt v (offset + min buf.length (content.length - offset))) := by
  have hread := TarVnode.yields_of_at hv.size hmem (hv.size ▸ hv.fits) offset buf
  have hadd : checkedAdd offset (min buf.length (content.length - offset)) =
      some (offset + min buf.length (content.length - offset)) := by
    have hlt := hv.size ▸ hv.size_lt
    exact checkedAdd_eq_some.mpr ⟨rfl, by omega⟩
  have hvnode {n buf'} (h : v.read mem offset buf = some (n, buf')) :
      Vnode.read mem keys offset buf (.file v) = some (some n, buf') := by
    rw [Vnode.read, h]
  rw [OpenFile.read, if_pos (show (openedAt v offset).readable = true from rfl)]
  show (Vnode.read mem keys offset buf (.file v)).bind _ = _
  rw [hvnode hread]
  show (checkedAdd offset _).bind _ = _
  rw [hadd]
  rfl

theorem openedAt_write (v : TarVnode) (offset : ℕ) (buf : List UInt8) :
    (openedAt v offset).write buf = some (none, openedAt v offset) :=
  rfl

end KernelR.Fs

namespace KernelR.Proc

open List Option Foundations

/-- What one call gets from an open file: the length of its buffer, and the bytes returned. -/
abbrev Delivery := ℕ × List UInt8

/-- The number of bytes that the calls have asked for. -/
def asked (reads : List Delivery) : ℕ := (reads.map (·.1)).sum

/-- The bytes that the calls have got, in the order of the calls. -/
def received (reads : List Delivery) : List UInt8 := reads.flatMap (·.2)

theorem asked_concat (reads : List Delivery) (d : Delivery) :
    asked (reads ++ [d]) = asked reads + d.1 := by
  simp [asked]

theorem received_concat (reads : List Delivery) (d : Delivery) :
    received (reads ++ [d]) = received reads ++ d.2 := by
  simp [received]

/-- The bytes that a call returns to its process. An error number is not the length of a part of
the buffer. -/
def returnedBytes (rax : ℕ) (buf : List UInt8) : List UInt8 :=
  if rax ≤ buf.length then buf.take rax else []

/-- The memory that a call reads the ramdisk from has the file in it. -/
def FileAction.Sees (v : Fs.TarVnode) (content : List UInt8) : FileAction → Prop
  | .call (.sysRead mem _ _ _) => At mem v.dataPtr content
  | _ => True

instance (v : Fs.TarVnode) (content : List UInt8) :
    (a : FileAction) → Decidable (a.Sees v content)
  | .kernel _ => isTrue trivial
  | .call (.sysOpen ..) => isTrue trivial
  | .call (.sysClose _) => isTrue trivial
  | .call (.sysRead mem ..) =>
    inferInstanceAs (Decidable (cells mem v.dataPtr content.length = content))
  | .call (.sysWrite ..) => isTrue trivial

namespace FileKernel

/-- The open file that a descriptor of the current process denotes. -/
def reaches (s : FileKernel) (fd : ℕ) : Option ℕ :=
  s.currentProcess.bind fun pid => s.denotes pid fd

/-- What open file `i` hands out in a step. -/
def delivered (s : FileKernel) (i : ℕ) : FileAction → List Delivery
  | .call (.sysRead mem keys fd buf) =>
    if s.reaches fd = some i then
      match s.sysRead mem keys fd buf with
      | some (rax, buf', _) => [(buf.length, returnedBytes rax buf')]
      | none => []
    else []
  | _ => []

/-- One step, with what open file `i` has handed out so far. -/
def recordedStep (i : ℕ) (st : FileKernel × List Delivery) (a : FileAction) :
    Option (FileKernel × List Delivery) :=
  (st.1.step a).map fun s' => (s', st.2 ++ st.1.delivered i a)

/-- From `s`, a run leads to `s'` in which the file is in memory at every call and open file `i`
hands out `reads`. -/
def ReadRun (i : ℕ) (v : Fs.TarVnode) (content : List UInt8) (s s' : FileKernel)
    (reads : List Delivery) : Prop :=
  Run (fun st => st = (s, [])) (recordedStep i) (fun _ a _ => a.Sees v content) (s', reads)

section Steps

variable {s s' : FileKernel} {fd i rax : ℕ}

theorem reaches_of_denotes {pid : ℕ} (hcur : s.currentProcess = some pid)
    (hfd : s.denotes pid fd = some i) : s.reaches fd = some i := by
  rw [reaches, hcur]
  exact hfd

theorem sysRead_of_reaches (h : s.reaches fd = some i) {mem : Fs.Memory}
    {keys : List Fs.DecodedKey} {buf : List UInt8} {file : Fs.OpenFile}
    (hfile : s.openFiles[i]? = some file) :
    s.sysRead mem keys fd buf = (file.read mem keys buf).map fun (bytesRead, buf', file') =>
      (bytesRead.getD (errno 9), buf', { s with openFiles := s.openFiles.set i file' }) := by
  obtain ⟨pid, hcur, hfd⟩ := bind_eq_some_iff.mp h
  obtain ⟨hlt, htable⟩ := ite_none_right_eq_some.mp hfd
  rw [sysRead, if_neg (Nat.not_le_of_lt hlt), hcur]
  simp only [bind_eq_bind, bind_some, htable, hfile]
  cases file.read mem keys buf with
  | none => rfl
  | some r => rfl

/-- A read that has another descriptor leaves the file alone. -/
theorem sysRead_other {mem : Fs.Memory} {keys : List Fs.DecodedKey} {buf buf' : List UInt8}
    (h : s.sysRead mem keys fd buf = some (rax, buf', s')) (hother : s.reaches fd ≠ some i) :
    s'.openFiles[i]? = s.openFiles[i]? := by
  unfold sysRead at h
  split at h
  · obtain ⟨-, hrest⟩ := Prod.mk.inj (some.inj h)
    exact congrArg (fun t => t.openFiles[i]?) (Prod.mk.inj hrest).2.symm
  · next hlt =>
      obtain ⟨pid, hcur, h⟩ := bind_eq_some_iff.mp h
      split at h
      · obtain ⟨-, hrest⟩ := Prod.mk.inj (some.inj h)
        exact congrArg (fun t => t.openFiles[i]?) (Prod.mk.inj hrest).2.symm
      · next j hj =>
          obtain ⟨file, -, h⟩ := bind_eq_some_iff.mp h
          obtain ⟨⟨bytesRead, buf'', file'⟩, -, h⟩ := bind_eq_some_iff.mp h
          obtain ⟨-, hrest⟩ := Prod.mk.inj (some.inj h)
          obtain rfl := (Prod.mk.inj hrest).2
          have hij : j ≠ i := by
            rintro rfl
            exact hother (reaches_of_denotes hcur
              ((denotes_of_lt s pid (Nat.lt_of_not_le hlt)).trans hj))
          exact List.getElem?_set_ne hij

theorem sysWrite_opened {v : Fs.TarVnode} {offset : ℕ} {buf : List UInt8}
    (h : s.sysWrite fd buf = some (rax, s'))
    (hfile : s.openFiles[i]? = some (Fs.openedAt v offset)) :
    s'.openFiles[i]? = some (Fs.openedAt v offset) := by
  unfold sysWrite at h
  split at h
  · cases h
    exact hfile
  · obtain ⟨pid, -, h⟩ := bind_eq_some_iff.mp h
    split at h
    · cases h
      exact hfile
    · next j hj =>
        obtain ⟨file, hfile', h⟩ := bind_eq_some_iff.mp h
        obtain ⟨⟨bytesWritten, file'⟩, hwrite, h⟩ := bind_eq_some_iff.mp h
        cases h
        by_cases hij : j = i
        · -- the file itself is not writable
          subst hij
          obtain rfl := some.inj (hfile'.symm.trans hfile)
          rw [Fs.openedAt_write] at hwrite
          cases hwrite
          exact List.getElem?_set_self (List.getElem?_eq_some_iff.mp hfile).1
        · exact (List.getElem?_set_ne hij).trans hfile

/-- A file that is open stays where it is when another one is opened. -/
theorem getElem?_append_opened {files : List Fs.OpenFile} {file : Fs.OpenFile}
    (hfile : files[i]? = some file) (more : List Fs.OpenFile) : (files ++ more)[i]? = some file :=
  (List.getElem?_append_left (List.getElem?_eq_some_iff.mp hfile).1).trans hfile

theorem afterCall_opened {file : Fs.OpenFile} (hfile : s.openFiles[i]? = some file) (k' : Kernel)
    (a : Action) : (s.afterCall k' a).openFiles[i]? = some file := by
  cases a with
  | spawnUser => exact getElem?_append_opened hfile _
  | sysSpawn => exact getElem?_append_opened hfile _
  | _ => exact hfile

theorem sysOpen_opened {env : FileEnv} {filenamePtr : ℕ} {file : Fs.OpenFile}
    (h : s.sysOpen env filenamePtr = some (rax, s')) (hfile : s.openFiles[i]? = some file) :
    s'.openFiles[i]? = some file := by
  unfold sysOpen at h
  split at h
  · cases h
    exact hfile
  · obtain ⟨pid, -, h⟩ := bind_eq_some_iff.mp h
    split at h
    · cases h
      exact getElem?_append_opened hfile _
    · cases h
      exact hfile

theorem sysClose_openFiles (h : s.sysClose fd = some (rax, s')) : s'.openFiles = s.openFiles := by
  unfold sysClose at h
  split at h
  · cases h
    rfl
  · obtain ⟨pid, -, h⟩ := bind_eq_some_iff.mp h
    split at h
    · cases h
      rfl
    · cases h
      rfl

end Steps

/-! ### The invariant -/

/-- What open file `i` has handed out is a prefix of the file, and its offset is the length of
that prefix. -/
structure Tracked (i : ℕ) (v : Fs.TarVnode) (content : List UInt8) (s : FileKernel)
    (reads : List Delivery) : Prop where
  file : s.openFiles[i]? = some (Fs.openedAt v (min (asked reads) content.length))
  bytes : received reads = content.take (asked reads)

section Reads

variable {i : ℕ} {v : Fs.TarVnode} {content : List UInt8} {s s' : FileKernel} {a : FileAction}
  {reads : List Delivery}

theorem drop_min_length (content : List UInt8) (n : ℕ) :
    content.drop (min n content.length) = content.drop n := by
  rcases Nat.le_total n content.length with hle | hle
  · rw [Nat.min_eq_left hle]
  · rw [Nat.min_eq_right hle, drop_length, drop_eq_nil_of_le hle]

/-- **What a read returns.**  It takes the next bytes of the file, as many as there is room for,
and moves the offset past them. -/
theorem Tracked.sysRead (h : Tracked i v content s reads) (hv : v.Backed content)
    {mem : Fs.Memory} (hmem : At mem v.dataPtr content) {fd : ℕ} (hfd : s.reaches fd = some i)
    (keys : List Fs.DecodedKey) (buf : List UInt8) :
    s.sysRead mem keys fd buf =
      some (min buf.length (content.length - asked reads),
        (content.drop (asked reads)).take buf.length ++ buf.drop (content.length - asked reads),
        { s with
          openFiles := s.openFiles.set i
            (Fs.openedAt v (min (asked reads + buf.length) content.length)) }) := by
  have hleft : content.length - min (asked reads) content.length =
      content.length - asked reads := by omega
  have hoffset : min (asked reads) content.length + min buf.length (content.length - asked reads) =
      min (asked reads + buf.length) content.length := by omega
  rw [sysRead_of_reaches hfd h.file, Fs.openedAt_read hv hmem (Nat.min_le_right _ _), hleft,
    drop_min_length, hoffset]
  rfl

/-- The bytes that a read puts into the buffer are those in front. -/
theorem take_next (content buf : List UInt8) (n : ℕ) :
    ((content.drop n).take buf.length ++ buf.drop (content.length - n)).take
      (min buf.length (content.length - n)) = (content.drop n).take buf.length := by
  refine take_left' ?_
  rw [length_take, length_drop]

theorem returnedBytes_next (content buf : List UInt8) (n : ℕ) :
    returnedBytes (min buf.length (content.length - n))
      ((content.drop n).take buf.length ++ buf.drop (content.length - n)) =
      (content.drop n).take buf.length := by
  rw [returnedBytes, if_pos, take_next]
  rw [length_append, length_take, length_drop]
  omega

/-- A step that hands out nothing and leaves the file alone. -/
theorem Tracked.keep (h : Tracked i v content s reads) (hnone : s.delivered i a = [])
    (hfile : s'.openFiles[i]? = some (Fs.openedAt v (min (asked reads) content.length))) :
    Tracked i v content s' (reads ++ s.delivered i a) := by
  rw [hnone, append_nil]
  exact ⟨hfile, h.bytes⟩

theorem Tracked.read (h : Tracked i v content s reads) (hv : v.Backed content)
    {mem : Fs.Memory} (hmem : At mem v.dataPtr content) {keys : List Fs.DecodedKey} {fd rax : ℕ}
    {buf buf' : List UInt8} (hread : s.sysRead mem keys fd buf = some (rax, buf', s')) :
    Tracked i v content s' (reads ++ s.delivered i (.call (.sysRead mem keys fd buf))) := by
  by_cases hfd : s.reaches fd = some i
  · have hnext := h.sysRead hv hmem hfd keys buf
    obtain ⟨rfl, hrest⟩ := Prod.mk.inj (some.inj (hread.symm.trans hnext))
    cases hrest
    have hdelivered : s.delivered i (.call (.sysRead mem keys fd buf)) =
        [(buf.length, (content.drop (asked reads)).take buf.length)] := by
      simp only [delivered, if_pos hfd, hnext, returnedBytes_next]
    rw [hdelivered]
    refine ⟨?_, ?_⟩
    · rw [asked_concat]
      exact List.getElem?_set_self (List.getElem?_eq_some_iff.mp h.file).1
    · rw [asked_concat, received_concat, h.bytes, take_add]
  · exact h.keep (if_neg hfd) ((sysRead_other hread hfd).trans h.file)

/-- **One step.**  Whatever the system does, the open file has handed out a prefix of the file. -/
theorem Tracked.step (h : Tracked i v content s reads) (hv : v.Backed content)
    (hsees : a.Sees v content) (hstep : s.step a = some s') :
    Tracked i v content s' (reads ++ s.delivered i a) := by
  cases a with
  | kernel a =>
    obtain ⟨k', -, rfl⟩ := map_eq_some_iff.mp hstep
    exact h.keep rfl (afterCall_opened h.file k' a)
  | call c =>
    obtain ⟨-, -, rax, -, -, hcall⟩ := step_call hstep
    cases c with
    | sysOpen env filenamePtr => exact h.keep rfl (sysOpen_opened hcall h.file)
    | sysClose fd => exact h.keep rfl ((sysClose_openFiles hcall).symm ▸ h.file)
    | sysRead mem keys fd buf =>
      obtain ⟨⟨rax', buf', s₁⟩, hread, hs⟩ := map_eq_some_iff.mp hcall
      cases hs
      exact h.read hv hsees hread
    | sysWrite fd buf => exact h.keep rfl (sysWrite_opened hcall h.file)

/-- **A whole run.** -/
theorem ReadRun.tracked (hrun : ReadRun i v content s s' reads) (hv : v.Backed content)
    (hfile : s.openFiles[i]? = some (Fs.openedFile v)) : Tracked i v content s' reads := by
  refine hrun.invariant (I := fun st => Tracked i v content st.1 st.2) ?_ ?_
  · rintro _ rfl
    exact ⟨by rw [hfile]; rfl, rfl⟩
  · rintro ⟨s₁, reads₁⟩ a _ - h hstep hsees
    obtain ⟨s₂, hnext, rfl⟩ := map_eq_some_iff.mp hstep
    exact h.step hv hsees hnext

theorem openFiles_of_sysOpen {env : FileEnv} {filenamePtr fd : ℕ}
    (hfound : env.lookup filenamePtr = some v) (hopen : s.sysOpen env filenamePtr = some (fd, s'))
    (hfd : fd < maxFds) : s'.openFiles[s.openFiles.length]? = some (Fs.openedFile v) := by
  simp only [sysOpen, hfound, openVnode] at hopen
  obtain ⟨pid, -, hopen⟩ := bind_eq_some_iff.mp hopen
  split at hopen
  · cases hopen
    exact List.getElem?_concat_length
  · cases hopen
    exact absurd hfd (by decide)

end Reads

end FileKernel

/-- **Sequential reading.**  From the moment at which `SYS_OPEN` has opened a file of the ramdisk,
let the system run in any way. The bytes that the calls of `SYS_READ` on this open file have
returned, by whichever processes share it, are in the order of the calls the beginning of the
file: as much of it as they have asked for. The next read of a process that shares the file
returns; it gets nothing in a buffer that is not empty exactly when the offset has reached the
size of the file. -/
theorem sequential_reads {s s₀ s' : FileKernel} {env : FileEnv} {filenamePtr fd : ℕ}
    {v : Fs.TarVnode} {content : List UInt8} {reads : List Delivery}
    (hfound : env.lookup filenamePtr = some v) (hopen : s.sysOpen env filenamePtr = some (fd, s₀))
    (hfd : fd < maxFds) (hv : v.Backed content)
    (hrun : s₀.ReadRun s.openFiles.length v content s' reads) :
    received reads = content.take (min (asked reads) v.size) ∧
      ∃ file, s'.openFiles[s.openFiles.length]? = some file ∧
        file.offset = min (asked reads) v.size ∧
        ∀ mem keys fd' buf, At mem v.dataPtr content →
          s'.reaches fd' = some s.openFiles.length →
          ∃ rax buf' s'', s'.sysRead mem keys fd' buf = some (rax, buf', s'') ∧
            rax ≤ buf.length ∧ buf'.take rax = (content.drop file.offset).take buf.length ∧
            (buf ≠ [] → (rax = 0 ↔ file.offset = v.size)) := by
  have h := hrun.tracked hv (FileKernel.openFiles_of_sysOpen hfound hopen hfd)
  rw [hv.size]
  refine ⟨?_, _, h.file, rfl, ?_⟩
  · rw [h.bytes, List.take_eq_take_iff]
    omega
  · intro mem keys fd' buf hmem hreaches
    refine ⟨_, _, _, h.sysRead hv hmem hreaches keys buf, Nat.min_le_left _ _, ?_, ?_⟩
    · rw [FileKernel.take_next]
      exact congrArg (List.take _) (FileKernel.drop_min_length _ _).symm
    · intro hbuf
      have hpos : 0 < buf.length := List.length_pos_iff.mpr hbuf
      show _ ↔ min (asked reads) content.length = content.length
      omega

/-- A process reads the file `a`, which has 80 bytes, with a buffer of 50 bytes, and its child,
which has inherited the descriptor, reads the rest with a buffer of the same length. -/
def sharedReads : List FileAction :=
  [.call (.sysRead (fun _ => 7) [] 3 (List.replicate 50 0)),
    .kernel (.sysSpawn 0x9000 0x6000 0x300000 16), .kernel (.schedule 0),
    .call (.sysRead (fun _ => 7) [] 3 (List.replicate 50 0))]

theorem sequential_reads_shared : ∃ s s₀ s' : FileKernel, ∃ reads,
    s.sysOpen oneFileEnv 0x400000 = some (3, s₀) ∧
      s₀.ReadRun 1 ⟨[97], 80, 0x700000⟩ (List.replicate 80 7) s' reads ∧
      reads.map (·.1) = [50, 50] ∧ s₀.currentProcess = some 1 ∧ s'.currentProcess = some 2 ∧
      received reads = List.replicate 80 7 := by
  have hruns : ((Kernel.boot 0x1000 0x100000 (fun _ => ⟨0, 0, 0, 0, 0, 0, 0⟩) fun _ => 0).bind
      fun k => exec FileKernel.step (fun _ _ s' => s'.Kept) ⟨k, fun _ _ => none, []⟩
        [.kernel (.spawnUser 0x8000 0x5000 1024 0x200000 8), .kernel (.schedule 0)]).any
      (fun s => (s.sysOpen oneFileEnv 0x400000).any fun opened =>
        decide (opened.1 = 3 ∧ s.openFiles.length = 1 ∧ opened.2.currentProcess = some 1) &&
          (exec (FileKernel.recordedStep 1)
            (fun _ a _ => a.Sees ⟨[97], 80, 0x700000⟩ (List.replicate 80 7)) (opened.2, [])
            sharedReads).any fun st =>
              decide (st.2.map (·.1) = [50, 50] ∧ st.1.currentProcess = some 2)) = true := by
    decide +kernel
  obtain ⟨s, -, hs⟩ := (Option.any_eq_true _ _).mp hruns
  obtain ⟨⟨fd, s₀⟩, hopen, hfd⟩ := (Option.any_eq_true _ _).mp hs
  obtain ⟨hfd, hruns⟩ := Bool.and_eq_true_iff.mp hfd
  obtain ⟨⟨s', reads⟩, hexec, hreads⟩ := (Option.any_eq_true _ _).mp hruns
  obtain ⟨rfl, hfiles, hparent⟩ := of_decide_eq_true hfd
  obtain ⟨hlengths, hchild⟩ := of_decide_eq_true hreads
  have hrun : s₀.ReadRun 1 ⟨[97], 80, 0x700000⟩ (List.replicate 80 7) s' reads :=
    Run.exec (.start rfl) hexec
  have hfound : oneFileEnv.lookup 0x400000 = some ⟨[97], 80, 0x700000⟩ := by decide +kernel
  have hreceived := (sequential_reads hfound hopen (by decide) ⟨rfl, by decide, by decide⟩
    (hfiles.symm ▸ hrun)).1
  have hasked : asked reads = 100 := congrArg List.sum hlengths
  rw [hasked] at hreceived
  exact ⟨s, s₀, s', reads, hopen, hrun, hlengths, hparent, hchild, hreceived⟩

end KernelR.Proc
