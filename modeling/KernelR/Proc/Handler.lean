import Mathlib.Data.Nat.Dist
import KernelR.Foundations.Code
import KernelR.Proc.Brk
import KernelR.Proc.Files

/-!
# `rust_syscall_handler`

The handler as code of a thread: what it does to the kernel's data, which bytes it reads and
writes through the pointers of the user program, when interrupts go on, and which spin locks of
open files it takes. `syscall_entry_stub` enters it with interrupts off.

What earlier modules model as one step on the scheduler or on the tables is used here in one
piece (`Kernel.sysWaitRound`, `FileKernel.openVnode`, `spawnFromVfs`, `sysBrk`); this module adds
the order of things around it. `SCHEDULER` is a `Locked`, whose guard saves the interrupt flag;
an open file is behind a `spin::Mutex`, which does not touch it. The two loops of the source
that may wait, `SYS_WAIT` and the read of the console, are followed for `fuel` rounds.

The kernel is built with debug assertions, so that `from_raw_parts`, `copy_nonoverlapping` and
writes through pointers check what they ask for and panic.
-/

namespace KernelR.Proc

open Foundations Code

/-! ### The data -/

/-- What the handler works on. -/
structure System where
  files : FileKernel
  /-- the page tables and the frames -/
  pages : PageLog
  /-- `KEYBOARD_MAILBOX.queue` -/
  keyboard : List Fs.DecodedKey

/-- `KEYBOARD_MAILBOX.available`, among the semaphores. -/
def keyboardSemaphore : ℕ := 0

/-- The arguments of a system call. -/
structure Registers where
  rax : ℕ
  rdi : ℕ
  rsi : ℕ
  rdx : ℕ
deriving DecidableEq, Repr

/-- The numbers of the system calls. -/
inductive SyscallNo where
  | sysRead
  | sysWrite
  | sysOpen
  | sysClose
  | sysSpawn
  | sysExit
  | sysWait
  | sysGetdents
  | sysBrk
  | unknown
deriving DecidableEq, Repr

/-- The system call with a number. -/
def SyscallNo.decode : ℕ → SyscallNo
  | 0 => sysRead
  | 1 => sysWrite
  | 2 => sysOpen
  | 3 => sysClose
  | 12 => sysBrk
  | 59 => sysSpawn
  | 60 => sysExit
  | 61 => sysWait
  | 78 => sysGetdents
  | _ => unknown

/-- Code of the handler; the locks are those of the open files, by their numbers. -/
abbrev Handler := Code System ℕ

namespace System

/-- The scheduler has changed. -/
def withKernel (s : System) (kernel : Kernel) : System :=
  { s with files := { s.files with kernel } }

/-- An open file has changed. -/
def withFile (s : System) (i : ℕ) (file : Fs.OpenFile) : System :=
  { s with files := { s.files with openFiles := s.files.openFiles.set i file } }

/-- The descriptor in the table of the current process. -/
def fdOf (s : System) (fd : ℕ) : Option (Option ℕ) :=
  s.files.currentProcess.map fun pid => s.files.fdTables pid fd

/-- `Semaphore::acquire` on the keyboard's mailbox, one round; whether there was a permit. -/
def acquireKey (s : System) : Option (Bool × System) := do
  let kernel ← s.files.kernel.acquire keyboardSemaphore
  some (decide ((s.files.kernel.semaphores keyboardSemaphore).count > 0), s.withKernel kernel)

/-- `pop_front` on the queue of the keyboard's mailbox. -/
def popKey (s : System) : Option (Option Fs.DecodedKey × System) :=
  some (s.keyboard.head?, { s with keyboard := s.keyboard.tail })

/-- The pid of the current thread, and its number. -/
def currentPid (s : System) : Option (ℕ × ℕ) := do
  let current ← s.files.kernel.sched.currentTask
  let t ← s.files.kernel.sched.tasks.get current
  some (t.pid, t.serial)

/-- `SYS_SPAWN`: `spawn_from_vfs`, with what becomes of the tables. -/
def spawn (env : SpawnEnv) (filename : List UInt8) (ppid parent : ℕ) (s : System) :
    Option (ℕ × System) := do
  match ← spawnFromVfs env s.files.kernel s.pages.machine filename 1024 ppid parent with
  | (some childPid, kernel, machine) =>
    some (childPid,
      { s with files := s.files.spawned ppid kernel, pages := { s.pages with machine } })
  | (none, _, machine) => some (errno 2, { s with pages := { s.pages with machine } })

/-- `SYS_WAIT`, when a child was harvested: its address space is destroyed. -/
def finishWait (s : System) : Option ((ℕ × ℤ) × System) := do
  let current ← s.files.kernel.sched.currentTask
  let t ← s.files.kernel.sched.tasks.get current
  match t.pending with
  | .harvested target statusPtr childPid child pageTable exitCode =>
    some ((childPid, exitCode), s.withKernel (s.files.kernel.sysWaitFinish current t.serial
      target statusPtr childPid child pageTable exitCode))
  | _ => none

/-- `SYS_BRK` -/
def brk (requestedBreak : ℕ) (s : System) : Option (ℕ × System) := do
  let k := s.files.kernel
  let current ← k.sched.currentTask
  let t ← k.sched.tasks.get current
  let process ← k.sched.process t.pid
  let (rax, u) ← Proc.sysBrk (.ofNat 64 k.cpu.cr3) requestedBreak
    ⟨process, k.cpu.currentBounds, s.pages⟩
  let k := k.modifyProcess t.pid fun _ => u.process
  some (rax,
    { s with
      files := { s.files with kernel := { k with cpu := { k.cpu with currentBounds := u.bounds } } }
      pages := u.pages })

end System

namespace Handler

/-! ### Pointers -/

/-- What `from_raw_parts` asks for: a pointer that is not null, and at most `isize::MAX` bytes. -/
def SliceOk (ptr len : ℕ) : Prop := ptr ≠ 0 ∧ len < 2 ^ 63

instance (ptr len : ℕ) : Decidable (SliceOk ptr len) := inferInstanceAs (Decidable (_ ∧ _))

/-- `core::slice::from_raw_parts` -/
def fromRawParts (ptr len : ℕ) : Handler Unit := if SliceOk ptr len then pure () else fail

/-- `core::ptr::copy_nonoverlapping`, to a pointer of the user program. Its source is memory of
the kernel. -/
def copyNonoverlapping (mem : Fs.Memory) (src dst n : ℕ) : Handler Unit :=
  if n = 0 ∨ n ≤ Nat.dist src dst then storeCells dst (cells mem src n) else fail

/-- A write through a pointer to a type with this alignment. -/
def writeAligned (ptr align : ℕ) (bytes : List UInt8) : Handler Unit :=
  if ptr % align = 0 then storeCells ptr bytes else fail

/-- `SYS_OPEN` and `SYS_SPAWN`: the search for the end of the name, from byte `i` on. -/
def scanName (filenamePtr : ℕ) : ℕ → ℕ → Handler ℕ
  | 0, _ => pure 0
  | rounds + 1, i => do
      let byte ← load (filenamePtr + i) ret
      if byte = 0 then pure i else scanName filenamePtr rounds (i + 1)

/-- `SYS_OPEN` and `SYS_SPAWN`: the name, if it has an end and is not empty. `from_utf8` reads
it a second time. -/
def loadName (filenamePtr : ℕ) : Handler (List UInt8) := do
  let len ← scanName filenamePtr 256 0
  if len = 0 then pure []
  else do
    fromRawParts filenamePtr len
    loadCells filenamePtr len

/-! ### The console -/

/-- The bytes that a key stands for. -/
def keyBytes : Fs.DecodedKey → Option (List UInt8)
  | .unicode character => some (String.utf8EncodeChar character)
  | .rawKey .backspace => some [0x08]
  | .rawKey .ret => some [0x0a]
  | .rawKey .other => none

/-- `Semaphore::acquire`, on the keyboard's mailbox. A weak exchange that fails for no reason is
tried again with interrupts off, and is not modelled. -/
def acquire : ℕ → Handler Unit
  | 0 => fail
  | fuel + 1 => do
      disable (ret ())
      let acquired ← update System.acquireKey
      enable (ret ())
      if acquired then pure ()
      else do
        yield (ret ())
        acquire fuel

/-- `Mailbox::receive`, on the keyboard's mailbox. -/
def receive (fuel : ℕ) : Handler (Option Fs.DecodedKey) := do
  acquire fuel
  locked (update System.popKey)

/-- `ConsoleVnode::read`, the loop. -/
def consoleRead (fuel bufPtr len : ℕ) : ℕ → Handler ℕ
  | 0 => fail
  | rounds + 1 => do
      let keyEvent ← receive fuel
      match keyEvent.bind keyBytes with
      | some bytes => do
          storeCells bufPtr (bytes.take len)
          pure (min bytes.length len)
      | none => consoleRead fuel bufPtr len rounds

/-! ### The calls -/

/-- `SYS_READ` and `SYS_WRITE`: what the descriptor denotes. -/
def lookupFd (fd : ℕ) : Handler (Option ℕ) :=
  locked (update fun s => (s.fdOf fd).map (·, s))

/-- `file_arc.lock()` -/
def lockFile (i : ℕ) : Handler Fs.OpenFile := do
  lock i (ret ())
  update fun s => (s.files.openFiles[i]?).map (·, s)

/-- `file.offset += bytes` -/
def advance (i : ℕ) (file : Fs.OpenFile) (bytes : ℕ) : Handler Unit :=
  update fun s => do
    let offset ← checkedAdd file.offset bytes
    some ((), s.withFile i { file with offset })

/-- `Vnode::read`, into a buffer of the user program. -/
def vnodeRead (env : SpawnEnv) (fuel offset bufPtr len : ℕ) : Fs.Vnode → Handler (Option ℕ)
  | .console =>
    if len = 0 then pure (some 0)
    else do
      let bytesRead ← consoleRead fuel bufPtr len fuel
      pure (some bytesRead)
  | .file v =>
    if offset ≥ v.size then pure (some 0)
    else do
      let bytesToRead := min len (v.size - offset)
      copyNonoverlapping env.kernelMem (Fs.addU64 v.dataPtr offset) bufPtr bytesToRead
      pure (some bytesToRead)

/-- `Vnode::write`, from a buffer of the user program. -/
def vnodeWrite (bufPtr len : ℕ) : Fs.Vnode → Handler (Option ℕ)
  | .console => do
      let _ ← loadCells bufPtr len
      pure (some len)
  | .file _ => pure none

/-- `SYS_READ` and `SYS_WRITE`, which differ in the right that they ask for and in what they do
with the vnode. -/
def transfer (allowed : Fs.OpenFile → Bool) (access : Fs.OpenFile → Handler (Option ℕ))
    (fd bufPtr len : ℕ) : Handler ℕ :=
  if fd ≥ maxFds then pure (errno 9)
  else do
    match ← lookupFd fd with
    | none => pure (errno 9)
    | some i => do
        let file ← lockFile i
        let rax ←
          if allowed file then do
            fromRawParts bufPtr len
            match ← access file with
            | some bytes => do
                advance i file bytes
                pure bytes
            | none => pure (errno 9)
          else pure (errno 9)
        unlock i (ret rax)

/-- `SYS_READ` -/
def sysRead (env : SpawnEnv) (fuel fd bufPtr len : ℕ) : Handler ℕ :=
  transfer (·.readable) (fun file => vnodeRead env fuel file.offset bufPtr len file.vnode)
    fd bufPtr len

/-- `SYS_WRITE` -/
def sysWrite (fd bufPtr len : ℕ) : Handler ℕ :=
  transfer (·.writable) (fun file => vnodeWrite bufPtr len file.vnode) fd bufPtr len

/-- `SYS_OPEN` -/
def sysOpen (env : SpawnEnv) (filenamePtr : ℕ) : Handler ℕ := do
  let filename ← loadName filenamePtr
  if filename = [] ∨ env.fromUtf8 filename = false then pure (errno 2)
  else
    match env.rootFs.bind fun rootDir => rootDir.find? fun file => file.name == filename with
    | none => pure (errno 2)
    | some vnode =>
      locked (update fun s => (s.files.openVnode vnode).map fun (rax, files) =>
        (rax, { s with files }))

/-- `SYS_CLOSE` -/
def sysClose (fd : ℕ) : Handler ℕ :=
  if fd ≥ maxFds then pure (errno 9)
  else
    locked (update fun s => (s.files.sysClose fd).map fun (rax, files) => (rax, { s with files }))

/-- `SYS_SPAWN` -/
def sysSpawn (env : SpawnEnv) (filenamePtr : ℕ) : Handler ℕ :=
  if filenamePtr ≥ 0x80000000 ∨ filenamePtr < 0x1000 then pure (errno 14)
  else do
    let filename ← loadName filenamePtr
    if filename = [] ∨ env.fromUtf8 filename = false then pure (errno 2)
    else do
      let (pid, serial) ← locked (update fun s => s.currentPid.map (·, s))
      update (System.spawn env filename pid serial)

/-- `SYS_EXIT`; the thread halts after that. -/
def sysExit (arg : ℕ) : Handler ℕ := do
  locked (update fun s => (s.files.kernel.sysExit arg).map fun k => ((), s.withKernel k))
  yield fail

/-- The bytes of a word, the least significant one first. -/
def littleEndian (width x : ℕ) : List UInt8 :=
  (List.range width).map fun i => UInt8.ofNat (x / 256 ^ i)

/-- `SYS_WAIT`, the loop. -/
def sysWait (target statusPtr : ℕ) : ℕ → Handler ℕ
  | 0 => fail
  | fuel + 1 => do
      let result ← locked (update fun s =>
        (s.files.kernel.sysWaitRound target statusPtr).map fun (k, r) => (r, s.withKernel k))
      match result with
      | .returned rax => pure rax
      | .harvested => do
          let (childPid, exitCode) ← update System.finishWait
          if statusPtr ≠ 0 ∧ statusPtr < 0x80000000 then
            writeAligned statusPtr 4 (littleEndian 4 (exitCode % 2 ^ 32).toNat)
          pure childPid
      | .blocked => do
          enable (ret ())
          yield (ret ())
          sysWait target statusPtr fuel

/-- `TarDirectory::readdir`: the `DirEntry`, with six bytes of padding. -/
def dirEntry (file : Fs.TarVnode) : List UInt8 :=
  let len := min file.name.length 63
  littleEndian 8 file.size ++ [1, UInt8.ofNat len] ++ file.name.take len ++
    List.replicate (64 - len) 0 ++ List.replicate 6 0

/-- `SYS_GETDENTS` -/
def sysGetdents (env : SpawnEnv) (index bufPtr : ℕ) : Handler ℕ :=
  if bufPtr ≥ 0x80000000 ∨ bufPtr < 0x1000 then pure (errno 14)
  else
    match env.rootFs with
    | none => pure (errno 2)
    | some rootDir =>
      match rootDir[index]? with
      | none => pure 0
      | some file => do
          writeAligned bufPtr 8 (dirEntry file)
          pure 1

end Handler

/-- `rust_syscall_handler`; the result is the new `rax`. Output on the serial port is left out.
What the calls do to the data is said elsewhere (`Kernel.sysExit`, `FileKernel`, `sysSpawn`, …);
here it stands between locks, sleeps and accesses through the pointers of the program. -/
def rustSyscallHandler (env : SpawnEnv) (fuel : ℕ) (regs : Registers) : Handler ℕ :=
  match SyscallNo.decode regs.rax with
  | .sysRead => Handler.sysRead env fuel regs.rdi regs.rsi regs.rdx
  | .sysWrite => Handler.sysWrite regs.rdi regs.rsi regs.rdx
  | .sysOpen => Handler.sysOpen env regs.rdi
  | .sysClose => Handler.sysClose regs.rdi
  | .sysSpawn => Handler.sysSpawn env regs.rdi
  | .sysExit => Handler.sysExit regs.rdi
  | .sysWait => Handler.sysWait regs.rdi regs.rsi fuel
  | .sysGetdents => Handler.sysGetdents env regs.rdi regs.rsi
  | .sysBrk => locked (update (System.brk regs.rdi))
  | .unknown => pure (errno 38)

end KernelR.Proc
