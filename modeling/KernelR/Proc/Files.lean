import Mathlib.Order.Bounds.Basic
import KernelR.Fs.Vfs
import KernelR.Proc.SysSpawn
import KernelR.Proc.Teardown

/-!
# File descriptors

The record of a process has a table of 1024 descriptors; a descriptor denotes an `OpenFile`, or
nothing. Open files are shared, since `spawn_user_process` copies the table of the parent, but
the tables are not. Here the open files are numbered in the order in which they were made, and a
table is a function from descriptors to these numbers.

Every call of a process works on the record that it finds in the slot of its pid. If no record
of a process that has not exited is ever removed, that is its own record
(`Ledger.running_record`), and `FileKernel.step_fdTables` follows: a step changes a table only
if it is a call of the table's own process. `file_descriptors` puts this together with what the
calls do to their own table.
-/

namespace KernelR.Proc

open Function Option Foundations

/-! ### The model -/

/-- `MAX_FDS` -/
def maxFds : ℕ := 1024

/-- `fd_table`: the number of the open file that each descriptor denotes. -/
abbrev FdTable := ℕ → Option ℕ

/-- What `SYS_OPEN` reads apart from the process table. -/
structure FileEnv where
  userMem : Fs.Memory
  /-- the files of `ROOT_FS` -/
  rootFs : Option (List Fs.TarVnode)
  fromUtf8 : List UInt8 → Bool

/-- `SYS_OPEN`: the file with this name, if there is one. -/
def FileEnv.lookup (env : FileEnv) (filenamePtr : ℕ) : Option Fs.TarVnode :=
  let len := filenameLen env.userMem filenamePtr
  if len = 0 then none
  else
    let filename := cells env.userMem filenamePtr len
    if env.fromUtf8 filename then do
      let rootDir ← env.rootFs
      rootDir.find? fun file => file.name == filename
    else none

/-- `SYS_OPEN`: the first descriptor from 3 on that is free. -/
def FdTable.assignedFd (fdTable : FdTable) : Option ℕ :=
  (List.range' 3 (maxFds - 3)).find? fun i => (fdTable i).isNone

/-- The pid of the current thread. -/
def Kernel.currentPid (k : Kernel) : Option ℕ := do
  let current ← k.sched.currentTask
  let t ← k.sched.tasks.get current
  some t.pid

/-- The kernel with the tables of its processes, by their slots, and the open files. -/
structure FileKernel where
  kernel : Kernel
  fdTables : ℕ → FdTable
  openFiles : List Fs.OpenFile

/-- System calls about files. The memory that they read, the buffer and the keys that the
console gets are left open. -/
inductive FileCall where
  | sysOpen (env : FileEnv) (filenamePtr : ℕ)
  | sysClose (fd : ℕ)
  | sysRead (mem : Fs.Memory) (keys : List Fs.DecodedKey) (fd : ℕ) (buf : List UInt8)
  | sysWrite (fd : ℕ) (buf : List UInt8)

/-- The steps of the system. -/
inductive FileAction where
  | kernel (a : Action)
  | call (c : FileCall)

namespace FileKernel

/-- The pid of the current process; its record has to be there. -/
def currentProcess (s : FileKernel) : Option ℕ := do
  let pid ← s.kernel.currentPid
  let _ ← s.kernel.sched.process pid
  some pid

/-- Let a descriptor denote another file, or none. -/
def setFd (s : FileKernel) (pid fd : ℕ) (file : Option ℕ) : FileKernel :=
  { s with
    fdTables := Function.update s.fdTables pid (Function.update (s.fdTables pid) fd file) }

/-- `SYS_OPEN`, when the file was found. -/
def openVnode (s : FileKernel) (vnode : Fs.TarVnode) : Option (ℕ × FileKernel) := do
  let pid ← s.currentProcess
  match (s.fdTables pid).assignedFd with
  | some fd =>
    some (fd, { s.setFd pid fd (some s.openFiles.length) with
      openFiles := s.openFiles ++ [Fs.openedFile vnode] })
  | none => some (errno 24, s)

/-- `SYS_OPEN`: `rax` and the state afterwards. -/
def sysOpen (s : FileKernel) (env : FileEnv) (filenamePtr : ℕ) : Option (ℕ × FileKernel) :=
  match env.lookup filenamePtr with
  | none => some (errno 2, s)
  | some vnode => s.openVnode vnode

/-- `SYS_CLOSE` -/
def sysClose (s : FileKernel) (fd : ℕ) : Option (ℕ × FileKernel) :=
  if fd ≥ maxFds then some (errno 9, s)
  else do
    let pid ← s.currentProcess
    if (s.fdTables pid fd).isSome then some (0, s.setFd pid fd none) else some (errno 9, s)

/-- `SYS_READ`: `rax`, the buffer and the state afterwards. -/
def sysRead (s : FileKernel) (mem : Fs.Memory) (keys : List Fs.DecodedKey) (fd : ℕ)
    (buf : List UInt8) : Option (ℕ × List UInt8 × FileKernel) :=
  if fd ≥ maxFds then some (errno 9, buf, s)
  else do
    let pid ← s.currentProcess
    match s.fdTables pid fd with
    | none => some (errno 9, buf, s)
    | some i => do
        let file ← s.openFiles[i]?
        let (bytesRead, buf, file) ← file.read mem keys buf
        some (bytesRead.getD (errno 9), buf, { s with openFiles := s.openFiles.set i file })

/-- `SYS_WRITE` -/
def sysWrite (s : FileKernel) (fd : ℕ) (buf : List UInt8) : Option (ℕ × FileKernel) :=
  if fd ≥ maxFds then some (errno 9, s)
  else do
    let pid ← s.currentProcess
    match s.fdTables pid fd with
    | none => some (errno 9, s)
    | some i => do
        let file ← s.openFiles[i]?
        let (bytesWritten, file) ← file.write buf
        some (bytesWritten.getD (errno 9), { s with openFiles := s.openFiles.set i file })

/-- A system call about files: `rax` and the state afterwards. -/
def syscall (s : FileKernel) : FileCall → Option (ℕ × FileKernel)
  | .sysOpen env filenamePtr => s.sysOpen env filenamePtr
  | .sysClose fd => s.sysClose fd
  | .sysRead mem keys fd buf => (s.sysRead mem keys fd buf).map fun (rax, _, s) => (rax, s)
  | .sysWrite fd buf => s.sysWrite fd buf

/-- `spawn_user_process`: the table of the parent, or a new console three times. -/
def inherited (s : FileKernel) (ppid : ℕ) : FdTable :=
  if ppid > 0 ∧ (s.kernel.sched.process ppid).isSome then s.fdTables ppid
  else fun fd => if fd < 3 then some s.openFiles.length else none

/-- `spawn_user_process`, when the scheduler has got the process. -/
def spawned (s : FileKernel) (ppid : ℕ) (k' : Kernel) : FileKernel where
  kernel := k'
  fdTables := Function.update s.fdTables s.kernel.freePid (s.inherited ppid)
  openFiles := s.openFiles ++ [Fs.consoleFile]

/-- What a step of the scheduler does to the tables. -/
def afterCall (s : FileKernel) (k' : Kernel) : Action → FileKernel
  | .spawnUser .. => s.spawned 0 k'
  | .sysSpawn .. => s.spawned (s.kernel.currentPid.getD 0) k'
  | _ => { s with kernel := k' }

/-- One step. -/
def step (s : FileKernel) : FileAction → Option FileKernel
  | .kernel a => (s.kernel.step a).map fun k' => s.afterCall k' a
  | .call c =>
    s.kernel.running.bind fun (_, t) =>
      if Kernel.Starts true t then (s.syscall c).map (·.2) else none

/-- The kernel has just booted; process 0 has no files. -/
def Boots (kernelCr3 : ℕ) (s : FileKernel) : Prop :=
  Kernel.Boots kernelCr3 s.kernel ∧ s.fdTables = (fun _ _ => none) ∧ s.openFiles = []

/-- No record of a process that has not exited was removed. -/
def Kept (s : FileKernel) : Prop := OnlyExited s.kernel.history

instance (s : FileKernel) : Decidable s.Kept :=
  inferInstanceAs (Decidable (OnlyExited _))

/-- The states of the runs in which no record of a process that has not exited is removed. -/
def Reachable (kernelCr3 : ℕ) : FileKernel → Prop :=
  Run (Boots kernelCr3) step fun _ _ s' => s'.Kept

/-- The open file that a descriptor of the process in this slot denotes. -/
def denotes (s : FileKernel) (q fd : ℕ) : Option ℕ :=
  if fd < maxFds then s.fdTables q fd else none

/-- The descriptors that `SYS_OPEN` may return to the process in this slot. -/
def freeFds (s : FileKernel) (q : ℕ) : Set ℕ :=
  {fd | 3 ≤ fd ∧ fd < maxFds ∧ s.denotes q fd = none}

/-- The process with this number is in this slot. -/
def Holds (s : FileKernel) (q n : ℕ) : Prop :=
  ∃ p, s.kernel.sched.process q = some p ∧ p.serial = n

/-- The process with this number is executing. -/
def Runs (s : FileKernel) (n : ℕ) : Prop :=
  ∃ c t, s.kernel.running = some (c, t) ∧ t.serial = n

/-- The process closes the descriptor in this step. -/
def Closes (s : FileKernel) (n fd : ℕ) (a : FileAction) : Prop :=
  a = .call (.sysClose fd) ∧ s.Runs n

/-- The process opens a file in this step and gets the descriptor. -/
def Opens (s : FileKernel) (n fd : ℕ) (a : FileAction) : Prop :=
  ∃ env filenamePtr s', a = .call (.sysOpen env filenamePtr) ∧ s.Runs n ∧
    s.sysOpen env filenamePtr = some (fd, s')

/-! ### What the calls do -/

section Calls

variable {s s' : FileKernel} {q fd rax : ℕ}

theorem denotes_of_lt (s : FileKernel) (q : ℕ) (h : fd < maxFds) :
    s.denotes q fd = s.fdTables q fd :=
  if_pos h

theorem denotes_congr (h : s'.fdTables q fd = s.fdTables q fd) :
    s'.denotes q fd = s.denotes q fd := by
  rw [denotes, denotes, h]

theorem setFd_self (s : FileKernel) (q fd : ℕ) (file : Option ℕ) :
    (s.setFd q fd file).fdTables q fd = file := by
  simp only [setFd, update_self]

theorem setFd_other (s : FileKernel) (file : Option ℕ) {q' fd' : ℕ} (h : q' ≠ q ∨ fd' ≠ fd) :
    (s.setFd q fd file).fdTables q' fd' = s.fdTables q' fd' := by
  by_cases hq : q' = q
  · subst hq
    simp only [setFd, update_self]
    exact update_of_ne (h.resolve_left (not_not_intro rfl)) _ _
  · simp only [setFd, update_of_ne hq]

/-- The search of `SYS_OPEN` ends at the least descriptor that is free. -/
theorem assignedFd_eq_some : (s.fdTables q).assignedFd = some fd ↔ IsLeast (s.freeFds q) fd := by
  rw [FdTable.assignedFd, List.find?_range'_eq_some, List.mem_range'_1]
  constructor
  · rintro ⟨hfree, ⟨hlow, hhigh⟩, hbelow⟩
    have hlt : fd < maxFds := by simpa [maxFds] using hhigh
    refine ⟨⟨hlow, hlt, by simpa [denotes_of_lt s q hlt] using hfree⟩, ?_⟩
    rintro fd' ⟨hlow', hlt', hfree'⟩
    by_contra hless
    have htaken := hbelow fd' hlow' (Nat.lt_of_not_le hless)
    rw [← denotes_of_lt s q hlt', hfree'] at htaken
    exact nomatch htaken
  · rintro ⟨⟨hlow, hlt, hfree⟩, hleast⟩
    rw [denotes_of_lt s q hlt] at hfree
    refine ⟨by rw [hfree]; rfl, ⟨hlow, by simpa [maxFds] using hlt⟩, ?_⟩
    intro fd' hlow' hless
    have hlt' := hless.trans hlt
    by_contra hfree'
    have hmem : fd' ∈ s.freeFds q := ⟨hlow', hlt', by simpa [denotes_of_lt s q hlt'] using hfree'⟩
    exact absurd (hleast hmem) (Nat.not_le_of_lt hless)

theorem assignedFd_eq_none : (s.fdTables q).assignedFd = none ↔ s.freeFds q = ∅ := by
  rw [FdTable.assignedFd, List.find?_range'_eq_none, Set.eq_empty_iff_forall_notMem]
  refine forall_congr' fun fd => ?_
  constructor
  · rintro htaken ⟨hlow, hlt, hfree⟩
    rw [denotes_of_lt s q hlt] at hfree
    exact nomatch hfree ▸ htaken hlow (by simpa [maxFds] using hlt)
  · intro hnot hlow hhigh
    have hlt : fd < maxFds := by simpa [maxFds] using hhigh
    by_contra hfree
    exact hnot ⟨hlow, hlt, by simpa [denotes_of_lt s q hlt] using hfree⟩

/-- A call has left the tables alone, closed a descriptor or opened one. -/
inductive Effect (s : FileKernel) : FileCall → ℕ → FileKernel → Prop
  | files {c : FileCall} (rax : ℕ) (openFiles : List Fs.OpenFile) :
      Effect s c rax { s with openFiles }
  | closed {pid fd : ℕ} : s.currentProcess = some pid → fd < maxFds →
      s.fdTables pid fd ≠ none → Effect s (.sysClose fd) 0 (s.setFd pid fd none)
  | opened {env : FileEnv} {filenamePtr pid fd : ℕ} (vnode : Fs.TarVnode) :
      s.currentProcess = some pid → (s.fdTables pid).assignedFd = some fd →
      Effect s (.sysOpen env filenamePtr) fd
        { s.setFd pid fd (some s.openFiles.length) with
          openFiles := s.openFiles ++ [Fs.openedFile vnode] }

/-- **What a call does.** -/
theorem effect_of_syscall {c : FileCall} (h : s.syscall c = some (rax, s')) :
    Effect s c rax s' := by
  cases c with
  | sysOpen env filenamePtr =>
    simp only [syscall, sysOpen] at h
    split at h
    · cases h
      exact .files _ s.openFiles
    · obtain ⟨pid, hpid, h⟩ := bind_eq_some_iff.mp h
      split at h
      · next fd hfd =>
          cases h
          exact .opened _ hpid hfd
      · cases h
        exact .files _ s.openFiles
  | sysClose fd =>
    simp only [syscall, sysClose] at h
    split at h
    · cases h
      exact .files _ s.openFiles
    · next hfd =>
        obtain ⟨pid, hpid, h⟩ := bind_eq_some_iff.mp h
        split at h
        · next hsome =>
            cases h
            exact .closed hpid (Nat.lt_of_not_le hfd) (Option.isSome_iff_ne_none.mp hsome)
        · cases h
          exact .files _ s.openFiles
  | sysRead mem keys fd buf =>
    obtain ⟨⟨rax', buf', s₁⟩, hread, hs⟩ := map_eq_some_iff.mp h
    cases hs
    unfold sysRead at hread
    split at hread
    · cases hread
      exact .files _ s.openFiles
    · obtain ⟨pid, -, hread⟩ := bind_eq_some_iff.mp hread
      split at hread
      · obtain ⟨rfl, hrest⟩ := Prod.mk.inj (some.inj hread)
        cases hrest
        exact .files _ s.openFiles
      · obtain ⟨file, -, hread⟩ := bind_eq_some_iff.mp hread
        obtain ⟨⟨bytesRead, buf'', file'⟩, -, hread⟩ := bind_eq_some_iff.mp hread
        obtain ⟨rfl, hrest⟩ := Prod.mk.inj (some.inj hread)
        cases hrest
        exact .files _ _
  | sysWrite fd buf =>
    simp only [syscall, sysWrite] at h
    split at h
    · cases h
      exact .files _ s.openFiles
    · obtain ⟨pid, -, h⟩ := bind_eq_some_iff.mp h
      split at h
      · cases h
        exact .files _ s.openFiles
      · obtain ⟨file, -, h⟩ := bind_eq_some_iff.mp h
        obtain ⟨⟨bytesWritten, file'⟩, -, h⟩ := bind_eq_some_iff.mp h
        cases h
        exact .files _ _

end Calls

/-! ### Tables and their processes -/

section Tables

variable {s s' : FileKernel} {kernelCr3 q n fd : ℕ} {a : FileAction}

@[simp]
theorem kernel_afterCall (s : FileKernel) (k' : Kernel) (a : Action) :
    (s.afterCall k' a).kernel = k' := by
  cases a with
  | _ => rfl

/-- Calls about files are none of the scheduler's business. -/
theorem Effect.kernel {c : FileCall} {rax : ℕ} (h : Effect s c rax s') : s'.kernel = s.kernel := by
  cases h with
  | _ => rfl

theorem step_call {c : FileCall} (h : s.step (.call c) = some s') :
    ∃ i t rax, s.kernel.running = some (i, t) ∧ Kernel.Starts true t ∧
      s.syscall c = some (rax, s') := by
  obtain ⟨⟨i, t⟩, hrun, h⟩ := bind_eq_some_iff.mp h
  obtain ⟨hstarts, h⟩ := ite_none_right_eq_some.mp h
  obtain ⟨⟨rax, s₁⟩, hcall, rfl⟩ := map_eq_some_iff.mp h
  exact ⟨i, t, rax, hrun, hstarts, hcall⟩

theorem Reachable.kept (h : Reachable kernelCr3 s) : s.Kept := by
  cases h with
  | start hboot =>
    have hview := (Kernel.boot_spec hboot.1).2
    intro n hn
    have hgone : s.kernel.view.history.gone = [] := by rw [hview]; rfl
    exact absurd (hgone ▸ hn) List.not_mem_nil
  | next _ _ hkept => exact hkept

theorem Reachable.kernel (h : Reachable kernelCr3 s) :
    Kernel.Reachable kernelCr3 (fun _ _ _ => True) s.kernel := by
  refine h.invariant (I := fun s => Kernel.Reachable kernelCr3 (fun _ _ _ => True) s.kernel) ?_ ?_
  · intro s hboot
    exact .start hboot.1
  · intro s a s' _ hreach hstep _
    cases a with
    | kernel a =>
      obtain ⟨k', hk, rfl⟩ := map_eq_some_iff.mp hstep
      rw [kernel_afterCall]
      exact .next hreach hk trivial
    | call c =>
      obtain ⟨i, t, rax, -, -, hcall⟩ := step_call hstep
      rw [(effect_of_syscall hcall).kernel]
      exact hreach

theorem Reachable.currentProcess (h : Reachable kernelCr3 s) {i : ℕ} {t : Thread}
    (hrun : s.kernel.running = some (i, t)) (hstarts : Kernel.Starts true t) :
    s.currentProcess = some t.pid ∧ s.Holds t.pid t.serial := by
  obtain ⟨p, hp, hserial⟩ := h.kernel.inv.2.running_record h.kept (Kernel.running_view hrun)
    hstarts.2
  have hprocess : s.kernel.sched.process t.pid = some p := hp
  obtain ⟨hcur, hget, -, -⟩ := Kernel.running_inv hrun
  refine ⟨?_, p, hprocess, hserial⟩
  simp only [FileKernel.currentProcess, Kernel.currentPid, hcur, hget, hprocess,
    bind_eq_bind, bind_some]

/-- **Whose tables a step changes**: that of the process that makes a call. -/
theorem step_fdTables (h : Reachable kernelCr3 s) (hstep : s.step a = some s')
    (hholds : s.Holds q n) :
    s'.fdTables q = s.fdTables q ∨ ∃ c i t rax, a = .call c ∧ s.kernel.running = some (i, t) ∧
      t.serial = n ∧ s.currentProcess = some q ∧ s.syscall c = some (rax, s') := by
  obtain ⟨p, hp, rfl⟩ := hholds
  cases a with
  | kernel a =>
    obtain ⟨k', -, rfl⟩ := map_eq_some_iff.mp hstep
    have hne : q ≠ s.kernel.freePid := by
      rintro rfl
      exact nomatch (Kernel.process_freePid s.kernel).symm.trans hp
    left
    cases a with
    | spawnUser | sysSpawn => exact update_of_ne hne _ _
    | _ => rfl
  | call c =>
    obtain ⟨i, t, rax, hrun, hstarts, hcall⟩ := step_call hstep
    obtain ⟨hpid, p', hp', hserial⟩ := h.currentProcess hrun hstarts
    by_cases hq : q = t.pid
    · subst hq
      obtain rfl := some.inj (hp.symm.trans hp')
      exact Or.inr ⟨c, i, t, rax, rfl, hrun, hserial.symm, hpid, hcall⟩
    · -- another process makes the call
      left
      funext fd
      cases effect_of_syscall hcall with
      | files => rfl
      | closed hcur =>
        obtain rfl := some.inj (hpid.symm.trans hcur)
        exact setFd_other s none (Or.inl hq)
      | opened _ hcur =>
        obtain rfl := some.inj (hpid.symm.trans hcur)
        exact setFd_other s _ (Or.inl hq)

/-- **What a step does to a descriptor** of a process: nothing, unless it is open and the process
closes it, or it is not open and the process gets it from `SYS_OPEN`. -/
theorem step_denotes (h : Reachable kernelCr3 s) (hstep : s.step a = some s')
    (hholds : s.Holds q n) (fd : ℕ) :
    s'.denotes q fd = s.denotes q fd ∨ s.Closes n fd a ∧ s.denotes q fd ≠ none ∨
      s.Opens n fd a ∧ s.denotes q fd = none := by
  obtain htable | ⟨c, i, t, rax, rfl, hrun, rfl, hcur, hcall⟩ := step_fdTables h hstep hholds
  · exact Or.inl (denotes_congr (congrFun htable fd))
  · cases effect_of_syscall hcall with
    | files => exact Or.inl rfl
    | @closed pid fd' hpid hlt hopen =>
      obtain rfl := some.inj (hcur.symm.trans hpid)
      by_cases hfd : fd = fd'
      · subst hfd
        rw [← denotes_of_lt s q hlt] at hopen
        exact Or.inr (Or.inl ⟨⟨rfl, i, t, hrun, rfl⟩, hopen⟩)
      · exact Or.inl (denotes_congr (setFd_other s none (Or.inr hfd)))
    | @opened env filenamePtr pid _ vnode hpid hfree =>
      obtain rfl := some.inj (hcur.symm.trans hpid)
      by_cases hfd : fd = rax
      · subst hfd
        have hleast := assignedFd_eq_some.mp hfree
        exact Or.inr (Or.inr ⟨⟨env, filenamePtr, _, rfl, ⟨i, t, hrun, rfl⟩, hcall⟩, hleast.1.2.2⟩)
      · exact Or.inl (denotes_congr (setFd_other s _ (Or.inr hfd)))

/-- The runs that go on from a state, with the process in its slot all the time. -/
def Later (s : FileKernel) (q n : ℕ) (ok : FileKernel → FileAction → Prop) : FileKernel → Prop :=
  Run (· = s) step fun s₁ a s₂ => s₂.Kept ∧ s₂.Holds q n ∧ ok s₁ a

theorem Later.denotes {ok : FileKernel → FileAction → Prop} (hlater : s.Later q n ok s')
    (h : Reachable kernelCr3 s) (hholds : s.Holds q n)
    (hok : ∀ s₁ a, ok s₁ a → s₁.denotes q fd = s.denotes q fd →
      ¬ (s₁.Closes n fd a ∧ s₁.denotes q fd ≠ none ∨ s₁.Opens n fd a ∧ s₁.denotes q fd = none)) :
    s'.denotes q fd = s.denotes q fd := by
  have hinv := hlater.invariant
    (I := fun s₁ => Reachable kernelCr3 s₁ ∧ s₁.Holds q n ∧ s₁.denotes q fd = s.denotes q fd)
    (by rintro _ rfl; exact ⟨h, hholds, rfl⟩)
    (by
      intro s₁ a s₂ _ hinv hstep hnext
      obtain ⟨hreach, hholds₁, hsame⟩ := hinv
      obtain ⟨hkept, hholds₂, hallowed⟩ := hnext
      have hstep₁ := step_denotes hreach hstep hholds₁ fd
      exact ⟨.next hreach hstep hkept, hholds₂,
        (hstep₁.resolve_right (hok s₁ a hallowed hsame)).trans hsame⟩)
  exact hinv.2.2

end Tables

/-! ### The caller's table -/

section Caller

variable {s : FileKernel} {q fd : ℕ}

theorem sysOpen_spec (hcur : s.currentProcess = some q) {env : FileEnv} {filenamePtr : ℕ}
    {vnode : Fs.TarVnode} (hlookup : env.lookup filenamePtr = some vnode) :
    ∃ rax s', s.sysOpen env filenamePtr = some (rax, s') ∧ (rax = errno 24 ↔ s.freeFds q = ∅) ∧
      (rax ≠ errno 24 → IsLeast (s.freeFds q) rax ∧ s'.denotes q rax = some s.openFiles.length ∧
        s'.openFiles = s.openFiles ++ [Fs.openedFile vnode]) := by
  simp only [sysOpen, openVnode, hlookup, hcur, bind_eq_bind, bind_some]
  cases hfd : (s.fdTables q).assignedFd with
  | none =>
    refine ⟨_, _, rfl, iff_of_true rfl (assignedFd_eq_none.mp hfd), ?_⟩
    intro hne
    exact absurd rfl hne
  | some fd =>
    have hleast := assignedFd_eq_some.mp hfd
    have hlt : fd < maxFds := hleast.1.2.1
    have hne : fd ≠ errno 24 := by
      rintro rfl
      exact absurd hlt (by decide)
    refine ⟨_, _, rfl, iff_of_false hne ?_, fun _ => ⟨hleast, ?_, rfl⟩⟩
    · intro hempty
      exact Set.notMem_empty fd (hempty ▸ hleast.1)
    · rw [denotes_of_lt _ q hlt]
      exact setFd_self s q fd _

theorem sysClose_spec (hcur : s.currentProcess = some q) (fd : ℕ) :
    ∃ rax s', s.sysClose fd = some (rax, s') ∧ (rax = 0 ↔ s.denotes q fd ≠ none) ∧
      (rax ≠ 0 → rax = errno 9 ∧ s' = s) ∧ s'.denotes q fd = none := by
  by_cases hfd : fd < maxFds
  · simp only [sysClose, Nat.not_le_of_lt hfd, hcur, bind_eq_bind, bind_some, if_false]
    cases hfile : s.fdTables q fd with
    | none =>
      have hnone : s.denotes q fd = none := (denotes_of_lt s q hfd).trans hfile
      refine ⟨errno 9, s, rfl, iff_of_false (by decide) (not_not_intro hnone), ?_, hnone⟩
      exact fun _ => ⟨rfl, rfl⟩
    | some i =>
      have hsome : s.denotes q fd = some i := (denotes_of_lt s q hfd).trans hfile
      refine ⟨0, s.setFd q fd none, rfl, iff_of_true rfl (by rw [hsome]; nofun), ?_, ?_⟩
      · intro hne
        exact absurd rfl hne
      · rw [denotes_of_lt _ q hfd]
        exact setFd_self s q fd none
  · have hnone : s.denotes q fd = none := if_neg hfd
    refine ⟨errno 9, s, if_pos (Nat.le_of_not_lt hfd),
      iff_of_false (by decide) (not_not_intro hnone), fun _ => ⟨rfl, rfl⟩, hnone⟩

theorem sysRead_closed (hcur : s.currentProcess = some q) (hnone : s.denotes q fd = none)
    (mem : Fs.Memory) (keys : List Fs.DecodedKey) (buf : List UInt8) :
    s.sysRead mem keys fd buf = some (errno 9, buf, s) := by
  by_cases hfd : fd < maxFds
  · rw [denotes_of_lt s q hfd] at hnone
    simp only [sysRead, Nat.not_le_of_lt hfd, hcur, bind_eq_bind, bind_some, if_false, hnone]
  · exact if_pos (Nat.le_of_not_lt hfd)

end Caller

end FileKernel

/-- **File descriptors**, in every run in which no record of a process that has not exited is
removed. `SYS_OPEN` of a file that exists returns the least descriptor from 3 on that is not
open in the caller, `SYS_CLOSE` succeeds on the open ones, and after that `SYS_READ` fails like
a second `SYS_CLOSE`; a descriptor that is open stays with its file until the process itself
closes it, one that is not open stays so until the process gets it from `SYS_OPEN`, and no step
of another process changes the table. -/
theorem file_descriptors {kernelCr3 : ℕ} {s : FileKernel} (h : FileKernel.Reachable kernelCr3 s) :
    (∀ i t, s.kernel.running = some (i, t) → Kernel.Starts true t →
      (∀ env filenamePtr vnode, env.lookup filenamePtr = some vnode →
        ∃ rax s', s.sysOpen env filenamePtr = some (rax, s') ∧
          (rax = errno 24 ↔ s.freeFds t.pid = ∅) ∧
          (rax ≠ errno 24 → IsLeast (s.freeFds t.pid) rax ∧
            s'.denotes t.pid rax = some s.openFiles.length ∧
            s'.openFiles = s.openFiles ++ [Fs.openedFile vnode])) ∧
      (∀ fd, ∃ rax s', s.sysClose fd = some (rax, s') ∧
        (rax = 0 ↔ s.denotes t.pid fd ≠ none) ∧ (rax ≠ 0 → rax = errno 9 ∧ s' = s) ∧
        s'.denotes t.pid fd = none) ∧
      ∀ mem keys fd buf, s.denotes t.pid fd = none →
        s.sysRead mem keys fd buf = some (errno 9, buf, s)) ∧
    ∀ q n, s.Holds q n →
      (∀ fd s', s.Later q n (fun s₁ a => ¬ s₁.Closes n fd a) s' →
        s.denotes q fd ≠ none → s'.denotes q fd = s.denotes q fd) ∧
      (∀ fd s', s.Later q n (fun s₁ a => ¬ s₁.Opens n fd a) s' →
        s.denotes q fd = none → s'.denotes q fd = none) ∧
      ∀ a s', s.step a = some s' → ¬ s.Runs n → s'.fdTables q = s.fdTables q := by
  constructor
  · intro i t hrun hstarts
    obtain ⟨hcur, -⟩ := h.currentProcess hrun hstarts
    refine ⟨?_, FileKernel.sysClose_spec hcur, ?_⟩
    · intro env filenamePtr vnode hlookup
      exact FileKernel.sysOpen_spec hcur hlookup
    · intro mem keys fd buf hnone
      exact FileKernel.sysRead_closed hcur hnone mem keys buf
  · intro q n hholds
    refine ⟨?_, ?_, ?_⟩
    · intro fd s' hlater hopen
      refine hlater.denotes h hholds ?_
      rintro s₁ a hnot hsame (⟨hcloses, -⟩ | ⟨-, hnone⟩)
      · exact hnot hcloses
      · exact hopen (hsame.symm.trans hnone)
    · intro fd s' hlater hnone
      refine (hlater.denotes h hholds ?_).trans hnone
      rintro s₁ a hnot hsame (⟨-, hopen⟩ | ⟨hopens, -⟩)
      · exact hopen (hsame.trans hnone)
      · exact hnot hopens
    · intro a s' hstep hother
      obtain htable | ⟨c, i, t, rax, -, hrun, hserial, -⟩ := FileKernel.step_fdTables h hstep hholds
      · exact htable
      · exact absurd ⟨i, t, hrun, hserial⟩ hother

/-- A ramdisk with one file, `a`, and its name at `0x400000`. -/
def oneFileEnv : FileEnv where
  userMem addr := if addr = 0x400000 then 97 else 0
  rootFs := some [⟨[97], 80, 0x700000⟩]
  fromUtf8 bytes := bytes.all (· < 128)

/-- A process is started and gets the CPU, opens a file twice and closes the first descriptor. -/
def reopenRun : List FileAction :=
  [.kernel (.spawnUser 0x8000 0x5000 1024 0x200000 8), .kernel (.schedule 0),
    .call (.sysOpen oneFileEnv 0x400000), .call (.sysOpen oneFileEnv 0x400000),
    .call (.sysClose 3)]

theorem file_descriptors_reopenRun :
    ∃ s t, FileKernel.Reachable 0x1000 s ∧ s.kernel.running = some (1, t) ∧
      s.denotes t.pid 4 = some 2 ∧ IsLeast (s.freeFds t.pid) 3 ∧
      (∃ s', s.sysOpen oneFileEnv 0x400000 = some (3, s') ∧ s'.denotes t.pid 3 = some 3) ∧
      (∃ s', s.sysClose 4 = some (0, s')) ∧
      s.sysRead oneFileEnv.userMem [] 3 [0] = some (errno 9, [0], s) := by
  have hrun : ((Kernel.boot 0x1000 0x100000 (fun _ => ⟨0, 0, 0, 0, 0, 0, 0⟩) fun _ => 0).bind
      fun k => exec FileKernel.step (fun _ _ s' => s'.Kept) ⟨k, fun _ _ => none, []⟩
        reopenRun).any (fun s => s.kernel.running.any fun (i, t) =>
          decide (i = 1 ∧ Kernel.Starts true t ∧ s.denotes t.pid 3 = none ∧
            s.denotes t.pid 4 = some 2 ∧ s.openFiles.length = 3)) = true := by
    decide +kernel
  obtain ⟨s, hs, hP⟩ := (Option.any_eq_true _ _).mp hrun
  obtain ⟨k₀, hboot, hexec⟩ := Option.bind_eq_some_iff.mp hs
  obtain ⟨⟨i, t⟩, hrunning, hP⟩ := (Option.any_eq_true _ _).mp hP
  obtain ⟨rfl, hstarts, hclosed, hopen, hfiles⟩ := of_decide_eq_true hP
  have hboots : FileKernel.Boots 0x1000 ⟨k₀, fun _ _ => none, []⟩ :=
    ⟨⟨by decide, _, _, _, hboot⟩, rfl, rfl⟩
  have hreach : FileKernel.Reachable 0x1000 s := Run.exec (.start hboots) hexec
  obtain ⟨hopens, hcloses, hreads⟩ := (file_descriptors hreach).1 1 t hrunning hstarts
  have hfree : 3 ∈ s.freeFds t.pid := ⟨le_rfl, by decide, hclosed⟩
  have hlookup : oneFileEnv.lookup 0x400000 = some ⟨[97], 80, 0x700000⟩ := by decide +kernel
  obtain ⟨rax, s₁, hsysOpen, hfull, hrax⟩ := hopens oneFileEnv 0x400000 _ hlookup
  have hne : rax ≠ errno 24 := fun h => Set.notMem_empty 3 (hfull.mp h ▸ hfree)
  obtain ⟨hleast, hdenotes, -⟩ := hrax hne
  obtain rfl : 3 = rax := le_antisymm hleast.1.1 (hleast.2 hfree)
  obtain ⟨rax, s₂, hsysClose, hzero, -⟩ := hcloses 4
  obtain rfl : rax = 0 := hzero.mpr (by rw [hopen]; nofun)
  exact ⟨s, t, hreach, hrunning, hopen, hleast, ⟨s₁, hsysOpen, hfiles ▸ hdenotes⟩,
    ⟨s₂, hsysClose⟩, hreads _ _ 3 _ hclosed⟩

end KernelR.Proc
