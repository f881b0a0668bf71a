import KernelR.Foundations.Uniprocessor
import KernelR.Proc.UserPointers

/-!
# The locks of open files

All system calls of all processes, together with the timer, the keyboard and the kernel's own
threads. `SYS_READ` and `SYS_WRITE` hold the spin lock of the open file while the vnode works.
The handler runs with interrupts off, so the holder has the CPU until it gives the lock back,
unless the vnode itself gives it up: the console does, because `Semaphore::acquire` turns
interrupts on and puts the thread to sleep. A child that inherited the file then spins on the
lock with interrupts off, and the machine stands still (`sleeping_reader_stops_the_machine`).
Without such a read no holder ever sleeps (`no_sleeping_holder`).
-/

namespace KernelR.Proc

open Option Foundations Code

/-! ### The system -/

/-- What happens outside of system calls. -/
inductive Interrupt where
  /-- `rust_timer_handler`, with a byte from the serial port or without -/
  | tick (key : Option Fs.DecodedKey) (context : ℕ)
  /-- `keyboard_handler` -/
  | key (key : Fs.DecodedKey)
  /-- the boot code or a kernel thread does something -/
  | kernelThread (a : Action)

namespace System

/-- `KEYBOARD_MAILBOX.send`, of a key that is decoded already. -/
def send (s : System) (key : Fs.DecodedKey) : Option System :=
  (s.files.kernel.release keyboardSemaphore).map fun k =>
    { s.withKernel k with keyboard := s.keyboard ++ [key] }

/-- `rust_timer_handler`. A byte from the serial port counts as the key that it is decoded to; the
uptime and the end of the interrupt are left out. -/
def timerHandler (s : System) (key : Option Fs.DecodedKey) (context : ℕ) : Option System := do
  let s ← match key with
    | some key => s.send key
    | none => some s
  (s.files.kernel.schedule context).map fun (k, _) => s.withKernel k

/-- What an interrupt does, and what the kernel's own threads do. -/
def interrupt (s : System) : Interrupt → Option System
  | .tick key context => s.timerHandler key context
  | .key key => s.send key
  | .kernelThread a =>
    if s.files.kernel.KernelCode then (s.files.step (.kernel a)).map fun files => { s with files }
    else none

/-- `int 0x20` -/
def reschedule (s : System) : Interrupt → Option System
  | .tick key context => s.timerHandler key context
  | _ => none

/-- The thread that has the CPU can go on. -/
def ready (s : System) : Bool :=
  (s.files.kernel.sched.currentTask.bind s.files.kernel.sched.tasks.get).any
    fun t => t.state = .ready

/-- It is a user program, and is not in a system call. -/
def calls (s : System) : Bool :=
  s.files.kernel.running.any fun (_, t) => Kernel.Starts true t

end System

/-- The threads by their numbers, the locks by the numbers of their files. -/
def fileSystem (env : SpawnEnv) : Uniprocessor System ℕ ℕ Interrupt (Registers × ℕ) where
  current s := s.files.kernel.currentSerial
  ready := System.ready
  calls := System.calls
  handler r := rustSyscallHandler env r.2 r.1
  interrupt i s := s.interrupt i
  reschedule i s := s.reschedule i

/-- The kernel has just booted: no thread is in a system call, and no lock is taken. -/
def CoreBoots (kernelCr3 : ℕ) (st : Core System ℕ ℕ) : Prop :=
  FileKernel.Boots kernelCr3 st.data.files ∧ st.data.keyboard = [] ∧ (∀ n, st.code n = none) ∧
    (∀ n, st.interrupts n = true) ∧ ∀ l, st.holder l = none

/-- No system call reads from a console. -/
def NoConsoleRead (st : Core System ℕ ℕ) (a : CoreAction Interrupt (Registers × ℕ))
    (_ : Core System ℕ ℕ) : Prop :=
  ∀ regs fuel, a = .call (regs, fuel) → ¬ ReadsConsole regs st.data

/-- The states of the runs all of whose steps meet a condition. -/
def CoreReachable (env : SpawnEnv) (kernelCr3 : ℕ)
    (ok : Core System ℕ ℕ → CoreAction Interrupt (Registers × ℕ) → Core System ℕ ℕ → Prop) :
    Core System ℕ ℕ → Prop :=
  Run (CoreBoots kernelCr3) (Core.step (fileSystem env)) ok

/-! ### The handler keeps to the discipline -/

namespace Handler

variable {env : SpawnEnv} {s s' : System}

theorem suits_discipline (env : SpawnEnv) : Suits (Core.discipline (fileSystem env)) where
  keeps h := ⟨h, fun hne => absurd rfl hne⟩
  file _ _ _ := ⟨fun _ h => h, fun _ h => h⟩
  same _ _ := ⟨fun _ h => h, fun _ h => h⟩
  interruptible := rfl

theorem reachable_discipline (env : SpawnEnv) (addr : ℕ) :
    (Core.discipline (fileSystem env)).Reachable addr :=
  fun _ _ => trivial

theorem ready_of_calls (h : s.calls = true) : s.ready = true := by
  obtain ⟨⟨c, t⟩, hrun, -⟩ := (any_eq_true _ _).mp h
  simp only [Kernel.running, bind_eq_bind, bind_eq_some_iff] at hrun
  obtain ⟨c', hc, t', ht, hrun⟩ := hrun
  obtain ⟨⟨hready, -⟩, -⟩ := ite_none_right_eq_some.mp hrun
  simp only [System.ready, hc, bind_some, ht, any_some, hready, decide_true]

/-- **The handler keeps to the discipline**, if it does not read from a console. -/
theorem keeps_handler (hready : s.ready = true) {regs : Registers} {fuel : ℕ}
    (hread : ¬ ReadsConsole regs s) :
    Core.Keeps (fileSystem env) (rustSyscallHandler env fuel regs) false none s := by
  have hP := suits_discipline env
  have hreach := reachable_discipline env
  have hlock : (Core.discipline (fileSystem env)).lockable false s := ⟨rfl, hready⟩
  suffices h : (rustSyscallHandler env fuel regs).wp (Core.discipline (fileSystem env))
      (Ends fun _ => True) false none s from wp_mono h fun _ _ _ _ hends => hends.2
  unfold rustSyscallHandler
  cases hno : SyscallNo.decode regs.rax with
  | sysRead =>
    refine wp_transfer hP hlock (fun _ => trivial) fun i file hdenotes hreadable _ => ?_
    cases hvnode : file.vnode with
    | file v => exact wp_vnodeRead_file trivial fun _ _ _ _ _ => hreach _
    | console =>
      have hempty : ¬ regs.rdx ≠ 0 := fun hlen =>
        hread ⟨hno, hlen, i, file, hdenotes, hreadable, hvnode⟩
      exact wp_vnodeRead_console (fun hlen => absurd hlen hempty)
        (fun hlen => absurd hlen hempty) (fun _ => hreach _) (fun _ => trivial)
        fun _ => trivial
  | sysWrite =>
    refine wp_transfer hP hlock (fun _ => trivial) fun _ _ _ _ _ => ?_
    exact wp_vnodeWrite trivial fun _ _ => hreach _
  | sysOpen => exact wp_sysOpen hP trivial (hreach _)
  | sysClose => exact wp_sysClose hP trivial
  | sysSpawn => exact wp_sysSpawn hP trivial fun _ => hreach _
  | sysExit => exact wp_sysExit hP
  | sysWait =>
    refine wp_sysWait_off hP (fun result s' _ => ?_) fun _ => hreach _
    split <;> trivial
  | sysGetdents => exact wp_sysGetdents trivial fun _ => hreach _
  | sysBrk => exact wp_sysBrk hP trivial
  | unknown => exact ⟨trivial, rfl⟩

end Handler

/-- The invariant of all runs without reads from a console. -/
theorem CoreReachable.disciplined {env : SpawnEnv} {kernelCr3 : ℕ} {st : Core System ℕ ℕ}
    (h : CoreReachable env kernelCr3 NoConsoleRead st) : Core.Disciplined (fileSystem env) st := by
  refine Run.invariant (I := Core.Disciplined (fileSystem env)) ?_ ?_ h
  · rintro st ⟨-, -, hcode, hflag, hholder⟩
    refine ⟨fun n c hc => ?_, fun n _ => ⟨hflag n, fun l => ?_⟩, fun l n hl => ?_⟩
    · exact nomatch (hcode n).symm.trans hc
    · rw [hholder l]
      exact iff_of_false nofun nofun
    · exact nomatch (hholder l).symm.trans hl
  · intro st a st' _ hinv hstep hok
    refine hinv.step hstep fun r hr hcalls => ?_
    exact Handler.keeps_handler (Handler.ready_of_calls hcalls) (hok r.1 r.2 hr)

/-- **The locks of open files.**  In every run in which no system call reads from a console,
whoever holds the lock of an open file has the CPU, is ready, and has interrupts off; and nobody
spins on such a lock. -/
theorem no_sleeping_holder {env : SpawnEnv} {kernelCr3 : ℕ} {st : Core System ℕ ℕ}
    (h : CoreReachable env kernelCr3 NoConsoleRead st) :
    (∀ l n, st.holder l = some n → st.interrupts n = false ∧
      ∃ c t, st.data.files.kernel.sched.currentTask = some c ∧
        st.data.files.kernel.sched.tasks.get c = some t ∧ t.serial = n ∧ t.state = .ready) ∧
      ∀ n l, ¬ st.Spins (fileSystem env) n l := by
  have hinv := h.disciplined
  refine ⟨fun l n hl => ?_, hinv.not_spins⟩
  obtain ⟨hcurrent, hoff, hready⟩ := hinv.holder l n hl
  obtain ⟨c, hc, hcurrent⟩ := Option.bind_eq_some_iff.mp hcurrent
  obtain ⟨t, ht, hserial⟩ := Option.bind_eq_some_iff.mp hcurrent
  refine ⟨hoff, c, t, hc, ht, Option.some.inj hserial, ?_⟩
  have hstate : System.ready st.data = true := hready
  simpa only [System.ready, hc, Option.bind_some, ht, Option.any_some, decide_eq_true_eq]
    using hstate

/-! ### Two runs -/

/-- The descriptor leads to a console that can be read. -/
def System.readableConsole (s : System) (fd : ℕ) : Bool :=
  ((s.fdOf fd).join.bind (s.files.openFiles[·]?)).any fun file =>
    file.readable && decide (file.vnode = .console)

theorem readsConsole_iff (regs : Registers) (s : System) : ReadsConsole regs s ↔
    SyscallNo.decode regs.rax = .sysRead ∧ regs.rdx ≠ 0 ∧ regs.rdi < maxFds ∧
      s.readableConsole regs.rdi = true := by
  refine and_congr_right fun _ => and_congr_right fun _ => ?_
  simp only [System.readableConsole, any_eq_true, bind_eq_some_iff,
    Option.join_eq_some_iff, Bool.and_eq_true, decide_eq_true_eq]
  constructor
  · rintro ⟨i, file, ⟨hfd, hlookup, hfile⟩, hreadable, hvnode⟩
    exact ⟨hfd, file, ⟨i, hlookup, hfile⟩, hreadable, hvnode⟩
  · rintro ⟨hfd, file, ⟨i, hlookup, hfile⟩, hreadable, hvnode⟩
    exact ⟨i, file, ⟨hfd, hlookup, hfile⟩, hreadable, hvnode⟩

instance (regs : Registers) (s : System) : Decidable (ReadsConsole regs s) :=
  decidable_of_iff _ (readsConsole_iff regs s).symm

instance : ∀ st a st', Decidable (NoConsoleRead st a st')
  | st, .call (regs, fuel), _ =>
    decidable_of_iff (¬ ReadsConsole regs st.data) ⟨by
      rintro h _ _ heq
      cases heq
      exact h, fun h => h regs fuel rfl⟩
  | _, .exec .., _ => isTrue nofun
  | _, .interrupt _, _ => isTrue nofun

/-- The machine after boot. -/
def bootCore (k : Kernel) : Core System ℕ ℕ where
  data := ⟨⟨k, fun _ _ => none, []⟩, ⟨directMapMachine, []⟩, []⟩
  code _ := none
  interrupts _ := true
  holder _ := none

theorem CoreReachable.of_execute
    (ok : Core System ℕ ℕ → CoreAction Interrupt (Registers × ℕ) → Core System ℕ ℕ → Prop)
    [∀ st a st', Decidable (ok st a st')] (l : List (CoreAction Interrupt (Registers × ℕ)))
    (R : Core System ℕ ℕ → Bool)
    (h : ((Kernel.boot 0x5000 0x100000 (fun _ => ⟨0, 0, 0, 0, 0, 0, 0⟩) fun _ => 0).bind
      fun k => exec (Core.step (fileSystem (ramdiskEnv 97))) ok (bootCore k) l).any R = true) :
    ∃ st, CoreReachable (ramdiskEnv 97) 0x5000 ok st ∧ R st = true := by
  obtain ⟨st, hst, hR⟩ := (any_eq_true _ _).mp h
  obtain ⟨k₀, hboot, hexec⟩ := bind_eq_some_iff.mp hst
  have hboots : CoreBoots 0x5000 (bootCore k₀) :=
    ⟨⟨⟨by decide, _, _, _, hboot⟩, rfl, rfl⟩, rfl, fun _ => rfl, fun _ => rfl, fun _ => rfl⟩
  exact ⟨st, Run.exec (.start hboots) hexec, hR⟩

/-- The current thread executes some commands, and loads these bytes. -/
def executes (bytes : List UInt8) : List (CoreAction Interrupt (Registers × ℕ)) :=
  bytes.map fun v => .exec v (.tick none 0)

/-- A process gets the CPU. -/
def firstProcess : List (CoreAction Interrupt (Registers × ℕ)) :=
  [.interrupt (.kernelThread (.spawnUser 0x1000 0x5000 1024 0x200000 8)),
    .interrupt (.tick none 0)]

/-- It writes to its console. -/
def writeRun : List (CoreAction Interrupt (Registers × ℕ)) :=
  firstProcess ++ .call (⟨1, 1, 0x400000, 1⟩, 1) :: executes (.replicate 4 0)

/-- In the middle of a write, the writer holds the lock. -/
theorem no_sleeping_holder_write : ∃ st, CoreReachable (ramdiskEnv 97) 0x5000 NoConsoleRead st ∧
    st.holder 0 = some 1 ∧ st.interrupts 1 = false ∧
    ∀ n l, ¬ st.Spins (fileSystem (ramdiskEnv 97)) n l := by
  obtain ⟨st, hreach, hR⟩ := CoreReachable.of_execute NoConsoleRead writeRun
    (fun st => decide (st.holder 0 = some 1)) (by decide +kernel)
  have hholder := of_decide_eq_true hR
  obtain ⟨hlocks, hspins⟩ := no_sleeping_holder hreach
  exact ⟨st, hreach, hholder, (hlocks 0 1 hholder).1, hspins⟩

/-- The process starts a child, which gets its console; then it reads from the console, where
there is no key, and the child gets the CPU and writes to the console. -/
def sharedConsoleRun : List (CoreAction Interrupt (Registers × ℕ)) :=
  firstProcess ++ .call (⟨59, 0x400000, 0, 0⟩, 1) :: executes [97, 0, 97, 0, 0, 0, 0, 0] ++
    .call (⟨0, 0, 0x400000, 1⟩, 2) :: executes (.replicate 9 0) ++
    .call (⟨1, 1, 0x400000, 1⟩, 1) :: executes (.replicate 3 0)

/-- **A reader sleeps with the lock.**  Its child spins on the lock with interrupts off, and
nothing happens any more. -/
theorem sleeping_reader_stops_the_machine :
    ∃ st, CoreReachable (ramdiskEnv 97) 0x5000 (fun _ _ _ => True) st ∧
      st.holder 0 = some 1 ∧
      (∃ t, st.data.files.kernel.sched.tasks.get 1 = some t ∧ t.serial = 1 ∧ t.state = .blocked) ∧
      st.Spins (fileSystem (ramdiskEnv 97)) 2 0 ∧
      ∀ a, st.step (fileSystem (ramdiskEnv 97)) a = none := by
  obtain ⟨st, hreach, hR⟩ := CoreReachable.of_execute (fun _ _ _ => True) sharedConsoleRun
    (fun st => decide (st.holder 0 = some 1 ∧
      (st.data.files.kernel.sched.tasks.get 1).any
        (fun t => t.serial = 1 ∧ t.state = .blocked) = true ∧
      st.data.files.kernel.currentSerial = some 2 ∧ st.interrupts 2 = false ∧
      (st.code 2).bind Code.waitsFor = some 0)) (by decide +kernel)
  obtain ⟨hholder, hthread, hcurrent, hoff, hwaits⟩ := of_decide_eq_true hR
  obtain ⟨t, ht, hasleep⟩ := (Option.any_eq_true _ _).mp hthread
  have hspins : st.Spins (fileSystem (ramdiskEnv 97)) 2 0 := by
    refine ⟨hcurrent, hoff, hwaits, ?_⟩
    rw [hholder]
    nofun
  exact ⟨st, hreach, hholder, ⟨t, ht, of_decide_eq_true hasleep⟩, hspins, Core.step_eq_none hspins⟩

end KernelR.Proc
