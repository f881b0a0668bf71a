import KernelR.Foundations.Run
import KernelR.Mm.Allocator
import KernelR.Proc.Scheduler

/-!
# Threads at work

What threads and interrupts do to the scheduler: spawning, blocking on a mutex, a
semaphore, another thread or a child, exiting, and the timer tick. Every call is a
function on `Kernel`; `Kernel.step` puts them together into the transition system
whose runs the invariants are about.

The grain of the steps is that of the source's critical sections. The scheduler lock
disables interrupts, so what happens under one lock is one step. `SYS_EXIT` is one
step as well: `SYSCALL` enters the kernel with interrupts off and nothing on the way
to `exit_thread` turns them on. `SYS_WAIT` is not: after it has slept, interrupts are
on between the removal of the child's record and the destruction of its address
space, and the loop itself starts over after every wake-up. What is left to do is
in the field `pending` of the thread.

A thread that has put itself to sleep executes nothing until it was switched out, and
the idle task only halts; `Kernel.running` is the thread that can act.
-/

namespace KernelR.Proc

open Option Foundations Sched

/-- `as i32` -/
def asI32 (x : ℕ) : ℤ := Int.bmod x (2 ^ 32)

/-- `-ECHILD` in `rax`. -/
def negEchild : ℕ := 2 ^ 64 - 10

namespace Kernel

/-! ### Blocking -/

/-- Change a thread in place. -/
def modifyTask (k : Kernel) (task : ℕ) (f : Thread → Thread) : Kernel :=
  { k with sched := { k.sched with tasks := k.sched.tasks.modify task f } }

/-- Change the record of a process in place. -/
def modifyProcess (k : Kernel) (pid : ℕ) (f : Process → Process) : Kernel :=
  { k with sched := { k.sched with processes := k.sched.processes.modify pid (Option.map f) } }

/-- Mark the current thread `Blocked`; the thread itself, for the wait queue. -/
def blockCurrent (k : Kernel) : Option (Kernel × ℕ) := do
  let current ← k.sched.currentTask
  let _ ← k.sched.tasks.get current
  some ({ k with sched := k.sched.setState current .blocked }, current)

/-- `wake_task` on a kernel. -/
def wake (k : Kernel) (task : ℕ) : Option Kernel :=
  (k.sched.wakeTask task).map fun sched => { k with sched }

/-- `WaitQueue::wake_one`, for the waiter that was popped. -/
def wakeOne (k : Kernel) : List ℕ → Option Kernel
  | [] => some k
  | task :: _ => k.wake task

/-- One round of `Mutex::lock`; who has to sleep makes the next round when it is woken. -/
def lock (k : Kernel) (m : ℕ) : Option Kernel :=
  let mutex := k.mutexes m
  if mutex.isLocked then do
    let (k, current) ← k.blockCurrent
    some { k with
      mutexes := Function.update k.mutexes m
        { mutex with waitQueue := mutex.waitQueue ++ [current] } }
  else some { k with mutexes := Function.update k.mutexes m { mutex with isLocked := true } }

/-- The drop of a `MutexGuard`. -/
def unlock (k : Kernel) (m : ℕ) : Option Kernel :=
  let waiters := (k.mutexes m).waitQueue
  wakeOne { k with mutexes := Function.update k.mutexes m ⟨false, waiters.tail⟩ } waiters

/-- One round of `Semaphore::acquire`. -/
def acquire (k : Kernel) (i : ℕ) : Option Kernel :=
  let sem := k.semaphores i
  if sem.count > 0 then
    some { k with semaphores := Function.update k.semaphores i { sem with count := sem.count - 1 } }
  else do
    let (k, current) ← k.blockCurrent
    some { k with
      semaphores := Function.update k.semaphores i
        { sem with waitQueue := sem.waitQueue ++ [current] } }

/-- `Semaphore::release` -/
def release (k : Kernel) (i : ℕ) : Option Kernel :=
  let sem := k.semaphores i
  wakeOne
    { k with
      semaphores := Function.update k.semaphores i ⟨wrap (sem.count + 1), sem.waitQueue.tail⟩ }
    sem.waitQueue

/-- `join` -/
def join (k : Kernel) (target : ℕ) : Option Kernel := do
  let current ← k.sched.currentTask
  if current = target then some k
  else
    match k.sched.tasks.get target with
    | none => some k
    | some t =>
      if t.state = .zombie then some k
      else do
        let (k, current) ← k.blockCurrent
        some (k.modifyTask target fun t => { t with joinQueue := t.joinQueue ++ [current] })

/-! ### Spawning -/

/-- `spawn` -/
def spawn (k : Kernel) (weight stack node : ℕ) : Option Kernel := do
  let thread ← Thread.new k.sched.totalWeight k.sched.systemRuntime stack weight
  let (sched, _) ← k.sched.addTask { thread with serial := k.history.spawned } node
  some { k with sched, history := { k.history with spawned := k.history.spawned + 1 } }

/-- The first free slot of the process table, or the end of it. -/
def freePid (k : Kernel) : ℕ := k.sched.processes.findIdx Option.isNone

/-- The record that `spawn_user_process` makes. -/
def newProcess (k : Kernel) (pml4 highestVaddr ppid parent : ℕ) : Process where
  pid := k.freePid
  ppid := ppid
  exitCode := none
  isZombie := false
  waitQueue := []
  pageTable := pml4
  heapStart := Mm.alignTo highestVaddr 4096
  programBreak := Mm.alignTo highestVaddr 4096
  stackStart := 0x80000000 - userStackSize
  stackEnd := 0x80000000
  serial := k.history.spawned
  parent := parent

/-- The process table with a new record, in the first free slot or behind the last one. -/
def processesWith (k : Kernel) (p : Process) : List (Option Process) :=
  if k.freePid < k.sched.processes.length then k.sched.processes.set k.freePid (some p)
  else k.sched.processes ++ [some p]

/-- `spawn_user_process`, once the image is loaded: its PML4 is at `pml4` and its
segments end at `highestVaddr`. `parent` is the number of the spawning process. The
table is a `Vec` of pointers, which cannot have `2 ^ 60` elements. -/
def spawnUserProcess (k : Kernel) (pml4 highestVaddr weight ppid parent stack node : ℕ) :
    Option Kernel := do
  let pid := k.freePid
  let process := k.newProcess pml4 highestVaddr ppid parent
  if pid + 1 < 2 ^ 60 then do
    let processes := k.processesWith process
    let thread ← Thread.new k.sched.totalWeight k.sched.systemRuntime stack weight
    let thread := { thread with pid, user := true, serial := k.history.spawned }
    let (sched, _) ← Scheduler.addTask { k.sched with processes } thread node
    some { k with
      sched
      history := { k.history with
        spawned := k.history.spawned + 1
        pml4s := pml4 :: k.history.pml4s } }
  else none

/-- What both spawns come to: with this process table, a new thread of a process is added. -/
def Enters (k : Kernel) (processes : List (Option Process)) (pid : ℕ) (user : Bool)
    (weight stack node : ℕ) (pml4s : List ℕ) (k' : Kernel) : Prop :=
  ∃ thread sched i,
    Thread.new k.sched.totalWeight k.sched.systemRuntime stack weight = some thread ∧
      Scheduler.addTask { k.sched with processes }
        { thread with pid, user, serial := k.history.spawned } node = some (sched, i) ∧
      k' = { k with
        sched
        history := { k.history with spawned := k.history.spawned + 1, pml4s } }

theorem spawn_inv {k k' : Kernel} {weight stack node : ℕ}
    (h : k.spawn weight stack node = some k') :
    k.Enters k.sched.processes 0 false weight stack node k.history.pml4s k' := by
  simp only [spawn, bind_eq_bind, bind_eq_some_iff] at h
  obtain ⟨thread, hnew, ⟨sched, i⟩, hadd, h⟩ := h
  cases h
  refine ⟨thread, sched, i, hnew, ?_, rfl⟩
  obtain ⟨-, hnew⟩ := ite_none_left_eq_some.mp hnew
  cases hnew
  exact hadd

theorem spawnUserProcess_inv {k k' : Kernel}
    {pml4 highestVaddr weight ppid parent stack node : ℕ}
    (h : k.spawnUserProcess pml4 highestVaddr weight ppid parent stack node = some k') :
    k.freePid + 1 < 2 ^ 60 ∧
      k.Enters (k.processesWith (k.newProcess pml4 highestVaddr ppid parent)) k.freePid true
        weight stack node (pml4 :: k.history.pml4s) k' := by
  obtain ⟨hsmall, h⟩ := ite_none_right_eq_some.mp h
  simp only [bind_eq_bind, bind_eq_some_iff] at h
  obtain ⟨thread, hnew, ⟨sched, i⟩, hadd, h⟩ := h
  cases h
  exact ⟨hsmall, thread, sched, i, hnew, hadd, rfl⟩

/-! ### Exiting -/

/-- `exit_thread`, up to the loop in which the dead thread yields: it makes no step there. -/
def exitThread (k : Kernel) : Option Kernel := do
  let tid ← k.sched.currentTask
  let t ← k.sched.tasks.get tid
  let k := k.modifyTask tid fun t => { t with state := .zombie, joinQueue := [] }
  let sched ← k.sched.wakeAll t.joinQueue
  some { k with sched }

/-- `SYS_EXIT`: mark the record; the pid of the parent, if its queue has to be woken. -/
def markExited (k : Kernel) (pid : ℕ) (exitCode : ℤ) : Kernel × Option ℕ :=
  match k.sched.process pid with
  | none => (k, none)
  | some p =>
    let k := k.modifyProcess pid fun p => { p with exitCode := some exitCode, isZombie := true }
    (k, (k.sched.process p.ppid).map fun _ => p.ppid)

/-- `SYS_EXIT`: the children of the process get pid 0 as their parent. -/
def reparent (k : Kernel) (pid : ℕ) : Kernel :=
  { k with sched := { k.sched with processes := k.sched.processes.map (Option.map fun child =>
      if child.ppid = pid then { child with ppid := 0 } else child) } }

/-- `SYS_EXIT`: wake everything in the wait queue of the parent. -/
def wakeParent (k : Kernel) : Option ℕ → Option Kernel
  | none => some k
  | some ppid => do
      let parent ← k.sched.process ppid
      let k := k.modifyProcess ppid fun p => { p with waitQueue := [] }
      let sched ← k.sched.wakeAll parent.waitQueue
      some { k with sched }

/-- `SYS_EXIT` -/
def sysExit (k : Kernel) (arg : ℕ) : Option Kernel := do
  let exitCode := asI32 arg
  let current ← k.sched.currentTask
  let t ← k.sched.tasks.get current
  let k := { k with history := { k.history with exits := (t.serial, exitCode) :: k.history.exits } }
  let (k, parent) := k.markExited t.pid exitCode
  let k ← (k.reparent t.pid).wakeParent parent
  k.exitThread

/-! ### Waiting -/

/-- The target of `SYS_WAIT` is this process: its pid, or `-1`. -/
def waitMatches (target : ℕ) (p : Process) : Prop := target = 2 ^ 64 - 1 ∨ target = p.pid

instance (target : ℕ) (p : Process) : Decidable (waitMatches target p) :=
  inferInstanceAs (Decidable (_ ∨ _))

/-- `SYS_WAIT`: the search through the process table. The results are whether there
is a child that matches, and the first one of them that is a zombie. -/
def waitScan (ppid target : ℕ) : List (Option Process) → Bool → Bool × Option Process
  | [], childFound => (childFound, none)
  | none :: slots, childFound => waitScan ppid target slots childFound
  | some p :: slots, childFound =>
    if p.ppid = ppid ∧ waitMatches target p then
      if p.isZombie then (true, some p) else waitScan ppid target slots true
    else waitScan ppid target slots childFound

/-- How a round of the loop of `SYS_WAIT` ends. -/
inductive WaitResult where
  | returned (rax : ℕ)
  | harvested
  | blocked
deriving DecidableEq, Repr

/-- One round of the loop of `SYS_WAIT`. -/
def sysWaitRound (k : Kernel) (target statusPtr : ℕ) : Option (Kernel × WaitResult) := do
  let current ← k.sched.currentTask
  let t ← k.sched.tasks.get current
  match waitScan t.pid target k.sched.processes false with
  | (false, _) =>
    some (k.modifyTask current fun t => { t with pending := .none }, .returned negEchild)
  | (true, some p) =>
    if p.pid < k.sched.processes.length then
      let k := k.removeProcess p.pid p
      let k := { k with history := { k.history with harvests := p.serial :: k.history.harvests } }
      some (k.modifyTask current fun t => { t with
        pending := .harvested target statusPtr p.pid p.serial p.pageTable (p.exitCode.getD 0) },
        .harvested)
    else none
  | (true, none) => do
      let _ ← k.sched.process t.pid
      let (k, current) ← k.blockCurrent
      let k := k.modifyTask current fun t => { t with pending := .waiting target statusPtr }
      some (k.modifyProcess t.pid fun p => { p with waitQueue := p.waitQueue ++ [current] },
        .blocked)

/-- What `SYS_WAIT` writes through the status pointer: nothing if that is null or not
in user space. -/
def writtenStatus (statusPtr : ℕ) (exitCode : ℤ) : Option ℤ :=
  if statusPtr ≠ 0 ∧ statusPtr < 0x80000000 then some exitCode else none

/-- The rest of `SYS_WAIT` after the child's record was removed: destroy its address
space, write the exit code, return the pid. -/
def sysWaitFinish (k : Kernel) (current caller target statusPtr childPid child pageTable : ℕ)
    (exitCode : ℤ) : Kernel :=
  let k := k.destroyUserAddressSpace pageTable
  let k := { k with history := { k.history with
    returns := ⟨caller, target, statusPtr, child, childPid, writtenStatus statusPtr exitCode⟩ ::
      k.history.returns } }
  k.modifyTask current fun t => { t with pending := .none }

/-! ### The transition system -/

/-- The thread that executes: the current one, unless it has put itself to sleep or
is the idle task. -/
def running (k : Kernel) : Option (ℕ × Thread) := do
  let current ← k.sched.currentTask
  let t ← k.sched.tasks.get current
  if t.state = .ready ∧ k.sched.idleTaskId ≠ some current then some (current, t) else none

/-- What the heap promises about the address of a new node: it is aligned, and no
live node has it. -/
def FreshNode (k : Kernel) (node : ℕ) : Prop :=
  NodePtr node ∧ ∀ t ∈ k.sched.tasks.values, t.rbNode ≠ node

instance (k : Kernel) (node : ℕ) : Decidable (k.FreshNode node) :=
  inferInstanceAs (Decidable (_ ∧ _))

/-- What the frame allocator promises about a new PML4: it is a frame, and not in use. -/
def FreshPml4 (k : Kernel) (pml4 : ℕ) : Prop := 4096 ∣ pml4 ∧ pml4 ∉ k.history.pml4s

instance (k : Kernel) (pml4 : ℕ) : Decidable (k.FreshPml4 pml4) :=
  inferInstanceAs (Decidable (_ ∧ _))

end Kernel

/-- The steps of the system. Addresses are those that the allocators return. -/
inductive Action where
  /-- `spawn` of a kernel thread -/
  | spawn (weight stack node : ℕ)
  /-- the kernel starts a user process -/
  | spawnUser (pml4 highestVaddr weight stack node : ℕ)
  /-- a timer tick, or a thread that yields -/
  | schedule (context : ℕ)
  /-- `wake_task`, from an interrupt handler -/
  | wake (task : ℕ)
  | lock (m : ℕ)
  | unlock (m : ℕ)
  | acquire (i : ℕ)
  | release (i : ℕ)
  | join (target : ℕ)
  | sleep
  /-- a kernel thread's function returns -/
  | exitThread
  /-- `SYS_SPAWN` -/
  | sysSpawn (pml4 highestVaddr stack node : ℕ)
  /-- `SYS_EXIT` -/
  | sysExit (arg : ℕ)
  /-- `SYS_WAIT` -/
  | sysWait (target statusPtr : ℕ)
  /-- the running thread goes on with the system call it is in -/
  | resume
deriving DecidableEq, Repr

/-- The call creates a process. -/
def Action.forks : Action → Bool
  | .spawnUser .. => true
  | .sysSpawn .. => true
  | _ => false

namespace Kernel

/-- Only a thread outside of a system call, and of the right kind, can start this. -/
def Starts (user : Bool) (t : Thread) : Prop := t.pending = .none ∧ t.user = user

instance (user : Bool) (t : Thread) : Decidable (Starts user t) :=
  inferInstanceAs (Decidable (_ ∧ _))

/-- Go on with a system call. -/
def resume (k : Kernel) (current : ℕ) (t : Thread) : Option Kernel :=
  match t.pending with
  | .none => none
  | .waiting target statusPtr => (k.sysWaitRound target statusPtr).map (·.1)
  | .harvested target statusPtr childPid child pageTable exitCode =>
    some (k.sysWaitFinish current t.serial target statusPtr childPid child pageTable exitCode)

/-- What the running thread does by itself. -/
def act (k : Kernel) (current : ℕ) (t : Thread) : Action → Option Kernel
  | .lock m => if t.pending = .none then k.lock m else none
  | .acquire i => if t.pending = .none then k.acquire i else none
  | .join target => if t.pending = .none then k.join target else none
  | .sleep =>
    if t.pending = .none then k.sched.sleepCurrentTask.map fun sched => { k with sched } else none
  -- a kernel thread returns into `exit_thread`; the trampoline of a user process does not return
  | .exitThread => if Starts false t then k.exitThread else none
  | .sysSpawn pml4 highestVaddr stack node =>
    if Starts true t ∧ k.FreshNode node ∧ k.FreshPml4 pml4 then
      k.spawnUserProcess pml4 highestVaddr 1024 t.pid t.serial stack node
    else none
  | .sysExit arg => if Starts true t then k.sysExit arg else none
  | .sysWait target statusPtr =>
    if Starts true t then (k.sysWaitRound target statusPtr).map (·.1) else none
  | .resume => k.resume current t
  | _ => none

/-- One step. -/
def step (k : Kernel) : Action → Option Kernel
  | .spawn weight stack node => if k.FreshNode node then k.spawn weight stack node else none
  | .spawnUser pml4 highestVaddr weight stack node =>
    if k.FreshNode node ∧ k.FreshPml4 pml4 then
      k.spawnUserProcess pml4 highestVaddr weight 0 0 stack node
    else none
  | .schedule context => (k.schedule context).map (·.1)
  | .wake task => k.wake task
  | .unlock m => k.unlock m
  | .release i => k.release i
  | action => k.running.bind fun (current, t) => k.act current t action

/-- `_start`: process 0 with the boot page table, and the idle task. The memory, the
permits of the semaphores and the address of the stack are arbitrary. The bring-up of memory is
in `Mm.initPhysicalMemory`; firmware tables, devices and the first programs are left out. -/
def boot (kernelCr3 stack : ℕ) (mem : ℕ → SchedNode) (permits : ℕ → ℕ) : Option Kernel := do
  let process0 : Process := ⟨0, 0, none, false, [], kernelCr3, 0, 0, 0, 0, 0, 0⟩
  let idleTask ← Thread.new 0 0 stack 1024
  let sched ← Scheduler.setIdleTask { Scheduler.new mem with processes := [some process0] } idleTask
  some
    { sched
      cpu := ⟨kernelCr3, ⟨0, 0, 0, 0⟩, 0, 0⟩
      mutexes := fun _ => ⟨false, []⟩
      semaphores := fun i => ⟨permits i, []⟩
      history := ⟨1, [], [], [], [], [kernelCr3], []⟩ }

/-- The kernel has just booted, with this page table. -/
def Boots (kernelCr3 : ℕ) (k : Kernel) : Prop :=
  4096 ∣ kernelCr3 ∧ ∃ stack mem permits, boot kernelCr3 stack mem permits = some k

/-- The states of the runs from boot all of whose steps meet a condition. -/
def Reachable (kernelCr3 : ℕ) (ok : Kernel → Action → Kernel → Prop) : Kernel → Prop :=
  Run (Boots kernelCr3) step ok

end Kernel

end KernelR.Proc
