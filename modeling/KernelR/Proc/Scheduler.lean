import KernelR.Proc.Thread
import KernelR.Sched.ValidTree

/-!
# The scheduler

`Scheduler` of `process.rs` and the calls that change it: `add_task`, `wake_task`,
`schedule` with `reap_zombies`, `set_idle_task`, `sleep_current_task`. The scheduler
tree is the pointer-level tree of `rbtree.c`; a node lives where the heap put it.

A `none` is a panic: an `unwrap` or `expect` that fails, an index out of range, a
null node that is written to, or an arena whose free list is broken. The loops of
`rbtree.c` run on fuel; they walk from the root to a leaf or back, and the number of
slots of the arena bounds that.

`Kernel` adds what `schedule` touches outside of the scheduler — the registers in
`Cpu`, the frames of the page tables — and the history that the properties of whole
runs are about.
-/

namespace KernelR.Proc

open Option Foundations Sched Sched.RbTree

/-- `Scheduler`; `tree` is `tree_root` with the memory of the nodes. -/
structure Scheduler where
  processes : List (Option Process)
  tasks : ThreadArena
  totalWeight : ℕ
  systemRuntime : ℕ
  currentTask : Option ℕ
  tree : RbTree
  idleTaskId : Option ℕ
  graveyard : List ℕ

namespace Scheduler

/-- `Scheduler::new` -/
def new (mem : ℕ → SchedNode) : Scheduler where
  processes := []
  tasks := .new
  totalWeight := 0
  systemRuntime := 0
  currentTask := none
  tree := ⟨0, mem⟩
  idleTaskId := none
  graveyard := []

/-- More steps than a walk through the tree takes. -/
def fuel (s : Scheduler) : ℕ := s.tasks.slots.length + 4

/-- The record of a process, if the slot is filled. -/
def process (s : Scheduler) (pid : ℕ) : Option Process := s.processes[pid]?.join

/-- Copy the thread's `vruntime` and `deadline` into its node and insert that. -/
def enqueue (s : Scheduler) (task : Thread) : Option Scheduler := do
  let tree ← s.tree.store task.rbNode fun n =>
    { n with vruntime := task.vruntime, deadline := task.deadline }
  let tree ← rbtreeInsert s.fuel tree task.rbNode
  some { s with tree }

/-- `add_task`, with the new node at the address `node`. -/
def addTask (s : Scheduler) (task : Thread) (node : ℕ) : Option (Scheduler × ℕ) := do
  let (tasks, taskId) ← s.tasks.insert task
  let s := { s with
    totalWeight := wrap (s.totalWeight + task.weight)
    tasks := tasks.modify taskId fun t => { t with tid := taskId, rbNode := node }
    tree := s.tree.upd node fun _ =>
      ⟨task.vruntime, taskId, task.deadline, task.deadline, 0, 0, 0⟩ }
  let tree ← rbtreeInsert s.fuel s.tree node
  some ({ s with tree }, taskId)

/-- `set_idle_task` -/
def setIdleTask (s : Scheduler) (task : Thread) : Option Scheduler := do
  let (tasks, taskId) ← s.tasks.insert task
  some { s with
    tasks := tasks.modify taskId fun t => { t with tid := taskId }
    idleTaskId := some taskId }

/-- Give a thread another state. -/
def setState (s : Scheduler) (task : ℕ) (state : ThreadState) : Scheduler :=
  { s with tasks := s.tasks.modify task fun t => { t with state } }

/-- `sleep_current_task` -/
def sleepCurrentTask (s : Scheduler) : Option Scheduler :=
  match s.currentTask with
  | none => some s
  | some task => (s.tasks.get task).map fun _ => s.setState task .sleeping

/-- `wake_task` -/
def wakeTask (s : Scheduler) (task : ℕ) : Option Scheduler :=
  match s.tasks.get task with
  | none => some s
  | some t =>
    if t.state = .sleeping ∨ t.state = .blocked then
      let t := t.wake s.systemRuntime
      let s := { s with tasks := s.tasks.modify task fun _ => t }
      if s.currentTask ≠ some task then s.enqueue t else some s
    else some s

/-- `WaitQueue::wake_all`, for a queue with these waiters. -/
def wakeAll (s : Scheduler) : List ℕ → Option Scheduler
  | [] => some s
  | task :: waiters => (s.wakeTask task).bind fun s => wakeAll s waiters

/-- `schedule`: the clock after a tick. -/
def tick (s : Scheduler) : ℕ :=
  if s.totalWeight > 0 then wrap (s.systemRuntime + (1000000 <<< 20) / s.totalWeight)
  else s.systemRuntime

/-- `schedule`: the part about the thread that ran until now. A zombie loses its
node and goes to the graveyard; any other thread is charged for the tick, and put
back into the tree if it can go on. -/
def retire (s : Scheduler) (context : ℕ) : Option Scheduler :=
  match s.currentTask with
  | none => some s
  | some task =>
    match s.tasks.get task with
    | none => some s
    | some t =>
      if t.state = .zombie then
        some { s with
          graveyard := s.graveyard ++ [task]
          tasks := s.tasks.modify task fun t => { t with rbNode := 0 } }
      else
        let t := t.charge context s.tick
        let s := { s with
          systemRuntime := s.tick
          tasks := s.tasks.modify task fun _ => t }
        if t.state = .ready then do
          let idle ← s.idleTaskId
          if t.tid ≠ idle then s.enqueue t else some s
        else some s

variable {s s' : Scheduler} {i : ℕ}

/-- `wake_task` wakes a thread that is asleep, and may enter its node into the tree. -/
theorem wakeTask_inv (h : s.wakeTask i = some s') :
    s' = s ∨ ∃ t tree, s.tasks.get i = some t ∧ (t.state = .sleeping ∨ t.state = .blocked) ∧
      s' = { s with tasks := s.tasks.modify i fun _ => t.wake s.systemRuntime, tree } := by
  unfold wakeTask at h
  split at h
  · exact Or.inl (some.inj h).symm
  · next t ht =>
      split at h
      · next hasleep =>
          refine Or.inr ⟨t, ?_⟩
          dsimp only at h
          split at h
          · obtain ⟨tree, -, h⟩ := bind_eq_some_iff.mp h
            obtain ⟨tree', -, h⟩ := bind_eq_some_iff.mp h
            exact ⟨tree', ht, hasleep, (some.inj h).symm⟩
          · exact ⟨s.tree, ht, hasleep, (some.inj h).symm⟩
      · exact Or.inl (some.inj h).symm

theorem addTask_inv {task : Thread} {node : ℕ} (h : s.addTask task node = some (s', i)) :
    ∃ tasks tree, s.tasks.insert task = some (tasks, i) ∧ s' = { s with
      totalWeight := wrap (s.totalWeight + task.weight)
      tasks := tasks.modify i fun t => { t with tid := i, rbNode := node }
      tree } := by
  simp only [addTask, bind_eq_bind, bind_eq_some_iff] at h
  obtain ⟨⟨tasks, j⟩, hinsert, tree, -, h⟩ := h
  cases h
  exact ⟨tasks, tree, hinsert, rfl⟩

end Scheduler

/-- `CurrentBounds`, read and written as a whole; in the source these are four atomics. -/
structure CurrentBounds where
  heapStart : ℕ
  programBreak : ℕ
  stackStart : ℕ
  stackEnd : ℕ
deriving DecidableEq, Repr

/-- The registers and per-CPU data that `schedule` writes. The other fields of `PerCpu` are read
by assembly only. -/
structure Cpu where
  cr3 : ℕ
  currentBounds : CurrentBounds
  kernelRsp : ℕ
  tssRsp0 : ℕ
deriving DecidableEq, Repr

/-- A completed `SYS_WAIT` that returned a child. -/
structure WaitReturn where
  /-- the number of the caller -/
  caller : ℕ
  target : ℕ
  statusPtr : ℕ
  /-- the number of the child -/
  child : ℕ
  /-- the returned value -/
  rax : ℕ
  /-- what was written through the status pointer -/
  status : Option ℤ
deriving DecidableEq, Repr

/-- What happened so far. -/
structure History where
  /-- how many threads were created -/
  spawned : ℕ
  /-- the numbers of the processes that executed `SYS_EXIT`, with their codes -/
  exits : List (ℕ × ℤ)
  /-- the records taken out of the process table -/
  removed : List Process
  /-- the numbers of the children that `SYS_WAIT` harvested -/
  harvests : List ℕ
  /-- the calls of `SYS_WAIT` that returned a child -/
  returns : List WaitReturn
  /-- the PML4 frames in use -/
  pml4s : List ℕ
  /-- the PML4 frames passed to `destroy_user_address_space` -/
  destroyed : List ℕ
deriving DecidableEq, Repr

/-- `sync::Mutex`, without what it protects. -/
structure Mutex where
  isLocked : Bool
  waitQueue : List ℕ
deriving DecidableEq, Repr

/-- `Semaphore` -/
structure Semaphore where
  count : ℕ
  waitQueue : List ℕ
deriving DecidableEq, Repr

/-- The state of the machine as far as scheduling goes. Page tables are addresses of their PML4,
and `history` is a log that the kernel itself does not keep. -/
structure Kernel where
  sched : Scheduler
  cpu : Cpu
  mutexes : ℕ → Mutex
  semaphores : ℕ → Semaphore
  history : History

namespace Kernel

/-- `destroy_user_address_space`, of which only the frame of the PML4 counts here; the walk
through the tables is `Mm.Machine.destroyUserAddressSpace`. -/
def destroyUserAddressSpace (k : Kernel) (pml4 : ℕ) : Kernel :=
  { k with history := { k.history with
      pml4s := k.history.pml4s.erase pml4
      destroyed := pml4 :: k.history.destroyed } }

/-- Empty a slot of the process table. -/
def removeProcess (k : Kernel) (pid : ℕ) (p : Process) : Kernel :=
  { k with
    sched := { k.sched with processes := k.sched.processes.set pid none }
    history := { k.history with removed := p :: k.history.removed } }

/-- `reap_zombies`: what happens to the process of a dead thread. -/
def reapProcess (k : Kernel) (pid : ℕ) : Kernel :=
  match k.sched.process pid with
  | none => k
  | some p =>
    if p.ppid = 0 then (k.removeProcess pid p).destroyUserAddressSpace p.pageTable else k

/-- `reap_zombies`: one round of the loop. -/
def reapOne (k : Kernel) : Kernel :=
  match k.sched.graveyard with
  | [] => k
  | zombie :: rest =>
    if some zombie ≠ k.sched.currentTask then
      let (tasks, dead) := k.sched.tasks.remove zombie
      let k := { k with sched := { k.sched with graveyard := rest, tasks } }
      match dead with
      | none => k
      | some deadThread => k.reapProcess deadThread.pid
    else { k with sched := { k.sched with graveyard := rest ++ [zombie] } }

/-- `reap_zombies`: one round for each thread that is in the graveyard to begin with. -/
def reapZombies (k : Kernel) : Kernel := reapOne^[k.sched.graveyard.length] k

/-- `CURRENT_BOUNDS.update`, if the process is there. -/
def updateBounds (k : Kernel) (pid : ℕ) : Kernel :=
  match k.sched.process pid with
  | none => k
  | some p => { k with cpu := { k.cpu with
      currentBounds := ⟨p.heapStart, p.programBreak, p.stackStart, p.stackEnd⟩ } }

/-- `schedule` on an empty tree: the idle task goes on. -/
def switchToIdle (k : Kernel) : Option (Kernel × ℕ) := do
  let idle ← k.sched.idleTaskId
  let k := { k with sched := { k.sched with currentTask := some idle } }
  let task ← k.sched.tasks.get idle
  let k := k.updateBounds task.pid
  let k := { k with cpu := { k.cpu with kernelRsp := task.stackTop } }
  some (k, task.stackPointer)

/-- `schedule`: `CR3` is loaded when the pid changes. -/
def loadCr3 (k : Kernel) (prevPid nextPid : ℕ) : Option Kernel :=
  if prevPid ≠ nextPid then do
    let p ← k.sched.process nextPid
    some { k with cpu := { k.cpu with cr3 := p.pageTable / 4096 * 4096 } }
  else some k

/-- The pid of the thread that ran until now; `usize::MAX` if there is none. -/
def prevPid (k : Kernel) : Option ℕ :=
  match k.sched.currentTask with
  | some prev => (k.sched.tasks.get prev).map (·.pid)
  | none => some (2 ^ 64 - 1)

/-- `schedule`: the thread of the node is taken out of the tree and goes on. -/
def switchTo (k : Kernel) (node : ℕ) : Option (Kernel × ℕ) := do
  let tree ← rbtreeRemove k.sched.fuel k.sched.tree node
  let winner := (← tree.load node).taskId
  let prevPid ← k.prevPid
  let k := { k with sched := { k.sched with tree, currentTask := some winner } }
  let task ← k.sched.tasks.get winner
  let k := k.updateBounds task.pid
  let k ← k.loadCr3 prevPid task.pid
  let k := { k with cpu := { k.cpu with kernelRsp := task.stackTop, tssRsp0 := task.stackTop } }
  some (k, task.stackPointer)

/-- `schedule`: ask the tree for a thread and switch to it, or to the idle task. -/
def dispatch (k : Kernel) : Option (Kernel × ℕ) := do
  let node ← rbtreePickEevdf k.sched.fuel k.sched.tree k.sched.tree.root k.sched.systemRuntime
  if node = 0 then k.switchToIdle else k.switchTo node

/-- `schedule`; the second component is the context that the interrupt returns to. Sums and
products wrap here where the build panics (`Unwrapped` says that they fit), and the memory of a
node that is freed stays as it is. -/
def schedule (k : Kernel) (context : ℕ) : Option (Kernel × ℕ) :=
  if k.sched.tasks.isEmpty then some (k, context)
  else do
    let k := k.reapZombies
    let sched ← k.sched.retire context
    dispatch { k with sched }

end Kernel

end KernelR.Proc
