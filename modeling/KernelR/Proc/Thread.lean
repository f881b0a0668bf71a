import Mathlib.Algebra.Group.Nat.Defs
import Mathlib.Data.Int.Notation
import KernelR.Foundations.Arena

/-!
# Threads and processes

The records of `process.rs`: `Thread`, the arena they live in, and `Process`. A
thread carries the scheduling data of EEVDF (`vruntime`, `deadline`, `timeSlice`)
and BORE (`burstScore`); `Thread.new`, `effectiveWeight` and `updateDeadline` compute
them as the source does.

The kernel is built with overflow checks: a sum or a product that does not fit into 64 bits
panics, and so does a shift by 64 or more; only the bits that `<<` moves out are dropped in
silence. The model goes on with the lower 64 bits (`wrap`), so that its runs are those of the
kernel and some that have panicked. Where this matters a statement says what has to fit.

Three fields of `Thread` and two of `Process` are not in the source. They record
what a proof has to talk about: whether the thread was started at
`user_mode_trampoline`, what is left to do of the system call on its kernel stack,
and the number under which a thread and the record of its process were created.
-/

namespace KernelR.Proc

open Foundations

/-- The lower 64 bits: what is left of a shift, and what the model goes on with where a sum or a
product panics. -/
def wrap (x : ℕ) : ℕ := x % 2 ^ 64

/-- `ThreadState` -/
inductive ThreadState where
  | running
  | ready
  | sleeping
  | blocked
  | zombie
deriving DecidableEq, Repr

/-- What a thread in the middle of a system call goes on with when it runs next. -/
inductive Pending where
  /-- no system call in progress -/
  | none
  /-- the loop of `SYS_WAIT`, from its top -/
  | waiting (target statusPtr : ℕ)
  /-- `SYS_WAIT` after the record of the child was taken out of the table -/
  | harvested (target statusPtr childPid child pageTable : ℕ) (exitCode : ℤ)
deriving DecidableEq, Repr

/-- `Thread`. `page_table` and `next_waiter`, which nothing reads, are left out, and of the stack
there is only the address; `user`, `pending` and `serial` belong to the model. -/
structure Thread where
  tid : ℕ
  pid : ℕ
  stackPointer : ℕ
  state : ThreadState
  /-- the address of the kernel stack -/
  stack : ℕ
  weight : ℕ
  realRuntime : ℕ
  vruntime : ℕ
  lag : ℤ
  timeSlice : ℕ
  deadline : ℕ
  burstScore : ℕ
  rbNode : ℕ
  joinQueue : List ℕ
  /-- started at `user_mode_trampoline` -/
  user : Bool
  pending : Pending
  serial : ℕ
deriving DecidableEq, Repr

/-- What a thread is outside of scheduling: whose it is, and where it stands in its
life. -/
structure TaskView where
  pid : ℕ
  user : Bool
  state : ThreadState
  pending : Pending
  serial : ℕ
deriving DecidableEq, Repr

/-- `ThreadArena` -/
abbrev ThreadArena := Arena Thread

/-- `Process`, without its file descriptors, which are kept apart. `serial` tells the processes
that had the same slot from each other. -/
structure Process where
  pid : ℕ
  ppid : ℕ
  exitCode : Option ℤ
  isZombie : Bool
  waitQueue : List ℕ
  pageTable : ℕ
  heapStart : ℕ
  programBreak : ℕ
  stackStart : ℕ
  stackEnd : ℕ
  serial : ℕ
  /-- the number of the process that spawned this one -/
  parent : ℕ
deriving DecidableEq, Repr

/-- `KERNEL_STACK_SIZE` -/
def kernelStackSize : ℕ := 0x400 * 128

/-- `USER_STACK_SIZE` -/
def userStackSize : ℕ := 0x400000

/-- `SCHEDULER_TARGET_LATENCY` -/
def schedulerTargetLatency : ℕ := 6 * 1000000

/-- `SCHEDULER_MIN_GRANULARITY` -/
def schedulerMinGranularity : ℕ := 4 * 1000000

/-- `NICE_0_LOAD` -/
def nice0Load : ℕ := 1024

/-- `size_of::<ThreadContext>()`: 21 registers. -/
def threadContextSize : ℕ := 21 * 8

namespace TaskView

/-- A wake-up reaches the thread. -/
def Asleep (v : TaskView) : Prop := v.state = .sleeping ∨ v.state = .blocked

instance (v : TaskView) : Decidable v.Asleep := inferInstanceAs (Decidable (_ ∨ _))

/-- A wake-up: a thread that is asleep becomes `Ready`. -/
def wake (v : TaskView) : TaskView := if v.Asleep then { v with state := .ready } else v

end TaskView

namespace Thread

/-- The view of a thread. -/
def view (t : Thread) : TaskView := ⟨t.pid, t.user, t.state, t.pending, t.serial⟩

/-- `Thread::new`, on a stack at `stack`. A weight of zero is a division by zero. -/
def new (totalWeight systemRuntime stack weight : ℕ) : Option Thread :=
  if weight = 0 then none
  else
    let timeSlice :=
      if totalWeight > 0 then
        max schedulerMinGranularity (wrap (weight * schedulerTargetLatency) / totalWeight)
      else
        max schedulerMinGranularity (wrap (weight * schedulerTargetLatency) / weight)
    some
      { tid := 0
        pid := 0
        stackPointer := stack + kernelStackSize - 8 - threadContextSize
        state := .ready
        stack
        weight
        realRuntime := 0
        vruntime := 0
        lag := Int.bmod systemRuntime (2 ^ 64)
        timeSlice
        deadline := wrap (wrap (wrap (timeSlice * nice0Load) <<< 20) / weight)
        burstScore := 0
        rbNode := 0
        joinQueue := []
        user := false
        pending := .none
        serial := 0 }

/-- `effective_weight`. A shift by 64 penalty points or more panics; here nothing is left of the
weight then. -/
def effectiveWeight (t : Thread) : ℕ :=
  let penaltyPoints := t.burstScore / schedulerMinGranularity
  max 1 (t.weight >>> penaltyPoints)

/-- `update_deadline`. It panics if the sum does not fit into 64 bits (`DeadlineFits`). -/
def updateDeadline (t : Thread) : Thread :=
  let effWeight := t.effectiveWeight
  let vruntime := wrap (t.realRuntime <<< 20) / effWeight
  let virtualSlice := wrap (t.timeSlice <<< 20) / effWeight
  { t with vruntime, deadline := wrap (vruntime + virtualSlice) }

/-- The highest address of the kernel stack. -/
def stackTop (t : Thread) : ℕ := t.stack + kernelStackSize

/-- `wake_task`, the changes to the thread itself. -/
def wake (systemRuntime : ℕ) (t : Thread) : Thread :=
  let minVruntime := systemRuntime - t.timeSlice
  updateDeadline
    { t with
      state := .ready
      vruntime := if t.vruntime < minVruntime then minVruntime else t.vruntime
      burstScore := 0 }

/-- `schedule`, the bookkeeping for a thread that ran for one tick; `systemRuntime`
is the clock after the tick. -/
def charge (context systemRuntime : ℕ) (t : Thread) : Thread :=
  let timeConsumed := 1000000
  let t := updateDeadline
    { t with
      stackPointer := context
      realRuntime := wrap (t.realRuntime + timeConsumed)
      burstScore := wrap (t.burstScore + timeConsumed) >>> 1 }
  { t with lag := Int.bmod ((systemRuntime : ℤ) - t.vruntime) (2 ^ 64) }

end Thread

end KernelR.Proc
