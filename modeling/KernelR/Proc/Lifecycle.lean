import KernelR.Proc.SchedInvariant
import KernelR.Proc.Syscall

/-!
# The life of processes

A second, abstract machine: processes, threads and address spaces without the
scheduling. Its state is what `Kernel.view` leaves of the kernel — who the threads
are and whether they sleep, the process table, who is running, the graveyard, `CR3`
and the history. Which of the `Ready` threads runs next is left open.

`Step` says what can happen. The invariants of the following modules start from its
inversions and not from its cases:

* `Step.thread_from` and `Step.record_from`: where a thread, or a record of the table,
  that is there after a step comes from;
* `Step.pending_from`: what a thread is about to do;
* `Step.removed`: what becomes of the records;
* `Step.spawned_le` and `Step.exits`: what the history gains.
-/

namespace KernelR.Proc

open Function Foundations

/-- The kernel without its scheduling. -/
structure View where
  procs : ℕ → Option Process
  threads : ℕ → Option TaskView
  current : Option ℕ
  idle : Option ℕ
  graveyard : List ℕ
  cr3 : ℕ
  history : History

/-- The view of a kernel. -/
def Kernel.view (k : Kernel) : View where
  procs := k.sched.process
  threads := k.sched.threads
  current := k.sched.currentTask
  idle := k.sched.idleTaskId
  graveyard := k.sched.graveyard
  cr3 := k.cpu.cr3
  history := k.history

/-- The kinds of steps. -/
inductive Event where
  | thread
  /-- a process gets this pid -/
  | fork (n : ℕ)
  | wake
  | sleep
  | exit
  | sysExit
  | waitNone
  | harvest
  | waitBlock
  | finish
  | reap
  | bury
  | switch
  | idle
deriving DecidableEq, Repr

namespace View

/-- The thread `c` executes. -/
structure Running (v : View) (c : ℕ) (t : TaskView) : Prop where
  current : v.current = some c
  thread : v.threads c = some t
  ready : t.state = .ready
  busy : v.idle ≠ some c

/-- Change a thread. -/
def setThread (v : View) (c : ℕ) (t : TaskView) : View :=
  { v with threads := Function.update v.threads c (some t) }

/-- Wake the threads of a list. -/
def wake (v : View) (waiters : List ℕ) : View :=
  { v with threads := wakeThreads waiters v.threads }

/-- A record that `spawn_user_process` puts into the empty slot `n`. -/
structure Newborn (v : View) (n : ℕ) (p : Process) : Prop where
  empty : v.procs n = none
  small : n < 2 ^ 60
  pid : p.pid = n
  exitCode : p.exitCode = none
  isZombie : p.isZombie = false
  waitQueue : p.waitQueue = []
  serial : p.serial = v.history.spawned
  aligned : 4096 ∣ p.pageTable
  fresh : p.pageTable ∉ v.history.pml4s

/-- A new record names its parent: nobody, or the process that executes `SYS_SPAWN`. -/
def Fathered (v : View) (p : Process) : Prop :=
  p.ppid = 0 ∧ p.parent = 0 ∨
    ∃ c t, v.Running c t ∧ t.user = true ∧ p.ppid = t.pid ∧ p.parent = t.serial

/-- The pid in the process table whose wait queue an exit of the process `pid` wakes. -/
def wokenParent (v : View) (pid : ℕ) : Option ℕ :=
  (v.procs pid).bind fun p => (v.procs p.ppid).map fun _ => p.ppid

/-- The threads in that queue. -/
def parentQueue (v : View) (pid : ℕ) : List ℕ :=
  match (v.wokenParent pid).bind v.procs with
  | none => []
  | some parent => parent.waitQueue

/-- The record in slot `q` after the exit of the process `pid`. -/
def exitRecord (pid : ℕ) (exitCode : ℤ) (parent : Option ℕ) (q : ℕ) (p : Process) : Process :=
  { p with
    exitCode := if q = pid then some exitCode else p.exitCode
    isZombie := if q = pid then true else p.isZombie
    ppid := if p.ppid = pid then 0 else p.ppid
    waitQueue := if parent = some q then [] else p.waitQueue }

/-- A call of `SYS_WAIT` with this target is at the top of its loop. -/
def AtLoop (t : TaskView) (target statusPtr : ℕ) : Prop :=
  t.pending = .none ∨ t.pending = .waiting target statusPtr

/-- The process in slot `q` is a child of `pid` that the target means. -/
def IsChild (v : View) (pid target q : ℕ) (p : Process) : Prop :=
  v.procs q = some p ∧ p.ppid = pid ∧ Kernel.waitMatches target p

/-- Take the record `p` out of the table. -/
def removeProcess (v : View) (n : ℕ) (p : Process) : View :=
  { v with
    procs := Function.update v.procs n none
    history := { v.history with removed := p :: v.history.removed } }

/-- Give the frame of a PML4 back. -/
def destroy (v : View) (pml4 : ℕ) : View :=
  { v with history := { v.history with
      pml4s := v.history.pml4s.erase pml4
      destroyed := pml4 :: v.history.destroyed } }

/-- The process of a dead thread goes if it is an orphan. -/
def reapProcess (v : View) (n : ℕ) : View :=
  match v.procs n with
  | none => v
  | some p => if p.ppid = 0 then (v.removeProcess n p).destroy p.pageTable else v

/-- A dead thread leaves the arena. -/
def removeThread (v : View) (z : ℕ) (rest : List ℕ) : View :=
  { v with graveyard := rest, threads := Function.update v.threads z none }

/-- The pid that `schedule` compares with. -/
def prevPid (v : View) : Option ℕ :=
  match v.current with
  | some c => (v.threads c).map TaskView.pid
  | none => some (2 ^ 64 - 1)

/-- If the current thread is dead, it is in the graveyard. -/
def DeadBuried (v : View) : Prop :=
  ∀ {c t}, v.current = some c → v.threads c = some t → t.state = .zombie → c ∈ v.graveyard

/-- **The abstract machine.** -/
inductive Step (v : View) : Event → View → Prop
  /-- a kernel thread is spawned -/
  | thread {i : ℕ} : v.threads i = none →
      Step v .thread
        { v with
          threads := Function.update v.threads i
            (some ⟨0, false, .ready, .none, v.history.spawned⟩)
          history := { v.history with spawned := v.history.spawned + 1 } }
  /-- a process is spawned, by the kernel or by the running process -/
  | fork {i n : ℕ} {p : Process} : v.threads i = none → v.Newborn n p →
      v.Fathered p →
      Step v (.fork n)
        { v with
          procs := Function.update v.procs n (some p)
          threads := Function.update v.threads i
            (some ⟨n, true, .ready, .none, v.history.spawned⟩)
          history := { v.history with
            spawned := v.history.spawned + 1
            pml4s := p.pageTable :: v.history.pml4s } }
  | wake (waiters : List ℕ) : Step v .wake (v.wake waiters)
  /-- the running thread goes to sleep outside of `SYS_WAIT` -/
  | sleep {c : ℕ} {t : TaskView} {state : ThreadState} : v.Running c t → t.pending = .none →
      state = .blocked ∨ state = .sleeping → Step v .sleep (v.setThread c { t with state })
  /-- a kernel thread ends -/
  | exit {c : ℕ} {t : TaskView} : v.Running c t → t.user = false →
      Step v .exit (v.setThread c { t with state := .zombie })
  | sysExit {c : ℕ} {t : TaskView} (exitCode : ℤ) : v.Running c t → t.user = true →
      t.pending = .none →
      Step v .sysExit
        { (v.wake (v.parentQueue t.pid)).setThread c { t with state := .zombie } with
          procs := fun q =>
            (v.procs q).map (exitRecord t.pid exitCode (v.wokenParent t.pid) q)
          history := { v.history with exits := (t.serial, exitCode) :: v.history.exits } }
  /-- `SYS_WAIT` finds no child -/
  | waitNone {c : ℕ} {t : TaskView} {target statusPtr : ℕ} : v.Running c t → t.user = true →
      AtLoop t target statusPtr → (∀ q p, ¬ v.IsChild t.pid target q p) →
      Step v .waitNone (v.setThread c { t with pending := .none })
  /-- `SYS_WAIT` finds a child that has exited -/
  | harvest {c q : ℕ} {t : TaskView} {target statusPtr : ℕ} {p : Process} : v.Running c t →
      t.user = true → AtLoop t target statusPtr → v.IsChild t.pid target q p →
      p.isZombie = true →
      Step v .harvest
        (View.setThread
          { v.removeProcess p.pid p with
            history := { v.history with
              removed := p :: v.history.removed
              harvests := p.serial :: v.history.harvests } }
          c { t with
            pending := .harvested target statusPtr p.pid p.serial p.pageTable
              (p.exitCode.getD 0) })
  /-- `SYS_WAIT` finds living children only -/
  | waitBlock {c q : ℕ} {t : TaskView} {target statusPtr : ℕ} {p own : Process} :
      v.Running c t → t.user = true → AtLoop t target statusPtr → v.IsChild t.pid target q p →
      (∀ q p, v.IsChild t.pid target q p → p.isZombie = false) → v.procs t.pid = some own →
      Step v .waitBlock
        { v.setThread c { t with state := .blocked, pending := .waiting target statusPtr } with
          procs := Function.update v.procs t.pid
            (some { own with waitQueue := own.waitQueue ++ [c] }) }
  /-- `SYS_WAIT` returns a child -/
  | finish {c : ℕ} {t : TaskView} {target statusPtr childPid child pageTable : ℕ}
      {exitCode : ℤ} : v.Running c t →
      t.pending = .harvested target statusPtr childPid child pageTable exitCode →
      Step v .finish
        (View.setThread
          { v.destroy pageTable with
            history := { (v.destroy pageTable).history with
              returns := ⟨t.serial, target, statusPtr, child, childPid,
                Kernel.writtenStatus statusPtr exitCode⟩ :: v.history.returns } }
          c { t with pending := .none })
  /-- a dead thread is reaped, and with it an orphan -/
  | reap {z : ℕ} {rest : List ℕ} {t : TaskView} : v.graveyard = z :: rest → v.current ≠ some z →
      v.threads z = some t → t.state = .zombie →
      Step v .reap ((v.removeThread z rest).reapProcess t.pid)
  /-- the current thread is dead and goes to the graveyard -/
  | bury {c : ℕ} {t : TaskView} : v.current = some c → v.threads c = some t →
      t.state = .zombie → Step v .bury { v with graveyard := v.graveyard ++ [c] }
  /-- a thread that waits for the CPU gets it -/
  | switch {i prev cr3 : ℕ} {t : TaskView} : v.threads i = some t → t.state = .ready →
      v.idle ≠ some i → v.prevPid = some prev →
      (prev = t.pid ∧ cr3 = v.cr3 ∨ prev ≠ t.pid ∧ ∃ p, v.procs t.pid = some p ∧
        cr3 = p.pageTable / 4096 * 4096) →
      Step v .switch { v with current := some i, cr3 }
  /-- no thread waits for the CPU -/
  | idle {i : ℕ} : v.idle = some i →
      (∀ j t, v.threads j = some t → t.state = .ready → v.idle = some j) →
      Step v .idle { v with current := some i }

/-- Several steps, each from a state in which it is allowed. -/
inductive Path (allowed : View → Event → Prop) : View → View → Prop
  | refl (v : View) : Path allowed v v
  | tail {v v₁ v₂ : View} {e : Event} : Path allowed v v₁ → Step v₁ e v₂ → allowed v₁ e →
      Path allowed v v₂

variable {allowed : View → Event → Prop} {j : ℕ} {p : Process} {t t' : TaskView}

theorem Path.single {v v' : View} {e : Event} (h : Step v e v')
    (ha : allowed v e) : Path allowed v v' :=
  .tail (.refl v) h ha

theorem Path.trans {v₁ v₂ v₃ : View}
    (h : Path allowed v₁ v₂) (h' : Path allowed v₂ v₃) : Path allowed v₁ v₃ := by
  induction h' with
  | refl => exact h
  | tail _ hs ha ih => exact .tail ih hs ha

theorem Path.invariant {J : View → Prop} {v v' : View}
    (h : Path allowed v v') (hstep : ∀ v e v', J v → Step v e v' → allowed v e → J v')
    (hv : J v) : J v' := by
  induction h with
  | refl => exact hv
  | tail _ hs ha ih => exact hstep _ _ _ ih hs ha

/-- The view at boot: process 0 and the idle task. -/
def initial (kernelCr3 : ℕ) : View where
  procs q := if q = 0 then some ⟨0, 0, none, false, [], kernelCr3, 0, 0, 0, 0, 0, 0⟩ else none
  threads j := if j = 0 then some ⟨0, false, .ready, .none, 0⟩ else none
  current := none
  idle := some 0
  graveyard := []
  cr3 := kernelCr3
  history := ⟨1, [], [], [], [], [kernelCr3], []⟩

theorem initial_procs {kernelCr3 q : ℕ} : (initial kernelCr3).procs q = some p ↔
      q = 0 ∧ ⟨0, 0, none, false, [], kernelCr3, 0, 0, 0, 0, 0, 0⟩ = p := by
  simp [initial]

theorem initial_threads {kernelCr3 j : ℕ} :
    (initial kernelCr3).threads j = some t ↔ j = 0 ∧ ⟨0, false, .ready, .none, 0⟩ = t := by
  simp [initial]

/-! ### Inversions -/

variable {v v' : View} {e : Event}

/-- `reap_zombies` leaves the table as it is, or takes an orphan out of it. -/
theorem reapProcess_cases (v : View) (n : ℕ) :
    v.reapProcess n = v ∨ ∃ p, v.procs n = some p ∧ p.ppid = 0 ∧
      v.reapProcess n = (v.removeProcess n p).destroy p.pageTable := by
  unfold reapProcess
  cases hp : v.procs n with
  | none => exact Or.inl rfl
  | some p =>
    by_cases h0 : p.ppid = 0
    · exact Or.inr ⟨p, rfl, h0, if_pos h0⟩
    · exact Or.inl (if_neg h0)

@[simp] theorem threads_reapProcess (v : View) (n : ℕ) : (v.reapProcess n).threads = v.threads := by
  obtain heq | ⟨p, -, -, heq⟩ := v.reapProcess_cases n
  · rw [heq]
  · rw [heq]
    rfl

@[simp] theorem current_reapProcess (v : View) (n : ℕ) : (v.reapProcess n).current = v.current := by
  obtain heq | ⟨p, -, -, heq⟩ := v.reapProcess_cases n
  · rw [heq]
  · rw [heq]
    rfl

@[simp] theorem idle_reapProcess (v : View) (n : ℕ) : (v.reapProcess n).idle = v.idle := by
  obtain heq | ⟨p, -, -, heq⟩ := v.reapProcess_cases n
  · rw [heq]
  · rw [heq]
    rfl

theorem update_eq_some_iff {α : Type*} {f : ℕ → Option α} {c j : ℕ} {a b : α} :
    update f c (some a) j = some b ↔ j = c ∧ b = a ∨ j ≠ c ∧ f j = some b := by
  by_cases hj : j = c
  · subst hj
    simp [eq_comm]
  · simp [hj]

theorem update_none_eq_some_iff {α : Type*} {f : ℕ → Option α} {c j : ℕ} {b : α} :
    update f c none j = some b ↔ j ≠ c ∧ f j = some b := by
  by_cases hj : j = c
  · subst hj
    simp
  · simp [hj]

theorem wakeThreads_eq_some {waiters : List ℕ} {threads : ℕ → Option TaskView}
    (h : wakeThreads waiters threads j = some t') :
    ∃ t, threads j = some t ∧
      (t' = t ∨ t.Asleep ∧ j ∈ waiters ∧ t' = { t with state := .ready }) := by
  unfold wakeThreads at h
  split at h
  · next hj =>
      obtain ⟨t, ht, rfl⟩ := Option.map_eq_some_iff.mp h
      refine ⟨t, ht, ?_⟩
      unfold TaskView.wake
      split
      · next hasleep => exact Or.inr ⟨hasleep, hj, rfl⟩
      · exact Or.inl rfl
  · exact ⟨t', h, Or.inl rfl⟩

/-- `t'` is the thread `t`, maybe later. -/
structure SameThread (t t' : TaskView) : Prop where
  pid : t'.pid = t.pid
  user : t'.user = t.user
  serial : t'.serial = t.serial
  /-- kernel threads make no system calls -/
  call : t'.pending = t.pending ∨ t'.pending = .none ∨ t.user = true

theorem SameThread.state (t : TaskView) (state : ThreadState) :
    SameThread t { t with state } :=
  ⟨rfl, rfl, rfl, Or.inl rfl⟩

/-- `p'` is the record `p`, maybe later. -/
structure SameRecord (p p' : Process) : Prop where
  pid : p'.pid = p.pid
  serial : p'.serial = p.serial
  parent : p'.parent = p.parent
  pageTable : p'.pageTable = p.pageTable

/-- The thread dies in this step. -/
def Dies (v : View) (e : Event) (j : ℕ) (t : TaskView) : Prop :=
  v.Running j t ∧ (e = .exit ∧ t.user = false ∨ e = .sysExit ∧ t.user = true)

/-- A thread that a step adds. -/
structure Spawned (v : View) (e : Event) (j : ℕ) (t : TaskView) : Prop where
  empty : v.threads j = none
  ready : t.state = .ready
  pending : t.pending = .none
  serial : t.serial = v.history.spawned
  kind : t.user = false ∧ t.pid = 0 ∧ e = .thread ∨ t.user = true ∧ e = .fork t.pid

/-- Where the thread `t'` in slot `j` comes from. -/
inductive ThreadFrom (v : View) (e : Event) (j : ℕ) (t' : TaskView) : Prop
  /-- it was there, and is dead if and only if it was -/
  | kept {t : TaskView} : v.threads j = some t → SameThread t t' →
      (t'.state = .zombie ↔ t.state = .zombie) → ThreadFrom v e j t'
  | died {t : TaskView} : v.Dies e j t → SameThread t t' → t'.state = .zombie →
      ThreadFrom v e j t'
  | new : v.Spawned e j t' → ThreadFrom v e j t'

theorem ThreadFrom.refl (h : v.threads j = some t) : ThreadFrom v e j t :=
  .kept h (.state ..) Iff.rfl

theorem ThreadFrom.woken {waiters : List ℕ}
    (h : wakeThreads waiters v.threads j = some t') : ThreadFrom v e j t' := by
  obtain ⟨t, ht, rfl | ⟨hasleep, -, rfl⟩⟩ := wakeThreads_eq_some h
  · exact .refl ht
  · refine .kept ht (.state ..) (iff_of_false (fun h => by cases h) fun hz => ?_)
    rw [TaskView.Asleep, hz] at hasleep
    rcases hasleep with h | h <;> cases h

/-- **Where a thread comes from.** -/
theorem Step.thread_from (hs : Step v e v') (h : v'.threads j = some t') : ThreadFrom v e j t' := by
  cases hs with
  | thread hnone =>
    obtain ⟨rfl, rfl⟩ | ⟨-, h⟩ := update_eq_some_iff.mp h
    · exact .new ⟨hnone, rfl, rfl, rfl, Or.inl ⟨rfl, rfl, rfl⟩⟩
    · exact .refl h
  | fork hnone _ _ =>
    obtain ⟨rfl, rfl⟩ | ⟨-, h⟩ := update_eq_some_iff.mp h
    · exact .new ⟨hnone, rfl, rfl, rfl, Or.inr ⟨rfl, rfl⟩⟩
    · exact .refl h
  | wake waiters => exact .woken h
  | sleep hrun _ hstate =>
    obtain ⟨rfl, rfl⟩ | ⟨-, h⟩ := update_eq_some_iff.mp h
    · refine .kept hrun.thread (.state ..) (iff_of_false ?_ ?_)
      · rcases hstate with rfl | rfl
        · nofun
        · nofun
      · rw [hrun.ready]
        nofun
    · exact .refl h
  | exit hrun huser =>
    obtain ⟨rfl, rfl⟩ | ⟨-, h⟩ := update_eq_some_iff.mp h
    · exact .died ⟨hrun, Or.inl ⟨rfl, huser⟩⟩ (.state ..) rfl
    · exact .refl h
  | sysExit exitCode hrun huser =>
    obtain ⟨rfl, rfl⟩ | ⟨-, h⟩ := update_eq_some_iff.mp h
    · exact .died ⟨hrun, Or.inr ⟨rfl, huser⟩⟩ (.state ..) rfl
    · exact .woken h
  | waitNone hrun | finish hrun =>
    obtain ⟨rfl, rfl⟩ | ⟨-, h⟩ := update_eq_some_iff.mp h
    · exact .kept hrun.thread ⟨rfl, rfl, rfl, Or.inr (Or.inl rfl)⟩ Iff.rfl
    · exact .refl h
  | harvest hrun huser =>
    obtain ⟨rfl, rfl⟩ | ⟨-, h⟩ := update_eq_some_iff.mp h
    · exact .kept hrun.thread ⟨rfl, rfl, rfl, Or.inr (Or.inr huser)⟩ Iff.rfl
    · exact .refl h
  | waitBlock hrun huser =>
    obtain ⟨rfl, rfl⟩ | ⟨-, h⟩ := update_eq_some_iff.mp h
    · refine .kept hrun.thread ⟨rfl, rfl, rfl, Or.inr (Or.inr huser)⟩ (iff_of_false nofun ?_)
      rw [hrun.ready]
      nofun
    · exact .refl h
  | reap =>
    rw [threads_reapProcess] at h
    exact .refl (update_none_eq_some_iff.mp h).2
  | bury | switch | idle => exact .refl h

theorem ThreadFrom.old_or_new (h : ThreadFrom v e j t') :
    (∃ t, v.threads j = some t ∧ SameThread t t') ∨ v.Spawned e j t' := by
  cases h with
  | kept ht hsame => exact Or.inl ⟨_, ht, hsame⟩
  | died hdies hsame => exact Or.inl ⟨_, hdies.1.thread, hsame⟩
  | new hnew => exact Or.inr hnew

theorem Step.spawned_unique (hs : Step v e v') {j j' : ℕ}
    (hj : v'.threads j = some t) (hj' : v'.threads j' = some t') (hnew : v.Spawned e j t)
    (hnew' : v.Spawned e j' t') : j = j' := by
  have hslot : ∀ {i : ℕ} {a : TaskView}, v'.threads = update v.threads i (some a) →
      j = j' := by
    intro i a hthreads
    rw [hthreads] at hj hj'
    obtain ⟨rfl, -⟩ | ⟨-, hold⟩ := update_eq_some_iff.mp hj
    · obtain ⟨rfl, -⟩ | ⟨-, hold⟩ := update_eq_some_iff.mp hj'
      · rfl
      · exact nomatch hnew'.empty.symm.trans hold
    · exact nomatch hnew.empty.symm.trans hold
  obtain ⟨-, -, rfl⟩ | ⟨-, rfl⟩ := hnew.kind
  · cases hs with
    | thread => exact hslot rfl
  · cases hs with
    | fork => exact hslot rfl

/-- **Where a thread stands in its system call**: outside, where it was, or where
`SYS_WAIT` has just brought it. -/
theorem Step.pending_from (hs : Step v e v') (h : v'.threads j = some t') :
    t'.pending = .none ∨ (∃ t, v.threads j = some t ∧ t'.pending = t.pending) ∨ v.current = some j ∧
        (e = .waitBlock ∧ (∃ target statusPtr, t'.pending = .waiting target statusPtr) ∨
          e = .harvest) := by
  have hwoken : ∀ {waiters : List ℕ}, wakeThreads waiters v.threads j = some t' →
      ∃ t, v.threads j = some t ∧ t'.pending = t.pending := by
    intro waiters hw
    obtain ⟨t, ht, rfl | ⟨-, -, rfl⟩⟩ := wakeThreads_eq_some hw
    · exact ⟨_, ht, rfl⟩
    · exact ⟨t, ht, rfl⟩
  cases hs with
  | thread | fork | waitNone | finish =>
    obtain ⟨-, rfl⟩ | ⟨-, h⟩ := update_eq_some_iff.mp h
    · exact Or.inl rfl
    · exact Or.inr (Or.inl ⟨t', h, rfl⟩)
  | wake waiters => exact Or.inr (Or.inl (hwoken h))
  | sleep hrun | exit hrun =>
    obtain ⟨rfl, rfl⟩ | ⟨-, h⟩ := update_eq_some_iff.mp h
    · exact Or.inr (Or.inl ⟨_, hrun.thread, rfl⟩)
    · exact Or.inr (Or.inl ⟨t', h, rfl⟩)
  | sysExit exitCode hrun =>
    obtain ⟨rfl, rfl⟩ | ⟨-, h⟩ := update_eq_some_iff.mp h
    · exact Or.inr (Or.inl ⟨_, hrun.thread, rfl⟩)
    · exact Or.inr (Or.inl (hwoken h))
  | harvest hrun =>
    obtain ⟨rfl, rfl⟩ | ⟨-, h⟩ := update_eq_some_iff.mp h
    · exact Or.inr (Or.inr ⟨hrun.current, Or.inr rfl⟩)
    · exact Or.inr (Or.inl ⟨t', h, rfl⟩)
  | waitBlock hrun =>
    obtain ⟨rfl, rfl⟩ | ⟨-, h⟩ := update_eq_some_iff.mp h
    · exact Or.inr (Or.inr ⟨hrun.current, Or.inl ⟨rfl, _, _, rfl⟩⟩)
    · exact Or.inr (Or.inl ⟨t', h, rfl⟩)
  | reap =>
    rw [threads_reapProcess] at h
    exact Or.inr (Or.inl ⟨t', (update_none_eq_some_iff.mp h).2, rfl⟩)
  | bury | switch | idle => exact Or.inr (Or.inl ⟨t', h, rfl⟩)

/-- Where the record `p'` in slot `q` comes from. -/
inductive RecordFrom (v : View) (e : Event) (q : ℕ) (p' : Process) : Prop
  /-- it was there, and only `SYS_EXIT` changed more than the queue -/
  | kept {p : Process} : v.procs q = some p → SameRecord p p' →
      (e ≠ .sysExit → p'.ppid = p.ppid ∧ p'.isZombie = p.isZombie ∧ p'.exitCode = p.exitCode) →
      RecordFrom v e q p'
  | new : e = .fork q → v.Newborn q p' → v.Fathered p' → RecordFrom v e q p'

theorem RecordFrom.refl {q : ℕ} (h : v.procs q = some p) : RecordFrom v e q p :=
  .kept h ⟨rfl, rfl, rfl, rfl⟩ fun _ => ⟨rfl, rfl, rfl⟩

theorem reapProcess_procs {n q : ℕ} (h : (v.reapProcess n).procs q = some p) :
    v.procs q = some p := by
  obtain heq | ⟨p₀, -, -, heq⟩ := v.reapProcess_cases n
  · rwa [heq] at h
  · rw [heq] at h
    exact (update_none_eq_some_iff.mp h).2

/-- **Where a record comes from.** -/
theorem Step.record_from (hs : Step v e v') {q : ℕ} {p' : Process} (h : v'.procs q = some p') :
    RecordFrom v e q p' := by
  cases hs with
  | fork _ hnew hfather =>
    obtain ⟨rfl, rfl⟩ | ⟨-, h⟩ := update_eq_some_iff.mp h
    · exact .new rfl hnew hfather
    · exact .refl h
  | sysExit exitCode hrun =>
    obtain ⟨p, hp, rfl⟩ := Option.map_eq_some_iff.mp h
    exact .kept hp ⟨rfl, rfl, rfl, rfl⟩ fun hne => absurd rfl hne
  | harvest => exact .refl (update_none_eq_some_iff.mp h).2
  | waitBlock _ _ _ _ _ hown =>
    obtain ⟨rfl, rfl⟩ | ⟨-, h⟩ := update_eq_some_iff.mp h
    · exact .kept hown ⟨rfl, rfl, rfl, rfl⟩ fun _ => ⟨rfl, rfl, rfl⟩
    · exact .refl h
  | @reap z rest t =>
    have hp : (v.removeThread z rest).procs q = some p' := reapProcess_procs h
    exact .refl hp
  | _ => exact .refl h

/-- The step takes the record `p` out of slot `q`. -/
def Removes (v : View) (e : Event) (q : ℕ) (p : Process) : Prop :=
  v.procs q = some p ∧
    (e = .harvest ∧ p.isZombie = true ∧
        (∃ c t target, v.Running c t ∧ t.user = true ∧ v.IsChild t.pid target q p) ∨
      e = .reap ∧ p.ppid = 0 ∧
        ∃ z t, v.current ≠ some z ∧ v.threads z = some t ∧ t.state = .zombie ∧ t.pid = q)

/-- **What becomes of the records**: none is lost, or one is removed and the others
stay. -/
theorem Step.removed (hs : Step v e v') (hpid : ∀ {q p}, v.procs q = some p → p.pid = q) :
    (v'.history.removed = v.history.removed ∧ v'.history.harvests = v.history.harvests ∧
      ∀ {q p}, v.procs q = some p → ∃ p', v'.procs q = some p' ∧ SameRecord p p') ∨
    ∃ n p, v.Removes e n p ∧ v'.procs = update v.procs n none ∧
      v'.history.removed = p :: v.history.removed ∧
      (v'.history.harvests = v.history.harvests ∨
        v'.history.harvests = p.serial :: v.history.harvests) := by
  cases hs with
  | fork _ hnew =>
    refine Or.inl ⟨rfl, rfl, fun {q p} hp => ⟨p, ?_, rfl, rfl, rfl, rfl⟩⟩
    refine (update_of_ne ?_ _ _).trans hp
    rintro rfl
    exact nomatch hnew.empty.symm.trans hp
  | @sysExit c t exitCode hrun =>
    refine Or.inl ⟨rfl, rfl, fun {q p} hp =>
      ⟨exitRecord t.pid exitCode (v.wokenParent t.pid) q p, ?_, rfl, rfl, rfl, rfl⟩⟩
    exact congrArg (Option.map _) hp
  | harvest hrun huser _ hchild hz =>
    obtain rfl := hpid hchild.1
    exact Or.inr ⟨_, _, ⟨hchild.1, Or.inl ⟨rfl, hz, _, _, _, hrun, huser, hchild⟩⟩, rfl, rfl,
      Or.inr rfl⟩
  | @waitBlock c q t _ _ _ own _ _ _ _ _ hown =>
    refine Or.inl ⟨rfl, rfl, fun {n p} hp => ?_⟩
    by_cases hn : n = t.pid
    · subst hn
      obtain rfl : own = p := Option.some.inj (hown.symm.trans hp)
      exact ⟨_, update_self .., rfl, rfl, rfl, rfl⟩
    · exact ⟨p, (update_of_ne hn _ _).trans hp, rfl, rfl, rfl, rfl⟩
  | @reap z rest t _ hcur hz hdead =>
    obtain heq | ⟨p, hp, h0, heq⟩ := (v.removeThread z rest).reapProcess_cases t.pid
    · rw [heq]
      exact Or.inl ⟨rfl, rfl, fun hp => ⟨_, hp, rfl, rfl, rfl, rfl⟩⟩
    · rw [heq]
      exact Or.inr ⟨t.pid, p, ⟨hp, Or.inr ⟨rfl, h0, z, t, hcur, hz, hdead, rfl⟩⟩, rfl, rfl,
        Or.inl rfl⟩
  | _ => exact Or.inl ⟨rfl, rfl, fun hp => ⟨_, hp, rfl, rfl, rfl, rfl⟩⟩

theorem Step.spawned_le (hs : Step v e v') : v.history.spawned ≤ v'.history.spawned := by
  cases hs with
  | thread | fork => exact Nat.le_succ _
  | @reap z rest t =>
    obtain heq | ⟨p, -, -, heq⟩ := (v.removeThread z rest).reapProcess_cases t.pid
    · rw [heq]
      exact le_rfl
    · rw [heq]
      exact le_rfl
  | _ => exact le_rfl

theorem Step.spawned_lt (hs : Step v e v') (he : e = .thread ∨ ∃ n, e = .fork n) :
    v'.history.spawned = v.history.spawned + 1 := by
  rcases he with rfl | ⟨n, rfl⟩
  · cases hs
    rfl
  · cases hs
    rfl

theorem Step.idle_inv (hs : Step v .idle v') (hj : v.threads j = some t)
    (hready : t.state = .ready) : v.idle = some j := by
  cases hs with
  | idle _ hall => exact hall j t hj hready

/-- **Who exits.** -/
theorem Step.exits (hs : Step v e v') : (e ≠ .sysExit ∧ v'.history.exits = v.history.exits) ∨
    e = .sysExit ∧ ∃ c t exitCode, v.Running c t ∧ t.user = true ∧
      v'.history.exits = (t.serial, exitCode) :: v.history.exits ∧
      v'.threads c = some { t with state := .zombie } ∧
      ∀ q, v'.procs q = (v.procs q).map (exitRecord t.pid exitCode (v.wokenParent t.pid) q) := by
  cases hs with
  | sysExit exitCode hrun huser =>
    exact Or.inr ⟨rfl, _, _, exitCode, hrun, huser, rfl, update_self .., fun _ => rfl⟩
  | @reap z rest t =>
    refine Or.inl ⟨nofun, ?_⟩
    obtain heq | ⟨p, -, -, heq⟩ := (v.removeThread z rest).reapProcess_cases t.pid
    · rw [heq]
      rfl
    · rw [heq]
      rfl
  | _ => exact Or.inl ⟨nofun, rfl⟩

end View

end KernelR.Proc
