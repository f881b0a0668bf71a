import KernelR.Proc.Roster
import KernelR.Proc.ThreadTable

/-!
# Blocked threads and their queues

The calls of the kernel are sequences of moves of its roster (`Kernel.roster`), so the
queues stay in order in every run.

Here the grain of the steps is finer than in `Kernel.step`: the drop of a `MutexGuard`
and `Semaphore::release` first write the lock word or the count, and wake a waiter in
a section of their own. `SyncAction` adds these halves.
-/

namespace KernelR.Proc

open Function Option Foundations Sched

/-! ### The roster of a kernel -/

/-- The `join_queue` of every thread. -/
def joins (tasks : ThreadArena) (i : ℕ) : List ℕ := ((tasks.get i).map Thread.joinQueue).getD []

variable {i : ℕ} {s s' : Scheduler}

theorem joins_of_get {tasks : ThreadArena} {t : Thread} (hi : tasks.get i = some t) :
    joins tasks i = t.joinQueue := by
  rw [joins, hi]
  rfl

theorem joins_update {tasks tasks' : ThreadArena} {t' : Thread}
    (hget : tasks'.get = update tasks.get i (some t')) :
    joins tasks' = update (joins tasks) i t'.joinQueue := by
  funext j
  rw [joins, hget]
  by_cases hj : j = i
  · rw [hj, update_self, update_self]
    rfl
  · rw [update_of_ne hj, update_of_ne hj, joins]

theorem joins_same {tasks tasks' : ThreadArena} {t' : Thread}
    (hget : tasks'.get = update tasks.get i (some t'))
    (hqueue : t'.joinQueue = joins tasks i) : joins tasks' = joins tasks := by
  rw [joins_update hget, hqueue, update_eq_self]

theorem joins_modify_same {tasks : ThreadArena} {t : Thread} (hi : tasks.get i = some t)
    {f : Thread → Thread} (hf : (f t).joinQueue = t.joinQueue) :
    joins (tasks.modify i f) = joins tasks :=
  joins_same (Arena.get_modify_some hi f) (hf.trans (joins_of_get hi).symm)

theorem joins_wakeTask (h : s.wakeTask i = some s') : joins s'.tasks = joins s.tasks := by
  obtain rfl | ⟨t, tree, hi, -, rfl⟩ := Scheduler.wakeTask_inv h
  · rfl
  · exact joins_modify_same hi rfl

theorem joins_wakeAll {l : List ℕ} (h : s.wakeAll l = some s') :
    joins s'.tasks = joins s.tasks := by
  induction l generalizing s with
  | nil =>
    cases h
    rfl
  | cons i l ih =>
    obtain ⟨s₁, hs₁, h⟩ := bind_eq_some_iff.mp h
    exact (ih h).trans (joins_wakeTask hs₁)

/-- A new thread has no queue, and neither had the slot it gets. -/
theorem joins_addTask (h : SchedInv s) {task : Thread} {node i : ℕ}
    (hnil : task.joinQueue = []) (hs : s.addTask task node = some (s', i)) :
    joins s'.tasks = joins s.tasks := by
  obtain ⟨hnone, hget, -, -⟩ := Kernel.addTask_adds hs h.wf
  refine joins_same hget (hnil.trans ?_)
  rw [joins, hnone]
  rfl

theorem joins_retire {context : ℕ} (h : s.retire context = some s') :
    joins s'.tasks = joins s.tasks := by
  obtain ⟨-, -, -, ⟨-, htasks⟩ | ⟨c, t, -, hc, hget⟩⟩ := Scheduler.retire_inv h
  · rw [htasks]
  · refine joins_same hget (Eq.trans ?_ (joins_of_get hc).symm)
    unfold Thread.retired
    split <;> rfl

namespace Kernel

/-- The wait queues of a kernel. -/
def queueOf (k : Kernel) : Place → List ℕ
  | .mutex m => (k.mutexes m).waitQueue
  | .semaphore i => (k.semaphores i).waitQueue
  | .thread tid => joins k.sched.tasks tid
  | .process pid => ((k.sched.process pid).map Process.waitQueue).getD []

/-- The threads and the wait queues of a kernel. -/
def roster (k : Kernel) : Roster := ⟨k.sched.threads, k.queueOf⟩

/-- The kernel went through a sequence of moves. -/
def Moves (k k' : Kernel) : Prop := Relation.ReflTransGen Roster.Move k.roster k'.roster

variable {k k' : Kernel} {c : ℕ} {t : Thread}

theorem roster_eq {threads : ℕ → Option TaskView} {queue : Place → List ℕ}
    (hthreads : k.sched.threads = threads) (hqueue : ∀ place, k.queueOf place = queue place) :
    k.roster = ⟨threads, queue⟩ := by
  rw [roster, hthreads, funext hqueue]

theorem Moves.of_eq (h : k'.roster = k.roster) : Moves k k' := by
  rw [Moves, h]

theorem Moves.single (h : Roster.Move k.roster k'.roster) : Moves k k' :=
  Relation.ReflTransGen.single h

/-- A change of a thread that keeps its state, its pid and its queue. -/
theorem Moves.touch (hi : k.sched.tasks.get c = some t) {f : Thread → Thread}
    (hstate : (f t).state = t.state) (hpid : (f t).pid = t.pid)
    (hjoin : (f t).joinQueue = t.joinQueue) : Moves k (k.modifyTask c f) := by
  have hroster : (k.modifyTask c f).roster =
      { k.roster with threads := update k.sched.threads c (some (f t).view) } := by
    refine roster_eq (threads_of_get (s := k.sched) (Arena.get_modify_some hi f)) fun place => ?_
    cases place with
    | thread tid => exact congrFun (joins_modify_same hi hjoin) tid
    | _ => rfl
  refine .single (hroster ▸ .touch (v := t.view) ?_ hstate hpid)
  exact congrArg (Option.map Thread.view) hi

/-- The running thread blocks: the queue of the place is that of the kernel with the
thread at its end, and all others are the same. -/
theorem Moves.block (hrun : k.running = some (c, t)) (place : Place) {v : TaskView}
    (hthreads : k'.sched.threads = update k.sched.threads c (some v))
    (hstate : v.state = .blocked) (hsame : v.pid = t.pid)
    (hqueue : k'.queueOf = update k.queueOf place (k.queueOf place ++ [c]))
    (hjoin : ∀ target, place = .thread target →
      target ≠ c ∧ ∃ u, k.sched.threads target = some u ∧ u.state ≠ .zombie)
    (hpid : ∀ pid, place = .process pid → t.pid = pid) : Moves k k' := by
  have hroster : k'.roster = ⟨_, _⟩ := roster_eq hthreads (congrFun hqueue)
  obtain ⟨-, hget, hready, -⟩ := running_inv hrun
  refine .single (hroster ▸ .block place (v := t.view) ?_ hready hstate hsame hjoin hpid)
  exact congrArg (Option.map Thread.view) hget

variable {l rest : List ℕ} {pid z : ℕ}

theorem wakeAll_frame (h : SchedInv k.sched) {s' : Scheduler} (hs : k.sched.wakeAll l = some s') :
    SchedInv s' ∧ s'.threads = wakeThreads l k.sched.threads ∧
      ({ k with sched := s' } : Kernel).queueOf = k.queueOf := by
  obtain ⟨s'', hs'', hinv, hframe, hthreads⟩ := h.wakeAll l
  rw [hs] at hs''
  cases hs''
  refine ⟨hinv, hthreads, ?_⟩
  funext place
  cases place with
  | thread tid => exact congrFun (joins_wakeAll hs) tid
  | process pid =>
    show ((s'.process pid).map _).getD _ = ((k.sched.process pid).map _).getD _
    rw [hframe]
    rfl
  | _ => rfl

/-- The first threads of a queue, taken out of it already, are woken. -/
theorem Moves.wakeAll {k₁ : Kernel} (place : Place) (hplace : k.queueOf place = l ++ rest)
    (hqueue : k₁.queueOf = update k.queueOf place rest)
    (h : SchedInv k₁.sched) (hthreads : k₁.sched.threads = k.sched.threads)
    {s' : Scheduler} (hs : k₁.sched.wakeAll l = some s') : Moves k { k₁ with sched := s' } := by
  obtain ⟨-, hthreads', hqueue'⟩ := wakeAll_frame h hs
  have hroster : ({ k₁ with sched := s' } : Kernel).roster = ⟨_, _⟩ :=
    roster_eq (hthreads'.trans (by rw [hthreads])) (congrFun (hqueue'.trans hqueue))
  exact .single (hroster ▸ .wake place hplace)

/-! ### Mutexes and semaphores -/

theorem queueOf_mutex (k : Kernel) (m : ℕ) (q : Mutex) :
    ({ k with mutexes := update k.mutexes m q } : Kernel).queueOf =
      update k.queueOf (.mutex m) q.waitQueue := by
  refine eq_update_iff.mpr ⟨?_, fun place hne => ?_⟩
  · exact congrArg Mutex.waitQueue (update_self m q k.mutexes)
  · cases place with
    | mutex m' =>
      have hm : m' ≠ m := fun heq => hne (congrArg Place.mutex heq)
      exact congrArg Mutex.waitQueue (update_of_ne hm q k.mutexes)
    | _ => rfl

theorem queueOf_semaphore (k : Kernel) (i : ℕ) (q : Semaphore) :
    ({ k with semaphores := update k.semaphores i q } : Kernel).queueOf =
      update k.queueOf (.semaphore i) q.waitQueue := by
  refine eq_update_iff.mpr ⟨?_, fun place hne => ?_⟩
  · exact congrArg Semaphore.waitQueue (update_self i q k.semaphores)
  · cases place with
    | semaphore i' =>
      have hi : i' ≠ i := fun heq => hne (congrArg Place.semaphore heq)
      exact congrArg Semaphore.waitQueue (update_of_ne hi q k.semaphores)
    | _ => rfl

theorem queueOf_thread (hget : k.sched.tasks.get c = some t) (f : Thread → Thread) :
    (k.modifyTask c f).queueOf = update k.queueOf (.thread c) (f t).joinQueue := by
  have hjoins : joins (k.modifyTask c f).sched.tasks = _ :=
    joins_update (Arena.get_modify_some hget f)
  refine eq_update_iff.mpr ⟨?_, fun place hne => ?_⟩
  · rw [queueOf, hjoins, update_self]
  · cases place with
    | thread tid =>
      have hc : tid ≠ c := fun heq => hne (congrArg Place.thread heq)
      rw [queueOf, hjoins, update_of_ne hc, queueOf]
    | _ => rfl

theorem queueOf_modifyTask (hget : k.sched.tasks.get c = some t) {f : Thread → Thread}
    (hf : (f t).joinQueue = t.joinQueue) : (k.modifyTask c f).queueOf = k.queueOf := by
  rw [queueOf_thread hget, hf]
  exact update_eq_self_iff.mpr (joins_of_get hget).symm

/-- Records that are changed, or not, but keep their queues. -/
theorem queueOf_congr (hjoins : joins k'.sched.tasks = joins k.sched.tasks)
    (hprocs : ∀ q, (k'.sched.process q).map Process.waitQueue =
      (k.sched.process q).map Process.waitQueue)
    (hmutexes : k'.mutexes = k.mutexes) (hsems : k'.semaphores = k.semaphores) :
    k'.queueOf = k.queueOf := by
  funext place
  cases place with
  | mutex m => rw [queueOf, queueOf, hmutexes]
  | semaphore i => rw [queueOf, queueOf, hsems]
  | thread tid => exact congrFun hjoins tid
  | process pid => rw [queueOf, queueOf, hprocs]

theorem queueOf_process (k : Kernel) {p : Process} (hp : k.sched.process pid = some p)
    (f : Process → Process) :
    (k.modifyProcess pid f).queueOf = update k.queueOf (.process pid) (f p).waitQueue := by
  have hmod : (k.modifyProcess pid f).sched.process =
      update k.sched.process pid ((k.sched.process pid).map f) :=
    join_modify k.sched.processes pid f
  refine eq_update_iff.mpr ⟨?_, fun place hne => ?_⟩
  · rw [queueOf, hmod, update_self, hp]
    rfl
  · cases place with
    | process q =>
      have hq : q ≠ pid := fun heq => hne (congrArg Place.process heq)
      rw [queueOf, hmod, update_of_ne hq, queueOf]
    | _ => rfl

theorem threads_modifyTask (hget : k.sched.tasks.get c = some t) (f : Thread → Thread) :
    (k.modifyTask c f).sched.threads = update k.sched.threads c (some (f t).view) :=
  threads_of_get (s := k.sched) (Arena.get_modify_some hget f)

theorem lock_moves (hrun : k.running = some (c, t)) {m : ℕ} (hk : k.lock m = some k') :
    Moves k k' := by
  have hget := (running_inv hrun).2.1
  simp only [lock, blockCurrent_eq hrun, bind_eq_bind, bind_some] at hk
  split at hk
  · cases hk
    refine .block hrun (.mutex m) (threads_modifyTask hget _) rfl rfl ?_ (fun _ h => by cases h)
      (fun _ h => by cases h)
    rw [queueOf_mutex, queueOf_modifyTask hget rfl]
    rfl
  · cases hk
    refine .of_eq (roster_eq rfl fun place => ?_)
    rw [queueOf_mutex]
    exact congrFun (update_eq_self (Place.mutex m) k.queueOf) place

theorem acquire_moves (hrun : k.running = some (c, t)) {i : ℕ} (hk : k.acquire i = some k') :
    Moves k k' := by
  have hget := (running_inv hrun).2.1
  simp only [acquire, blockCurrent_eq hrun, bind_eq_bind, bind_some] at hk
  split at hk
  · cases hk
    refine .of_eq (roster_eq rfl fun place => ?_)
    rw [queueOf_semaphore]
    exact congrFun (update_eq_self (Place.semaphore i) k.queueOf) place
  · cases hk
    refine .block hrun (.semaphore i) (threads_modifyTask hget _) rfl rfl ?_
      (fun _ h => by cases h) (fun _ h => by cases h)
    rw [queueOf_semaphore, queueOf_modifyTask hget rfl]
    rfl

/-- `wake_one` on a queue from which the first thread has been popped. -/
theorem wakeOne_moves {k₁ : Kernel} (place : Place)
    (hqueue : k₁.queueOf = update k.queueOf place (k.queueOf place).tail)
    (h : SchedInv k₁.sched) (hthreads : k₁.sched.threads = k.sched.threads)
    (hk : k₁.wakeOne (k.queueOf place) = some k') : Moves k k' := by
  cases hplace : k.queueOf place with
  | nil =>
    rw [hplace] at hk hqueue
    cases hk
    rw [List.tail_nil, update_eq_self_iff.mpr hplace.symm] at hqueue
    exact .of_eq (roster_eq hthreads (congrFun hqueue))
  | cons i rest =>
    rw [hplace] at hk hqueue
    obtain ⟨s', hs', rfl⟩ := map_eq_some_iff.mp hk
    refine .wakeAll place (l := [i]) hplace hqueue h hthreads ?_
    rw [Scheduler.wakeAll, hs', bind_some, Scheduler.wakeAll]

theorem unlock_moves (h : SchedInv k.sched) {m : ℕ} (hk : k.unlock m = some k') : Moves k k' :=
  wakeOne_moves (.mutex m) (queueOf_mutex k m ⟨false, (k.mutexes m).waitQueue.tail⟩) h rfl hk

theorem release_moves (h : SchedInv k.sched) {i : ℕ} (hk : k.release i = some k') : Moves k k' :=
  wakeOne_moves (.semaphore i)
    (queueOf_semaphore k i
      ⟨wrap ((k.semaphores i).count + 1), (k.semaphores i).waitQueue.tail⟩) h rfl hk

/-! ### Joining and exiting -/

theorem join_moves (hrun : k.running = some (c, t)) {target : ℕ} (hk : k.join target = some k') :
    Moves k k' := by
  have hget := (running_inv hrun).2.1
  obtain rfl | ⟨u, hne, hu, hlive, hu₁, rfl⟩ := join_inv hrun hk
  · exact .refl
  · refine .block hrun (.thread target) (v := { t.view with state := .blocked }) ?_ rfl rfl ?_ ?_
      (fun _ h => by cases h)
    · refine (threads_modifyTask hu₁ _).trans ?_
      refine Eq.trans (update_eq_self_iff.mpr ?_) (threads_modifyTask hget _)
      exact (congrArg (Option.map Thread.view) hu₁).symm
    · rw [queueOf_thread hu₁, queueOf_modifyTask hget rfl]
      exact congrArg (fun q => update k.queueOf (.thread target) (q ++ [c]))
        (joins_of_get hu).symm
    · intro target' heq
      obtain rfl := Place.thread.inj heq
      exact ⟨hne, u.view, congrArg (Option.map Thread.view) hu, hlive⟩

theorem sleep_moves (hrun : k.running = some (c, t))
    (hk : (k.sched.sleepCurrentTask.map fun sched => { k with sched }) = some k') :
    Moves k k' := by
  obtain ⟨hcur, hget, hready, -⟩ := running_inv hrun
  simp only [Scheduler.sleepCurrentTask, hcur, hget, map_some] at hk
  cases hk
  have hroster : (k.modifyTask c fun t => { t with state := .sleeping }).roster = ⟨_, _⟩ :=
    roster_eq (threads_modifyTask hget _) (congrFun (queueOf_modifyTask hget rfl))
  have hmove : Roster.Move k.roster _ :=
    .sleep (v := t.view) (congrArg (Option.map Thread.view) hget) hready
  exact .single (hroster.symm ▸ hmove)

/-- Waking others does not change a thread that is `Ready`. -/
theorem wakeThreads_ready {threads : ℕ → Option TaskView} {v : TaskView}
    (hv : threads c = some v) (hready : v.state = .ready) :
    wakeThreads l threads c = some v := by
  have hawake : v.wake = v := by
    rw [TaskView.wake, if_neg]
    rw [TaskView.Asleep, hready]
    rintro (h | h) <;> cases h
  unfold wakeThreads
  split
  · rw [hv, map_some, hawake]
  · exact hv

theorem exitThread_moves (h : SchedInv k.sched) (hrun : k.running = some (c, t))
    (hk : k.exitThread = some k') : Moves k k' := by
  obtain ⟨hcur, hget, hready, -⟩ := running_inv hrun
  obtain ⟨s', hs', rfl⟩ := exitThread_inv hrun hk
  have hview : k.sched.threads c = some t.view := congrArg (Option.map Thread.view) hget
  have h₁ := modifyTask_inv h hrun (f := fun t => { t with state := .zombie, joinQueue := [] })
    rfl rfl
  obtain ⟨-, hthreads, hqueue⟩ := wakeAll_frame h₁ hs'
  rw [threads_modifyTask hget] at hthreads
  rw [queueOf_thread hget] at hqueue
  have hroster := roster_eq hthreads (congrFun hqueue)
  -- first the threads that joined it wake up, then it dies
  have hwake : Roster.Move k.roster _ :=
    .wake (.thread c) ((joins_of_get hget).trans (List.append_nil _).symm)
  have hdie : Roster.Move _ _ :=
    .die (s := ⟨wakeThreads t.joinQueue k.sched.threads, update k.queueOf (.thread c) []⟩)
      (wakeThreads_ready hview hready) hready (update_self ..)
  have hcomm : wakeThreads t.joinQueue (update k.sched.threads c
      (some { t.view with state := .zombie })) =
      update (wakeThreads t.joinQueue k.sched.threads) c
        (some { t.view with state := .zombie }) := by
    funext j
    by_cases hj : j = c
    · subst hj
      simp [wakeThreads, TaskView.wake, TaskView.Asleep]
    · simp [wakeThreads, update_of_ne hj]
  have hfinal := (Relation.ReflTransGen.single hwake).tail hdie
  rw [← hcomm] at hfinal
  exact (congrArg (Relation.ReflTransGen Roster.Move k.roster) hroster).mpr hfinal

/-! ### System calls -/

/-- The records keep their queues when a process exits, and the threads do not change. -/
theorem markExited_roster (k : Kernel) (pid : ℕ) (exitCode : ℤ) :
    ((k.markExited pid exitCode).1.reparent pid).roster = k.roster := by
  have hframe := markExited_frame k pid exitCode
  refine roster_eq ?_ (congrFun (queueOf_congr ?_ (fun q => ?_) ?_ ?_))
  · rw [hframe]
    rfl
  · rw [hframe]
    rfl
  · have hrec := exit_process k pid exitCode none q
    simp only [reduceCtorEq, if_false, Option.map_id'] at hrec
    rw [hrec, map_map]
    rfl
  · rw [hframe]
    rfl
  · rw [hframe]
    rfl

theorem wakeParent_moves (h : SchedInv k.sched) {parent : Option ℕ}
    (hk : k.wakeParent parent = some k') : Moves k k' := by
  cases parent with
  | none => exact some.inj hk ▸ .refl
  | some ppid =>
    simp only [wakeParent, bind_eq_bind, bind_eq_some_iff] at hk
    obtain ⟨p, hp, s', hs', hk⟩ := hk
    cases hk
    have hplace : k.queueOf (.process ppid) = p.waitQueue ++ [] := by
      rw [queueOf, hp, List.append_nil]
      rfl
    exact .wakeAll (.process ppid) hplace
      (queueOf_process k hp fun p => { p with waitQueue := [] }) ⟨h.queue, h.census⟩ rfl hs'

theorem sysExit_moves (h : SchedInv k.sched) (hrun : k.running = some (c, t)) {arg : ℕ}
    (hk : k.sysExit arg = some k') : Moves k k' := by
  obtain ⟨hcur, hget, -, -⟩ := running_inv hrun
  simp only [sysExit, hcur, hget, bind_eq_bind, bind_some, bind_eq_some_iff] at hk
  obtain ⟨k₃, hk₃, hk'⟩ := hk
  let k₀ : Kernel := { k with history := { k.history with
    exits := (t.serial, asI32 arg) :: k.history.exits } }
  have hframe := markExited_frame k₀ t.pid (asI32 arg)
  have h₂ : SchedInv ((k₀.markExited t.pid (asI32 arg)).1.reparent t.pid).sched := by
    rw [hframe]
    exact ⟨h.queue, h.census⟩
  obtain ⟨h₃, hview₃⟩ := wakeParent_spec h₂ hk₃
  have hrun₂ : ((k₀.markExited t.pid (asI32 arg)).1.reparent t.pid).running = some (c, t) := by
    rw [hframe]
    exact hrun
  obtain ⟨t', hrun', -⟩ := running_of_wake (congrArg View.threads hview₃)
    (congrArg View.current hview₃) (congrArg View.idle hview₃) (running_view hrun₂)
  have hfirst : Moves k k₃ := by
    have hmark := markExited_roster k₀ t.pid (asI32 arg)
    have hwake := wakeParent_moves h₂ hk₃
    rw [Moves, hmark] at hwake
    exact hwake
  exact hfirst.trans (exitThread_moves h₃ hrun' hk')

/-- No record is removed while a thread of the process is alive. -/
def KeepsLiving (k k' : Kernel) : Prop :=
  ∀ pid, k.sched.process pid ≠ none → k'.sched.process pid = none →
    ∀ t ∈ k.sched.tasks.values, t.pid = pid → t.state = .zombie

theorem removeProcess_moves (p : Process)
    (hdead : k.sched.process pid ≠ none →
      ∀ i v, k.sched.threads i = some v → v.pid = pid → v.state = .zombie) :
    Moves k (k.removeProcess pid p) := by
  have hprocs : (k.removeProcess pid p).sched.process = update k.sched.process pid none :=
    join_set_none k.sched.processes pid
  have hqueue : (k.removeProcess pid p).queueOf = update k.queueOf (.process pid) [] := by
    refine eq_update_iff.mpr ⟨?_, fun place hne => ?_⟩
    · rw [queueOf, hprocs, update_self]
      rfl
    · cases place with
      | process q =>
        have hq : q ≠ pid := fun heq => hne (congrArg Place.process heq)
        rw [queueOf, hprocs, update_of_ne hq, queueOf]
      | _ => rfl
  by_cases hnone : k.sched.process pid = none
  · have hnil : k.queueOf (.process pid) = [] := by
      rw [queueOf, hnone]
      rfl
    rw [update_eq_self_iff.mpr hnil.symm] at hqueue
    exact .of_eq (roster_eq rfl (congrFun hqueue))
  · have hroster : (k.removeProcess pid p).roster = ⟨_, _⟩ := roster_eq rfl (congrFun hqueue)
    have hmove : Roster.Move k.roster _ := .remove (hdead hnone)
    exact .single (hroster.symm ▸ hmove)

theorem sysWaitRound_moves (hrun : k.running = some (c, t)) {target statusPtr : ℕ}
    {result : WaitResult} (hk : k.sysWaitRound target statusPtr = some (k', result))
    (hkeep : KeepsLiving k k') : Moves k k' := by
  obtain ⟨hcur, hget, -, -⟩ := running_inv hrun
  simp only [sysWaitRound, hcur, hget, bind_eq_bind, bind_some] at hk
  generalize waitScan t.pid target k.sched.processes false = scan at hk
  obtain ⟨found, zombie⟩ := scan
  cases found with
  | false =>
    cases hk
    exact .touch hget rfl rfl rfl
  | true =>
    cases zombie with
    | some p =>
      simp only at hk
      split at hk
      · cases hk
        have hremove : Moves k (k.removeProcess p.pid p) := by
          refine removeProcess_moves p fun hsome i v hv hpid => ?_
          obtain ⟨u, hu, rfl⟩ := map_eq_some_iff.mp hv
          refine hkeep p.pid hsome ?_ u (Arena.mem_values.mpr ⟨i, hu⟩) hpid
          have hset := join_set_none k.sched.processes p.pid
          exact (congrFun hset p.pid).trans (update_self ..)
        let k₁ : Kernel := { k.removeProcess p.pid p with
          history := { (k.removeProcess p.pid p).history with
            harvests := p.serial :: (k.removeProcess p.pid p).history.harvests } }
        let pending : Pending :=
          .harvested target statusPtr p.pid p.serial p.pageTable (p.exitCode.getD 0)
        have hget₁ : k₁.sched.tasks.get c = some t := hget
        have htouch : Moves k₁ (k₁.modifyTask c fun t => { t with pending }) :=
          .touch hget₁ rfl rfl rfl
        exact hremove.trans htouch
      · cases hk
    | none =>
      simp only [bind_eq_some_iff, blockCurrent_eq hrun, bind_some] at hk
      obtain ⟨own, hown, hk⟩ := hk
      cases hk
      let k₁ := k.modifyTask c fun t => { t with state := .blocked }
      have hget₁ : k₁.sched.tasks.get c = some { t with state := .blocked } := by
        show (k.sched.tasks.modify c _).get c = _
        rw [Arena.get_modify_some hget, update_self]
      let k₂ := k₁.modifyTask c fun t => { t with pending := .waiting target statusPtr }
      have hqueue₂ : k₂.queueOf = k.queueOf :=
        (queueOf_modifyTask hget₁ rfl).trans (queueOf_modifyTask hget rfl)
      have hthreads₂ : k₂.sched.threads = update k.sched.threads c (some
          { t.view with state := .blocked, pending := .waiting target statusPtr }) := by
        refine (threads_modifyTask hget₁ _).trans ?_
        rw [threads_modifyTask hget, update_idem]
        rfl
      refine .block hrun (.process t.pid) hthreads₂ rfl rfl ?_ (fun _ h => by cases h) ?_
      · refine (queueOf_process k₂ (p := own) hown _).trans ?_
        have hplace : own.waitQueue = k.queueOf (.process t.pid) := by
          rw [queueOf, hown]
          rfl
        rw [hqueue₂, hplace]
      · exact fun pid heq => Place.process.inj heq

theorem sysWaitFinish_moves (hrun : k.running = some (c, t))
    (caller target statusPtr childPid child pageTable : ℕ) (exitCode : ℤ) :
    Moves k (k.sysWaitFinish c caller target statusPtr childPid child pageTable exitCode) := by
  let k₁ : Kernel := { k.destroyUserAddressSpace pageTable with
    history := { (k.destroyUserAddressSpace pageTable).history with
      returns := ⟨caller, target, statusPtr, child, childPid, writtenStatus statusPtr exitCode⟩ ::
        k.history.returns } }
  have htouch : Moves k₁ (k₁.modifyTask c fun t => { t with pending := .none }) :=
    .touch (running_inv hrun).2.1 rfl rfl rfl
  exact htouch

/-! ### Spawning -/

theorem new_joinQueue {totalWeight systemRuntime stack weight : ℕ}
    (h : Thread.new totalWeight systemRuntime stack weight = some t) : t.joinQueue = [] := by
  unfold Thread.new at h
  split at h
  · cases h
  · exact some.inj h ▸ rfl

/-- A new thread, in a kernel whose table may have a new record with an empty queue. -/
theorem Enters.moves {processes : List (Option Process)} {user : Bool}
    {weight stack node : ℕ} {pml4s : List ℕ} (h : SchedInv k.sched) (hnode : k.FreshNode node)
    (hk : k.Enters processes pid user weight stack node pml4s k')
    (hprocs : ∀ q : ℕ, (processes[q]?.join.map Process.waitQueue).getD [] =
      k.queueOf (.process q)) : Moves k k' := by
  obtain ⟨-, i, hnone, hview⟩ := hk.view h hnode
  obtain ⟨thread, sched, j, hnew, hadd, hk'⟩ := hk
  have hnil := new_joinQueue hnew
  have hjoins := joins_addTask (s := { k.sched with processes }) ⟨h.queue, h.census⟩
    (by exact hnil) hadd
  have hqueue : ∀ place, k'.queueOf place = k.queueOf place := by
    intro place
    cases place with
    | thread tid =>
      subst hk'
      exact congrFun hjoins tid
    | process q =>
      have htable : k'.sched.process q = processes[q]?.join :=
        congrFun (congrArg View.procs hview) q
      rw [queueOf, htable]
      exact hprocs q
    | _ =>
      subst hk'
      rfl
  have hroster : k'.roster = ⟨_, _⟩ := roster_eq (congrArg View.threads hview) hqueue
  have hmove : Roster.Move k.roster _ :=
    .spawn (v := ⟨pid, user, .ready, .none, k.history.spawned⟩) hnone rfl
  exact .single (hroster.symm ▸ hmove)

theorem spawn_moves (h : SchedInv k.sched) {weight stack node : ℕ} (hnode : k.FreshNode node)
    (hk : k.spawn weight stack node = some k') : Moves k k' :=
  (spawn_inv hk).moves h hnode fun _ => rfl

theorem spawnUserProcess_moves (h : SchedInv k.sched)
    {pml4 highestVaddr weight ppid parent stack node : ℕ} (hnode : k.FreshNode node)
    (hk : k.spawnUserProcess pml4 highestVaddr weight ppid parent stack node = some k') :
    Moves k k' := by
  refine (spawnUserProcess_inv hk).2.moves h hnode fun q => ?_
  have hprocs := process_spawn k (k.newProcess pml4 highestVaddr ppid parent)
  -- the new record has an empty queue, and there was none before
  refine (congrArg (fun p => (Option.map Process.waitQueue p).getD []) (congrFun hprocs q)).trans ?_
  by_cases hq : q = k.freePid
  · rw [hq, update_self, queueOf, process_freePid]
    rfl
  · rw [update_of_ne hq]
    rfl

/-! ### The scheduler call -/

theorem reapOne_frame (h : SchedInv k.sched) (hg : k.sched.graveyard = z :: rest) :
    (∀ q, k.sched.process q = none → k.reapOne.sched.process q = none) ∧
      ∀ i v, k.reapOne.sched.threads i = some v → k.sched.threads i = some v := by
  obtain ⟨-, -, hstep⟩ := reapOne_sim h hg
  generalize hv : k.reapOne.view = v' at hstep
  have hprocs : k.reapOne.sched.process = v'.procs := congrArg View.procs hv
  have hthreads : k.reapOne.sched.threads = v'.threads := congrArg View.threads hv
  rw [hprocs, hthreads]
  cases hstep with
  | reap hg' hcur hz hdead =>
    constructor
    · intro q hq
      rw [eq_none_iff_forall_ne_some] at hq ⊢
      exact fun p hp => hq p (View.reapProcess_procs hp)
    · intro i v hi
      rw [View.threads_reapProcess] at hi
      exact (View.update_none_eq_some_iff.mp hi).2

/-- **One round of `reap_zombies`.** -/
theorem reapOne_moves (h : SchedInv k.sched) (hg : k.sched.graveyard = z :: rest)
    (hdead : ∀ pid, k.sched.process pid ≠ none → k.reapOne.sched.process pid = none →
      ∀ i v, k.sched.threads i = some v → v.pid = pid → v.state = .zombie) :
    Moves k k.reapOne := by
  obtain ⟨-, t, hz, hstate, hreapOne⟩ := reapOne_inv h hg
  let k₁ : Kernel := { k with sched := { k.sched with
    graveyard := rest, tasks := (k.sched.tasks.remove z).1 } }
  have hrun : k.reapOne = k₁.reapProcess t.pid := hreapOne
  have hget₁ : k₁.sched.tasks.get = update k.sched.tasks.get z none :=
    Arena.get_remove k.sched.tasks z
  have hroster₁ : k₁.roster =
      ⟨update k.sched.threads z none, update k.queueOf (.thread z) []⟩ := by
    refine roster_eq (funext fun j => ?_) (congrFun (eq_update_iff.mpr ⟨?_, ?_⟩))
    · rw [Scheduler.threads, hget₁]
      by_cases hj : j = z
      · rw [hj, update_self, update_self, map_none]
      · rw [update_of_ne hj, update_of_ne hj, Scheduler.threads]
    · rw [queueOf, joins, hget₁, update_self]
      rfl
    · intro place hne
      cases place with
      | thread tid =>
        have htid : tid ≠ z := fun heq => hne (congrArg Place.thread heq)
        rw [queueOf, joins, hget₁, update_of_ne htid]
        rfl
      | _ => rfl
  have hreap : Moves k k₁ := by
    have hview : k.sched.threads z = some t.view := congrArg (Option.map Thread.view) hz
    have hmove : Roster.Move k.roster _ := .reap (v := t.view) hview hstate
    exact .single (hroster₁.symm ▸ hmove)
  rw [hrun] at hdead ⊢
  refine hreap.trans ?_
  -- the record of the thread goes if the process is an orphan
  unfold reapProcess at hdead ⊢
  cases hp : k₁.sched.process t.pid with
  | none => exact .refl
  | some p =>
    simp only [hp] at hdead ⊢
    split
    · next hppid =>
        refine removeProcess_moves p fun hsome i v hv hpid => ?_
        have hold : k.sched.threads i = some v := by
          have hnew := (congrFun (congrArg Roster.threads hroster₁) i).symm.trans hv
          exact (View.update_none_eq_some_iff.mp hnew).2
        refine hdead t.pid hsome ?_ i v hold hpid
        rw [if_pos hppid]
        have hset := join_set_none k₁.sched.processes t.pid
        exact (congrFun hset t.pid).trans (update_self ..)
    · exact .refl

theorem reapZombies_cons (h : SchedInv k.sched)
    (hg : k.sched.graveyard = z :: rest) : k.reapZombies = k.reapOne.reapZombies := by
  obtain ⟨-, hg₁, -⟩ := reapOne_sim h hg
  rw [reapZombies, reapZombies, hg, hg₁, List.length_cons, iterate_succ_apply]

theorem reapZombies_gone (h : SchedInv k.sched) {q : ℕ} (hq : k.sched.process q = none) :
    k.reapZombies.sched.process q = none := by
  induction hg : k.sched.graveyard generalizing k with
  | nil =>
    rw [reapZombies, hg]
    exact hq
  | cons z rest ih =>
    obtain ⟨h₁, hg₁, -⟩ := reapOne_sim h hg
    rw [reapZombies_cons h hg]
    exact ih h₁ ((reapOne_frame h hg).1 q hq) hg₁

/-- **`reap_zombies`.** -/
theorem reapZombies_moves (h : SchedInv k.sched)
    (hdead : ∀ pid, k.sched.process pid ≠ none → k.reapZombies.sched.process pid = none →
      ∀ i v, k.sched.threads i = some v → v.pid = pid → v.state = .zombie) :
    Moves k k.reapZombies := by
  induction hg : k.sched.graveyard generalizing k with
  | nil =>
    rw [reapZombies, hg]
    exact .refl
  | cons z rest ih =>
    obtain ⟨h₁, hg₁, -⟩ := reapOne_sim h hg
    obtain ⟨hgone, hthreads⟩ := reapOne_frame h hg
    rw [reapZombies_cons h hg] at hdead ⊢
    have hfirst : Moves k k.reapOne :=
      reapOne_moves h hg fun pid hsome hnone => hdead pid hsome (reapZombies_gone h₁ hnone)
    refine hfirst.trans (ih h₁ (fun pid hsome hnone i v hv => ?_) hg₁)
    exact hdead pid (fun hq => hsome (hgone pid hq)) hnone i v (hthreads i v hv)

theorem schedule_moves (h : SchedInv k.sched) {context out : ℕ}
    (hk : k.schedule context = some (k', out)) (hkeep : KeepsLiving k k') : Moves k k' := by
  obtain ⟨sched, hretire, hk⟩ := schedule_inv h hk
  obtain ⟨tree, i, t, hgoes⟩ := dispatch_inv hk
  -- choosing a thread changes neither threads nor queues
  have hroster : k'.roster = ({ k.reapZombies with sched } : Kernel).roster := by
    rw [hgoes.frame]
    rfl
  obtain ⟨h₁, -⟩ := reapZombies_sim (fun _ _ => True) (fun _ => trivial) h
  obtain ⟨sched', hretire', hret⟩ := h₁.retire context
  obtain rfl := some.inj (hretire'.symm.trans hretire)
  have hprocs' : k'.sched.process = k.reapZombies.sched.process := by
    funext q
    rw [hgoes.sched, Scheduler.process, Scheduler.process, hret.processes]
  have hreap : Moves k k.reapZombies := by
    refine reapZombies_moves h fun pid hsome hnone i v hv hpid => ?_
    obtain ⟨u, hu, rfl⟩ := map_eq_some_iff.mp hv
    exact hkeep pid hsome (congrFun hprocs' pid ▸ hnone) u (Arena.mem_values.mpr ⟨i, hu⟩) hpid
  have hretired : ({ k.reapZombies with sched := sched' } : Kernel).roster =
      k.reapZombies.roster := by
    refine roster_eq hret.threads (congrFun ?_)
    refine queueOf_congr (joins_retire hretire) (fun q => ?_) rfl rfl
    rw [Scheduler.process, Scheduler.process, hret.processes]
  exact hreap.trans (Moves.of_eq (hroster.trans hretired))

/-! ### Every step -/

theorem act_moves (h : SchedInv k.sched) {a : Action} (hrun : k.running = some (c, t))
    (hk : k.act c t a = some k') (hkeep : KeepsLiving k k') : Moves k k' := by
  cases a with
  | lock m => exact lock_moves hrun (ite_none_right_eq_some.mp hk).2
  | acquire i => exact acquire_moves hrun (ite_none_right_eq_some.mp hk).2
  | join target => exact join_moves hrun (ite_none_right_eq_some.mp hk).2
  | sleep => exact sleep_moves hrun (ite_none_right_eq_some.mp hk).2
  | exitThread => exact exitThread_moves h hrun (ite_none_right_eq_some.mp hk).2
  | sysSpawn pml4 highestVaddr stack node =>
    obtain ⟨⟨-, hnode, -⟩, hk⟩ := ite_none_right_eq_some.mp hk
    exact spawnUserProcess_moves h hnode hk
  | sysExit arg => exact sysExit_moves h hrun (ite_none_right_eq_some.mp hk).2
  | sysWait target statusPtr =>
    obtain ⟨-, hk⟩ := ite_none_right_eq_some.mp hk
    obtain ⟨⟨k₁, result⟩, hround, rfl⟩ := map_eq_some_iff.mp hk
    exact sysWaitRound_moves hrun hround hkeep
  | resume =>
    rw [act, resume] at hk
    split at hk
    · cases hk
    · obtain ⟨⟨k₁, result⟩, hround, rfl⟩ := map_eq_some_iff.mp hk
      exact sysWaitRound_moves hrun hround hkeep
    · cases hk
      exact sysWaitFinish_moves hrun ..
  | _ => cases hk

theorem step_moves (h : SchedInv k.sched) {a : Action} (hk : k.step a = some k')
    (hkeep : KeepsLiving k k') (hwake : ∀ task, a ≠ .wake task) : Moves k k' := by
  cases a with
  | spawn weight stack node =>
    obtain ⟨hnode, hk⟩ := ite_none_right_eq_some.mp hk
    exact spawn_moves h hnode hk
  | spawnUser pml4 highestVaddr weight stack node =>
    obtain ⟨⟨hnode, -⟩, hk⟩ := ite_none_right_eq_some.mp hk
    exact spawnUserProcess_moves h hnode hk
  | schedule context =>
    obtain ⟨⟨k₁, out⟩, hrun, rfl⟩ := map_eq_some_iff.mp hk
    exact schedule_moves h hrun hkeep
  | wake task => exact absurd rfl (hwake task)
  | unlock m => exact unlock_moves h hk
  | release i => exact release_moves h hk
  | _ =>
    obtain ⟨⟨c, t⟩, hrun, hact⟩ := bind_eq_some_iff.mp hk
    exact act_moves h hrun hact hkeep

end Kernel

/-! ### Runs -/

/-- The steps of the system, with the two halves of an `unlock` and of a `release` as
steps of their own. -/
inductive SyncAction where
  | call (a : Action)
  /-- the drop of a `MutexGuard` writes the lock word -/
  | storeUnlocked (m : ℕ)
  /-- `wake_one` on the queue of a mutex -/
  | wakeMutex (m : ℕ)
  /-- `Semaphore::release` raises the count -/
  | addPermit (i : ℕ)
  /-- `wake_one` on the queue of a semaphore -/
  | wakeSemaphore (i : ℕ)
deriving DecidableEq, Repr

/-- The step is a call of `wake_task` from outside of the wait queues. -/
def SyncAction.wakesDirectly : SyncAction → Bool
  | .call (.wake _) => true
  | _ => false

namespace Kernel

/-- `wake_one` on the queue of a mutex. -/
def wakeMutex (k : Kernel) (m : ℕ) : Option Kernel :=
  let mutex := k.mutexes m
  wakeOne { k with
    mutexes := Function.update k.mutexes m { mutex with waitQueue := mutex.waitQueue.tail } }
    mutex.waitQueue

/-- `wake_one` on the queue of a semaphore. -/
def wakeSemaphore (k : Kernel) (i : ℕ) : Option Kernel :=
  let sem := k.semaphores i
  wakeOne { k with
    semaphores := Function.update k.semaphores i { sem with waitQueue := sem.waitQueue.tail } }
    sem.waitQueue

/-- One step. -/
def syncStep (k : Kernel) : SyncAction → Option Kernel
  | .call a => k.step a
  | .storeUnlocked m =>
    some { k with
      mutexes := Function.update k.mutexes m { k.mutexes m with isLocked := false } }
  | .wakeMutex m => k.wakeMutex m
  | .addPermit i =>
    let sem := k.semaphores i
    some { k with
      semaphores := Function.update k.semaphores i { sem with count := wrap (sem.count + 1) } }
  | .wakeSemaphore i => k.wakeSemaphore i

/-- The drop of a `MutexGuard` and `Semaphore::release` are their two halves. -/
theorem unlock_release_eq (k : Kernel) (m : ℕ) :
    k.unlock m = (k.syncStep (.storeUnlocked m)).bind (·.syncStep (.wakeMutex m)) ∧
      k.release m = (k.syncStep (.addPermit m)).bind (·.syncStep (.wakeSemaphore m)) := by
  constructor
  · simp only [unlock, syncStep, wakeMutex, bind_some, update_self, update_idem]
  · simp only [release, syncStep, wakeSemaphore, bind_some, update_self, update_idem]

variable {k k' : Kernel} {a : SyncAction}

/-- **Every step** keeps the invariants that the moves need. -/
theorem syncStep_inv (h : SchedInv k.sched) (hledger : Ledger k.view)
    (hk : k.syncStep a = some k') : SchedInv k'.sched ∧ Ledger k'.view := by
  have hsim : ∀ {b : Action}, Simulates k b k' → SchedInv k'.sched ∧ Ledger k'.view := fun hsim =>
    ⟨hsim.inv, hsim.path.invariant (fun _ _ _ h hs _ => h.step hs) hledger⟩
  cases a with
  | call a => exact hsim (step_sim h hledger hk)
  | storeUnlocked m => exact some.inj hk ▸ ⟨h, hledger⟩
  | addPermit i => exact some.inj hk ▸ ⟨h, hledger⟩
  | wakeMutex m =>
    obtain ⟨hinv, hpath⟩ := wakeOne_sim (a := .unlock m) (k := { k with
      mutexes := update k.mutexes m
        { k.mutexes m with waitQueue := (k.mutexes m).waitQueue.tail } }) h _ hk
    exact hsim (b := .unlock m) ⟨hinv, hpath⟩
  | wakeSemaphore i =>
    obtain ⟨hinv, hpath⟩ := wakeOne_sim (a := .release i) (k := { k with
      semaphores := update k.semaphores i
        { k.semaphores i with waitQueue := (k.semaphores i).waitQueue.tail } }) h _ hk
    exact hsim (b := .release i) ⟨hinv, hpath⟩

/-- `wake_task` is called by the wait queues only, and no record is removed while a
thread of the process is alive. -/
def QueuesWake (k : Kernel) (a : SyncAction) (k' : Kernel) : Prop :=
  KeepsLiving k k' ∧ a.wakesDirectly = false

theorem lt_length_of_process {pid : ℕ} (h : k.sched.process pid ≠ none) :
    pid < k.sched.processes.length := by
  by_contra hle
  rw [Scheduler.process, List.getElem?_eq_none (Nat.le_of_not_lt hle)] at h
  exact h rfl

instance (k k' : Kernel) : Decidable (KeepsLiving k k') :=
  decidable_of_iff (∀ pid < k.sched.processes.length, k.sched.process pid ≠ none →
      k'.sched.process pid = none → ∀ t ∈ k.sched.tasks.values, t.pid = pid → t.state = .zombie)
    ⟨fun h pid hsome => h pid (lt_length_of_process hsome) hsome, fun h pid _ => h pid⟩

instance (k : Kernel) (a : SyncAction) (k' : Kernel) : Decidable (QueuesWake k a k') :=
  inferInstanceAs (Decidable (_ ∧ _))

theorem syncStep_moves (h : SchedInv k.sched) (hk : k.syncStep a = some k')
    (hok : k.QueuesWake a k') : Moves k k' := by
  cases a with
  | call a =>
    refine step_moves h hk hok.1 fun task heq => ?_
    subst heq
    cases hok.2
  | storeUnlocked m =>
    cases hk
    refine .of_eq (roster_eq rfl fun place => ?_)
    rw [queueOf_mutex]
    exact congrFun (update_eq_self (Place.mutex m) k.queueOf) place
  | addPermit i =>
    cases hk
    refine .of_eq (roster_eq rfl fun place => ?_)
    rw [queueOf_semaphore]
    exact congrFun (update_eq_self (Place.semaphore i) k.queueOf) place
  | wakeMutex m =>
    exact wakeOne_moves (.mutex m)
      (queueOf_mutex k m { k.mutexes m with waitQueue := (k.mutexes m).waitQueue.tail }) h rfl hk
  | wakeSemaphore i =>
    exact wakeOne_moves (.semaphore i)
      (queueOf_semaphore k i
        { k.semaphores i with waitQueue := (k.semaphores i).waitQueue.tail }) h rfl hk

theorem boot_queueOf {kernelCr3 : ℕ} (h : Boots kernelCr3 k) (place : Place) :
    k.queueOf place = [] := by
  obtain ⟨-, stack, mem, permits, h⟩ := h
  simp only [boot, bind_eq_bind, bind_eq_some_iff] at h
  obtain ⟨t, hnew, sched, hset, h⟩ := h
  cases h
  cases hset
  cases place with
  | mutex m => rfl
  | semaphore i => rfl
  | thread tid =>
    cases tid with
    | zero =>
      have hnil : t.joinQueue = [] := new_joinQueue hnew
      exact hnil
    | succ tid => rfl
  | process pid =>
    cases pid with
    | zero => rfl
    | succ pid => rfl

theorem boot_orderly {kernelCr3 : ℕ} (h : Boots kernelCr3 k) : k.roster.Orderly := by
  have hnil : ∀ {tid place}, tid ∉ k.roster.queue place := by
    intro tid place hmem
    have hmem' : tid ∈ k.queueOf place := hmem
    rw [boot_queueOf h] at hmem'
    cases hmem'
  refine ⟨⟨fun tid => iff_of_false ?_ ?_, fun place => ?_, fun hmem => absurd hmem hnil⟩,
    fun hmem => absurd hmem hnil, fun hmem => absurd hmem hnil⟩
  · rintro ⟨v, hv, hstate⟩
    have hthreads : k.sched.threads = _ := congrArg View.threads (boot_spec h).2
    have hv' : k.sched.threads tid = some v := hv
    rw [hthreads] at hv'
    rw [← (View.initial_threads.mp hv').2] at hstate
    cases hstate
  · rintro ⟨place, hmem⟩
    exact hnil hmem
  · show (k.queueOf place).Nodup
    rw [boot_queueOf h]
    exact List.nodup_nil

/-- **The queues are in order in every run.** -/
theorem orderly_of_run {kernelCr3 : ℕ} (h : Run (Boots kernelCr3) syncStep QueuesWake k) :
    k.roster.Orderly := by
  have hall : (SchedInv k.sched ∧ Ledger k.view) ∧ k.roster.Orderly := by
    refine h.invariant (I := fun k => (SchedInv k.sched ∧ Ledger k.view) ∧ k.roster.Orderly) ?_ ?_
    · intro k hboot
      obtain ⟨hinv, hview⟩ := boot_spec hboot
      exact ⟨⟨hinv, hview ▸ Ledger.initial kernelCr3⟩, boot_orderly hboot⟩
    · rintro k a k' - ⟨⟨hinv, hledger⟩, horderly⟩ hstep hok
      exact ⟨syncStep_inv hinv hledger hstep, horderly.moves (syncStep_moves hinv hstep hok)⟩
  exact hall.2

end Kernel

/-- **Blocked threads are exactly the queued ones**, in every run in which only the wait
queues call `wake_task` and no record is removed while a thread of the process is
alive. A thread is `Blocked` if and only if it is in some wait queue, it is there once
and in no other, and whoever joins a thread waits for one that is in the arena and not
dead. -/
theorem blocked_iff_queued {kernelCr3 : ℕ} {k : Kernel}
    (h : Run (Kernel.Boots kernelCr3) Kernel.syncStep Kernel.QueuesWake k) :
    (∀ tid, (∃ t, k.sched.tasks.get tid = some t ∧ t.state = .blocked) ↔
        ∃ place, tid ∈ k.queueOf place) ∧
      (∀ place, (k.queueOf place).Nodup) ∧
      (∀ tid place place', tid ∈ k.queueOf place → tid ∈ k.queueOf place' → place = place') ∧
      ∀ target tid, tid ∈ k.queueOf (.thread target) →
        ∃ t, k.sched.tasks.get target = some t ∧ t.state ≠ .zombie := by
  obtain ⟨henrolled, -, hjoined⟩ := Kernel.orderly_of_run h
  refine ⟨fun tid => ?_, henrolled.nodup, fun tid place place' => henrolled.unique, ?_⟩
  · refine Iff.trans ?_ (henrolled.mem_iff tid)
    constructor
    · rintro ⟨t, ht, hstate⟩
      exact ⟨t.view, congrArg (Option.map Thread.view) ht, hstate⟩
    · rintro ⟨v, hv, hstate⟩
      obtain ⟨t, ht, rfl⟩ := Option.map_eq_some_iff.mp hv
      exact ⟨t, ht, hstate⟩
  · intro target tid hmem
    obtain ⟨u, hu, hlive⟩ := hjoined hmem
    obtain ⟨t, ht, rfl⟩ := Option.map_eq_some_iff.mp hu
    exact ⟨t, ht, hlive⟩

/-- The thread of process 1 sleeps in `SYS_WAIT`, in the queue of its own process. -/
theorem blocked_iff_queued_harvestRun :
    ∃ k, Run (Kernel.Boots 0x1000) Kernel.syncStep Kernel.QueuesWake k ∧
      1 ∈ k.queueOf (.process 1) ∧ ∃ t, k.sched.tasks.get 1 = some t ∧ t.state = .blocked := by
  obtain ⟨k, hk, hqueue⟩ := Kernel.Reachable.of_execute
    (fun k a k' => Kernel.QueuesWake k (.call a) k') 0x1000
    (harvestRun ++ [.sysWait (2 ^ 64 - 1) 0]) (fun k => 1 ∈ k.queueOf (.process 1))
    (by decide) (by decide +kernel)
  have hrun : Run (Kernel.Boots 0x1000) Kernel.syncStep Kernel.QueuesWake k :=
    hk.map SyncAction.call fun _ _ _ hstep hok => ⟨hstep, hok⟩
  exact ⟨k, hrun, hqueue, ((blocked_iff_queued hrun).1 1).mpr ⟨_, hqueue⟩⟩

end KernelR.Proc
