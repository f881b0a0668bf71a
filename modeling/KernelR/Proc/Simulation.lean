import Mathlib.Data.List.ReduceOption
import KernelR.Proc.Lifecycle

/-!
# The kernel follows the life cycle

Every step of the kernel keeps the invariant of the scheduler, and is a path of the
abstract machine between the views of its two states: `Kernel.step_sim`. A call that
only sleeps or spawns is one abstract step, `SYS_EXIT` and the wake-ups after it are
two, and `schedule` reaps, buries and switches.

`Origin` records, for the kinds of steps that later conditions are about, how the
abstract state relates to the kernel's state before the call.
-/

namespace KernelR.Proc

open List Function Option Foundations Sched Sched.RbTree

/-! ### The process table as a function -/

section Table

variable {l : List (Option Process)} {n : ℕ}

theorem join_set (hn : n < l.length) (x : Option Process) :
    (fun q => (l.set n x)[q]?.join) = update (fun q => l[q]?.join) n x := by
  funext q
  by_cases hq : q = n
  · subst hq
    rw [update_self, List.getElem?_set_self hn]
    rfl
  · rw [update_of_ne hq, List.getElem?_set_ne (Ne.symm hq)]

theorem join_set_none (l : List (Option Process)) (n : ℕ) :
    (fun q => (l.set n none)[q]?.join) = update (fun q => l[q]?.join) n none := by
  by_cases hn : n < l.length
  · exact join_set hn none
  · rw [set_eq_of_length_le (Nat.le_of_not_lt hn)]
    refine (update_eq_self_iff.mpr ?_).symm
    rw [List.getElem?_eq_none (Nat.le_of_not_lt hn)]
    rfl

theorem join_append (l : List (Option Process)) (x : Option Process) :
    (fun q => (l ++ [x])[q]?.join) = update (fun q => l[q]?.join) l.length x := by
  funext q
  rcases Nat.lt_trichotomy q l.length with hq | rfl | hq
  · rw [update_of_ne hq.ne, List.getElem?_append_left hq]
  · rw [update_self, List.getElem?_concat_length]
    rfl
  · rw [update_of_ne hq.ne', List.getElem?_eq_none hq.le,
      List.getElem?_eq_none (by rw [length_append]; exact hq)]

theorem join_modify (l : List (Option Process)) (n : ℕ) (f : Process → Process) :
    (fun q => (l.modify n (Option.map f))[q]?.join) =
      update (fun q => l[q]?.join) n ((l[n]?.join).map f) := by
  funext q
  by_cases hq : q = n
  · subst hq
    rw [update_self, List.getElem?_modify_eq]
    cases l[q]? with
    | none => rfl
    | some x => rfl
  · rw [update_of_ne hq, List.getElem?_modify_ne _ _ (Ne.symm hq)]

theorem join_map (l : List (Option Process)) (f : Process → Process) (q : ℕ) :
    (l.map (Option.map f))[q]?.join = (l[q]?.join).map f := by
  rw [List.getElem?_map]
  cases l[q]? with
  | none => rfl
  | some x => rfl

theorem some_mem_iff {p : Process} : some p ∈ l ↔ ∃ q : ℕ, l[q]?.join = some p := by
  rw [mem_iff_getElem?]
  simp only [Option.join_eq_some_iff]

end Table

/-! ### Views -/

namespace Kernel

variable {k : Kernel} {c : ℕ} {t : Thread}

theorem view_eq {v : View} (hprocs : k.sched.process = v.procs)
    (hthreads : k.sched.threads = v.threads) (hcurrent : k.sched.currentTask = v.current)
    (hidle : k.sched.idleTaskId = v.idle) (hgraveyard : k.sched.graveyard = v.graveyard)
    (hcr3 : k.cpu.cr3 = v.cr3) (hhistory : k.history = v.history) : k.view = v := by
  rw [Kernel.view, hprocs, hthreads, hcurrent, hidle, hgraveyard, hcr3, hhistory]

theorem view_modifyTask (hc : k.sched.tasks.get c = some t) (f : Thread → Thread) :
    (k.modifyTask c f).view = k.view.setThread c (f t).view :=
  view_eq rfl (threads_of_get (s := k.sched) (Arena.get_modify_some hc f)) rfl rfl rfl rfl rfl

theorem running_inv (h : k.running = some (c, t)) :
    k.sched.currentTask = some c ∧ k.sched.tasks.get c = some t ∧ t.state = .ready ∧
      k.sched.idleTaskId ≠ some c := by
  simp only [running, bind_eq_bind, bind_eq_some_iff] at h
  obtain ⟨c', hc', t', ht', h⟩ := h
  split at h
  · next hcond =>
      cases h
      exact ⟨hc', ht', hcond⟩
  · cases h

theorem running_view (h : k.running = some (c, t)) : k.view.Running c t.view := by
  obtain ⟨hcur, hget, hready, hidle⟩ := running_inv h
  have hthread : k.sched.threads c = some t.view := by
    rw [Scheduler.threads, hget]
    rfl
  exact ⟨hcur, hthread, hready, hidle⟩

end Kernel

/-- How the state of an abstract step relates to the kernel before the call. -/
def Origin (k : Kernel) (a : Action) (v : View) : Event → Prop
  | .fork n => v = k.view ∧ n = k.freePid ∧ a.forks = true
  | .exit => v = k.view ∧ a = .exitThread
  | .sysExit => v = k.view ∧ ∃ arg, a = .sysExit arg
  | .switch => v.DeadBuried
  | .idle => v.DeadBuried ∧ (∃ context, a = .schedule context) ∧ v.current = k.view.current ∧
      (∀ c, v.current = some c → v.threads c = k.view.threads c) ∧
      ∀ j t, k.view.threads j = some t → t.state = .ready → k.view.idle = some j
  | _ => True

/-- What a call does, on both levels. -/
structure Simulates (k : Kernel) (a : Action) (k' : Kernel) : Prop where
  inv : SchedInv k'.sched
  path : View.Path (Origin k a) k.view k'.view

/-- Queues of mutexes and semaphores are not part of the view. -/
theorem Simulates.congr {k k' k'' : Kernel} {a : Action} (h : Simulates k a k')
    (hs : k''.sched = k'.sched)
    (hc : k''.cpu = k'.cpu) (hh : k''.history = k'.history) : Simulates k a k'' where
  inv := hs ▸ h.inv
  path := by
    have hview : k''.view = k'.view := by
      rw [Kernel.view, Kernel.view, hs, hc, hh]
    rw [hview]
    exact h.path

namespace Kernel

variable {k k' : Kernel} {c : ℕ} {t : Thread} {a : Action}

/-! ### Sleeping and waking -/

/-- A change of the running thread, other than of its scheduling data. -/
theorem modifyTask_inv (h : SchedInv k.sched) (hrun : k.running = some (c, t))
    {f : Thread → Thread} (htid : (f t).tid = t.tid) (hnode : (f t).rbNode = t.rbNode) :
    SchedInv (k.modifyTask c f).sched := by
  obtain ⟨hcur, hget, hready, hidle⟩ := running_inv hrun
  refine h.modify hget htid hnode (Or.inr ⟨hcur, hidle, ?_⟩) (Or.inl hcur)
  rw [hready]
  nofun

theorem blockCurrent_eq (hrun : k.running = some (c, t)) :
    k.blockCurrent = some (k.modifyTask c fun t => { t with state := .blocked }, c) := by
  obtain ⟨hcur, hget, -, -⟩ := running_inv hrun
  simp only [blockCurrent, hcur, hget, bind_eq_bind, bind_some]
  rfl

/-- `join` returns at once, or puts the caller to sleep in the queue of another thread. -/
theorem join_inv (hrun : k.running = some (c, t)) {target : ℕ} (hk : k.join target = some k') :
    k' = k ∨ ∃ u, target ≠ c ∧ k.sched.tasks.get target = some u ∧ u.state ≠ .zombie ∧
      (k.modifyTask c fun t => { t with state := .blocked }).sched.tasks.get target = some u ∧
      k' = (k.modifyTask c fun t => { t with state := .blocked }).modifyTask target
        fun t => { t with joinQueue := t.joinQueue ++ [c] } := by
  obtain ⟨hcur, hget, -, -⟩ := running_inv hrun
  simp only [join, hcur, bind_eq_bind, bind_some, blockCurrent_eq hrun] at hk
  split at hk
  · exact Or.inl (some.inj hk).symm
  next hne =>
  split at hk
  · exact Or.inl (some.inj hk).symm
  next u hu =>
  split at hk
  · exact Or.inl (some.inj hk).symm
  next hlive =>
  refine Or.inr ⟨u, Ne.symm hne, hu, hlive, ?_, (some.inj hk).symm⟩
  show (k.sched.tasks.modify c _).get target = some u
  rw [Arena.get_modify_some hget, update_of_ne (Ne.symm hne), hu]

theorem sleep_sim (h : SchedInv k.sched) (hrun : k.running = some (c, t))
    (hpending : t.pending = .none) {state : ThreadState}
    (hstate : state = .blocked ∨ state = .sleeping) :
    Simulates k a (k.modifyTask c fun t => { t with state }) where
  inv := modifyTask_inv h hrun rfl rfl
  path := by
    rw [view_modifyTask (running_inv hrun).2.1]
    exact .single (.sleep (running_view hrun) hpending hstate) trivial

theorem stutter (h : SchedInv k.sched) : Simulates k a k := ⟨h, .refl _⟩

theorem wake_sim (h : SchedInv k.sched) (i : ℕ) (hrun : k.wake i = some k') : Simulates k a k' := by
  obtain ⟨s', hs', hinv, hframe, hthreads⟩ := h.wakeTask i
  rw [wake, hs', map_some] at hrun
  cases hrun
  have hview : ({ k with sched := s' } : Kernel).view = k.view.wake [i] := by
    rw [hframe]
    exact view_eq rfl (hframe ▸ hthreads) rfl rfl rfl rfl rfl
  exact ⟨hinv, hview ▸ .single (.wake [i]) trivial⟩

theorem wakeOne_sim (h : SchedInv k.sched) (waiters : List ℕ)
    (hrun : k.wakeOne waiters = some k') : Simulates k a k' := by
  cases waiters with
  | nil => exact some.inj hrun ▸ stutter h
  | cons i waiters => exact wake_sim h i hrun

theorem lock_sim (h : SchedInv k.sched) (hrun : k.running = some (c, t))
    (hpending : t.pending = .none) {m : ℕ} (hk : k.lock m = some k') : Simulates k a k' := by
  simp only [lock, blockCurrent_eq hrun, bind_eq_bind, bind_some] at hk
  split at hk
  · cases hk
    exact (sleep_sim h hrun hpending (Or.inl rfl)).congr rfl rfl rfl
  · cases hk
    exact (stutter h).congr rfl rfl rfl

theorem acquire_sim (h : SchedInv k.sched) (hrun : k.running = some (c, t))
    (hpending : t.pending = .none) {i : ℕ} (hk : k.acquire i = some k') : Simulates k a k' := by
  simp only [acquire, blockCurrent_eq hrun, bind_eq_bind, bind_some] at hk
  split at hk
  · cases hk
    exact (stutter h).congr rfl rfl rfl
  · cases hk
    exact (sleep_sim h hrun hpending (Or.inl rfl)).congr rfl rfl rfl

theorem unlock_sim (h : SchedInv k.sched) {m : ℕ} (hk : k.unlock m = some k') :
    Simulates k a k' := by
  let k₁ : Kernel :=
    { k with mutexes := update k.mutexes m ⟨false, (k.mutexes m).waitQueue.tail⟩ }
  have hsim : Simulates k₁ a k' := wakeOne_sim (k := k₁) h _ hk
  exact ⟨hsim.inv, hsim.path⟩

theorem release_sim (h : SchedInv k.sched) {i : ℕ} (hk : k.release i = some k') :
    Simulates k a k' := by
  let k₁ : Kernel :=
    { k with
      semaphores := update k.semaphores i
        ⟨wrap ((k.semaphores i).count + 1), (k.semaphores i).waitQueue.tail⟩ }
  have hsim : Simulates k₁ a k' := wakeOne_sim (k := k₁) h _ hk
  exact ⟨hsim.inv, hsim.path⟩

theorem Simulates.modifyTask {i : ℕ} {u : Thread} (h : Simulates k a k')
    (hi : k'.sched.tasks.get i = some u) {f : Thread → Thread} (htid : (f u).tid = u.tid)
    (hnode : (f u).rbNode = u.rbNode) (hview : (f u).view = u.view)
    (hdata : (f u).vruntime = u.vruntime ∧ (f u).deadline = u.deadline) :
    Simulates k a (k'.modifyTask i f) where
  inv := h.inv.modify hi htid hnode (Or.inl (congrArg TaskView.state hview)) (Or.inr hdata)
  path := by
    have hself : k'.view.setThread i u.view = k'.view := by
      have hthread : k'.view.threads i = some u.view := by
        show k'.sched.threads i = _
        rw [Scheduler.threads, hi]
        rfl
      rw [View.setThread, ← hthread, update_eq_self]
    rw [view_modifyTask hi, hview, hself]
    exact h.path

theorem join_sim (h : SchedInv k.sched) (hrun : k.running = some (c, t))
    (hpending : t.pending = .none) {target : ℕ} (hk : k.join target = some k') :
    Simulates k a k' := by
  obtain rfl | ⟨u, -, -, -, hu, rfl⟩ := join_inv hrun hk
  · exact stutter h
  · -- the queue of the target is not part of the view
    exact Simulates.modifyTask (sleep_sim h hrun hpending (Or.inl rfl)) hu rfl rfl rfl ⟨rfl, rfl⟩

theorem sleepCurrentTask_sim (h : SchedInv k.sched) (hrun : k.running = some (c, t))
    (hpending : t.pending = .none)
    (hk : (k.sched.sleepCurrentTask.map fun sched => { k with sched }) = some k') :
    Simulates k a k' := by
  obtain ⟨hcur, hget, -, -⟩ := running_inv hrun
  simp only [Scheduler.sleepCurrentTask, hcur, hget, map_some] at hk
  cases hk
  exact (sleep_sim h hrun hpending (Or.inr rfl)).congr (by rfl) rfl rfl

/-! ### Spawning -/

theorem new_view {totalWeight systemRuntime stack weight : ℕ}
    (h : Thread.new totalWeight systemRuntime stack weight = some t) :
    t.view = ⟨0, false, .ready, .none, 0⟩ := by
  unfold Thread.new at h
  split at h
  · cases h
  · rw [← some.inj h]
    rfl

/-- **A spawn** makes a thread that is `Ready`, in a slot that was empty. -/
theorem Enters.view {processes : List (Option Process)} {pid : ℕ} {user : Bool}
    {weight stack node : ℕ} {pml4s : List ℕ} (h : SchedInv k.sched) (hnode : k.FreshNode node)
    (hk : k.Enters processes pid user weight stack node pml4s k') :
    SchedInv k'.sched ∧ ∃ i, k.view.threads i = none ∧ k'.view = { k.view with
      procs := fun q => processes[q]?.join
      threads := update k.view.threads i
        (some ⟨pid, user, .ready, .none, k.history.spawned⟩)
      history := { k.history with spawned := k.history.spawned + 1, pml4s } } := by
  obtain ⟨thread, sched, j, hnew, hadd, rfl⟩ := hk
  have hs₁ : SchedInv { k.sched with processes } := ⟨h.queue, h.census⟩
  have hview : ({ thread with pid, user, serial := k.history.spawned } : Thread).view =
      ⟨pid, user, .ready, .none, k.history.spawned⟩ := by
    show ({ thread.view with pid, user, serial := k.history.spawned } : TaskView) = _
    rw [new_view hnew]
  obtain ⟨s', i, hrun, hinv, hframe, hnone, hthreads⟩ := hs₁.addTask
    { thread with pid, user, serial := k.history.spawned } (congrArg TaskView.state hview)
    hnode.1 hnode.2
  cases hrun.symm.trans hadd
  rw [hview] at hthreads
  refine ⟨hinv, _, hnone, ?_⟩
  rw [hframe]
  exact view_eq rfl (hframe ▸ hthreads) rfl rfl rfl rfl rfl

theorem spawn_sim (h : SchedInv k.sched) {weight stack node : ℕ} (hnode : k.FreshNode node)
    (hk : k.spawn weight stack node = some k') : Simulates k a k' := by
  obtain ⟨hinv, i, hnone, hview⟩ := (spawn_inv hk).view h hnode
  exact ⟨hinv, hview ▸ .single (.thread hnone) trivial⟩

theorem process_freePid (k : Kernel) : k.sched.process k.freePid = none := by
  rw [Scheduler.process, freePid]
  by_cases hlt : k.sched.processes.findIdx Option.isNone < k.sched.processes.length
  · have hnone := List.findIdx_getElem (w := hlt)
    rw [List.getElem?_eq_getElem hlt, isNone_iff_eq_none.mp hnone]
    rfl
  · rw [List.getElem?_eq_none (Nat.le_of_not_lt hlt)]
    rfl

theorem process_spawn (k : Kernel) (p : Process) : (fun q : ℕ => (k.processesWith p)[q]?.join) =
      update k.sched.process k.freePid (some p) := by
  unfold processesWith
  by_cases hlt : k.freePid < k.sched.processes.length
  · simp only [hlt, if_true]
    exact join_set hlt _
  · have hlen : k.freePid = k.sched.processes.length :=
      Nat.le_antisymm List.findIdx_le_length (Nat.le_of_not_lt hlt)
    simp only [hlt, if_false]
    rw [hlen]
    exact join_append _ _

theorem spawnUserProcess_sim (h : SchedInv k.sched) (hforks : a.forks = true)
    {pml4 highestVaddr weight ppid parent stack node : ℕ} (hnode : k.FreshNode node)
    (hpml4 : k.FreshPml4 pml4)
    (hparent : k.view.Fathered (k.newProcess pml4 highestVaddr ppid parent))
    (hk : k.spawnUserProcess pml4 highestVaddr weight ppid parent stack node = some k') :
    Simulates k a k' := by
  obtain ⟨hsmall, henters⟩ := spawnUserProcess_inv hk
  obtain ⟨hinv, i, hnone, hview⟩ := henters.view h hnode
  rw [process_spawn] at hview
  refine ⟨hinv, hview ▸ .single (.fork hnone ⟨process_freePid k, ?_, rfl, rfl, rfl, rfl, rfl,
    hpml4.1, hpml4.2⟩ hparent) ⟨rfl, rfl, hforks⟩⟩
  exact Nat.lt_of_succ_lt hsmall

/-! ### Exiting -/

theorem Simulates.wakeAll (h : Simulates k a k') (waiters : List ℕ) {s' : Scheduler}
    (hs : k'.sched.wakeAll waiters = some s') : Simulates k a { k' with sched := s' } := by
  obtain ⟨s'', hs'', hinv, hframe, hthreads⟩ := h.inv.wakeAll waiters
  rw [hs] at hs''
  cases hs''
  have hview : ({ k' with sched := s' } : Kernel).view = k'.view.wake waiters := by
    rw [hframe]
    exact view_eq rfl (hframe ▸ hthreads) rfl rfl rfl rfl rfl
  exact ⟨hinv, hview ▸ .tail h.path (.wake waiters) trivial⟩

/-- `exit_thread`: the thread is dead, and the threads that joined it wake up. -/
theorem exitThread_inv (hrun : k.running = some (c, t)) (hk : k.exitThread = some k') :
    ∃ s', (k.modifyTask c fun t => { t with state := .zombie, joinQueue := [] }).sched.wakeAll
      t.joinQueue = some s' ∧
      k' = { k.modifyTask c fun t => { t with state := .zombie, joinQueue := [] } with
        sched := s' } := by
  obtain ⟨hcur, hget, -, -⟩ := running_inv hrun
  simp only [exitThread, hcur, hget, bind_eq_bind, bind_some, bind_eq_some_iff] at hk
  obtain ⟨s', hs', hk⟩ := hk
  exact ⟨s', hs', (some.inj hk).symm⟩

theorem exitThread_sim (h : SchedInv k.sched) (hrun : k.running = some (c, t))
    (huser : t.user = false) (hk : k.exitThread = some k') : Simulates k .exitThread k' := by
  obtain ⟨s', hs', rfl⟩ := exitThread_inv hrun hk
  refine Simulates.wakeAll ⟨modifyTask_inv h hrun rfl rfl, ?_⟩ _ hs'
  rw [view_modifyTask (running_inv hrun).2.1]
  exact .single (.exit (running_view hrun) huser) ⟨rfl, rfl⟩

theorem markExited_process (k : Kernel) (pid : ℕ) (exitCode : ℤ) (q : ℕ) :
    (k.markExited pid exitCode).1.sched.process q = (k.sched.process q).map fun p =>
      if q = pid then { p with exitCode := some exitCode, isZombie := true } else p := by
  unfold markExited
  cases hp : k.sched.process pid with
  | none =>
    by_cases hq : q = pid
    · rw [hq, hp]
      rfl
    · simp only [hq, if_false, Option.map_id']
  | some p =>
    have hmod := congrFun (join_modify k.sched.processes pid fun p =>
      { p with exitCode := some exitCode, isZombie := true }) q
    refine hmod.trans ?_
    by_cases hq : q = pid
    · subst hq
      rw [update_self]
      simp only [if_true]
      rfl
    · rw [update_of_ne hq]
      simp only [hq, if_false, Option.map_id']
      rfl

/-- The parent that an exit wakes is the same on both levels. -/
theorem markExited_parent (k : Kernel) (pid : ℕ) (exitCode : ℤ) :
    (k.markExited pid exitCode).2 = k.view.wokenParent pid := by
  have hproc := markExited_process k pid exitCode
  unfold markExited at hproc ⊢
  rw [View.wokenParent]
  show _ = (k.sched.process pid).bind fun p => (k.sched.process p.ppid).map fun _ => p.ppid
  cases hp : k.sched.process pid with
  | none => rfl
  | some p =>
    simp only [hp] at hproc ⊢
    rw [hproc, Option.map_map, bind_some]
    rfl

theorem markExited_frame (k : Kernel) (pid : ℕ) (exitCode : ℤ) :
    (k.markExited pid exitCode).1 = { k with
      sched := { k.sched with processes := (k.markExited pid exitCode).1.sched.processes } } := by
  unfold markExited
  split <;> rfl

/-- **The parent's waiters** are woken and its queue is emptied. -/
theorem wakeParent_spec (h : SchedInv k.sched) {parent : Option ℕ}
    (hk : k.wakeParent parent = some k') :
    SchedInv k'.sched ∧ k'.view =
      { k.view.wake (match parent.bind k.sched.process with
          | none => []
          | some p => p.waitQueue) with
        procs := fun q => (k.sched.process q).map fun p =>
          { p with waitQueue := if parent = some q then [] else p.waitQueue } } := by
  cases parent with
  | none =>
    cases hk
    refine ⟨h, view_eq ?_ (wakeThreads_nil _).symm rfl rfl rfl rfl rfl⟩
    funext q
    simp only [reduceCtorEq, if_false, Option.map_id']
  | some ppid =>
    simp only [wakeParent, bind_eq_bind, bind_eq_some_iff] at hk
    obtain ⟨p, hp, s', hs', hk⟩ := hk
    have h₁ : SchedInv (k.modifyProcess ppid fun p => { p with waitQueue := [] }).sched :=
      ⟨h.queue, h.census⟩
    obtain ⟨s'', hs'', hinv, hframe, hthreads⟩ := h₁.wakeAll p.waitQueue
    rw [hs'] at hs''
    cases hs''
    cases hk
    refine ⟨hinv, ?_⟩
    rw [bind_some, hp, hframe]
    refine view_eq ?_ (hframe ▸ hthreads) rfl rfl rfl rfl rfl
    have hmod := join_modify k.sched.processes ppid fun p => { p with waitQueue := [] }
    refine hmod.trans ?_
    funext q
    by_cases hq : q = ppid
    · subst hq
      rw [update_self]
      simp only [if_true]
      rfl
    · rw [update_of_ne hq]
      have hne : ¬ some ppid = some q := fun e => hq (some.inj e).symm
      simp only [hne, if_false, Option.map_id']
      rfl

theorem running_of_wake {v : View} {W : List ℕ} (hW : k.view.threads = wakeThreads W v.threads)
    (hcur : k.sched.currentTask = v.current) (hidle : k.sched.idleTaskId = v.idle)
    {t : TaskView} (hrun : v.Running c t) : ∃ t', k.running = some (c, t') ∧ t'.view = t := by
  have hawake : t.wake = t := by
    rw [TaskView.wake, if_neg]
    rw [TaskView.Asleep, hrun.ready]
    rintro (h | h) <;> cases h
  have hthread : k.sched.threads c = some t := by
    show k.view.threads c = some t
    rw [hW, wakeThreads, hrun.thread]
    split
    · rw [map_some, hawake]
    · rfl
  obtain ⟨t', ht', hview⟩ := map_eq_some_iff.mp hthread
  refine ⟨t', ?_, hview⟩
  have hready : t'.state = .ready := (congrArg TaskView.state hview).trans hrun.ready
  have hbusy : k.sched.idleTaskId ≠ some c := hidle ▸ hrun.busy
  simp only [running, hcur.trans hrun.current, ht', bind_eq_bind, bind_some, hready,
    hbusy, ne_eq, not_false_eq_true, and_self, if_true]

theorem exit_process (k : Kernel) (pid : ℕ) (exitCode : ℤ) (parent : Option ℕ) (q : ℕ) :
    (((k.markExited pid exitCode).1.reparent pid).sched.process q).map (fun p =>
        { p with waitQueue := if parent = some q then [] else p.waitQueue }) =
      (k.sched.process q).map (View.exitRecord pid exitCode parent q) := by
  have hmap : ((k.markExited pid exitCode).1.reparent pid).sched.process q = _ :=
    join_map (k.markExited pid exitCode).1.sched.processes _ q
  rw [hmap]
  show ((((k.markExited pid exitCode).1).sched.process q).map _).map _ = _
  rw [markExited_process, Option.map_map, Option.map_map]
  refine congrArg (fun f => (k.sched.process q).map f) ?_
  funext p
  by_cases hq : q = pid <;> by_cases hp : p.ppid = pid <;> simp [View.exitRecord, comp_def, hq, hp]

theorem sysExit_sim (h : SchedInv k.sched) (hrun : k.running = some (c, t))
    (huser : t.user = true) (hpending : t.pending = .none) {arg : ℕ}
    (hk : k.sysExit arg = some k') : Simulates k (.sysExit arg) k' := by
  obtain ⟨hcur, hget, -, -⟩ := running_inv hrun
  simp only [sysExit, hcur, hget, bind_eq_bind, bind_some, bind_eq_some_iff] at hk
  let k₀ : Kernel := { k with history := { k.history with
    exits := (t.serial, asI32 arg) :: k.history.exits } }
  obtain ⟨k₃, hk₃, hk'⟩ := hk
  -- up to the wake-up of the parent
  have hframe := markExited_frame k₀ t.pid (asI32 arg)
  have h₂ : SchedInv ((k₀.markExited t.pid (asI32 arg)).1.reparent t.pid).sched := by
    rw [hframe]
    exact ⟨h.queue, h.census⟩
  obtain ⟨h₃, hview₃⟩ := wakeParent_spec h₂ hk₃
  have hparent : (k₀.markExited t.pid (asI32 arg)).2 = k.view.wokenParent t.pid :=
    markExited_parent k₀ t.pid (asI32 arg)
  have hqueue : (match ((k₀.markExited t.pid (asI32 arg)).2).bind
      ((k₀.markExited t.pid (asI32 arg)).1.reparent t.pid).sched.process with
        | none => []
        | some p => p.waitQueue) = k.view.parentQueue t.pid := by
    rw [hparent, View.parentQueue]
    cases hw : k.view.wokenParent t.pid with
    | none => rfl
    | some pp =>
      have hrec := exit_process k₀ t.pid (asI32 arg) none pp
      simp only [reduceCtorEq, if_false, Option.map_id'] at hrec
      have hsame : k₀.sched.process pp = k.view.procs pp := rfl
      rw [bind_some, bind_some, hrec, hsame]
      cases k.view.procs pp with
      | none => rfl
      | some p => rfl
  have hview : k₃.view =
      { k.view.wake (k.view.parentQueue t.pid) with
        procs := fun q => (k.view.procs q).map
          (View.exitRecord t.pid (asI32 arg) (k.view.wokenParent t.pid) q)
        history := { k.history with exits := (t.serial, asI32 arg) :: k.history.exits } } := by
    rw [hview₃, hqueue]
    have hprocs : (fun q => (((k₀.markExited t.pid (asI32 arg)).1.reparent t.pid).sched.process
        q).map fun p => { p with
          waitQueue := if (k₀.markExited t.pid (asI32 arg)).2 = some q then [] else p.waitQueue }) =
        fun q => (k.view.procs q).map
          (View.exitRecord t.pid (asI32 arg) (k.view.wokenParent t.pid) q) := by
      funext q
      rw [hparent]
      exact exit_process k₀ t.pid (asI32 arg) _ q
    rw [hprocs, hframe]
    rfl
  -- the exit of the thread
  obtain ⟨t', hrun', htview⟩ := running_of_wake (k := k₃) (v := k.view)
    (congrArg View.threads hview) (congrArg View.current hview) (congrArg View.idle hview)
    (running_view hrun)
  obtain ⟨s', hs', rfl⟩ := exitThread_inv hrun' hk'
  refine Simulates.wakeAll ⟨modifyTask_inv h₃ hrun' rfl rfl, ?_⟩ _ hs'
  have hdead : ({ t' with state := .zombie, joinQueue := [] } : Thread).view =
      { t.view with state := .zombie } := by
    rw [← htview]
    rfl
  rw [view_modifyTask (running_inv hrun').2.1, hdead, hview]
  exact .single (.sysExit (asI32 arg) (running_view hrun) huser hpending) ⟨rfl, arg, rfl⟩

/-! ### Waiting -/

/-- **The search of `SYS_WAIT`** ends at the first child that is a zombie. -/
theorem waitScan_eq (ppid target : ℕ) (slots : List (Option Process)) (childFound : Bool) :
    waitScan ppid target slots childFound =
      (childFound || slots.reduceOption.any fun p => p.ppid = ppid ∧ waitMatches target p,
        slots.reduceOption.find? fun p => (p.ppid = ppid ∧ waitMatches target p) ∧ p.isZombie) := by
  induction slots generalizing childFound with
  | nil => simp [waitScan]
  | cons slot slots ih =>
    cases slot with
    | none => rw [waitScan, ih, reduceOption_cons_of_none]
    | some p =>
      rw [reduceOption_cons_of_some]
      by_cases hp : p.ppid = ppid ∧ waitMatches target p
      · by_cases hz : p.isZombie = true
        · simp [waitScan, hp, hz]
        · simp [waitScan, hp, hz, ih]
      · rw [waitScan, if_neg hp, ih, any_cons, find?_cons_of_neg (by simp [hp]), decide_eq_false hp,
          Bool.false_or]

/-- A zombie that the search returns is a matching child; if it
returns none, no matching child is a zombie, and the flag tells whether there is one. -/
theorem waitScan_spec (ppid target : ℕ) (slots : List (Option Process)) (childFound : Bool) :
    (∀ p, (waitScan ppid target slots childFound).2 = some p →
      (waitScan ppid target slots childFound).1 = true ∧ some p ∈ slots ∧ p.ppid = ppid ∧
        waitMatches target p ∧ p.isZombie = true) ∧
    ((waitScan ppid target slots childFound).2 = none →
      (∀ p, some p ∈ slots → p.ppid = ppid → waitMatches target p → p.isZombie = false) ∧
      ((waitScan ppid target slots childFound).1 = true ↔
        childFound = true ∨ ∃ p, some p ∈ slots ∧ p.ppid = ppid ∧ waitMatches target p)) := by
  simp only [waitScan_eq, Bool.or_eq_true, List.any_eq_true, decide_eq_true_eq, reduceOption_mem_iff]
  constructor
  · intro p hp
    have hfound := find?_some hp
    obtain ⟨hchild, hz⟩ := of_decide_eq_true hfound
    have hmem := reduceOption_mem_iff.mp (mem_of_find?_eq_some hp)
    exact ⟨Or.inr ⟨p, hmem, hchild⟩, hmem, hchild.1, hchild.2, hz⟩
  · intro hnone
    refine ⟨fun p hmem hppid hmatch => ?_, trivial⟩
    have hnot := find?_eq_none.mp hnone p (reduceOption_mem_iff.mpr hmem)
    exact Bool.eq_false_iff.mpr fun hz => hnot (decide_eq_true ⟨⟨hppid, hmatch⟩, hz⟩)

/-- The children that the search looks at are those of the view. -/
theorem isChild_iff {pid target : ℕ} {p : Process} : (∃ q, k.view.IsChild pid target q p) ↔
      some p ∈ k.sched.processes ∧ p.ppid = pid ∧ waitMatches target p := by
  rw [some_mem_iff]
  constructor
  · rintro ⟨q, hq, hrest⟩
    exact ⟨⟨q, hq⟩, hrest⟩
  · rintro ⟨⟨q, hq⟩, hrest⟩
    exact ⟨q, hq, hrest⟩

/-- **A round of `SYS_WAIT`** is one of three steps, and tells which. -/
theorem sysWaitRound_cases (h : SchedInv k.sched) (hrun : k.running = some (c, t))
    (huser : t.user = true) {target statusPtr : ℕ} (hloop : View.AtLoop t.view target statusPtr)
    {result : WaitResult} (hk : k.sysWaitRound target statusPtr = some (k', result)) :
    SchedInv k'.sched ∧
      (result = .returned negEchild ∧ (∀ q p, ¬ k.view.IsChild t.pid target q p) ∧
          View.Step k.view .waitNone k'.view ∨
        result = .harvested ∧ View.Step k.view .harvest k'.view ∨
        result = .blocked ∧ View.Step k.view .waitBlock k'.view) := by
  obtain ⟨hcur, hget, -, -⟩ := running_inv hrun
  have hrunning := running_view hrun
  simp only [sysWaitRound, hcur, hget, bind_eq_bind, bind_some] at hk
  obtain ⟨hsome, hnone⟩ := waitScan_spec t.pid target k.sched.processes false
  generalize waitScan t.pid target k.sched.processes false = scan at hk hsome hnone
  obtain ⟨found, zombie⟩ := scan
  cases found with
  | false =>
    -- no child at all
    cases zombie with
    | some p => exact absurd (hsome p rfl).1 Bool.false_ne_true
    | none =>
      cases hk
      have hno : ∀ q p, ¬ k.view.IsChild t.pid target q p := by
        intro q p hchild
        have hfound := (hnone rfl).2.mpr (Or.inr ⟨p, isChild_iff.mp ⟨q, hchild⟩⟩)
        exact Bool.false_ne_true hfound
      refine ⟨modifyTask_inv h hrun rfl rfl, Or.inl ⟨rfl, hno, ?_⟩⟩
      rw [view_modifyTask hget]
      exact .waitNone hrunning huser hloop hno
  | true =>
    cases zombie with
    | some p =>
      -- a child that has exited
      obtain ⟨-, hmem, hppid, hmatch, hz⟩ := hsome p rfl
      obtain ⟨q, hchild⟩ := isChild_iff.mpr ⟨hmem, hppid, hmatch⟩
      simp only at hk
      split at hk
      · cases hk
        let k₁ : Kernel := { k.removeProcess p.pid p with
          history := { (k.removeProcess p.pid p).history with
            harvests := p.serial :: (k.removeProcess p.pid p).history.harvests } }
        have h₁ : SchedInv k₁.sched := ⟨h.queue, h.census⟩
        have hrun₁ : k₁.running = some (c, t) := hrun
        refine ⟨modifyTask_inv h₁ hrun₁ rfl rfl, Or.inr (Or.inl ⟨rfl, ?_⟩)⟩
        have hview₁ : k₁.view = { k.view.removeProcess p.pid p with
            history := { k.history with
              removed := p :: k.history.removed
              harvests := p.serial :: k.history.harvests } } :=
          view_eq (join_set_none k.sched.processes p.pid) rfl rfl rfl rfl rfl rfl
        show View.Step _ _ (k₁.modifyTask c _).view
        rw [view_modifyTask (k := k₁) hget, hview₁]
        exact .harvest hrunning huser hloop hchild hz
      · cases hk
    | none =>
      -- living children only
      obtain ⟨hlive, hfound⟩ := hnone rfl
      obtain ⟨p, hp⟩ := (hfound.mp rfl).resolve_left Bool.false_ne_true
      obtain ⟨q, hchild⟩ := isChild_iff.mpr hp
      simp only [bind_eq_some_iff, blockCurrent_eq hrun, bind_some] at hk
      obtain ⟨own, hown, hk⟩ := hk
      cases hk
      let k₁ := k.modifyTask c fun t => { t with state := .blocked }
      have hget₁ : k₁.sched.tasks.get c = some { t with state := .blocked } := by
        show (k.sched.tasks.modify c _).get c = _
        rw [Arena.get_modify_some hget, update_self]
      have h₁ : SchedInv k₁.sched := modifyTask_inv h hrun rfl rfl
      let k₂ := k₁.modifyTask c fun t => { t with pending := .waiting target statusPtr }
      have h₂ : SchedInv k₂.sched := h₁.modify hget₁ rfl rfl (Or.inl rfl) (Or.inl hcur)
      have hview₂ : k₂.view = k.view.setThread c
          { t.view with state := .blocked, pending := .waiting target statusPtr } := by
        rw [view_modifyTask hget₁, view_modifyTask hget, View.setThread, View.setThread,
          View.setThread, update_idem]
        rfl
      refine ⟨⟨h₂.queue, h₂.census⟩, Or.inr (Or.inr ⟨rfl, ?_⟩)⟩
      have hview : (k₂.modifyProcess t.pid fun p =>
          { p with waitQueue := p.waitQueue ++ [c] }).view =
          { k.view.setThread c
              { t.view with state := .blocked, pending := .waiting target statusPtr } with
            procs := update k.view.procs t.pid
              (some { own with waitQueue := own.waitQueue ++ [c] }) } := by
        refine view_eq ?_ (congrArg View.threads hview₂) rfl rfl rfl rfl rfl
        refine (join_modify k.sched.processes t.pid _).trans ?_
        show update k.sched.process t.pid ((k.sched.process t.pid).map _) = _
        rw [hown]
        rfl
      show View.Step _ _ (k₂.modifyProcess t.pid _).view
      rw [hview]
      refine .waitBlock hrunning huser hloop hchild (fun q' p' hchild' => ?_) hown
      obtain ⟨hmem', hppid', hmatch'⟩ := isChild_iff.mp ⟨q', hchild'⟩
      exact hlive p' hmem' hppid' hmatch'

theorem sysWaitRound_sim (h : SchedInv k.sched) (hrun : k.running = some (c, t))
    (huser : t.user = true) {target statusPtr : ℕ} (hloop : View.AtLoop t.view target statusPtr)
    {result : WaitResult} (hk : k.sysWaitRound target statusPtr = some (k', result)) :
    Simulates k a k' := by
  obtain ⟨hinv, hcases⟩ := sysWaitRound_cases h hrun huser hloop hk
  rcases hcases with ⟨-, -, hstep⟩ | ⟨-, hstep⟩ | ⟨-, hstep⟩
  · exact ⟨hinv, .single hstep trivial⟩
  · exact ⟨hinv, .single hstep trivial⟩
  · exact ⟨hinv, .single hstep trivial⟩

theorem sysWaitFinish_sim (h : SchedInv k.sched) (hrun : k.running = some (c, t))
    {target statusPtr childPid child pageTable : ℕ} {exitCode : ℤ}
    (hpending : t.pending = .harvested target statusPtr childPid child pageTable exitCode) :
    Simulates k a (k.sysWaitFinish c t.serial target statusPtr childPid child pageTable
      exitCode) := by
  obtain ⟨hcur, hget, -, -⟩ := running_inv hrun
  let k₁ : Kernel := { k.destroyUserAddressSpace pageTable with
    history := { (k.destroyUserAddressSpace pageTable).history with
      returns := ⟨t.serial, target, statusPtr, child, childPid, writtenStatus statusPtr exitCode⟩ ::
        k.history.returns } }
  have h₁ : SchedInv k₁.sched := ⟨h.queue, h.census⟩
  have hrun₁ : k₁.running = some (c, t) := hrun
  refine ⟨modifyTask_inv h₁ hrun₁ rfl rfl, ?_⟩
  show View.Path _ _ (k₁.modifyTask c _).view
  rw [view_modifyTask (k := k₁) hget]
  exact .single (.finish (running_view hrun) hpending) trivial

end Kernel

end KernelR.Proc
