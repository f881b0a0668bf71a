import KernelR.Proc.RunQueue

/-!
# The invariant of the scheduler

`SchedInv` says of a scheduler that its tree holds exactly the threads waiting for
the CPU (`runnable`), and takes a census of the others: the idle task is there and
`Ready`, the current task is there, every thread that is neither idle nor dead has a
node, and the graveyard holds dead threads without a node, each once.

Each call of the scheduler has one specification here: it does not panic, it keeps
the invariant, and it has a known effect on what the threads look like from outside
(`Scheduler.threads`). In the middle of `schedule` nobody is running; the
invariant then holds for the scheduler without its current task.
-/

namespace KernelR.Proc

open List Function Option Foundations Sched Sched.RbTree

/-- The threads that wait for the CPU. -/
def runnable (tasks : ThreadArena) (current idle : Option ℕ) : Set ℕ :=
  {i | ∃ t, tasks.get i = some t ∧ t.state = .ready ∧ current ≠ some i ∧ idle ≠ some i}

/-- Where the threads are that do not wait for the CPU. -/
structure Census (tasks : ThreadArena) (current idle : Option ℕ) (graveyard : List ℕ) : Prop where
  /-- a thread that can be enqueued has a node -/
  alive : ∀ {i t}, tasks.get i = some t → t.state ≠ .zombie → idle ≠ some i → t.rbNode ≠ 0
  idleReady : ∃ i t, idle = some i ∧ tasks.get i = some t ∧ t.state = .ready
  present : ∀ {i}, current = some i → ∃ t, tasks.get i = some t
  nodup : graveyard.Nodup
  buried : ∀ i ∈ graveyard, current ≠ some i ∧
    ∃ t, tasks.get i = some t ∧ t.state = .zombie ∧ t.rbNode = 0

/-- **The invariant of the scheduler.** -/
structure SchedInv (s : Scheduler) : Prop where
  queue : ∃ T, QueueInv (runnable s.tasks s.currentTask s.idleTaskId) s.tasks s.tree T
  census : Census s.tasks s.currentTask s.idleTaskId s.graveyard

/-- The threads as they look from outside. -/
def Scheduler.threads (s : Scheduler) (i : ℕ) : Option TaskView := (s.tasks.get i).map Thread.view

/-- The current task, if it is dead. -/
def Scheduler.newlyDead (s : Scheduler) : List ℕ :=
  match s.currentTask with
  | none => []
  | some i => if (s.threads i).map TaskView.state = some .zombie then [i] else []

/-! ### The set of waiting threads -/

section Runnable

variable {tasks tasks' : ThreadArena} {current idle : Option ℕ} {i : ℕ} {t t' : Thread}

theorem runnable_some (tasks : ThreadArena) (idle : Option ℕ) (i : ℕ) :
    runnable tasks (some i) idle = runnable tasks none idle \ {i} := by
  ext j
  constructor
  · rintro ⟨t, ht, hready, hcur, hidle⟩
    exact ⟨⟨t, ht, hready, nofun, hidle⟩, fun hj => hcur (congrArg some (Eq.symm hj))⟩
  · rintro ⟨⟨t, ht, hready, -, hidle⟩, hj⟩
    exact ⟨t, ht, hready, fun hcur => hj (some.inj hcur).symm, hidle⟩

theorem mem_runnable_iff (hi : tasks.get i = some t) :
    i ∈ runnable tasks current idle ↔ t.state = .ready ∧ current ≠ some i ∧ idle ≠ some i := by
  constructor
  · rintro ⟨t', ht', hrest⟩
    rw [hi] at ht'
    exact some.inj ht' ▸ hrest
  · exact fun hrest => ⟨t, hi, hrest⟩

theorem mem_runnable_update (hget : tasks'.get = update tasks.get i (some t')) {j : ℕ}
    (hj : j ≠ i) : j ∈ runnable tasks' current idle ↔ j ∈ runnable tasks current idle := by
  simp only [runnable, Set.mem_ofPred_eq, hget, update_of_ne hj]

theorem runnable_update (hget : tasks'.get = update tasks.get i (some t'))
    (hi : i ∈ runnable tasks current idle ↔ t'.state = .ready ∧ current ≠ some i ∧ idle ≠ some i) :
    runnable tasks' current idle = runnable tasks current idle := by
  ext j
  by_cases hj : j = i
  · subst hj
    rw [mem_runnable_iff (t := t') (by rw [hget, update_self]), hi]
  · exact mem_runnable_update hget hj

theorem runnable_insert (hget : tasks'.get = update tasks.get i (some t'))
    (hready : t'.state = .ready) (hcur : current ≠ some i) (hidle : idle ≠ some i) :
    runnable tasks' current idle = insert i (runnable tasks current idle) := by
  ext j
  by_cases hj : j = i
  · subst hj
    rw [mem_runnable_iff (t := t') (by rw [hget, update_self])]
    exact iff_of_true ⟨hready, hcur, hidle⟩ (Set.mem_insert _ _)
  · rw [mem_runnable_update hget hj, Set.mem_insert_iff, or_iff_right hj]

theorem runnable_remove (hi : i ∉ runnable tasks current idle) :
    runnable (tasks.remove i).1 current idle = runnable tasks current idle := by
  ext j
  by_cases hj : j = i
  · subst hj
    refine iff_of_false ?_ hi
    rintro ⟨t, ht, -⟩
    rw [Arena.get_remove, update_self] at ht
    cases ht
  · simp only [runnable, Set.mem_ofPred_eq, Arena.get_remove, update_of_ne hj]

end Runnable

/-! ### The census -/

namespace Census

variable {tasks tasks' : ThreadArena} {current idle : Option ℕ} {graveyard : List ℕ} {i : ℕ}
  {t t' : Thread}

/-- Change a thread that keeps its node. The dead stay dead, and the idle task stays
`Ready`. -/
theorem update (h : Census tasks current idle graveyard)
    (hget : tasks'.get = update tasks.get i (some t')) (hi : tasks.get i = some t)
    (hnode : t'.rbNode = t.rbNode) (hdead : t.state = .zombie → t'.state = .zombie)
    (hidle : idle = some i → t'.state = .ready) : Census tasks' current idle graveyard := by
  refine ⟨?_, ?_, ?_, h.nodup, ?_⟩
  · intro j u hj hlive hne
    rw [hget] at hj
    by_cases hji : j = i
    · subst hji
      rw [update_self] at hj
      cases hj
      rw [hnode]
      exact h.alive hi (fun hz => hlive (hdead hz)) hne
    · rw [update_of_ne hji] at hj
      exact h.alive hj hlive hne
  · obtain ⟨j, u, hj, hu, hready⟩ := h.idleReady
    by_cases hji : j = i
    · exact ⟨i, t', hji ▸ hj, by rw [hget, update_self], hidle (hji ▸ hj)⟩
    · exact ⟨j, u, hj, by rw [hget, update_of_ne hji]; exact hu, hready⟩
  · intro j hj
    by_cases hji : j = i
    · exact ⟨t', by rw [hget, hji, update_self]⟩
    · rw [hget, update_of_ne hji]
      exact h.present hj
  · intro j hj
    obtain ⟨hcur, u, hu, hz, hnull⟩ := h.buried j hj
    refine ⟨hcur, ?_⟩
    by_cases hji : j = i
    · subst hji
      rw [hi] at hu
      cases hu
      exact ⟨t', by rw [hget, update_self], hdead hz, hnode.trans hnull⟩
    · exact ⟨u, by rw [hget, update_of_ne hji]; exact hu, hz, hnull⟩

theorem add (h : Census tasks current idle graveyard)
    (hget : tasks'.get = Function.update tasks.get i (some t')) (hnone : tasks.get i = none)
    (hnode : t'.rbNode ≠ 0) : Census tasks' current idle graveyard := by
  have hkeep : ∀ {j u}, tasks.get j = some u → tasks'.get j = some u := by
    intro j u hj
    rw [hget, update_of_ne]
    · exact hj
    · rintro rfl
      rw [hnone] at hj
      cases hj
  refine ⟨?_, ?_, ?_, h.nodup, ?_⟩
  · intro j u hj hlive hne
    rw [hget] at hj
    by_cases hji : j = i
    · subst hji
      rw [update_self] at hj
      exact some.inj hj ▸ hnode
    · rw [update_of_ne hji] at hj
      exact h.alive hj hlive hne
  · obtain ⟨j, u, hj, hu, hready⟩ := h.idleReady
    exact ⟨j, u, hj, hkeep hu, hready⟩
  · intro j hj
    obtain ⟨u, hu⟩ := h.present hj
    exact ⟨u, hkeep hu⟩
  · intro j hj
    obtain ⟨hcur, u, hu, hrest⟩ := h.buried j hj
    exact ⟨hcur, u, hkeep hu, hrest⟩

theorem reap {rest : List ℕ} (h : Census tasks current idle (i :: rest)) :
    Census (tasks.remove i).1 current idle rest := by
  obtain ⟨hcuri, v, hv, hz, -⟩ := h.buried i mem_cons_self
  obtain ⟨hnot, hnodup⟩ := nodup_cons.mp h.nodup
  have hkeep : ∀ {j}, j ≠ i → (tasks.remove i).1.get j = tasks.get j := by
    intro j hj
    rw [Arena.get_remove, update_of_ne hj]
  refine ⟨?_, ?_, ?_, hnodup, ?_⟩
  · intro j u hj
    by_cases hji : j = i
    · rw [hji, Arena.get_remove, update_self] at hj
      cases hj
    · exact h.alive (hkeep hji ▸ hj)
  · obtain ⟨j, u, hj, hu, hready⟩ := h.idleReady
    have hji : j ≠ i := by
      rintro rfl
      rw [hv] at hu
      cases hu
      rw [hz] at hready
      cases hready
    exact ⟨j, u, hj, (hkeep hji).trans hu, hready⟩
  · intro j hj
    rw [hkeep fun e => hcuri (e ▸ hj)]
    exact h.present hj
  · intro j hj
    obtain ⟨hcur, u, hu, hrest⟩ := h.buried j (mem_cons_of_mem _ hj)
    exact ⟨hcur, u, (hkeep fun e => hnot (e ▸ hj)).trans hu, hrest⟩

theorem idle_ready (h : Census tasks current idle graveyard) (hidle : idle = some i)
    (hi : tasks.get i = some t) : t.state = .ready := by
  obtain ⟨j, u, hj, hu, hready⟩ := h.idleReady
  obtain rfl : i = j := some.inj (hidle.symm.trans hj)
  rw [hi] at hu
  rw [some.inj hu, hready]

theorem not_runnable (h : Census tasks current idle graveyard) (hi : i ∈ graveyard)
    (current' : Option ℕ) : i ∉ runnable tasks current' idle := by
  obtain ⟨-, u, hu, hz, -⟩ := h.buried i hi
  rw [mem_runnable_iff hu, hz]
  exact fun hmem => nomatch hmem.1

end Census

/-! ### Waking threads, seen from outside -/

/-- The threads after a wake-up of those in the list. -/
def wakeThreads (waiters : List ℕ) (threads : ℕ → Option TaskView) (i : ℕ) : Option TaskView :=
  if i ∈ waiters then (threads i).map TaskView.wake else threads i

theorem TaskView.wake_wake (v : TaskView) : v.wake.wake = v.wake := by
  unfold TaskView.wake
  split
  · rw [if_neg (by simp [Asleep])]
  · rfl

@[simp] theorem wakeThreads_nil (threads : ℕ → Option TaskView) :
    wakeThreads [] threads = threads := by
  funext i
  exact if_neg not_mem_nil

theorem wakeThreads_cons (i : ℕ) (waiters : List ℕ) (threads : ℕ → Option TaskView) :
    wakeThreads waiters (wakeThreads [i] threads) = wakeThreads (i :: waiters) threads := by
  funext j
  by_cases hj : j = i
  · subst hj
    by_cases hw : j ∈ waiters
    · simp [wakeThreads, hw, comp_def, TaskView.wake_wake]
    · simp [wakeThreads, hw]
  · by_cases hw : j ∈ waiters <;> simp [wakeThreads, hj, hw]

theorem Thread.view_wake {t : Thread} (h : t.state = .sleeping ∨ t.state = .blocked) (r : ℕ) :
    (t.wake r).view = t.view.wake := by
  rw [TaskView.wake, if_pos (show t.view.Asleep from h)]
  rfl

theorem threads_of_get {s s' : Scheduler} {i : ℕ} {t' : Thread}
    (hget : s'.tasks.get = update s.tasks.get i (some t')) :
    s'.threads = update s.threads i (some t'.view) := by
  funext j
  by_cases hj : j = i
  · rw [hj, Scheduler.threads, hget, update_self, update_self, map_some]
  · simp only [Scheduler.threads, hget, update_of_ne hj]

/-! ### The calls -/

namespace SchedInv

variable {s : Scheduler} {i : ℕ} {t : Thread}

/-- Change a thread that keeps its node: the running one, or any one outside of its
scheduling data. -/
theorem modify (h : SchedInv s) (hi : s.tasks.get i = some t) {f : Thread → Thread}
    (htid : (f t).tid = t.tid) (hnode : (f t).rbNode = t.rbNode)
    (hstate : (f t).state = t.state ∨
      s.currentTask = some i ∧ s.idleTaskId ≠ some i ∧ t.state ≠ .zombie)
    (hdata : s.currentTask = some i ∨ (f t).vruntime = t.vruntime ∧ (f t).deadline = t.deadline) :
    SchedInv { s with tasks := s.tasks.modify i f } := by
  have hget := Arena.get_modify_some hi f
  obtain ⟨T, hT⟩ := h.queue
  have hset : runnable (s.tasks.modify i f) s.currentTask s.idleTaskId =
      runnable s.tasks s.currentTask s.idleTaskId := by
    refine runnable_update hget ?_
    rw [mem_runnable_iff hi]
    rcases hstate with hstate | ⟨hcur, -, -⟩
    · rw [hstate]
    · exact iff_of_false (fun hmem => hmem.2.1 hcur) fun hmem => hmem.2.1 hcur
  refine ⟨⟨T, ?_⟩, ?_⟩
  · rw [hset]
    refine hT.modify hi htid (Or.inl hnode) fun hQ => hdata.resolve_left ?_
    exact ((mem_runnable_iff hi).mp hQ).2.1
  · refine h.census.update hget hi hnode (fun hz => ?_) fun hidle => ?_
    · rcases hstate with hstate | ⟨-, -, hlive⟩
      · exact hstate.trans hz
      · exact absurd hz hlive
    · rcases hstate with hstate | ⟨-, hne, -⟩
      · exact hstate.trans (h.census.idle_ready hidle hi)
      · exact absurd hidle hne

/-- **`wake_task`** makes a thread that is asleep `Ready`, and touches no other. -/
theorem wakeTask (h : SchedInv s) (i : ℕ) : ∃ s', s.wakeTask i = some s' ∧ SchedInv s' ∧
      s' = { s with tasks := s'.tasks, tree := s'.tree } ∧
      s'.threads = wakeThreads [i] s.threads := by
  have hother : ∀ {v : Option TaskView}, s.threads i = v → v.map TaskView.wake = v →
      wakeThreads [i] s.threads = s.threads := by
    intro v hv hw
    funext j
    by_cases hj : j = i
    · rw [hj, wakeThreads, if_pos mem_cons_self, hv, hw]
    · rw [wakeThreads, if_neg (by simpa using hj)]
  cases hi : s.tasks.get i with
  | none =>
    refine ⟨s, by rw [Scheduler.wakeTask, hi], h, rfl, ?_⟩
    exact (hother (v := none) (by rw [Scheduler.threads, hi]; rfl) rfl).symm
  | some t =>
    by_cases hasleep : t.state = .sleeping ∨ t.state = .blocked
    · have hget := Arena.get_modify_some hi fun _ => t.wake s.systemRuntime
      have hlive : t.state ≠ .zombie := by
        rintro hz
        rw [hz] at hasleep
        exact hasleep.elim nofun nofun
      have hnotready : t.state ≠ .ready := by
        rintro hr
        rw [hr] at hasleep
        exact hasleep.elim nofun nofun
      have hidle : s.idleTaskId ≠ some i := fun hidle => hnotready (h.census.idle_ready hidle hi)
      have hthreads : ∀ tree', ({ s with
          tasks := s.tasks.modify i fun _ => t.wake s.systemRuntime
          tree := tree' } : Scheduler).threads = wakeThreads [i] s.threads := by
        intro tree'
        rw [threads_of_get (s := s) (by exact hget), Thread.view_wake hasleep]
        funext j
        by_cases hj : j = i
        · rw [hj, update_self, wakeThreads, if_pos mem_cons_self,
            Scheduler.threads, hi, map_some, map_some]
        · rw [update_of_ne hj, wakeThreads, if_neg (by simpa using hj)]
      by_cases hcur : s.currentTask = some i
      · -- the thread is still running: `schedule` will enqueue it
        refine ⟨{ s with tasks := s.tasks.modify i fun _ => t.wake s.systemRuntime }, ?_,
          h.modify hi rfl rfl (Or.inr ⟨hcur, hidle, hlive⟩) (Or.inl hcur), rfl, hthreads s.tree⟩
        simp only [Scheduler.wakeTask, hi, hasleep, if_true, hcur, ne_eq, not_true_eq_false,
          if_false]
      · have hQ : i ∉ runnable s.tasks s.currentTask s.idleTaskId :=
          fun hmem => hnotready ((mem_runnable_iff hi).mp hmem).1
        obtain ⟨T, hT⟩ := h.queue
        have hT₁ : QueueInv (runnable s.tasks s.currentTask s.idleTaskId)
            (s.tasks.modify i fun _ => t.wake s.systemRuntime) s.tree T :=
          hT.modify hi rfl (Or.inl rfl) fun hmem => absurd hmem hQ
        obtain ⟨tree', T', hrun, hT'⟩ := QueueInv.enqueue
          (s := { s with tasks := s.tasks.modify i fun _ => t.wake s.systemRuntime })
          (t := t.wake s.systemRuntime) hT₁ (by rw [hget, update_self]) hQ
          (show t.rbNode ≠ 0 from h.census.alive hi hlive hidle)
        refine ⟨_, ?_, ⟨⟨T', ?_⟩, ?_⟩, rfl, hthreads tree'⟩
        · simp only [Scheduler.wakeTask, hi, hasleep, if_true, hcur, ne_eq, not_false_eq_true]
          exact hrun
        · rw [← runnable_insert hget rfl hcur hidle] at hT'
          exact hT'
        · exact h.census.update hget hi rfl (fun hz => absurd hz hlive) fun _ => rfl
    · refine ⟨s, by simp only [Scheduler.wakeTask, hi, hasleep, if_false], h, rfl, ?_⟩
      refine (hother (v := some t.view) (by rw [Scheduler.threads, hi]; rfl) ?_).symm
      rw [map_some, TaskView.wake, if_neg (show ¬ t.view.Asleep from hasleep)]

/-- **`wake_all`** does so for every waiter of a queue. -/
theorem wakeAll (h : SchedInv s) (waiters : List ℕ) :
    ∃ s', s.wakeAll waiters = some s' ∧ SchedInv s' ∧
      s' = { s with tasks := s'.tasks, tree := s'.tree } ∧
      s'.threads = wakeThreads waiters s.threads := by
  induction waiters generalizing s with
  | nil => exact ⟨s, rfl, h, rfl, (wakeThreads_nil _).symm⟩
  | cons i waiters ih =>
    obtain ⟨s₁, hrun₁, h₁, hframe₁, hthreads₁⟩ := h.wakeTask i
    obtain ⟨s₂, hrun₂, h₂, hframe₂, hthreads₂⟩ := ih h₁
    refine ⟨s₂, ?_, h₂, ?_, ?_⟩
    · rw [Scheduler.wakeAll, hrun₁, bind_some, hrun₂]
    · rw [hframe₁] at hframe₂
      exact hframe₂
    · rw [hthreads₂, hthreads₁, wakeThreads_cons]

/-- **`add_task`** fills an empty slot with a thread that waits for the CPU. -/
theorem addTask (h : SchedInv s) (task : Thread) {node : ℕ} (hready : task.state = .ready)
    (hptr : NodePtr node) (hfresh : ∀ t ∈ s.tasks.values, t.rbNode ≠ node) :
    ∃ s' i, s.addTask task node = some (s', i) ∧ SchedInv s' ∧
      s' = { s with totalWeight := s'.totalWeight, tasks := s'.tasks, tree := s'.tree } ∧
      s.threads i = none ∧ s'.threads = update s.threads i (some task.view) := by
  obtain ⟨T, hT⟩ := h.queue
  obtain ⟨tasks', i, hins, hnone, hQ, hget, hT₁⟩ := hT.add task hptr hfresh
  have hcur : s.currentTask ≠ some i := by
    intro hcur
    obtain ⟨u, hu⟩ := h.census.present hcur
    rw [hnone] at hu
    cases hu
  have hidle : s.idleTaskId ≠ some i := by
    intro hidle
    obtain ⟨j, u, hj, hu, -⟩ := h.census.idleReady
    rw [some.inj (hj.symm.trans hidle), hnone] at hu
    cases hu
  let tasks₂ := tasks'.modify i fun t => { t with tid := i, rbNode := node }
  let tree₁ := s.tree.upd node fun _ => ⟨task.vruntime, i, task.deadline, task.deadline, 0, 0, 0⟩
  have hself : tree₁.mem node = ⟨task.vruntime, i, task.deadline, task.deadline, 0, 0, 0⟩ :=
    upd_mem_self _ _ _
  obtain ⟨tree', T', hrun, hT'⟩ := hT₁.insertNode
    (t := { task with tid := i, rbNode := node }) (by rw [hget, update_self]) hQ hptr.1
    (by rw [hself]) (by rw [hself])
    (show tasks₂.slots.length < tasks₂.slots.length + 4 from Nat.lt_add_of_pos_right (by decide))
  refine ⟨{ s with
    totalWeight := wrap (s.totalWeight + task.weight), tasks := tasks₂, tree := tree' }, i, ?_,
    ⟨⟨T', ?_⟩, ?_⟩, rfl, ?_, ?_⟩
  · simp only [Scheduler.addTask, hins, bind_eq_bind, bind_some]
    show (rbtreeInsert (tasks₂.slots.length + 4) tree₁ node).bind _ = _
    rw [hrun, bind_some]
  · rw [← runnable_insert hget hready hcur hidle] at hT'
    exact hT'
  · exact h.census.add hget hnone hptr.1
  · rw [Scheduler.threads, hnone, map_none]
  · rw [threads_of_get (s := s) (by exact hget)]
    rfl

/-! ### The thread that ran until now -/

/-- In the middle of `schedule`, between two threads. -/
structure Retired (s s' : Scheduler) (dead : List ℕ) : Prop where
  inv : SchedInv { s' with currentTask := none }
  processes : s'.processes = s.processes
  currentTask : s'.currentTask = s.currentTask
  idleTaskId : s'.idleTaskId = s.idleTaskId
  threads : s'.threads = s.threads
  graveyard : s'.graveyard = s.graveyard ++ dead

theorem census_none (h : SchedInv s) : Census s.tasks none s.idleTaskId s.graveyard where
  alive := h.census.alive
  idleReady := h.census.idleReady
  present := nofun
  nodup := h.census.nodup
  buried i hi := ⟨nofun, (h.census.buried i hi).2⟩

/-- A dead thread loses its node and goes to the graveyard. -/
theorem retire_dead (h : SchedInv s) (context : ℕ) (hcur : s.currentTask = some i)
    (hi : s.tasks.get i = some t) (hz : t.state = .zombie) :
    ∃ s', s.retire context = some s' ∧ Retired s s' [i] := by
  obtain ⟨T, hT⟩ := h.queue
  have hget := Arena.get_modify_some hi fun t => { t with rbNode := 0 }
  have hout : i ∉ runnable s.tasks none s.idleTaskId := by
    rw [mem_runnable_iff hi, hz]
    exact fun hmem => nomatch hmem.1
  have hset : runnable (s.tasks.modify i fun t => { t with rbNode := 0 }) none s.idleTaskId =
      runnable s.tasks none s.idleTaskId := by
    refine runnable_update hget ?_
    rw [mem_runnable_iff hi]
  have hnotin : i ∉ s.graveyard := fun hmem => (h.census.buried i hmem).1 hcur
  rw [hcur, runnable_some, Set.sdiff_singleton_eq_self hout] at hT
  refine ⟨{ s with
    graveyard := s.graveyard ++ [i]
    tasks := s.tasks.modify i fun t => { t with rbNode := 0 } }, ?_,
    ⟨⟨T, ?_⟩, ?_⟩, rfl, rfl, rfl, ?_, rfl⟩
  · simp only [Scheduler.retire, hcur, hi, hz, if_true]
  · rw [← hset] at hT hout
    exact hT.modify hi rfl (Or.inr ⟨hout, rfl⟩) fun _ => ⟨rfl, rfl⟩
  · refine ⟨?_, ?_, nofun, ?_, ?_⟩
    · intro j u hj hlive hne
      rw [hget] at hj
      by_cases hji : j = i
      · rw [hji, update_self] at hj
        exact absurd (some.inj hj ▸ hz) hlive
      · rw [update_of_ne hji] at hj
        exact h.census.alive hj hlive hne
    · obtain ⟨j, u, hj, hu, hready⟩ := h.census.idleReady
      have hji : j ≠ i := by
        rintro rfl
        rw [hi] at hu
        rw [← some.inj hu, hz] at hready
        cases hready
      exact ⟨j, u, hj, by rw [hget, update_of_ne hji]; exact hu, hready⟩
    · exact nodup_append.mpr ⟨h.census.nodup, nodup_singleton i,
        fun a ha b hb e => hnotin (mem_singleton.mp hb ▸ e ▸ ha)⟩
    · intro j hj
      refine ⟨nofun, ?_⟩
      rcases mem_append.mp hj with hj | hj
      · obtain ⟨-, u, hu, hrest⟩ := h.census.buried j hj
        have hji : j ≠ i := fun e => hnotin (e ▸ hj)
        exact ⟨u, by rw [hget, update_of_ne hji]; exact hu, hrest⟩
      · obtain rfl := mem_singleton.mp hj
        exact ⟨{ t with rbNode := 0 }, by rw [hget, update_self], hz, rfl⟩
  · rw [threads_of_get (s := s) (by exact hget)]
    exact update_eq_self_iff.mpr (by rw [Scheduler.threads, hi]; rfl)

/-- Any other thread is charged for the tick, and goes back into the tree if it can
go on. -/
theorem retire_live (h : SchedInv s) (context : ℕ) (hcur : s.currentTask = some i)
    (hi : s.tasks.get i = some t) (hz : t.state ≠ .zombie) :
    ∃ s', s.retire context = some s' ∧ Retired s s' [] := by
  obtain ⟨T, hT⟩ := h.queue
  rw [hcur, runnable_some] at hT
  have hQ : i ∉ runnable s.tasks none s.idleTaskId \ {i} := fun hmem => hmem.2 rfl
  let t' := t.charge context s.tick
  have hget := Arena.get_modify_some hi fun _ => t'
  have hT₁ : QueueInv (runnable s.tasks none s.idleTaskId \ {i})
      (s.tasks.modify i fun _ => t') s.tree T :=
    hT.modify hi rfl (Or.inl rfl) fun hmem => absurd hmem hQ
  have hset : runnable (s.tasks.modify i fun _ => t') none s.idleTaskId =
      runnable s.tasks none s.idleTaskId := by
    refine runnable_update hget ?_
    rw [mem_runnable_iff hi]
    rfl
  have hcensus : Census (s.tasks.modify i fun _ => t') none s.idleTaskId s.graveyard :=
    h.census_none.update hget hi rfl id fun hidle =>
      show t.state = .ready from h.census.idle_ready hidle hi
  have hthreads : ∀ tree', ({ s with
      systemRuntime := s.tick
      tasks := s.tasks.modify i fun _ => t'
      tree := tree' } : Scheduler).threads = s.threads := by
    intro tree'
    rw [threads_of_get (s := s) (by exact hget)]
    exact update_eq_self_iff.mpr (by rw [Scheduler.threads, hi]; rfl)
  obtain ⟨idle, -, hidle, -, -⟩ := h.census.idleReady
  have htid : t'.tid = i := show t.tid = i from hT.tid hi
  by_cases hrun : t.state = .ready ∧ i ≠ idle
  · obtain ⟨tree', T', henq, hT'⟩ := QueueInv.enqueue
      (s := { s with systemRuntime := s.tick, tasks := s.tasks.modify i fun _ => t' })
      (t := t') hT₁ (by rw [hget, update_self]) hQ
      (show t.rbNode ≠ 0 from h.census.alive hi hz fun e =>
        hrun.2 (some.inj (e.symm.trans hidle)))
    refine ⟨{ s with
      systemRuntime := s.tick
      tasks := s.tasks.modify i fun _ => t'
      tree := tree' }, ?_,
      ⟨⟨T', ?_⟩, hcensus⟩, rfl, rfl, rfl, hthreads tree', (append_nil _).symm⟩
    · simp only [Scheduler.retire, hcur, hi, hz, if_false]
      rw [if_pos (show t'.state = .ready from hrun.1)]
      simp only [hidle, bind_eq_bind, bind_some]
      rw [if_pos (show t'.tid ≠ idle from htid ▸ hrun.2)]
      simp only [hcur, hidle] at henq
      exact henq
    · rw [Set.insert_sdiff_singleton, Set.insert_eq_of_mem, ← hset] at hT'
      · exact hT'
      · refine (mem_runnable_iff hi).mpr ⟨hrun.1, nofun, fun e => hrun.2 ?_⟩
        exact some.inj (e.symm.trans hidle)
  · -- the thread is asleep, or the idle task
    have hout : i ∉ runnable s.tasks none s.idleTaskId := by
      rw [mem_runnable_iff hi]
      rintro ⟨hready, -, hne⟩
      exact hrun ⟨hready, fun e => hne (e ▸ hidle)⟩
    refine ⟨{ s with systemRuntime := s.tick, tasks := s.tasks.modify i fun _ => t' }, ?_,
      ⟨⟨T, ?_⟩, hcensus⟩, rfl, rfl, rfl, hthreads s.tree, (append_nil _).symm⟩
    · simp only [Scheduler.retire, hcur, hi, hz, if_false]
      by_cases hready : t.state = .ready
      · have hidle' : i = idle := not_not.mp fun hne => hrun ⟨hready, hne⟩
        rw [if_pos (show t'.state = .ready from hready)]
        simp only [hidle, bind_eq_bind, bind_some]
        rw [if_neg (show ¬ t'.tid ≠ idle from fun hne => hne (htid.trans hidle'))]
      · rw [if_neg (show ¬ t'.state = .ready from hready)]
    · rw [Set.sdiff_singleton_eq_self hout, ← hset] at hT₁
      exact hT₁

/-- **The thread that ran until now** is dealt with. From outside, all that happens
is that a dead one goes to the graveyard. -/
theorem retire (h : SchedInv s) (context : ℕ) :
    ∃ s', s.retire context = some s' ∧ Retired s s' s.newlyDead := by
  cases hcur : s.currentTask with
  | none =>
    have hdead : s.newlyDead = [] := by rw [Scheduler.newlyDead, hcur]
    refine ⟨s, by rw [Scheduler.retire, hcur], ?_, rfl, rfl, rfl, rfl, ?_⟩
    · rw [← hcur]
      exact h
    · rw [hdead, append_nil]
  | some i =>
    obtain ⟨t, hi⟩ := h.census.present hcur
    by_cases hz : t.state = .zombie
    · have hdead : s.newlyDead = [i] := by
        simp [Scheduler.newlyDead, hcur, Scheduler.threads, hi, Thread.view, hz]
      rw [hdead]
      exact h.retire_dead context hcur hi hz
    · have hdead : s.newlyDead = [] := by
        simp [Scheduler.newlyDead, hcur, Scheduler.threads, hi, Thread.view, hz]
      rw [hdead]
      exact h.retire_live context hcur hi hz

end SchedInv

end KernelR.Proc
