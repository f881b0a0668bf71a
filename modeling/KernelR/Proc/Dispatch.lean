import KernelR.Proc.Ledger
import KernelR.Proc.Simulation
import KernelR.Sched.MinDeadline

/-!
# The scheduler call, and all steps together

`schedule` as a path of the abstract machine: it reaps the graveyard, buries the
thread that ran until now if that is dead, and switches to a thread that the tree
offers or to the idle task. With the calls of the previous module this covers every
step: `Kernel.step_sim`, and by induction `Kernel.Reachable.inv`.

The membership of the run queue in every state that is reached from boot is then the
invariant of the scheduler, read off. So are the height of the tree (`run_queue_height`) and that
the scheduler does not fail on its own data (`schedule_returns`).
-/

namespace KernelR.Proc

open List Function Option Foundations Sched Sched.RbTree

/-! ### In the middle of a scheduler call -/

/-- Nothing but dead threads is gone since the call began. -/
structure Mid (v₀ v : View) : Prop where
  current : v.current = v₀.current
  idle : v.idle = v₀.idle
  live : ∀ {j t}, v₀.threads j = some t → t.state ≠ .zombie → v.threads j = some t
  same : ∀ {c}, v₀.current = some c → v.threads c = v₀.threads c

theorem Mid.refl (v : View) : Mid v v := ⟨rfl, rfl, fun h _ => h, fun _ => rfl⟩

theorem Mid.reap {v₀ v v' : View} (h : Mid v₀ v) (hs : View.Step v .reap v') : Mid v₀ v' := by
  cases hs with
  | reap hg hcur hz hdead =>
    refine ⟨?_, ?_, ?_, ?_⟩
    · rw [View.current_reapProcess]
      exact h.current
    · rw [View.idle_reapProcess]
      exact h.idle
    · intro j t hj hlive
      have hjt := h.live hj hlive
      rw [View.threads_reapProcess]
      refine (update_of_ne ?_ _ _).trans hjt
      rintro rfl
      rw [hz] at hjt
      exact hlive (some.inj hjt ▸ hdead)
    · intro c hc
      rw [View.threads_reapProcess]
      refine (update_of_ne ?_ _ _).trans (h.same hc)
      rintro rfl
      exact hcur (h.current.trans hc)

theorem Mid.bury {v₀ v v' : View} (h : Mid v₀ v) (hs : View.Step v .bury v') : Mid v₀ v' := by
  cases hs with
  | bury => exact ⟨h.current, h.idle, h.live, h.same⟩

namespace Kernel

variable {k k' : Kernel}

/-! ### Reaping -/

theorem view_reapProcess (k : Kernel) (n : ℕ) : (k.reapProcess n).view = k.view.reapProcess n := by
  unfold reapProcess View.reapProcess
  rw [show k.view.procs n = k.sched.process n from rfl]
  cases hp : k.sched.process n with
  | none => rfl
  | some p =>
    by_cases h0 : p.ppid = 0
    · simp only [h0, if_true]
      exact view_eq (join_set_none k.sched.processes n) rfl rfl rfl rfl rfl rfl
    · simp only [h0, if_false]

theorem reapProcess_sched (k : Kernel) (n : ℕ) : (k.reapProcess n).sched =
      { k.sched with processes := (k.reapProcess n).sched.processes } := by
  unfold reapProcess
  split
  · rfl
  · split <;> rfl

/-- A round of `reap_zombies` takes a dead thread out of the arena, and then its process away. -/
theorem reapOne_inv (h : SchedInv k.sched) {z : ℕ} {rest : List ℕ}
    (hg : k.sched.graveyard = z :: rest) :
    k.sched.currentTask ≠ some z ∧ ∃ t, k.sched.tasks.get z = some t ∧ t.state = .zombie ∧
      k.reapOne = reapProcess { k with sched := { k.sched with
        graveyard := rest, tasks := (k.sched.tasks.remove z).1 } } t.pid := by
  obtain ⟨hcur, t, hz, hdead, -⟩ := h.census.buried z (hg ▸ mem_cons_self)
  refine ⟨hcur, t, hz, hdead, ?_⟩
  simp only [reapOne, hg, ne_eq, Ne.symm hcur, not_false_eq_true, if_true, Arena.remove_snd, hz]

/-- **One round of `reap_zombies`.** -/
theorem reapOne_sim (h : SchedInv k.sched) {z : ℕ} {rest : List ℕ}
    (hg : k.sched.graveyard = z :: rest) :
    SchedInv k.reapOne.sched ∧ k.reapOne.sched.graveyard = rest ∧
      View.Step k.view .reap k.reapOne.view := by
  obtain ⟨hcur, t, hz, hdead, hrun⟩ := reapOne_inv h hg
  let k₁ : Kernel := { k with sched := { k.sched with
    graveyard := rest, tasks := (k.sched.tasks.remove z).1 } }
  have hcensus := h.census
  rw [hg] at hcensus
  obtain ⟨T, hT⟩ := h.queue
  have hout := hcensus.not_runnable (i := z) mem_cons_self k.sched.currentTask
  have h₁ : SchedInv k₁.sched := by
    refine ⟨⟨T, ?_⟩, hcensus.reap⟩
    show QueueInv (runnable (k.sched.tasks.remove z).1 _ _) _ _ _
    rw [runnable_remove hout]
    exact hT.remove hout
  have hview₁ : k₁.view = k.view.removeThread z rest := by
    refine view_eq rfl ?_ rfl rfl rfl rfl rfl
    funext j
    show ((k.sched.tasks.remove z).1.get j).map Thread.view =
      update k.sched.threads z none j
    by_cases hj : j = z
    · rw [hj, Arena.get_remove, update_self, update_self, map_none]
    · rw [Arena.get_remove, update_of_ne hj, update_of_ne hj, Scheduler.threads]
  rw [hrun, view_reapProcess, reapProcess_sched, hview₁]
  refine ⟨⟨h₁.queue, h₁.census⟩, rfl, .reap (t := t.view) hg hcur ?_ hdead⟩
  show k.sched.threads z = _
  rw [Scheduler.threads, hz]
  rfl

/-- **`reap_zombies`** empties the graveyard. -/
theorem reapZombies_sim (allowed : View → Event → Prop) (hallowed : ∀ v, allowed v .reap)
    (h : SchedInv k.sched) :
    SchedInv k.reapZombies.sched ∧ k.reapZombies.sched.graveyard = [] ∧
      View.Path allowed k.view k.reapZombies.view ∧ Mid k.view k.reapZombies.view := by
  unfold reapZombies
  induction hg : k.sched.graveyard generalizing k with
  | nil => exact ⟨h, hg, .refl _, Mid.refl _⟩
  | cons z rest ih =>
    obtain ⟨h₁, hg₁, hstep⟩ := reapOne_sim h hg
    have hrest := ih h₁ hg₁
    rw [length_cons, iterate_succ_apply]
    obtain ⟨h₂, hg₂, hpath, hmid⟩ := hrest
    refine ⟨h₂, hg₂, View.Path.trans (.single hstep (hallowed _)) hpath, ?_⟩
    have hfirst : Mid k.view k.reapOne.view := (Mid.refl _).reap hstep
    refine ⟨hmid.current.trans hfirst.current, hmid.idle.trans hfirst.idle, ?_, ?_⟩
    · intro j t hj hlive
      exact hmid.live (hfirst.live hj hlive) hlive
    · intro c hc
      exact (hmid.same (hfirst.current.trans hc)).trans (hfirst.same hc)

/-! ### Choosing the next thread -/

theorem prevPid_view (k : Kernel) : k.prevPid = k.view.prevPid := by
  unfold prevPid View.prevPid
  rw [show k.view.current = k.sched.currentTask from rfl]
  cases k.sched.currentTask with
  | none => rfl
  | some c =>
    show _ = ((k.sched.tasks.get c).map Thread.view).map TaskView.pid
    rw [Option.map_map]
    rfl

/-- The kernel goes on with the thread in this slot, whose node may have been taken out of the
tree. Besides this only registers of the CPU are written. -/
structure GoesOn (k : Kernel) (tree : RbTree) (i : ℕ) (t : Thread) (k' : Kernel) (out : ℕ) :
    Prop where
  thread : k.sched.tasks.get i = some t
  frame : k' = { k with sched := { k.sched with tree, currentTask := some i }, cpu := k'.cpu }
  bounds : ∀ p, k.sched.process t.pid = some p →
    k'.cpu.currentBounds = ⟨p.heapStart, p.programBreak, p.stackStart, p.stackEnd⟩
  out : out = t.stackPointer

theorem GoesOn.sched {tree : RbTree} {i : ℕ} {t : Thread} {out : ℕ}
    (h : GoesOn k tree i t k' out) : k'.sched = { k.sched with tree, currentTask := some i } :=
  congrArg Kernel.sched h.frame

theorem GoesOn.view {tree : RbTree} {i : ℕ} {t : Thread} {out : ℕ} (h : GoesOn k tree i t k' out) :
    k'.view = { k.view with current := some i, cr3 := k'.cpu.cr3 } := by
  rw [h.frame]
  rfl

theorem updateBounds_eq (k : Kernel) (n : ℕ) : ∃ currentBounds,
    k.updateBounds n = { k with cpu := { k.cpu with currentBounds } } ∧
      ∀ p, k.sched.process n = some p →
        currentBounds = ⟨p.heapStart, p.programBreak, p.stackStart, p.stackEnd⟩ := by
  unfold updateBounds
  cases k.sched.process n with
  | none => exact ⟨_, rfl, fun p hp => by cases hp⟩
  | some p => exact ⟨_, rfl, fun p' hp => some.inj hp ▸ rfl⟩

theorem loadCr3_inv {prev next : ℕ} (h : k.loadCr3 prev next = some k') : ∃ cr3,
    k' = { k with cpu := { k.cpu with cr3 } } ∧ (prev = next ∧ cr3 = k.cpu.cr3 ∨ prev ≠ next ∧
      ∃ p, k.sched.process next = some p ∧ cr3 = p.pageTable / 4096 * 4096) := by
  unfold loadCr3 at h
  split at h
  · next hne =>
      obtain ⟨p, hp, h⟩ := bind_eq_some_iff.mp h
      cases h
      exact ⟨_, rfl, Or.inr ⟨hne, p, hp, rfl⟩⟩
  · next heq =>
      cases h
      exact ⟨_, rfl, Or.inl ⟨not_not.mp heq, rfl⟩⟩

theorem switchToIdle_inv {out : ℕ} (hk : k.switchToIdle = some (k', out)) :
    ∃ i t, k.sched.idleTaskId = some i ∧ GoesOn k k.sched.tree i t k' out ∧
      k'.cpu.cr3 = k.cpu.cr3 := by
  simp only [switchToIdle, bind_eq_bind, bind_eq_some_iff] at hk
  obtain ⟨i, hidle, t, ht, hk⟩ := hk
  obtain ⟨currentBounds, heq, hbounds⟩ :=
    updateBounds_eq { k with sched := { k.sched with currentTask := some i } } t.pid
  rw [heq] at hk
  cases hk
  exact ⟨i, t, hidle, ⟨ht, rfl, hbounds, rfl⟩, rfl⟩

theorem switchTo_inv {node out : ℕ} (hk : k.switchTo node = some (k', out)) :
    ∃ tree record prev t, rbtreeRemove k.sched.fuel k.sched.tree node = some tree ∧
      tree.load node = some record ∧ k.prevPid = some prev ∧
      GoesOn k tree record.taskId t k' out ∧
      (prev = t.pid ∧ k'.cpu.cr3 = k.cpu.cr3 ∨ prev ≠ t.pid ∧
        ∃ p, k.sched.process t.pid = some p ∧ k'.cpu.cr3 = p.pageTable / 4096 * 4096) := by
  simp only [switchTo, bind_eq_bind, bind_eq_some_iff] at hk
  obtain ⟨tree, hremove, record, hload, prev, hprev, t, ht, k₃, hk₃, hk⟩ := hk
  obtain ⟨currentBounds, heq, hbounds⟩ := updateBounds_eq
    { k with sched := { k.sched with tree, currentTask := some record.taskId } } t.pid
  rw [heq] at hk₃
  obtain ⟨cr3, rfl, hcr3⟩ := loadCr3_inv hk₃
  cases hk
  exact ⟨tree, record, prev, t, hremove, hload, hprev, ⟨ht, rfl, hbounds, rfl⟩, hcr3⟩

/-- **The end of `schedule`** in any case. -/
theorem dispatch_inv {out : ℕ} (hk : k.dispatch = some (k', out)) :
    ∃ tree i t, GoesOn k tree i t k' out := by
  obtain ⟨node, -, hk⟩ := bind_eq_some_iff.mp hk
  split at hk
  · obtain ⟨i, t, -, hgoes, -⟩ := switchToIdle_inv hk
    exact ⟨_, i, t, hgoes⟩
  · obtain ⟨tree, record, -, t, -, -, -, hgoes, -⟩ := switchTo_inv hk
    exact ⟨tree, record.taskId, t, hgoes⟩

theorem census_some {tasks : ThreadArena} {idle : Option ℕ} {graveyard : List ℕ} {i : ℕ}
    {t : Thread} (h : Census tasks none idle graveyard) (hi : tasks.get i = some t)
    (hready : t.state = .ready) : Census tasks (some i) idle graveyard where
  alive := h.alive
  idleReady := h.idleReady
  present hj := ⟨t, some.inj hj ▸ hi⟩
  nodup := h.nodup
  buried j hj := by
    obtain ⟨-, u, hu, hz, hnode⟩ := h.buried j hj
    refine ⟨?_, u, hu, hz, hnode⟩
    intro hcur
    rw [← some.inj hcur, hi] at hu
    rw [← some.inj hu, hready] at hz
    cases hz

theorem switchToIdle_sim (h : SchedInv { k.sched with currentTask := none }) {context : ℕ}
    (hnone : runnable k.sched.tasks none k.sched.idleTaskId = ∅)
    (hk : k.switchToIdle = some (k', context)) :
    SchedInv k'.sched ∧ View.Step k.view .idle k'.view := by
  obtain ⟨i, t, hidle, hgoes, hcr3⟩ := switchToIdle_inv hk
  constructor
  · rw [hgoes.sched]
    obtain ⟨T, hT⟩ := h.queue
    have hQ : runnable k.sched.tasks (some i) k.sched.idleTaskId =
        runnable k.sched.tasks none k.sched.idleTaskId := by
      rw [runnable_some, hnone, Set.empty_sdiff]
    exact ⟨⟨T, hQ ▸ hT⟩, census_some h.census hgoes.thread (h.census.idle_ready hidle hgoes.thread)⟩
  · rw [hgoes.view, hcr3]
    refine .idle hidle ?_
    intro j u hj hready
    by_contra hne
    obtain ⟨t', ht', rfl⟩ := map_eq_some_iff.mp hj
    have hmem : j ∈ runnable k.sched.tasks none k.sched.idleTaskId := ⟨t', ht', hready, nofun, hne⟩
    rw [hnone] at hmem
    exact hmem

theorem switchTo_sim (h : SchedInv { k.sched with currentTask := none }) {T : CTree ℕ}
    (hT : QueueInv (runnable k.sched.tasks none k.sched.idleTaskId) k.sched.tasks k.sched.tree T)
    {node context : ℕ} (hnode : node ∈ T.toList) (hk : k.switchTo node = some (k', context)) :
    SchedInv k'.sched ∧ View.Step k.view .switch k'.view := by
  have hfuel : k.sched.tasks.slots.length + 3 ≤ k.sched.fuel := Nat.le_succ _
  obtain ⟨tree', T', hremove, hdata, hT'⟩ := hT.dequeue hnode hfuel
  obtain ⟨tree, record, prev, t, hremove', hload, hprev, hgoes, hcr3⟩ := switchTo_inv hk
  obtain rfl := some.inj (hremove.symm.trans hremove')
  have hwinner : record.taskId = (k.sched.tree.mem node).taskId := by
    rw [load_of_ne (hT.valid.rep.valid node hnode).1] at hload
    rw [← some.inj hload, hdata.taskId]
  rw [← hwinner] at hT'
  obtain ⟨⟨u, hu, hready, -, hidle⟩, -⟩ := hT.node node hnode
  rw [← hwinner] at hu hidle
  obtain rfl : u = t := some.inj (hu.symm.trans hgoes.thread)
  constructor
  · rw [hgoes.sched]
    exact ⟨⟨T', runnable_some .. ▸ hT'⟩, census_some h.census hu hready⟩
  · rw [hgoes.view]
    exact .switch (t := u.view) (congrArg (Option.map Thread.view) hu) hready hidle
      (prevPid_view k ▸ hprev) hcr3

/-- **The end of `schedule`.** -/
theorem dispatch_sim (h : SchedInv { k.sched with currentTask := none }) {context : ℕ}
    (hk : k.dispatch = some (k', context)) :
    SchedInv k'.sched ∧ (View.Step k.view .switch k'.view ∨ View.Step k.view .idle k'.view) := by
  obtain ⟨T, hT⟩ := h.queue
  have hfuel : T.toList.length < k.sched.fuel :=
    hT.length_le.trans_lt (Nat.lt_add_of_pos_right (Nat.zero_lt_succ 3))
  obtain ⟨node, hpick, hnode⟩ := hT.valid.pick k.sched.systemRuntime hfuel
  simp only [dispatch, hpick, bind_eq_bind, bind_some] at hk
  rcases hnode with ⟨rfl, rfl⟩ | ⟨hne, hnode⟩
  · rw [if_pos rfl] at hk
    have hnone : runnable k.sched.tasks none k.sched.idleTaskId = ∅ := by
      refine Set.eq_empty_of_forall_notMem fun i hi => ?_
      obtain ⟨t, -, hmem⟩ := hT.thread i hi
      exact not_mem_nil hmem
    obtain ⟨hinv, hstep⟩ := switchToIdle_sim h hnone hk
    exact ⟨hinv, Or.inr hstep⟩
  · rw [if_neg hne] at hk
    obtain ⟨hinv, hstep⟩ := switchTo_sim h hT hnode hk
    exact ⟨hinv, Or.inl hstep⟩

theorem bind_ne_none {α β : Type} {x : Option α} {a : α} {f : α → Option β}
    (hx : x = some a) (hf : f a ≠ none) : x.bind f ≠ none := hx ▸ hf

/-- Nothing fails on the way to a thread whose process is there. -/
theorem dispatch_returns (h : SchedInv { k.sched with currentTask := none })
    (hprev : k.prevPid ≠ none) (hprocs : ∀ i t, k.view.threads i = some t → t.state = .ready →
      k.view.procs t.pid ≠ none) : k.dispatch ≠ none := by
  obtain ⟨T, hT⟩ := h.queue
  have hfuel : T.toList.length < k.sched.fuel :=
    hT.length_le.trans_lt (Nat.lt_add_of_pos_right (Nat.zero_lt_succ 3))
  obtain ⟨node, hpick, hnode⟩ := hT.valid.pick k.sched.systemRuntime hfuel
  refine bind_ne_none hpick ?_
  rcases hnode with ⟨rfl, -⟩ | ⟨hne, hnode⟩
  · obtain ⟨i, t, hidle, ht, -⟩ := h.census.idleReady
    rw [if_pos rfl]
    exact bind_ne_none hidle (bind_ne_none ht (some_ne_none _))
  · obtain ⟨tree, -, hremove, hdata, -⟩ := hT.dequeue hnode (Nat.le_succ _)
    obtain ⟨⟨t, ht, hready, -⟩, -⟩ := hT.node node hnode
    obtain ⟨prev, hprev⟩ := ne_none_iff_exists'.mp hprev
    obtain ⟨p, hp⟩ := ne_none_iff_exists'.mp
      (hprocs _ t.view (congrArg (Option.map Thread.view) ht) hready)
    rw [← hdata.taskId] at ht
    rw [if_neg hne]
    refine bind_ne_none hremove (bind_ne_none (load_of_ne (hT.valid.rep.valid node hnode).1)
      (bind_ne_none hprev (bind_ne_none ht ?_)))
    show ((updateBounds _ t.pid).loadCr3 prev t.pid).bind _ ≠ none
    obtain ⟨currentBounds, heq, -⟩ := updateBounds_eq
      { k with sched := { k.sched with tree, currentTask := some (tree.mem node).taskId } } t.pid
    have hproc : Scheduler.process { k.sched with tree, currentTask := some (tree.mem node).taskId }
        t.pid = some p := hp
    rw [heq, loadCr3, hproc]
    split
    · exact some_ne_none _
    · exact some_ne_none _

/-! ### The whole call -/

/-- The one thing that `schedule` can fail on is a thread that is `Ready` and whose process is not
in the table after the dead threads have been reaped. -/
theorem schedule_ne_none (h : SchedInv k.sched)
    (hprocs : ∀ i t, k.reapZombies.view.threads i = some t → t.state = .ready →
      k.reapZombies.view.procs t.pid ≠ none) (context : ℕ) : k.schedule context ≠ none := by
  unfold schedule
  split
  · exact some_ne_none _
  obtain ⟨h₁, -⟩ := reapZombies_sim (fun _ _ => True) (fun _ => trivial) h
  obtain ⟨sched, hretire, hret⟩ := h₁.retire context
  have hprev : prevPid { k.reapZombies with sched } ≠ none := by
    rw [prevPid]
    cases hcur : sched.currentTask with
    | none => exact some_ne_none _
    | some c =>
      obtain ⟨t, ht⟩ := h₁.census.present (hret.currentTask.symm.trans hcur)
      obtain ⟨t', ht', -⟩ := map_eq_some_iff.mp
        ((congrFun hret.threads c).trans (congrArg (Option.map Thread.view) ht))
      show Option.map Thread.pid (sched.tasks.get c) ≠ none
      rw [ht']
      exact some_ne_none _
  refine bind_ne_none hretire (dispatch_returns hret.inv hprev fun i t ht hready => ?_)
  show sched.processes[t.pid]?.join ≠ none
  rw [hret.processes]
  exact hprocs i t ((congrFun hret.threads i).symm.trans ht) hready

/-- There is always the idle task, so that `schedule` does its work. -/
theorem schedule_inv (h : SchedInv k.sched) {context out : ℕ}
    (hk : k.schedule context = some (k', out)) :
    ∃ sched, k.reapZombies.sched.retire context = some sched ∧
      dispatch { k.reapZombies with sched } = some (k', out) := by
  unfold schedule at hk
  obtain ⟨i, t, -, ht, -⟩ := h.census.idleReady
  rw [Arena.not_isEmpty_of_get ht] at hk
  exact bind_eq_some_iff.mp hk

/-- The thread that ran until now goes to the graveyard or stays where it is. -/
theorem retire_sim (h : SchedInv k.sched) (context : ℕ) :
    ∃ sched, k.sched.retire context = some sched ∧
      SchedInv { sched with currentTask := none } ∧
      (({ k with sched } : Kernel).view = k.view ∨
        View.Step k.view .bury ({ k with sched } : Kernel).view) ∧
      ({ k with sched } : Kernel).view.DeadBuried := by
  obtain ⟨sched, hrun, hret⟩ := h.retire context
  refine ⟨sched, hrun, hret.inv, ?_⟩
  have hprocs : sched.process = k.sched.process := by
    funext q
    rw [Scheduler.process, Scheduler.process, hret.processes]
  have hview : ({ k with sched } : Kernel).view =
      { k.view with graveyard := k.view.graveyard ++ k.sched.newlyDead } :=
    view_eq hprocs hret.threads hret.currentTask hret.idleTaskId hret.graveyard rfl rfl
  rw [hview]
  unfold Scheduler.newlyDead
  cases hcur : k.sched.currentTask with
  | none =>
    refine ⟨Or.inl (by rw [append_nil]), fun {c t} hc => ?_⟩
    cases hcur.symm.trans hc
  | some c =>
    dsimp only
    split
    · next hz =>
        obtain ⟨t, ht, hz⟩ := map_eq_some_iff.mp hz
        refine ⟨Or.inr (.bury hcur ht hz), fun {c' t'} hc' _ _ => ?_⟩
        obtain rfl : c = c' := some.inj (hcur.symm.trans hc')
        exact mem_append_right _ mem_cons_self
    · next hz =>
        refine ⟨Or.inl (by rw [append_nil]), fun {c' t'} hc' ht' hz' => absurd ?_ hz⟩
        obtain rfl : c = c' := some.inj (hcur.symm.trans hc')
        exact map_eq_some_iff.mpr ⟨t', ht', hz'⟩

/-- **`schedule`.** -/
theorem schedule_sim (h : SchedInv k.sched) {context out : ℕ}
    (hk : k.schedule context = some (k', out)) : Simulates k (.schedule context) k' := by
  obtain ⟨h₁, -, hpath₁, hmid₁⟩ :=
    reapZombies_sim (Origin k (.schedule context)) (fun _ => trivial) h
  obtain ⟨sched, hretire, h₂, hbury, hburied⟩ := retire_sim h₁ context
  obtain ⟨sched', hretire', hk⟩ := schedule_inv h hk
  obtain rfl := some.inj (hretire.symm.trans hretire')
  obtain ⟨hinv, hchoice⟩ := dispatch_sim (k := { k.reapZombies with sched }) h₂ hk
  have hmid₂ : View.Path (Origin k (.schedule context)) k.view
        (Kernel.view { k.reapZombies with sched }) ∧
      Mid k.view (Kernel.view { k.reapZombies with sched }) := by
    rcases hbury with hsame | hbury
    · rw [hsame]
      exact ⟨hpath₁, hmid₁⟩
    · exact ⟨.tail hpath₁ hbury trivial, hmid₁.bury hbury⟩
  obtain ⟨hpath₂, hmid₂⟩ := hmid₂
  refine ⟨hinv, ?_⟩
  rcases hchoice with hswitch | hidle
  · exact .tail hpath₂ hswitch hburied
  · refine .tail hpath₂ hidle ⟨hburied, ⟨context, rfl⟩, hmid₂.current, ?_, ?_⟩
    · intro c hc
      exact hmid₂.same (hmid₂.current ▸ hc)
    · -- a thread that was `Ready` before the call has not been reaped
      intro j t hj hready
      rw [← hmid₂.idle]
      refine hidle.idle_inv (hmid₂.live hj ?_) hready
      rw [hready]
      nofun

/-! ### Every step -/

theorem act_sim (h : SchedInv k.sched) (hledger : Ledger k.view) {c : ℕ} {t : Thread} {a : Action}
    (hrun : k.running = some (c, t)) (hk : k.act c t a = some k') : Simulates k a k' := by
  cases a with
  | lock m =>
    obtain ⟨hpending, hk⟩ := ite_none_right_eq_some.mp hk
    exact lock_sim h hrun hpending hk
  | acquire i =>
    obtain ⟨hpending, hk⟩ := ite_none_right_eq_some.mp hk
    exact acquire_sim h hrun hpending hk
  | join target =>
    obtain ⟨hpending, hk⟩ := ite_none_right_eq_some.mp hk
    exact join_sim h hrun hpending hk
  | sleep =>
    obtain ⟨hpending, hk⟩ := ite_none_right_eq_some.mp hk
    exact sleepCurrentTask_sim h hrun hpending hk
  | exitThread =>
    obtain ⟨hstarts, hk⟩ := ite_none_right_eq_some.mp hk
    exact exitThread_sim h hrun hstarts.2 hk
  | sysSpawn pml4 highestVaddr stack node =>
    obtain ⟨⟨hstarts, hnode, hpml4⟩, hk⟩ := ite_none_right_eq_some.mp hk
    exact spawnUserProcess_sim h rfl hnode hpml4
      (Or.inr ⟨c, t.view, running_view hrun, hstarts.2, rfl, rfl⟩) hk
  | sysExit arg =>
    obtain ⟨hstarts, hk⟩ := ite_none_right_eq_some.mp hk
    exact sysExit_sim h hrun hstarts.2 hstarts.1 hk
  | sysWait target statusPtr =>
    obtain ⟨hstarts, hk⟩ := ite_none_right_eq_some.mp hk
    obtain ⟨⟨k₁, result⟩, hround, rfl⟩ := map_eq_some_iff.mp hk
    exact sysWaitRound_sim h hrun hstarts.2 (Or.inl hstarts.1) hround
  | resume =>
    -- a kernel thread is in no system call
    have huser : t.pending ≠ .none → t.user = true := by
      intro hpending
      by_contra hkernel
      exact hpending (hledger.kernel (running_view hrun).thread (Bool.eq_false_iff.mpr hkernel)).2
    rw [act, resume] at hk
    split at hk
    · cases hk
    · next target statusPtr hpending =>
        obtain ⟨⟨k₁, result⟩, hround, rfl⟩ := map_eq_some_iff.mp hk
        exact sysWaitRound_sim h hrun (huser (hpending ▸ nofun)) (Or.inr hpending) hround
    · next hpending =>
        cases hk
        exact sysWaitFinish_sim h hrun hpending
  | _ => cases hk

/-- **Every step** of the kernel keeps the invariant of the scheduler and follows the
abstract machine. -/
theorem step_sim (h : SchedInv k.sched) (hledger : Ledger k.view) {a : Action}
    (hk : k.step a = some k') : Simulates k a k' := by
  cases a with
  | spawn weight stack node =>
    obtain ⟨hnode, hk⟩ := ite_none_right_eq_some.mp hk
    exact spawn_sim h hnode hk
  | spawnUser pml4 highestVaddr weight stack node =>
    obtain ⟨⟨hnode, hpml4⟩, hk⟩ := ite_none_right_eq_some.mp hk
    exact spawnUserProcess_sim h rfl hnode hpml4 (Or.inl ⟨rfl, rfl⟩) hk
  | schedule context =>
    obtain ⟨⟨k₁, out⟩, hrun, rfl⟩ := map_eq_some_iff.mp hk
    exact schedule_sim h hrun
  | wake task => exact wake_sim h task hk
  | unlock m => exact unlock_sim h hk
  | release i => exact release_sim h hk
  | _ =>
    obtain ⟨⟨c, t⟩, hrun, hact⟩ := bind_eq_some_iff.mp hk
    exact act_sim h hledger hrun hact

/-! ### Boot, and whole runs -/

/-- One slot of the arena is in use at boot, and no thread waits for the CPU. -/
theorem boot_spec {k : Kernel} {kernelCr3 : ℕ} (h : Boots kernelCr3 k) :
    SchedInv k.sched ∧ k.view = View.initial kernelCr3 := by
  obtain ⟨-, stack, mem, permits, h⟩ := h
  simp only [boot, bind_eq_bind, bind_eq_some_iff] at h
  obtain ⟨t, hnew, sched, hset, h⟩ := h
  cases h
  cases hset
  have hview := new_view hnew
  have hnode : t.rbNode = 0 := by
    rw [Thread.new, if_neg (by decide)] at hnew
    exact some.inj hnew ▸ rfl
  have hget : ∀ {i u}, (⟨[.occupied { t with tid := 0 }], none⟩ : ThreadArena).get i = some u →
      i = 0 ∧ u = { t with tid := 0 } := by
    intro i u hu
    cases i with
    | zero => exact ⟨rfl, (some.inj hu).symm⟩
    | succ i => cases hu
  constructor
  · have hQ : runnable ⟨[.occupied { t with tid := 0 }], none⟩ none (some 0) = ∅ := by
      refine Set.eq_empty_of_forall_notMem ?_
      rintro i ⟨u, hu, -, -, hidle⟩
      exact hidle (congrArg some (hget hu).1.symm)
    have hqueue : QueueInv ∅ ⟨[.occupied { t with tid := 0 }], none⟩ ⟨0, mem⟩ .nil :=
      { arena := ⟨[], rfl, nodup_nil⟩
        valid := ValidTree.empty rfl
        tid := by
          intro i u hu
          obtain ⟨rfl, rfl⟩ := hget hu
          rfl
        owner := by
          intro i u hu hne
          obtain ⟨rfl, rfl⟩ := hget hu
          exact absurd hnode hne
        node := nofun
        thread := nofun }
    refine ⟨⟨.nil, hQ ▸ hqueue⟩, ?_, ?_, nofun, nodup_nil, nofun⟩
    · intro i u hu _ hidle
      exact absurd (congrArg some (hget hu).1.symm) hidle
    · exact ⟨0, _, rfl, rfl, congrArg TaskView.state hview⟩
  · refine view_eq ?_ ?_ rfl rfl rfl rfl rfl
    · funext q
      cases q with
      | zero => rfl
      | succ q => rfl
    · funext j
      cases j with
      | zero => exact congrArg some hview
      | succ j => rfl

/-- **Every state of every run** satisfies the invariant of the scheduler and the
ledger. -/
theorem Reachable.inv {k : Kernel} {kernelCr3 : ℕ} {ok : Kernel → Action → Kernel → Prop}
    (h : Reachable kernelCr3 ok k) : SchedInv k.sched ∧ Ledger k.view := by
  refine Run.invariant (I := fun k => SchedInv k.sched ∧ Ledger k.view) ?_ ?_ h
  · intro k hboot
    obtain ⟨hinv, hview⟩ := boot_spec hboot
    exact ⟨hinv, hview ▸ Ledger.initial kernelCr3⟩
  · rintro k a k' - ⟨hinv, hledger⟩ hstep -
    obtain ⟨hinv', hpath⟩ := step_sim hinv hledger hstep
    exact ⟨hinv', hpath.invariant (fun _ _ _ h hs _ => h.step hs) hledger⟩

/-- **What every abstract step keeps, every run keeps.**  The step may use that the
call it is part of starts in a state of the run and meets the condition. -/
theorem Reachable.invariant {kernelCr3 : ℕ} {ok : Kernel → Action → Kernel → Prop}
    {J : View → Prop} (hinit : 4096 ∣ kernelCr3 → J (View.initial kernelCr3))
    (hstep : ∀ {k a k' v e v'}, Reachable kernelCr3 ok k → ok k a k' → Origin k a v e →
      Ledger v → View.Step v e v' → J v → J v')
    {k : Kernel} (h : Reachable kernelCr3 ok k) : J k.view := by
  refine Run.invariant (I := fun k => J k.view) ?_ ?_ h
  · intro k hboot
    rw [(boot_spec hboot).2]
    exact hinit hboot.1
  · intro k a k' hrun hJ hk hok
    obtain ⟨hinv, hledger⟩ := Reachable.inv hrun
    have hpath := (step_sim hinv hledger hk).path
    exact (hpath.invariant (J := fun v => Ledger v ∧ J v)
      (fun v e v' h hs ho => ⟨h.1.step hs, hstep hrun hok ho h.1 hs h.2⟩) ⟨hledger, hJ⟩).2

/-- Boot, with empty memory, and then some calls as long as they meet a condition. -/
def execute (ok : Kernel → Action → Kernel → Prop) [∀ k a k', Decidable (ok k a k')]
    (kernelCr3 : ℕ) (actions : List Action) : Option Kernel := do
  let k ← boot kernelCr3 0x100000 (fun _ => ⟨0, 0, 0, 0, 0, 0, 0⟩) fun _ => 0
  exec step ok k actions

theorem Reachable.of_execute (ok : Kernel → Action → Kernel → Prop)
    [∀ k a k', Decidable (ok k a k')] (kernelCr3 : ℕ) (actions : List Action)
    (P : Kernel → Prop) [DecidablePred P] (hcr3 : 4096 ∣ kernelCr3)
    (h : (execute ok kernelCr3 actions).any (fun k => decide (P k)) = true) :
    ∃ k, Reachable kernelCr3 ok k ∧ P k := by
  obtain ⟨k, hk, hP⟩ := (Option.any_eq_true _ _).mp h
  rw [execute, bind_eq_bind] at hk
  obtain ⟨k₀, hboot, hexec⟩ := bind_eq_some_iff.mp hk
  exact ⟨k, Run.exec (.start ⟨hcr3, _, _, _, hboot⟩) hexec, of_decide_eq_true hP⟩

end Kernel

/-! ### The run queue -/

/-- **Membership of the run queue.**  In every state that is reached from boot, the
nodes of the tree are those of the `Ready` threads other than the current task and
the idle task, each once and with the keys of its thread; no other thread is in it,
and the graveyard holds dead threads without a node, each once. -/
theorem run_queue_membership {kernelCr3 : ℕ} {k : Kernel}
    (h : Kernel.Reachable kernelCr3 (fun _ _ _ => True) k) :
    ∃ T, ValidTree k.sched.tree T ∧
      (T.toList.map fun p => (k.sched.tree.mem p).taskId).Nodup ∧
      (∀ i, i ∈ (T.toList.map fun p => (k.sched.tree.mem p).taskId) ↔
        ∃ t, k.sched.tasks.get i = some t ∧ t.state = .ready ∧
          k.sched.currentTask ≠ some i ∧ k.sched.idleTaskId ≠ some i) ∧
      (∀ p ∈ T.toList, ∃ t, k.sched.tasks.get (k.sched.tree.mem p).taskId = some t ∧
        t.rbNode = p ∧ (k.sched.tree.mem p).vruntime = t.vruntime ∧
        (k.sched.tree.mem p).deadline = t.deadline) ∧
      (∀ i t, k.sched.tasks.get i = some t →
        t.state = .blocked ∨ t.state = .sleeping ∨ t.state = .zombie → t.rbNode ∉ T.toList) ∧
      k.sched.graveyard.Nodup ∧
      ∀ i ∈ k.sched.graveyard, ∃ t, k.sched.tasks.get i = some t ∧ t.state = .zombie ∧
        t.rbNode = 0 := by
  obtain ⟨⟨T, hT⟩, hcensus⟩ := h.inv.1
  refine ⟨T, hT.valid, hT.nodup_taskId, ?_, fun p hp => (hT.node p hp).2, ?_, hcensus.nodup,
    fun i hi => (hcensus.buried i hi).2⟩
  · intro i
    rw [List.mem_map]
    constructor
    · rintro ⟨p, hp, rfl⟩
      exact (hT.node p hp).1
    · intro hi
      obtain ⟨t, ht, hnode⟩ := hT.thread i hi
      exact ⟨t.rbNode, hnode, (hT.owner ht (hT.valid.rep.valid _ hnode).1).2⟩
  · intro i t ht hstate
    refine hT.not_mem ht ?_
    rw [mem_runnable_iff ht]
    rintro ⟨hready, -⟩
    rw [hready] at hstate
    exact hstate.elim nofun fun hstate => hstate.elim nofun nofun

/-- Thread 1 runs, thread 2 has ended, and thread 3 was woken and waits. -/
theorem run_queue_membership_sample :
    ∃ k, Kernel.Reachable 0x1000 (fun _ _ _ => True) k ∧
      k.sched.currentTask = some 1 ∧ k.sched.graveyard = [2] ∧
      ∃ T, ValidTree k.sched.tree T ∧
        ∀ i, i ∈ (T.toList.map fun p => (k.sched.tree.mem p).taskId) ↔
          ∃ t, k.sched.tasks.get i = some t ∧ t.state = .ready ∧
            k.sched.currentTask ≠ some i ∧ k.sched.idleTaskId ≠ some i := by
  obtain ⟨k, hk, hcur, hgrave⟩ := Kernel.Reachable.of_execute (fun _ _ _ => True) 0x1000
    [.spawn 1024 0x200000 8, .spawn 1024 0x300000 16, .spawn 1024 0x400000 24, .schedule 0,
      .sleep, .schedule 0, .exitThread, .schedule 0, .wake 3]
    (fun k => k.sched.currentTask = some 1 ∧ k.sched.graveyard = [2]) (by decide)
    (by decide +kernel)
  obtain ⟨T, hvalid, -, hmem, -⟩ := run_queue_membership hk
  exact ⟨k, hk, hcur, hgrave, T, hvalid, hmem⟩

/-- **The run queue is shallow.**  A search in it passes at most `2 log₂ (n + 1)` of the nodes of
`n` threads. -/
theorem run_queue_height {kernelCr3 : ℕ} {k : Kernel}
    (h : Kernel.Reachable kernelCr3 (fun _ _ _ => True) k) :
    ∃ T, ValidTree k.sched.tree T ∧ T.height ≤ 2 * Nat.log2 (T.toList.length + 1) ∧
      T.toList.length ≤ k.sched.tasks.slots.length := by
  obtain ⟨T, hT⟩ := h.inv.1.queue
  exact ⟨T, hT.valid, hT.valid.redBlack.height_le, hT.length_le⟩

theorem run_queue_height_three : ∃ k, Kernel.Reachable 0x1000 (fun _ _ _ => True) k ∧
    ∃ T, ValidTree k.sched.tree T ∧ T.height ≤ 4 := by
  obtain ⟨k, hk, hslots⟩ := Kernel.Reachable.of_execute (fun _ _ _ => True) 0x1000
    [.spawn 1024 0x200000 8, .spawn 1024 0x300000 16, .spawn 1024 0x400000 24]
    (fun k => k.sched.tasks.slots.length = 4) (by decide) (by decide +kernel)
  obtain ⟨T, hvalid, hheight, hlen⟩ := run_queue_height hk
  have hlog : Nat.log2 (T.toList.length + 1) ≤ 2 := by
    have hlt : T.toList.length + 1 < 2 ^ 3 := by omega
    exact Nat.le_of_lt_succ ((Nat.log2_lt (Nat.succ_ne_zero _)).mpr hlt)
  exact ⟨k, hk, T, hvalid, by omega⟩

end KernelR.Proc
