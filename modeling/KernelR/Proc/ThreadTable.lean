import Mathlib.Data.Option.Basic
import KernelR.Proc.Dispatch
import KernelR.Proc.Touches

/-!
# What the calls leave alone in a thread

Most calls change the state of some threads, what they are about to do, or their scheduling
data. `SameThreads` is what all of these have in common: nobody comes or goes, the dead stay
dead, and nobody's number, weight, stack or saved context changes. Only two kinds of calls do
more, and `Adds` and `Switched` say what: a spawn adds one thread, and `schedule` buries dead
threads, saves the context of the thread that ran until now and returns the one that the next
thread saved.
-/

namespace KernelR.Proc

open Function Option Foundations Sched Sched.RbTree

/-! ### Two moments in the life of a thread -/

/-- What a thread keeps for as long as it is not switched out. -/
structure Fixed where
  serial : ℕ
  pid : ℕ
  weight : ℕ
  stack : ℕ
  stackPointer : ℕ

def Thread.fixed (t : Thread) : Fixed := ⟨t.serial, t.pid, t.weight, t.stack, t.stackPointer⟩

/-- `t'` is `t` at a later time, without a switch in between. -/
structure Thread.Continues (t t' : Thread) : Prop where
  fixed : t'.fixed = t.fixed
  dead : t.state = .zombie → t'.state = .zombie

namespace Thread.Continues

variable {t t' t'' : Thread}

theorem refl (t : Thread) : t.Continues t := ⟨rfl, id⟩

theorem trans (h : t.Continues t') (h' : t'.Continues t'') : t.Continues t'' :=
  ⟨h'.fixed.trans h.fixed, fun hz => h'.dead (h.dead hz)⟩

theorem of_alive (hfixed : t'.fixed = t.fixed) (h : t.state ≠ .zombie) : t.Continues t' :=
  ⟨hfixed, fun hz => absurd hz h⟩

theorem serial (h : t.Continues t') : t'.serial = t.serial := congrArg Fixed.serial h.fixed
theorem weight (h : t.Continues t') : t'.weight = t.weight := congrArg Fixed.weight h.fixed
theorem stack (h : t.Continues t') : t'.stack = t.stack := congrArg Fixed.stack h.fixed
theorem stackPointer (h : t.Continues t') : t'.stackPointer = t.stackPointer :=
  congrArg Fixed.stackPointer h.fixed

end Thread.Continues

/-! ### Calls that neither add nor switch -/

/-- Every slot holds the thread that it held, and the weights are as they were. -/
structure SameThreads (s s' : Scheduler) : Prop where
  thread : ∀ i, Option.Rel Thread.Continues (s.tasks.get i) (s'.tasks.get i)
  totalWeight : s'.totalWeight = s.totalWeight
  idleTaskId : s'.idleTaskId = s.idleTaskId

namespace SameThreads

variable {s s' s'' : Scheduler} {i : ℕ} {t t' : Thread}

theorem of_tasks (htasks : s'.tasks = s.tasks) (hweight : s'.totalWeight = s.totalWeight)
    (hidle : s'.idleTaskId = s.idleTaskId) : SameThreads s s' where
  thread i := by
    rw [htasks]
    cases s.tasks.get i with
    | none => exact .none
    | some t => exact .some (.refl t)
  totalWeight := hweight
  idleTaskId := hidle

theorem refl (s : Scheduler) : SameThreads s s := of_tasks rfl rfl rfl

theorem trans (h : SameThreads s s') (h' : SameThreads s' s'') : SameThreads s s'' where
  thread i := by
    have hi := h.thread i
    have hi' := h'.thread i
    cases hold : s.tasks.get i with
    | none =>
      rw [hold] at hi
      cases hmid : s'.tasks.get i with
      | none =>
        rw [hmid] at hi'
        exact hi'
      | some t => rw [hmid] at hi; cases hi
    | some t =>
      rw [hold] at hi
      generalize s'.tasks.get i = mid at hi hi'
      generalize s''.tasks.get i = new at hi'
      cases hi with
      | some ht =>
        cases hi' with
        | some ht' => exact .some (ht.trans ht')
  totalWeight := h'.totalWeight.trans h.totalWeight
  idleTaskId := h'.idleTaskId.trans h.idleTaskId

theorem before (h : SameThreads s s') (hi : s'.tasks.get i = some t') :
    ∃ t, s.tasks.get i = some t ∧ t.Continues t' := by
  have hrel := h.thread i
  rw [hi] at hrel
  generalize s.tasks.get i = old at hrel
  cases hrel with
  | some ht => exact ⟨_, rfl, ht⟩

theorem after (h : SameThreads s s') (hi : s.tasks.get i = some t) :
    ∃ t', s'.tasks.get i = some t' ∧ t.Continues t' := by
  have hrel := h.thread i
  rw [hi] at hrel
  generalize s'.tasks.get i = new at hrel
  cases hrel with
  | some ht => exact ⟨_, rfl, ht⟩

theorem of_update (hget : s'.tasks.get = update s.tasks.get i (some t'))
    (hi : s.tasks.get i = some t) (ht : t.Continues t')
    (hweight : s'.totalWeight = s.totalWeight) (hidle : s'.idleTaskId = s.idleTaskId) :
    SameThreads s s' where
  thread j := by
    rw [hget]
    by_cases hj : j = i
    · subst hj
      rw [update_self, hi]
      exact .some ht
    · rw [update_of_ne hj]
      cases s.tasks.get j with
      | none => exact .none
      | some u => exact .some (.refl u)
  totalWeight := hweight
  idleTaskId := hidle

theorem modify (hi : s.tasks.get i = some t) {f : Thread → Thread} (ht : t.Continues (f t)) :
    SameThreads s { s with tasks := s.tasks.modify i f } :=
  of_update (Arena.get_modify_some hi f) hi ht rfl rfl

theorem wakeTask (h : s.wakeTask i = some s') : SameThreads s s' := by
  obtain rfl | ⟨t, tree, hi, hasleep, rfl⟩ := Scheduler.wakeTask_inv h
  · exact .refl _
  · have hlive : t.state ≠ .zombie := by
      intro hz
      rw [hz] at hasleep
      exact hasleep.elim nofun nofun
    have hwoken := modify hi (f := fun _ => t.wake s.systemRuntime) (.of_alive rfl hlive)
    exact hwoken.trans (of_tasks rfl rfl rfl)

theorem of_touch {k k' : Kernel} (h : Touch k k') : SameThreads k.sched k'.sched := by
  cases h with
  | outside hsched =>
    rw [hsched]
    exact .of_tasks rfl rfl rfl
  | thread ht hf hstate =>
    have hfixed := congrArg Thread.fixed hf
    refine .modify ht ⟨hfixed, fun hz => ?_⟩
    obtain hsame | ⟨-, hready | hdead⟩ := hstate
    · exact hsame.trans hz
    · exact nomatch hz.symm.trans hready
    · exact hdead
  | wake hwake => exact .wakeTask hwake

theorem of_touches {k k' : Kernel} (h : Touches k k') : SameThreads k.sched k'.sched := by
  induction h with
  | refl => exact .refl _
  | tail _ htouch ih => exact ih.trans (of_touch htouch)

end SameThreads

theorem SchedInv.wf {s : Scheduler} (h : SchedInv s) : s.tasks.Wf := by
  obtain ⟨T, hT⟩ := h.queue
  exact hT.arena

namespace Kernel

variable {k k' : Kernel} {c : ℕ} {t : Thread}

/-! ### Spawns -/

/-- Where `Thread::new` writes the first context of a thread with this stack. -/
def initialContext (stack : ℕ) : ℕ := stack + kernelStackSize - 8 - threadContextSize

/-- A spawn fills an empty slot. -/
structure Adds (k : Kernel) (weight stack : ℕ) (k' : Kernel) : Prop where
  thread : ∃ i t, k.sched.tasks.get i = none ∧
    k'.sched.tasks.get = Function.update k.sched.tasks.get i (some t) ∧
    t.serial = k.history.spawned ∧ t.weight = weight ∧ t.stack = stack ∧
    t.stackPointer = initialContext stack
  totalWeight : k'.sched.totalWeight = wrap (k.sched.totalWeight + weight)
  idleTaskId : k'.sched.idleTaskId = k.sched.idleTaskId
  spawned : k'.history.spawned = k.history.spawned + 1

theorem new_fields {totalWeight systemRuntime stack weight : ℕ}
    (h : Thread.new totalWeight systemRuntime stack weight = some t) :
    t.weight = weight ∧ t.stack = stack ∧ t.stackPointer = initialContext stack := by
  unfold Thread.new at h
  split at h
  · cases h
  · cases h
    exact ⟨rfl, rfl, rfl⟩

theorem addTask_adds {s s' : Scheduler} {task : Thread} {node i : ℕ}
    (h : s.addTask task node = some (s', i)) (hwf : s.tasks.Wf) :
    s.tasks.get i = none ∧ s'.tasks.get =
        update s.tasks.get i (some { task with tid := i, rbNode := node }) ∧
      s'.totalWeight = wrap (s.totalWeight + task.weight) ∧ s'.idleTaskId = s.idleTaskId := by
  obtain ⟨A, j, hins, -, hnone, hget, -⟩ := Arena.insert_spec hwf task
  obtain ⟨tasks, tree, hins', rfl⟩ := Scheduler.addTask_inv h
  cases hins.symm.trans hins'
  refine ⟨hnone, ?_, rfl, rfl⟩
  rw [Arena.get_modify, hget, update_self, update_idem, map_some]

theorem Enters.adds {processes : List (Option Process)} {pid : ℕ} {user : Bool}
    {weight stack node : ℕ} {pml4s : List ℕ} (hinv : SchedInv k.sched)
    (h : k.Enters processes pid user weight stack node pml4s k') : Adds k weight stack k' := by
  obtain ⟨thread, s', i, hnew, hadd, rfl⟩ := h
  obtain ⟨hweight, hstack, hcontext⟩ := new_fields hnew
  obtain ⟨hnone, hget, htotal, hidle⟩ := addTask_adds hadd hinv.wf
  exact ⟨⟨i, _, hnone, hget, rfl, hweight, hstack, hcontext⟩, hweight ▸ htotal, hidle, rfl⟩

variable {a : Action}

/-- **Calls other than spawns and `schedule`.** -/
theorem step_same (hnew : a.newThread = none) (hschedule : ∀ context, a ≠ .schedule context)
    (h : k.step a = some k') : SameThreads k.sched k'.sched :=
  .of_touches (step_touches hnew hschedule h)

/-- **Spawns.** -/
theorem step_adds (hinv : SchedInv k.sched) {weight stack : ℕ}
    (hnew : a.newThread = some (weight, stack)) (h : k.step a = some k') :
    Adds k weight stack k' := by
  cases a with
  | spawn weight stack node =>
    cases hnew
    exact (spawn_inv (ite_none_right_eq_some.mp h).2).adds hinv
  | spawnUser pml4 highestVaddr weight stack node =>
    cases hnew
    exact (spawnUserProcess_inv (ite_none_right_eq_some.mp h).2).2.adds hinv
  | sysSpawn pml4 highestVaddr stack node =>
    cases hnew
    obtain ⟨⟨c, t⟩, -, hact⟩ := bind_eq_some_iff.mp h
    exact (spawnUserProcess_inv (ite_none_right_eq_some.mp hact).2).2.adds hinv
  | _ => cases hnew

end Kernel

/-! ### `schedule` -/

/-- What `schedule` does to the thread that ran until now. -/
def Thread.retired (context clock : ℕ) (t : Thread) : Thread :=
  if t.state = .zombie then { t with rbNode := 0 } else t.charge context clock

/-- **The first half of `schedule`** changes the thread that ran until now, if there is one. -/
theorem Scheduler.retire_inv {s s' : Scheduler} {context : ℕ} (h : s.retire context = some s') :
    s'.currentTask = s.currentTask ∧ s'.totalWeight = s.totalWeight ∧ s'.idleTaskId = s.idleTaskId ∧
      ((∀ c t, s.currentTask = some c → s.tasks.get c ≠ some t) ∧ s'.tasks = s.tasks ∨
        ∃ c t, s.currentTask = some c ∧ s.tasks.get c = some t ∧ s'.tasks.get =
            update s.tasks.get c (some (t.retired context s.tick))) := by
  unfold Scheduler.retire at h
  split at h
  · next hcur =>
      cases h
      exact ⟨rfl, rfl, rfl, Or.inl ⟨fun c t hc => (nomatch hcur.symm.trans hc), rfl⟩⟩
  · next c hcur =>
      split at h
      · next hnone =>
          cases h
          refine ⟨rfl, rfl, rfl, Or.inl ⟨fun c' t hc ht => ?_, rfl⟩⟩
          obtain rfl := some.inj (hcur.symm.trans hc)
          cases hnone.symm.trans ht
      · next t ht =>
          have hget : ∀ {s' : Scheduler} {f : Thread → Thread},
              s'.tasks = s.tasks.modify c f → f t = t.retired context s.tick → s'.tasks.get =
                update s.tasks.get c (some (t.retired context s.tick)) := by
            intro s' f htasks hf
            rw [htasks, Arena.get_modify_some ht f, hf]
          split at h
          · next hz =>
              cases h
              exact ⟨rfl, rfl, rfl, Or.inr ⟨c, t, hcur, ht, hget rfl (if_pos hz).symm⟩⟩
          · next hz =>
              have hretired : t.charge context s.tick = t.retired context s.tick := (if_neg hz).symm
              dsimp only at h
              split at h
              · simp only [bind_eq_bind, bind_eq_some_iff] at h
                obtain ⟨idle, -, h⟩ := h
                split at h
                · obtain ⟨tree, -, h⟩ := bind_eq_some_iff.mp h
                  obtain ⟨tree', -, h⟩ := bind_eq_some_iff.mp h
                  cases h
                  exact ⟨rfl, rfl, rfl, Or.inr ⟨c, t, hcur, ht, hget rfl hretired⟩⟩
                · cases h
                  exact ⟨rfl, rfl, rfl, Or.inr ⟨c, t, hcur, ht, hget rfl hretired⟩⟩
              · cases h
                exact ⟨rfl, rfl, rfl, Or.inr ⟨c, t, hcur, ht, hget rfl hretired⟩⟩

/-- `t'` is `t`, with this context saved. -/
structure Thread.Saves (t : Thread) (pointer : ℕ) (t' : Thread) : Prop where
  serial : t'.serial = t.serial
  pid : t'.pid = t.pid
  weight : t'.weight = t.weight
  stack : t'.stack = t.stack
  state : t'.state = t.state
  stackPointer : t'.stackPointer = pointer

theorem Thread.Saves.refl (t : Thread) : t.Saves t.stackPointer t := ⟨rfl, rfl, rfl, rfl, rfl, rfl⟩

/-- The context that the thread `t` in slot `i` has saved after a call of `schedule`: the one
that was passed to it, if the thread is the one that ran until now and is not dead. -/
def Scheduler.savedBy (s : Scheduler) (context i : ℕ) (t : Thread) : ℕ :=
  if s.currentTask = some i ∧ t.state ≠ .zombie then context else t.stackPointer

/-- The thread that ran until now saves the context. -/
structure SavesContext (s : Scheduler) (context : ℕ) (s' : Scheduler) : Prop where
  before : ∀ {i t'}, s'.tasks.get i = some t' →
    ∃ t, s.tasks.get i = some t ∧ t.Saves (s.savedBy context i t) t'
  after : ∀ {i t}, s.tasks.get i = some t → ∃ t', s'.tasks.get i = some t'
  totalWeight : s'.totalWeight = s.totalWeight
  idleTaskId : s'.idleTaskId = s.idleTaskId

namespace SavesContext

variable {s s' : Scheduler} {context : ℕ}

theorem retire (h : s.retire context = some s') : SavesContext s context s' := by
  obtain ⟨-, htotal, hidle, ⟨hnobody, htasks⟩ | ⟨c, t, hcur, ht, hget⟩⟩ := Scheduler.retire_inv h
  · refine ⟨fun {i t'} hi => ?_, fun {i u} hi => ⟨u, htasks ▸ hi⟩, htotal, hidle⟩
    rw [htasks] at hi
    have hpointer : s.savedBy context i t' = t'.stackPointer :=
      if_neg fun hcur => hnobody i t' hcur.1 hi
    exact ⟨t', hi, hpointer ▸ .refl t'⟩
  · have hsaves : t.Saves (s.savedBy context c t) (t.retired context s.tick) := by
      unfold Scheduler.savedBy Thread.retired
      by_cases hz : t.state = .zombie
      · rw [if_neg fun h => h.2 hz, if_pos hz]
        exact ⟨rfl, rfl, rfl, rfl, rfl, rfl⟩
      · rw [if_pos ⟨hcur, hz⟩, if_neg hz]
        exact ⟨rfl, rfl, rfl, rfl, rfl, rfl⟩
    refine ⟨fun {i u} hi => ?_, fun {i u} hi => ?_, htotal, hidle⟩
    · rw [hget] at hi
      obtain ⟨rfl, rfl⟩ | ⟨hne, hi⟩ := View.update_eq_some_iff.mp hi
      · exact ⟨t, ht, hsaves⟩
      · have hpointer : s.savedBy context i u = u.stackPointer :=
          if_neg fun hi' => hne (some.inj (hi'.1.symm.trans hcur))
        exact ⟨u, hi, hpointer ▸ .refl u⟩
    · by_cases hic : i = c
      · exact ⟨_, by rw [hget, hic, update_self]⟩
      · exact ⟨u, by rw [hget, update_of_ne hic, hi]⟩

end SavesContext

/-- After some rounds of `reap_zombies`: no thread has changed, and none is gone that is alive
or running. -/
structure Reaped (s s' : Scheduler) : Prop where
  before : ∀ {i t}, s'.tasks.get i = some t → s.tasks.get i = some t
  after : ∀ {i t}, s.tasks.get i = some t → t.state ≠ .zombie ∨ s.currentTask = some i →
    s'.tasks.get i = some t
  currentTask : s'.currentTask = s.currentTask
  totalWeight : s'.totalWeight = s.totalWeight
  idleTaskId : s'.idleTaskId = s.idleTaskId

/-- A call of `schedule`: dead threads go, the thread that ran until now saves the context, and
the context that the next thread saved is returned. -/
structure Switched (k : Kernel) (context : ℕ) (k' : Kernel) (out : ℕ) : Prop where
  before : ∀ {i t'}, k'.sched.tasks.get i = some t' →
    ∃ t, k.sched.tasks.get i = some t ∧ t.Saves (k.sched.savedBy context i t) t'
  after : ∀ {i t}, k.sched.tasks.get i = some t → t.state ≠ .zombie →
    ∃ t', k'.sched.tasks.get i = some t'
  next : ∃ c t', k'.sched.currentTask = some c ∧ k'.sched.tasks.get c = some t' ∧
    t'.state = .ready ∧ out = t'.stackPointer
  totalWeight : k'.sched.totalWeight = k.sched.totalWeight
  idleTaskId : k'.sched.idleTaskId = k.sched.idleTaskId

theorem View.Step.switch_inv {v v' : View} (hs : View.Step v .switch v') :
    ∃ i t, v'.current = some i ∧ v'.threads i = some t ∧ t.state = .ready := by
  cases hs with
  | switch ht hready => exact ⟨_, _, rfl, ht, hready⟩

theorem View.Step.idle_current {v v' : View} (hs : View.Step v .idle v') : v'.current = v.idle := by
  cases hs with
  | idle hidle => exact hidle.symm

namespace Kernel

variable {k k' : Kernel} {context out : ℕ}

theorem reapOne_reaped (hinv : SchedInv k.sched) {z : ℕ} {rest : List ℕ}
    (hg : k.sched.graveyard = z :: rest) : Reaped k.sched k.reapOne.sched := by
  obtain ⟨hcur, t, hz, hdead, hrun⟩ := reapOne_inv hinv hg
  rw [hrun, reapProcess_sched]
  refine ⟨fun {i u} hi => ?_, fun {i u} hi hstay => ?_, rfl, rfl, rfl⟩
  · rw [Arena.get_remove] at hi
    exact (View.update_none_eq_some_iff.mp hi).2
  · rw [Arena.get_remove, update_of_ne ?_]
    · exact hi
    rintro rfl
    rcases hstay with hlive | hstay
    · exact hlive (some.inj (hz.symm.trans hi) ▸ hdead)
    · exact hcur hstay

theorem reapZombies_reaped (hinv : SchedInv k.sched) : Reaped k.sched k.reapZombies.sched := by
  unfold reapZombies
  induction hg : k.sched.graveyard generalizing k with
  | nil => exact ⟨id, fun hi _ => hi, rfl, rfl, rfl⟩
  | cons z rest ih =>
    obtain ⟨hinv₁, hg₁, -⟩ := reapOne_sim hinv hg
    have hfirst := reapOne_reaped hinv hg
    have hrest := ih hinv₁ hg₁
    rw [List.length_cons, iterate_succ_apply]
    exact ⟨fun hi => hfirst.before (hrest.before hi),
      fun hi hstay => hrest.after (hfirst.after hi hstay) (hstay.imp_right
        hfirst.currentTask.trans),
      hrest.currentTask.trans hfirst.currentTask, hrest.totalWeight.trans hfirst.totalWeight,
      hrest.idleTaskId.trans hfirst.idleTaskId⟩

/-- **`schedule`.** -/
theorem schedule_switched (hinv : SchedInv k.sched)
    (h : k.schedule context = some (k', out)) : Switched k context k' out := by
  obtain ⟨hinv₁, -, -, -⟩ := reapZombies_sim (fun _ _ => True) (fun _ => trivial) hinv
  have hreaped := reapZombies_reaped hinv
  obtain ⟨sched, hretire, h⟩ := schedule_inv hinv h
  obtain ⟨sched', hretire', hinv₂, -, -⟩ := retire_sim hinv₁ context
  obtain rfl := some.inj (hretire'.symm.trans hretire)
  have hsaves := SavesContext.retire hretire
  obtain ⟨tree, c, t, hgoes⟩ := dispatch_inv h
  have hc : k'.sched.currentTask = some c := by rw [hgoes.sched]
  have htasks : k'.sched.tasks = sched'.tasks := by rw [hgoes.sched]
  have ht : k'.sched.tasks.get c = some t := htasks ▸ hgoes.thread
  obtain ⟨-, hstep⟩ := dispatch_sim (k := { k.reapZombies with sched := sched' }) hinv₂ h
  have hready : t.state = .ready := by
    have hthread : k'.view.threads c = some t.view := congrArg (Option.map Thread.view) ht
    rcases hstep with hswitch | hidle'
    · obtain ⟨i, u, hi, hu, hready⟩ := hswitch.switch_inv
      obtain rfl := some.inj (hi.symm.trans hc)
      obtain rfl := some.inj (hu.symm.trans hthread)
      exact hready
    · have hidle : sched'.idleTaskId = some c := hidle'.idle_current.symm.trans hc
      exact hinv₂.census.idle_ready hidle hgoes.thread
  refine ⟨fun {i t'} hi => ?_, fun {i u} hi hlive => ?_, ⟨c, t, hc, ht, hready, hgoes.out⟩,
    ?_, ?_⟩
  · rw [htasks] at hi
    obtain ⟨u, hu, hsaved⟩ := hsaves.before hi
    rw [Scheduler.savedBy, hreaped.currentTask] at hsaved
    exact ⟨u, hreaped.before hu, hsaved⟩
  · obtain ⟨t', ht'⟩ := hsaves.after (hreaped.after hi (Or.inl hlive))
    exact ⟨t', htasks ▸ ht'⟩
  · rw [hgoes.sched]
    exact hsaves.totalWeight.trans hreaped.totalWeight
  · rw [hgoes.sched]
    exact hsaves.idleTaskId.trans hreaped.idleTaskId

end Kernel

end KernelR.Proc
