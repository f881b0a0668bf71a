import Mathlib.Logic.Relation
import KernelR.Proc.Simulation

/-!
# What the calls do to threads

A call other than a spawn and `schedule` is a sequence of three kinds of changes (`Touch`): it
writes outside of the threads, it changes the state, the pending call or the join queue of a
thread, or it wakes one up. Only the thread that has the CPU changes its own state, and only while
it can run, or to die.

`Kernel.step_touches` says so for every step; what a step leaves alone is then proved for the
three kinds of changes only.
-/

namespace KernelR.Proc

open Option Foundations

/-- One change. -/
inductive Touch : Kernel → Kernel → Prop
  /-- the process table, the queues, the history -/
  | outside {k k' : Kernel} :
      k'.sched = { k.sched with processes := k'.sched.processes } → k'.cpu = k.cpu → Touch k k'
  /-- a thread -/
  | thread {k : Kernel} {i : ℕ} {t : Thread} {f : Thread → Thread} :
      k.sched.tasks.get i = some t →
      f t = { t with
        state := (f t).state, pending := (f t).pending, joinQueue := (f t).joinQueue } →
      ((f t).state = t.state ∨
        k.sched.currentTask = some i ∧ (t.state = .ready ∨ (f t).state = .zombie)) →
      Touch k (k.modifyTask i f)
  /-- `wake_task` -/
  | wake {k : Kernel} {i : ℕ} {s' : Scheduler} :
      k.sched.wakeTask i = some s' → Touch k { k with sched := s' }

/-- Any number of changes. -/
abbrev Touches : Kernel → Kernel → Prop := Relation.ReflTransGen Touch

/-- The weight and the stack of the thread that a call spawns. -/
def Action.newThread : Action → Option (ℕ × ℕ)
  | .spawn weight stack _ => some (weight, stack)
  | .spawnUser _ _ weight stack _ => some (weight, stack)
  | .sysSpawn _ _ stack _ => some (1024, stack)
  | _ => none

namespace Touches

variable {k k' : Kernel} {c : ℕ} {t : Thread} {a : Action}

theorem outside (hsched : k'.sched = { k.sched with processes := k'.sched.processes })
    (hcpu : k'.cpu = k.cpu) : Touches k k' :=
  .single (.outside hsched hcpu)

theorem wake {i : ℕ} (h : k.wake i = some k') : Touches k k' := by
  obtain ⟨s', hs', rfl⟩ := map_eq_some_iff.mp h
  exact .single (.wake hs')

theorem wakeOne {waiters : List ℕ} (h : k.wakeOne waiters = some k') : Touches k k' := by
  cases waiters with
  | nil => exact some.inj h ▸ .refl
  | cons i waiters => exact wake h

theorem wakeAll {waiters : List ℕ} {s' : Scheduler} (h : k.sched.wakeAll waiters = some s') :
    Touches k { k with sched := s' } := by
  induction waiters generalizing k with
  | nil => exact some.inj h ▸ .refl
  | cons i waiters ih =>
    obtain ⟨s₁, h₁, h⟩ := bind_eq_some_iff.mp h
    exact .head (.wake h₁) (ih (k := { k with sched := s₁ }) h)

theorem running (hrun : k.running = some (c, t)) {f : Thread → Thread}
    (hf : f t = { t with
      state := (f t).state, pending := (f t).pending, joinQueue := (f t).joinQueue }) :
    Touches k (k.modifyTask c f) := by
  obtain ⟨hcur, hget, hready, -⟩ := Kernel.running_inv hrun
  exact .single (.thread hget hf (Or.inr ⟨hcur, Or.inl hready⟩))

theorem lock (hrun : k.running = some (c, t)) {m : ℕ} (h : k.lock m = some k') : Touches k k' := by
  simp only [Kernel.lock, Kernel.blockCurrent_eq hrun, bind_eq_bind, bind_some] at h
  split at h
  · cases h
    exact (running hrun rfl).tail (.outside rfl rfl)
  · cases h
    exact outside rfl rfl

theorem acquire (hrun : k.running = some (c, t)) {i : ℕ} (h : k.acquire i = some k') :
    Touches k k' := by
  simp only [Kernel.acquire, Kernel.blockCurrent_eq hrun, bind_eq_bind, bind_some] at h
  split at h
  · cases h
    exact outside rfl rfl
  · cases h
    exact (running hrun rfl).tail (.outside rfl rfl)

theorem join (hrun : k.running = some (c, t)) {target : ℕ} (h : k.join target = some k') :
    Touches k k' := by
  obtain rfl | ⟨u, -, -, -, hu, rfl⟩ := Kernel.join_inv hrun h
  · exact .refl
  · exact (running hrun rfl).tail (.thread hu rfl (Or.inl rfl))

theorem sleepCurrentTask (hrun : k.running = some (c, t)) {s' : Scheduler}
    (h : k.sched.sleepCurrentTask = some s') : Touches k { k with sched := s' } := by
  obtain ⟨hcur, hget, -, -⟩ := Kernel.running_inv hrun
  simp only [Scheduler.sleepCurrentTask, hcur, hget, map_some] at h
  cases h
  exact running (f := fun t => { t with state := .sleeping }) hrun rfl

theorem exitThread (h : k.exitThread = some k') : Touches k k' := by
  simp only [Kernel.exitThread, bind_eq_bind, bind_eq_some_iff] at h
  obtain ⟨c, hcur, t, ht, s', hs', h⟩ := h
  cases h
  exact .head (.thread ht rfl (Or.inr ⟨hcur, Or.inr rfl⟩)) (wakeAll hs')

theorem wakeParent {parent : Option ℕ} (h : k.wakeParent parent = some k') : Touches k k' := by
  cases parent with
  | none => exact some.inj h ▸ .refl
  | some ppid =>
    simp only [Kernel.wakeParent, bind_eq_bind, bind_eq_some_iff] at h
    obtain ⟨p, -, s', hs', h⟩ := h
    cases h
    refine Relation.ReflTransGen.head ?_ (wakeAll hs')
    exact .outside rfl rfl

theorem sysExit {arg : ℕ} (h : k.sysExit arg = some k') : Touches k k' := by
  simp only [Kernel.sysExit, bind_eq_bind, bind_eq_some_iff] at h
  obtain ⟨c, -, t, -, k₁, hwake, h⟩ := h
  refine Relation.ReflTransGen.head ?_ ((wakeParent hwake).trans (exitThread h))
  unfold Kernel.markExited
  split
  · exact .outside rfl rfl
  · exact .outside rfl rfl

theorem sysWaitRound (hrun : k.running = some (c, t)) {target statusPtr : ℕ}
    {result : Kernel.WaitResult} (h : k.sysWaitRound target statusPtr = some (k', result)) :
    Touches k k' := by
  obtain ⟨hcur, hget, hready, -⟩ := Kernel.running_inv hrun
  simp only [Kernel.sysWaitRound, hcur, hget, bind_eq_bind, bind_some] at h
  split at h
  · cases h
    exact running hrun rfl
  · split at h
    · cases h
      refine Relation.ReflTransGen.tail ?_ (.thread (t := t) ?_ rfl (Or.inl rfl))
      · exact outside rfl rfl
      · exact hget
    · cases h
  · simp only [Kernel.blockCurrent_eq hrun, bind_some, bind_eq_some_iff] at h
    obtain ⟨p, -, h⟩ := h
    cases h
    have hblocked : (k.modifyTask c fun t => { t with state := .blocked }).sched.tasks.get c =
        some { t with state := .blocked } := by
      show (k.sched.tasks.modify c _).get c = _
      rw [Arena.get_modify, Function.update_self, hget, map_some]
    exact ((running hrun rfl).tail (.thread hblocked rfl (Or.inl rfl))).tail (.outside rfl rfl)

theorem act (hrun : k.running = some (c, t)) (hnew : a.newThread = none)
    (h : k.act c t a = some k') : Touches k k' := by
  cases a with
  | lock m => exact lock hrun (ite_none_right_eq_some.mp h).2
  | acquire i => exact acquire hrun (ite_none_right_eq_some.mp h).2
  | join target => exact join hrun (ite_none_right_eq_some.mp h).2
  | sleep =>
    obtain ⟨s', hs', rfl⟩ := map_eq_some_iff.mp (ite_none_right_eq_some.mp h).2
    exact sleepCurrentTask hrun hs'
  | exitThread => exact exitThread (ite_none_right_eq_some.mp h).2
  | sysExit arg => exact sysExit (ite_none_right_eq_some.mp h).2
  | sysWait target statusPtr =>
    obtain ⟨⟨k₁, result⟩, hround, rfl⟩ := map_eq_some_iff.mp (ite_none_right_eq_some.mp h).2
    exact sysWaitRound hrun hround
  | resume =>
    rw [Kernel.act, Kernel.resume] at h
    split at h
    · cases h
    · obtain ⟨⟨k₁, result⟩, hround, rfl⟩ := map_eq_some_iff.mp h
      exact sysWaitRound hrun hround
    · cases h
      obtain ⟨-, hget, -, -⟩ := Kernel.running_inv hrun
      refine Relation.ReflTransGen.tail ?_ (.thread (t := t) ?_ rfl (Or.inl rfl))
      · exact outside rfl rfl
      · exact hget
  | sysSpawn pml4 highestVaddr stack node => cases hnew
  | _ => cases h

end Touches

/-- **Every step** that is neither a spawn nor `schedule`. -/
theorem Kernel.step_touches {k k' : Kernel} {a : Action} (hnew : a.newThread = none)
    (hschedule : ∀ context, a ≠ .schedule context) (h : k.step a = some k') : Touches k k' := by
  cases a with
  | spawn weight stack node => cases hnew
  | spawnUser pml4 highestVaddr weight stack node => cases hnew
  | schedule context => exact absurd rfl (hschedule context)
  | wake task => exact Touches.wake h
  | unlock m =>
    refine Relation.ReflTransGen.head ?_ (Touches.wakeOne h)
    exact .outside rfl rfl
  | release i =>
    refine Relation.ReflTransGen.head ?_ (Touches.wakeOne h)
    exact .outside rfl rfl
  | _ =>
    obtain ⟨⟨c, t⟩, hrun, hact⟩ := bind_eq_some_iff.mp h
    exact Touches.act hrun hnew hact

end KernelR.Proc
