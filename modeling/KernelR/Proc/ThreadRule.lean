import KernelR.Proc.Bounds

/-!
# A rule for properties of threads

`ThreadRule` lists what happens to the scheduling data of a thread between two states of a run:
`Thread::new` computes them, a wake-up and a tick of the clock compute them again, and nothing
else touches them. A property that survives these moves holds of every thread in every state
(`Kernel.Reachable.every`).

A property may say different things about the thread that has the CPU and about the others. A
thread gets the CPU when it is chosen and loses it when it is charged for a tick, or dead; and only
the thread that has it changes its own state.
-/

namespace KernelR.Proc

open Option Foundations

/-- The scheduling data of a thread. -/
structure Timing where
  weight : ℕ
  realRuntime : ℕ
  vruntime : ℕ
  timeSlice : ℕ
  deadline : ℕ
  burstScore : ℕ

def Thread.timing (t : Thread) : Timing :=
  ⟨t.weight, t.realRuntime, t.vruntime, t.timeSlice, t.deadline, t.burstScore⟩

/-- A property of threads, with and without the CPU, that the moves of the scheduler keep. New
threads may be assumed to have a weight that meets `W`, and threads that are charged for a tick to
meet `C`. -/
structure ThreadRule (W : ℕ → Prop) (C : Thread → Prop) (P : Bool → Thread → Prop) : Prop where
  new : ∀ {totalWeight systemRuntime stack weight t}, W weight →
    Thread.new totalWeight systemRuntime stack weight = some t → P false t
  same : ∀ {b t t'}, P b t → t'.timing = t.timing → t'.state = t.state → P b t'
  acts : ∀ {t t'}, P true t → t'.timing = t.timing → P true t'
  woken : ∀ {b t} clock, t.state = .sleeping ∨ t.state = .blocked → P b t → P b (t.wake clock)
  charged : ∀ {t} context clock, t.state ≠ .zombie → C t → P true t →
    P false (t.charge context clock)
  buried : ∀ {t}, t.state = .zombie → P true t → P false t
  chosen : ∀ {t}, P false t → P true t

/-- All threads have the property. -/
def Scheduler.Every (P : Bool → Thread → Prop) (s : Scheduler) : Prop :=
  ∀ i t, s.tasks.get i = some t → P (decide (s.currentTask = some i)) t

namespace Scheduler.Every

variable {W : ℕ → Prop} {C : Thread → Prop} {P : Bool → Thread → Prop} {s s' : Scheduler}
  {i : ℕ}

theorem update (h : s.Every P) {t' : Thread}
    (hget : s'.tasks.get = Function.update s.tasks.get i (some t'))
    (hcur : s'.currentTask = s.currentTask) (ht' : P (decide (s.currentTask = some i)) t') :
    s'.Every P := by
  intro j u hu
  rw [hcur]
  rw [hget] at hu
  obtain ⟨rfl, rfl⟩ | ⟨-, hu⟩ := View.update_eq_some_iff.mp hu
  · exact ht'
  · exact h j u hu

theorem congr (h : s.Every P) (htasks : s'.tasks = s.tasks)
    (hcur : s'.currentTask = s.currentTask) : s'.Every P := by
  intro j u hu
  rw [hcur]
  exact h j u (htasks ▸ hu)

theorem wakeTask (hP : ThreadRule W C P) (h : s.Every P) (hwake : s.wakeTask i = some s') :
    s'.Every P := by
  obtain rfl | ⟨t, tree, ht, hasleep, rfl⟩ := Scheduler.wakeTask_inv hwake
  · exact h
  · exact h.update (Arena.get_modify_some ht _) rfl (hP.woken _ hasleep (h i t ht))

theorem touch (hP : ThreadRule W C P) {k k' : Kernel} (h : k.sched.Every P) (htouch : Touch k k') :
    k'.sched.Every P := by
  cases htouch with
  | outside hsched =>
    rw [hsched]
    exact h.congr rfl rfl
  | @thread i t f ht hf hstate =>
    have htiming := congrArg Thread.timing hf
    refine h.update (Arena.get_modify_some ht f) rfl ?_
    obtain hsame | ⟨hcur, -⟩ := hstate
    · exact hP.same (h i t ht) htiming hsame
    · have hheld := h i t ht
      rw [decide_eq_true hcur] at hheld ⊢
      exact hP.acts hheld htiming
  | wake hwake => exact h.wakeTask hP hwake

theorem touches (hP : ThreadRule W C P) {k k' : Kernel} (h : k.sched.Every P)
    (htouches : Touches k k') : k'.sched.Every P := by
  induction htouches with
  | refl => exact h
  | tail _ htouch ih => exact ih.touch hP htouch

theorem addTask (hP : ThreadRule W C P) {task : Thread} {node : ℕ}
    (hadd : s.addTask task node = some (s', i)) (h : s.Every P) (hwf : s.tasks.Wf)
    (hpresent : ∀ i, s.currentTask = some i → s.tasks.get i ≠ none) (htask : P false task) :
    s'.Every P := by
  obtain ⟨hnone, hget, -, -⟩ := Kernel.addTask_adds hadd hwf
  refine h.update hget (Steady.addTask hadd) ?_
  have hcur : s.currentTask ≠ some i := fun hcur => hpresent i hcur hnone
  rw [decide_eq_false hcur]
  exact hP.same htask rfl rfl

/-- **`schedule`.** -/
theorem schedule (hP : ThreadRule W C P) {k k' : Kernel} {context out : ℕ} (hinv : SchedInv k.sched)
    (h : k.sched.Every P)
    (hC : ∀ c t, k.sched.currentTask = some c → k.sched.tasks.get c = some t → C t)
    (hschedule : k.schedule context = some (k', out)) : k'.sched.Every P := by
  obtain ⟨sched, hretire, hdispatch⟩ := Kernel.schedule_inv hinv hschedule
  have hreaped := Kernel.reapZombies_reaped hinv
  have hreap : k.reapZombies.sched.Every P := by
    intro i t ht
    rw [hreaped.currentTask]
    exact h i t (hreaped.before ht)
  -- whoever ran until now has been charged, or is dead
  have hidle : ∀ i t, sched.tasks.get i = some t → P false t := by
    obtain ⟨-, -, -, ⟨hnobody, htasks⟩ | ⟨c, t, hcur, ht, hget⟩⟩ := Scheduler.retire_inv hretire
    · intro i t ht
      rw [htasks] at ht
      have hheld := hreap i t ht
      rwa [decide_eq_false fun hcur => hnobody i t hcur ht] at hheld
    · intro i u hu
      rw [hget] at hu
      obtain ⟨rfl, rfl⟩ | ⟨hne, hu⟩ := View.update_eq_some_iff.mp hu
      · have hheld := hreap _ t ht
        rw [decide_eq_true hcur] at hheld
        rw [hreaped.currentTask] at hcur
        unfold Thread.retired
        split
        · next hz => exact hP.same (hP.buried hz hheld) rfl rfl
        · next hz => exact hP.charged _ _ hz (hC _ t hcur (hreaped.before ht)) hheld
      · have hheld := hreap i u hu
        rwa [hcur, decide_eq_false fun hi => hne (some.inj hi).symm] at hheld
  obtain ⟨tree, c, u, hgoes⟩ := Kernel.dispatch_inv hdispatch
  intro i t ht
  have hheld := hidle i t (by rwa [hgoes.sched] at ht)
  by_cases hi : k'.sched.currentTask = some i
  · rw [decide_eq_true hi]
    exact hP.chosen hheld
  · rwa [decide_eq_false hi]

end Scheduler.Every

namespace Kernel

variable {W : ℕ → Prop} {C : Thread → Prop} {P : Bool → Thread → Prop} {k k' : Kernel} {a : Action}

theorem boots_every (hP : ThreadRule W C P) (hW : W 1024) {kernelCr3 : ℕ}
    (h : Boots kernelCr3 k) : k.sched.Every P := by
  obtain ⟨-, stack, mem, permits, h⟩ := h
  simp only [boot, bind_eq_bind, bind_eq_some_iff] at h
  obtain ⟨t, hnew, sched, hset, h⟩ := h
  cases hset
  cases h
  intro i u hu
  cases i with
  | zero =>
    cases hu
    exact hP.same (hP.new hW hnew) rfl rfl
  | succ i => cases hu

/-- **Every step.** -/
theorem step_every (hP : ThreadRule W C P) (hinv : SchedInv k.sched) (h : k.sched.Every P)
    (hW : ∀ weight stack, a.newThread = some (weight, stack) → W weight)
    (hC : ∀ context, a = .schedule context →
      ∀ c t, k.sched.currentTask = some c → k.sched.tasks.get c = some t → C t)
    (hstep : k.step a = some k') : k'.sched.Every P := by
  have hpresent : ∀ i, k.sched.currentTask = some i → k.sched.tasks.get i ≠ none := by
    intro i hi hnone
    obtain ⟨t, ht⟩ := hinv.census.present hi
    cases hnone.symm.trans ht
  have henters : ∀ {processes pid user weight stack node pml4s}, W weight →
      k.Enters processes pid user weight stack node pml4s k' → k'.sched.Every P := by
    rintro processes pid user weight stack node pml4s hweight ⟨thread, s', i, hnew, hadd, rfl⟩
    exact .addTask hP hadd (h.congr rfl rfl) hinv.wf hpresent
      (hP.same (hP.new hweight hnew) rfl rfl)
  cases a with
  | spawn weight stack node =>
    exact henters (hW _ _ rfl) (spawn_inv (ite_none_right_eq_some.mp hstep).2)
  | spawnUser pml4 highestVaddr weight stack node =>
    exact henters (hW _ _ rfl) (spawnUserProcess_inv (ite_none_right_eq_some.mp hstep).2).2
  | sysSpawn pml4 highestVaddr stack node =>
    obtain ⟨⟨c, t⟩, -, hact⟩ := bind_eq_some_iff.mp hstep
    exact henters (hW _ _ rfl) (spawnUserProcess_inv (ite_none_right_eq_some.mp hact).2).2
  | schedule context =>
    obtain ⟨⟨k₁, out⟩, hschedule, rfl⟩ := map_eq_some_iff.mp hstep
    exact h.schedule hP hinv (hC context rfl) hschedule
  | _ =>
    refine h.touches hP (step_touches rfl (fun _ => ?_) hstep)
    nofun

/-- **The rule.**  What the moves of the scheduler keep holds of all threads in all states. -/
theorem Reachable.every {kernelCr3 : ℕ} {ok : Kernel → Action → Kernel → Prop}
    (hP : ThreadRule W C P) (hboot : W 1024)
    (hW : ∀ k a k', ok k a k' → ∀ weight stack, a.newThread = some (weight, stack) → W weight)
    (hC : ∀ k a k', ok k a k' → ∀ context, a = .schedule context →
      ∀ c t, k.sched.currentTask = some c → k.sched.tasks.get c = some t → C t)
    (h : Reachable kernelCr3 ok k) : k.sched.Every P := by
  refine Run.invariant (I := fun k => k.sched.Every P) ?_ ?_ h
  · exact fun k hboots => boots_every hP hboot hboots
  · intro k a k' hrun hevery hstep hok
    exact step_every hP (Reachable.inv hrun).1 hevery (hW k a k' hok) (hC k a k' hok) hstep

end Kernel

end KernelR.Proc
