import KernelR.Proc.VirtualTime

/-!
# Two scales of deadlines

`update_deadline` sets the deadline of a thread to its `vruntime` plus its slice, shifted by 20 and
divided by its weight. `Thread::new` multiplies the slice by `NICE_0_LOAD` as well. A thread keeps
its first deadline until it is charged for a tick, or is woken up before; and who waits in the run
queue with a runtime of zero still has it.

The invariant (`Thread.Dated`) follows a thread from its first deadline on. A wake-up may come
before the first tick, but only while the thread has the CPU, and the tick comes before it is put
back into the queue.
-/

namespace KernelR.Proc

open Foundations

/-! ### The first deadline -/

/-- The deadline that `Thread::new` computes. -/
def Thread.firstDeadline (t : Thread) : ℕ :=
  wrap (wrap (wrap (t.timeSlice * nice0Load) <<< 20) / t.weight)

/-- The deadline that `update_deadline` computes. -/
def Thread.nextDeadline (t : Thread) : ℕ :=
  wrap (t.vruntime + wrap (t.timeSlice <<< 20) / t.weight)

/-- A thread on its way through the scheduler, with and without the CPU. -/
structure Thread.Dated (current : Bool) (t : Thread) : Prop where
  timed : t.Timed
  weight : t.weight * schedulerTargetLatency < 2 ^ 64
  timeSlice : schedulerMinGranularity ≤ t.timeSlice
  deadline :
    t.deadline = t.firstDeadline ∧ t.realRuntime = 0 ∧
        (current = false → t.state = .ready ∨ t.state = .zombie) ∨
      t.deadline = t.nextDeadline ∧ (current = false → t.state = .zombie ∨ t.realRuntime ≠ 0)

namespace Thread.Dated

variable {t t' : Thread} {b : Bool}

theorem new {totalWeight systemRuntime stack weight : ℕ}
    (hweight : weight * schedulerTargetLatency < 2 ^ 64)
    (h : Thread.new totalWeight systemRuntime stack weight = some t) : t.Dated false := by
  have htimed := Timed.new h
  unfold Thread.new at h
  split at h
  · cases h
  · cases h
    refine ⟨htimed, hweight, ?_, Or.inl ⟨rfl, rfl, fun _ => Or.inl rfl⟩⟩
    dsimp only
    split
    · exact Nat.le_max_left _ _
    · exact Nat.le_max_left _ _

/-- The scheduling data are the same; the state is, or the thread has the CPU. -/
theorem of_timing (h : t.Dated b) (htiming : t'.timing = t.timing)
    (hstate : b = false → t'.state = t.state) : t'.Dated b := by
  obtain ⟨hweight, hreal, hvruntime, hslice, hdeadline, -⟩ := timing_eq htiming
  refine ⟨h.timed.of_timing htiming, hweight ▸ h.weight, hslice ▸ h.timeSlice, ?_⟩
  simp only [firstDeadline, nextDeadline, hweight, hreal, hvruntime, hslice, hdeadline]
  refine h.deadline.imp ?_ ?_
  · rintro ⟨hfirst, hzero, hready⟩
    exact ⟨hfirst, hzero, fun hb => hstate hb ▸ hready hb⟩
  · rintro ⟨hnext, hcharged⟩
    exact ⟨hnext, fun hb => hstate hb ▸ hcharged hb⟩

theorem wake (h : t.Dated b) (clock : ℕ) (hasleep : t.state = .sleeping ∨ t.state = .blocked) :
    (t.wake clock).Dated b := by
  have hnext : (t.wake clock).deadline = (t.wake clock).nextDeadline := by
    have hdeadline : (t.wake clock).deadline = wrap ((t.wake clock).vruntime +
        wrap (t.timeSlice <<< 20) / (t.wake clock).effectiveWeight) := rfl
    rw [hdeadline, (h.timed.wake clock).effectiveWeight_eq]
    rfl
  refine ⟨h.timed.wake clock, h.weight, h.timeSlice, Or.inr ⟨hnext, fun hb => Or.inr ?_⟩⟩
  -- who sleeps without the CPU has been charged when it lost it
  obtain ⟨-, -, hready⟩ | ⟨-, hcharged⟩ := h.deadline
  · rcases hready hb with hstate | hstate
    · rw [hstate] at hasleep
      exact hasleep.elim nofun nofun
    · rw [hstate] at hasleep
      exact hasleep.elim nofun nofun
  · refine (hcharged hb).resolve_left fun hstate => ?_
    rw [hstate] at hasleep
    exact hasleep.elim nofun nofun

theorem charge (h : t.Dated true) (context clock : ℕ)
    (hreal : t.realRuntime + 1000000 < 2 ^ 64) : (t.charge context clock).Dated false := by
  have hnext : (t.charge context clock).deadline = (t.charge context clock).nextDeadline := by
    rw [deadline_charge, (h.timed.charge context clock).effectiveWeight_eq]
    rfl
  refine ⟨h.timed.charge context clock, h.weight, h.timeSlice, Or.inr ⟨hnext, fun _ => Or.inr ?_⟩⟩
  rw [charge_realRuntime, wrap, Nat.mod_eq_of_lt hreal]
  exact Nat.succ_ne_zero _

theorem rule : ThreadRule (fun weight => weight * schedulerTargetLatency < 2 ^ 64)
    (fun t => t.realRuntime + 1000000 < 2 ^ 64) Dated where
  new := new
  same h htiming hstate := h.of_timing htiming fun _ => hstate
  acts h htiming := h.of_timing htiming nofun
  woken clock hasleep h := h.wake clock hasleep
  charged context clock _ hreal h := h.charge context clock hreal
  buried hz h := by
    refine ⟨h.timed, h.weight, h.timeSlice, h.deadline.imp ?_ ?_⟩
    · rintro ⟨hfirst, hzero, -⟩
      exact ⟨hfirst, hzero, fun _ => Or.inr hz⟩
    · rintro ⟨hnext, -⟩
      exact ⟨hnext, fun _ => Or.inl hz⟩
  chosen h := by
    refine ⟨h.timed, h.weight, h.timeSlice, h.deadline.imp ?_ ?_⟩
    · rintro ⟨hfirst, hzero, -⟩
      exact ⟨hfirst, hzero, nofun⟩
    · rintro ⟨hnext, -⟩
      exact ⟨hnext, nofun⟩

end Thread.Dated

/-! ### The scales -/

/-- **The formula.** -/
def Thread.OnScale (t : Thread) : Prop :=
  t.deadline = t.vruntime + t.timeSlice * 2 ^ 20 / t.effectiveWeight

instance (t : Thread) : Decidable t.OnScale := inferInstanceAs (Decidable (_ = _))

theorem Thread.firstDeadline_eq (t : Thread) :
    t.firstDeadline = t.timeSlice % 2 ^ 34 * 2 ^ 30 / t.weight := by
  have hdrop : wrap (t.timeSlice * nice0Load) % 2 ^ 44 = t.timeSlice % 2 ^ 34 * 2 ^ 10 := by
    have hsplit : (2 : ℕ) ^ 44 = 2 ^ 34 * 2 ^ 10 := by norm_num
    rw [wrap, Nat.mod_mod_of_dvd _ (pow_dvd_pow 2 (by norm_num)), hsplit]
    exact Nat.mul_mod_mul_right _ _ _
  have hbound : t.timeSlice % 2 ^ 34 * 2 ^ 10 * 2 ^ 20 < 2 ^ 64 := by
    have hlt : t.timeSlice % 2 ^ 34 < 2 ^ 34 := Nat.mod_lt _ (by norm_num)
    omega
  rw [firstDeadline, wrap_shiftLeft, hdrop, wrap,
    Nat.mod_eq_of_lt ((Nat.div_le_self _ _).trans_lt hbound), Nat.mul_assoc, ← pow_add]

/-- A slice below `2 ^ 34` nanoseconds gives a first deadline off the scale. -/
theorem first_ne_scale {slice weight : ℕ} (hweight : weight * schedulerTargetLatency < 2 ^ 64)
    (hpos : 0 < weight) (hslice : schedulerMinGranularity ≤ slice) :
    slice * 2 ^ 30 / weight ≠ slice * 2 ^ 20 / weight := by
  unfold schedulerTargetLatency at hweight
  unfold schedulerMinGranularity at hslice
  have hone : 1 ≤ slice * 2 ^ 20 / weight := by
    rw [Nat.one_le_div_iff hpos]
    omega
  have hscaled : 2 ^ 10 * (slice * 2 ^ 20 / weight) ≤ slice * 2 ^ 30 / weight := by
    calc 2 ^ 10 * (slice * 2 ^ 20 / weight)
        ≤ 2 ^ 10 * (slice * 2 ^ 20) / weight := Nat.mul_div_le_mul_div_assoc _ _ _
      _ = slice * 2 ^ 30 / weight := by congr 1; omega
  omega

/-- A later deadline is on the scale, unless a shift or the sum overflows. -/
theorem next_eq_scale_iff {real slice weight : ℕ} (hpos : 0 < weight) (hweight : weight ≤ 2 ^ 64) :
    wrap (real % 2 ^ 44 * 2 ^ 20 / weight + slice % 2 ^ 44 * 2 ^ 20 / weight) =
        real % 2 ^ 44 * 2 ^ 20 / weight + slice * 2 ^ 20 / weight ↔
      slice < 2 ^ 44 ∧ (2 ≤ weight ∨ real % 2 ^ 44 + slice < 2 ^ 44) := by
  have hreal : real % 2 ^ 44 < 2 ^ 44 := Nat.mod_lt _ (by norm_num)
  by_cases hslice : slice < 2 ^ 44
  · rw [Nat.mod_eq_of_lt hslice, ← div_add_div_lt_iff hpos hreal hslice]
    simp only [hslice, true_and]
    exact Nat.mod_eq_iff_lt (by norm_num)
  · refine iff_of_false (ne_of_lt ?_) fun h => hslice h.1
    have hdrop : slice % 2 ^ 44 * 2 ^ 20 + weight ≤ slice * 2 ^ 20 := by omega
    have hquot := Nat.div_le_div_right (c := weight) hdrop
    rw [Nat.add_div_right _ hpos] at hquot
    exact (Nat.mod_le _ _).trans_lt (by omega)

/-- The additions of the runtime and the products of the weight fit into `u64`; the kernel is built
with overflow checks, and panics if they do not. -/
def Kernel.Unwrapped (k : Kernel) : Action → Prop
  | .schedule _ =>
    ∀ t ∈ k.sched.currentTask.bind k.sched.tasks.get, t.realRuntime + 1000000 < 2 ^ 64
  | a => ∀ new ∈ a.newThread, new.1 * schedulerTargetLatency < 2 ^ 64

instance (k : Kernel) : ∀ a, Decidable (k.Unwrapped a)
  | .schedule _ => inferInstanceAs (Decidable
      (∀ t ∈ k.sched.currentTask.bind k.sched.tasks.get, t.realRuntime + 1000000 < 2 ^ 64))
  | .spawn weight stack _ => inferInstanceAs (Decidable
      (∀ new ∈ some (weight, stack), new.1 * schedulerTargetLatency < 2 ^ 64))
  | .spawnUser _ _ weight stack _ => inferInstanceAs (Decidable
      (∀ new ∈ some (weight, stack), new.1 * schedulerTargetLatency < 2 ^ 64))
  | .sysSpawn _ _ stack _ => inferInstanceAs (Decidable
      (∀ new ∈ some (1024, stack), new.1 * schedulerTargetLatency < 2 ^ 64))
  | .wake _ | .lock _ | .unlock _ | .acquire _ | .release _ | .join _ | .sleep | .exitThread
  | .sysExit _ | .sysWait .. | .resume => isTrue nofun

/-- **In every state** the threads are dated. -/
theorem Kernel.Reachable.dated {kernelCr3 : ℕ} {k : Kernel} {i : ℕ} {t : Thread}
    (h : Reachable kernelCr3 (fun k a _ => k.Unwrapped a) k)
    (hi : k.sched.tasks.get i = some t) : t.Dated (decide (k.sched.currentTask = some i)) := by
  refine Reachable.every Thread.Dated.rule (by decide) ?_ ?_ h i t hi
  · intro k a _ hok weight stack hnew
    cases a with
    | schedule context => cases hnew
    | _ => exact hok (weight, stack) hnew
  · rintro k _ _ hok context rfl c t hcur ht
    refine hok t ?_
    rw [hcur]
    exact ht

/-- **One formula for deadlines.**  In every state, a thread in the run queue has the deadline of
the formula, if and only if it has been charged for a tick and nothing overflows; the first
deadline can agree with it only by what a shift drops from a slice of `2 ^ 34` nanoseconds or
more. -/
theorem deadline_on_scale_iff {kernelCr3 : ℕ} {k : Kernel} {i : ℕ} {t : Thread}
    (h : Kernel.Reachable kernelCr3 (fun k a _ => k.Unwrapped a) k)
    (hi : k.sched.tasks.get i = some t)
    (hqueued : i ∈ runnable k.sched.tasks k.sched.currentTask k.sched.idleTaskId) :
    t.OnScale ↔
      t.realRuntime ≠ 0 ∧ t.timeSlice < 2 ^ 44 ∧
          (2 ≤ t.weight ∨ t.realRuntime % 2 ^ 44 + t.timeSlice < 2 ^ 44) ∨
        t.realRuntime = 0 ∧ 2 ^ 34 ≤ t.timeSlice ∧
          t.timeSlice % 2 ^ 34 * 2 ^ 30 / t.weight = t.timeSlice * 2 ^ 20 / t.weight := by
  obtain ⟨hready, hcur, -⟩ := (mem_runnable_iff hi).mp hqueued
  have hdated := h.dated hi
  rw [decide_eq_false hcur] at hdated
  have hpos := hdated.timed.weight
  have hvruntime := hdated.timed.vruntime_eq
  rw [Thread.OnScale, hdated.timed.effectiveWeight_eq]
  obtain ⟨hfirst, hzero, -⟩ | ⟨hnext, hcharged⟩ := hdated.deadline
  · rw [hfirst, Thread.firstDeadline_eq, hvruntime, hzero]
    simp only [Nat.zero_mod, Nat.zero_mul, Nat.zero_div, Nat.zero_add, ne_eq, not_true_eq_false,
      false_and, true_and, false_or]
    refine ⟨fun heq => ⟨?_, heq⟩, And.right⟩
    by_contra hshort
    rw [Nat.mod_eq_of_lt (Nat.lt_of_not_le hshort)] at heq
    exact first_ne_scale hdated.weight hpos hdated.timeSlice heq
  · have hran : t.realRuntime ≠ 0 := by
      refine (hcharged rfl).resolve_left ?_
      rw [hready]
      nofun
    have hweight : t.weight ≤ 2 ^ 64 := by
      have hlatency := hdated.weight
      unfold schedulerTargetLatency at hlatency
      omega
    rw [hnext, Thread.nextDeadline, hvruntime, wrap_shiftLeft, next_eq_scale_iff hpos hweight]
    simp only [ne_eq, hran, not_false_eq_true, true_and, false_and, or_false]

/-- A thread that has run for a millisecond and waits for the CPU again. -/
theorem deadline_on_scale_charged : ∃ k t,
    Kernel.Reachable 0x1000 (fun k a _ => k.Unwrapped a) k ∧ k.sched.tasks.get 1 = some t ∧
      k.sched.currentTask = some 2 ∧ t.realRuntime = 1000000 ∧ t.OnScale := by
  obtain ⟨k, hk, hcur, hidle, hthread⟩ := Kernel.Reachable.of_execute
    (fun k a _ => k.Unwrapped a) 0x1000
    [.spawn 1024 0x200000 8, .schedule 0, .spawn 1024 0x300000 16, .schedule 0]
    (fun k => k.sched.currentTask = some 2 ∧ k.sched.idleTaskId = some 0 ∧
      (k.sched.tasks.get 1).any (fun t => t.state = .ready ∧ t.realRuntime = 1000000 ∧
        t.timeSlice < 2 ^ 44 ∧ 2 ≤ t.weight) = true) (by decide) (by decide +kernel)
  obtain ⟨t, ht, hcond⟩ := (Option.any_eq_true _ _).mp hthread
  obtain ⟨hready, hreal, hslice, hweight⟩ := of_decide_eq_true hcond
  have hqueued : 1 ∈ runnable k.sched.tasks k.sched.currentTask k.sched.idleTaskId := by
    rw [mem_runnable_iff ht, hcur, hidle]
    exact ⟨hready, by decide, by decide⟩
  refine ⟨k, t, hk, ht, hcur, hreal, (deadline_on_scale_iff hk ht hqueued).mpr ?_⟩
  refine Or.inl ⟨?_, hslice, Or.inl hweight⟩
  rw [hreal]
  norm_num

/-- **The first deadline** of a thread is 1024 slices ahead, where the formula says one. -/
theorem fresh_deadline_scale : ∃ k t,
    Kernel.Reachable 0x1000 (fun k a _ => k.Unwrapped a) k ∧ k.sched.tasks.get 1 = some t ∧
      1 ∈ runnable k.sched.tasks k.sched.currentTask k.sched.idleTaskId ∧
      t.deadline = t.vruntime + 1024 * (t.timeSlice * 2 ^ 20 / t.effectiveWeight) ∧
      ¬ t.OnScale := by
  obtain ⟨k, hk, hcur, hidle, hthread⟩ := Kernel.Reachable.of_execute
    (fun k a _ => k.Unwrapped a) 0x1000 [.spawn 1024 0x200000 8]
    (fun k => k.sched.currentTask = none ∧ k.sched.idleTaskId = some 0 ∧
      (k.sched.tasks.get 1).any (fun t => t.state = .ready ∧
        t.deadline = t.vruntime + 1024 * (t.timeSlice * 2 ^ 20 / t.effectiveWeight) ∧
        ¬ t.OnScale) = true) (by decide) (by decide +kernel)
  obtain ⟨t, ht, hcond⟩ := (Option.any_eq_true _ _).mp hthread
  obtain ⟨hready, hdeadline, hoff⟩ := of_decide_eq_true hcond
  have hqueued : 1 ∈ runnable k.sched.tasks k.sched.currentTask k.sched.idleTaskId := by
    rw [mem_runnable_iff ht, hcur, hidle]
    exact ⟨hready, by decide, by decide⟩
  exact ⟨k, t, hk, ht, hqueued, hdeadline, hoff⟩

end KernelR.Proc
