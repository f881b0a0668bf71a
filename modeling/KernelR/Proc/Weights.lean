import Mathlib.Algebra.BigOperators.Group.Finset.Piecewise
import KernelR.Proc.ThreadTable

/-!
# The weight of the threads

`schedule` lets the virtual clock advance by the time that passed, divided by `total_weight`.
The counter is meant to be the weight of the threads that compete for the processor.
`add_task` adds the weight of a new thread to it, and nothing ever takes the weight of a thread
off again.

The weight that is present is a sum over the slots of the arena. As long as no thread exits,
the slots only fill up, and the counter follows; the first thread that exits takes its weight
out of the sum and leaves it in the counter.
-/

namespace KernelR.Proc

open Function Foundations

/-! ### The weight that is present -/

namespace Scheduler

/-- What a slot contributes: the weight of its thread, if this one is alive and not the idle
task. -/
def share (s : Scheduler) (i : ℕ) : ℕ :=
  match s.tasks.get i with
  | none => 0
  | some t => if t.state = .zombie ∨ s.idleTaskId = some i then 0 else t.weight

/-- The weight of the live threads other than the idle task. -/
def liveWeight (s : Scheduler) : ℕ := ∑ i ∈ Finset.range s.tasks.slots.length, s.share i

variable {s s' : Scheduler}

theorem share_of_none {i : ℕ} (h : s.tasks.get i = none) : s.share i = 0 := by
  rw [share, h]

theorem share_of_some {i : ℕ} {t : Thread} (h : s.tasks.get i = some t) :
    s.share i = if t.state = .zombie ∨ s.idleTaskId = some i then 0 else t.weight := by
  rw [share, h]

theorem liveWeight_eq_sum {n : ℕ} (hn : s.tasks.slots.length ≤ n) :
    s.liveWeight = ∑ i ∈ Finset.range n, s.share i := by
  refine Finset.sum_subset (Finset.range_mono hn) fun i _ hi => share_of_none ?_
  by_contra hsome
  obtain ⟨t, ht⟩ := Option.ne_none_iff_exists'.mp hsome
  exact hi (Finset.mem_range.mpr (Arena.lt_length_of_get ht))

theorem liveWeight_congr (h : s'.share = s.share) : s'.liveWeight = s.liveWeight := by
  rw [liveWeight_eq_sum (le_max_left s'.tasks.slots.length s.tasks.slots.length), h,
    ← liveWeight_eq_sum (le_max_right s'.tasks.slots.length s.tasks.slots.length)]

theorem liveWeight_update {i weight : ℕ} (hi : i < s'.tasks.slots.length) (hempty : s.share i = 0)
    (h : s'.share = update s.share i weight) :
    s'.liveWeight = s.liveWeight + weight := by
  have hle := le_max_left s'.tasks.slots.length s.tasks.slots.length
  have hmem : i ∈ Finset.range (max s'.tasks.slots.length s.tasks.slots.length) :=
    Finset.mem_range.mpr (hi.trans_le hle)
  rw [liveWeight_eq_sum hle, liveWeight_eq_sum (le_max_right s'.tasks.slots.length _), h,
    Finset.sum_update_of_mem hmem, ← Finset.sum_sdiff (Finset.singleton_subset_iff.mpr hmem),
    Finset.sum_singleton, hempty]
  omega

end Scheduler

/-! ### Runs without exits -/

/-- The call ends the running thread. -/
def Action.endsThread : Action → Bool
  | .exitThread => true
  | .sysExit _ => true
  | _ => false

/-- No thread exits. -/
def NobodyExits (_ : Kernel) (a : Action) (_ : Kernel) : Prop := a.endsThread = false

instance (k : Kernel) (a : Action) (k' : Kernel) : Decidable (NobodyExits k a k') :=
  inferInstanceAs (Decidable (a.endsThread = false))

namespace Kernel

variable {kernelCr3 : ℕ} {k k' : Kernel}

theorem Reachable.alive (h : Reachable kernelCr3 NobodyExits k) {i : ℕ} {t : Thread}
    (hi : k.sched.tasks.get i = some t) : t.state ≠ .zombie := by
  have hview : ∀ {j : ℕ} {u : TaskView}, k.view.threads j = some u → u.state ≠ .zombie := by
    refine Reachable.invariant
      (J := fun v => ∀ {j : ℕ} {u : TaskView}, v.threads j = some u → u.state ≠ .zombie) ?_ ?_ h
    · intro _ j u hu
      obtain ⟨-, rfl⟩ := View.initial_threads.mp hu
      nofun
    · intro k a k' v e v' _ hok horigin _ hs hJ j u hu
      cases hs.thread_from hu with
      | kept hold _ hiff => exact mt hiff.mp (hJ hold)
      | died hdies =>
        obtain ⟨-, ⟨rfl, -⟩ | ⟨rfl, -⟩⟩ := hdies
        · obtain ⟨-, rfl⟩ := horigin
          exact nomatch hok
        · obtain ⟨-, arg, rfl⟩ := horigin
          exact nomatch hok
      | new hnew =>
        rw [hnew.ready]
        nofun
  exact hview (congrArg (Option.map Thread.view) hi)

theorem share_eq (halive : ∀ {i t}, k.sched.tasks.get i = some t → t.state ≠ .zombie)
    (halive' : ∀ {i t}, k'.sched.tasks.get i = some t → t.state ≠ .zombie)
    (hidle : k'.sched.idleTaskId = k.sched.idleTaskId)
    (hbefore : ∀ {i t'}, k'.sched.tasks.get i = some t' →
      ∃ t, k.sched.tasks.get i = some t ∧ t'.weight = t.weight)
    (hafter : ∀ {i t}, k.sched.tasks.get i = some t → ∃ t', k'.sched.tasks.get i = some t') :
    k'.sched.share = k.sched.share := by
  funext i
  cases hi : k'.sched.tasks.get i with
  | none =>
    rw [Scheduler.share_of_none hi, Scheduler.share_of_none]
    by_contra hsome
    obtain ⟨t, ht⟩ := Option.ne_none_iff_exists'.mp hsome
    obtain ⟨t', ht'⟩ := hafter ht
    cases hi.symm.trans ht'
  | some t' =>
    obtain ⟨t, ht, hweight⟩ := hbefore hi
    rw [Scheduler.share_of_some hi, Scheduler.share_of_some ht, hidle, hweight]
    simp only [halive ht, halive' hi, false_or]

theorem Adds.liveWeight {weight stack : ℕ} (hinv : SchedInv k.sched)
    (halive' : ∀ {i t}, k'.sched.tasks.get i = some t → t.state ≠ .zombie)
    (hadds : Adds k weight stack k') :
    k'.sched.liveWeight = k.sched.liveWeight + weight := by
  obtain ⟨i, t, hnone, hget, -, hweight, -, -⟩ := hadds.thread
  have hi : k'.sched.tasks.get i = some t := by rw [hget, update_self]
  refine Scheduler.liveWeight_update (Arena.lt_length_of_get hi) (Scheduler.share_of_none hnone) ?_
  funext j
  by_cases hj : j = i
  · subst hj
    have hidle : k.sched.idleTaskId ≠ some j := by
      intro hidle
      obtain ⟨l, u, hl, hu, -⟩ := hinv.census.idleReady
      obtain rfl := Option.some.inj (hl.symm.trans hidle)
      cases hnone.symm.trans hu
    rw [update_self, Scheduler.share_of_some hi, hadds.idleTaskId, if_neg, hweight]
    exact not_or.mpr ⟨halive' hi, hidle⟩
  · have hsame : k'.sched.tasks.get j = k.sched.tasks.get j := by
      rw [hget, update_of_ne hj]
    rw [update_of_ne hj, Scheduler.share, Scheduler.share, hsame, hadds.idleTaskId]

theorem boots_liveWeight (h : Boots kernelCr3 k) :
    k.sched.totalWeight = 0 ∧ k.sched.liveWeight = 0 := by
  obtain ⟨-, stack, mem, permits, h⟩ := h
  simp only [boot, Option.bind_eq_bind, Option.bind_eq_some_iff] at h
  obtain ⟨t, -, sched, hset, h⟩ := h
  cases hset
  cases h
  refine ⟨rfl, Finset.sum_eq_zero fun i hi => ?_⟩
  obtain rfl : i = 0 := Nat.lt_one_iff.mp (Finset.mem_range.mp hi)
  exact if_pos (Or.inr rfl)

end Kernel

/-- **The counter is the weight present, as long as no thread exits.**  `total_weight` is a
64-bit counter, so it is the sum modulo `2 ^ 64`. -/
theorem total_weight_live {kernelCr3 : ℕ} {k : Kernel}
    (h : Kernel.Reachable kernelCr3 NobodyExits k) :
    k.sched.totalWeight = wrap k.sched.liveWeight ∧
      (k.sched.liveWeight < 2 ^ 64 → k.sched.totalWeight = k.sched.liveWeight) := by
  suffices htotal : k.sched.totalWeight = wrap k.sched.liveWeight from
    ⟨htotal, fun hlt => htotal.trans (Nat.mod_eq_of_lt hlt)⟩
  induction h with
  | start hboot =>
    obtain ⟨htotal, hlive⟩ := Kernel.boots_liveWeight hboot
    rw [htotal, hlive]
    rfl
  | @next k k' a hrun hstep hok ih =>
    obtain ⟨hinv, -⟩ := Kernel.Reachable.inv hrun
    have halive := fun {i t} => Kernel.Reachable.alive (i := i) (t := t) hrun
    have halive' := fun {i t} => Kernel.Reachable.alive (i := i) (t := t) (.next hrun hstep hok)
    cases hnew : a.newThread with
    | some new =>
      have hadds := Kernel.step_adds hinv hnew hstep
      rw [hadds.totalWeight, hadds.liveWeight hinv halive', ih]
      exact Nat.mod_add_mod _ _ _
    | none =>
      by_cases hschedule : ∃ context, a = .schedule context
      · obtain ⟨context, rfl⟩ := hschedule
        obtain ⟨⟨k₁, out⟩, hrun', rfl⟩ := Option.map_eq_some_iff.mp hstep
        have hswitched := Kernel.schedule_switched hinv hrun'
        have hshare := Kernel.share_eq halive halive' hswitched.idleTaskId
          (fun hi => (hswitched.before hi).imp fun _ ht => ⟨ht.1, ht.2.weight⟩)
          fun hi => hswitched.after hi (halive hi)
        rw [hswitched.totalWeight, Scheduler.liveWeight_congr hshare, ih]
      · have hsame := Kernel.step_same hnew (fun context ha => hschedule ⟨context, ha⟩) hstep
        have hshare := Kernel.share_eq halive halive' hsame.idleTaskId
          (fun hi => (hsame.before hi).imp fun _ ht => ⟨ht.1, ht.2.weight⟩)
          fun hi => (hsame.after hi).imp fun _ ht => ht.1
        rw [hsame.totalWeight, Scheduler.liveWeight_congr hshare, ih]

/-- Two threads, one of which sleeps. -/
theorem total_weight_live_asleep :
    ∃ k, Kernel.Reachable 0x1000 NobodyExits k ∧ k.sched.liveWeight = 3072 ∧
      k.sched.totalWeight = wrap k.sched.liveWeight := by
  obtain ⟨k, hk, hlive⟩ := Kernel.Reachable.of_execute NobodyExits 0x1000
    [.spawn 1024 0x200000 8, .spawn 2048 0x300000 16, .schedule 0, .sleep, .schedule 0]
    (fun k => k.sched.liveWeight = 3072) (by decide) (by decide +kernel)
  exact ⟨k, hk, hlive, (total_weight_live hk).1⟩

/-- **A dead thread leaves its weight behind.**  The only process exits and is reaped; the idle
task is alone, and `total_weight` is still 1024. -/
theorem total_weight_of_the_dead :
    ∃ k, Kernel.Reachable 0x1000 (fun _ _ _ => True) k ∧ k.sched.liveWeight = 0 ∧
      k.sched.graveyard = [] ∧ k.sched.tasks.get 1 = none ∧ k.sched.totalWeight = 1024 := by
  obtain ⟨k, hk, hlive, hgrave, hslot, htotal⟩ := Kernel.Reachable.of_execute
    (fun _ _ _ => True) 0x1000
    [.spawnUser 0x2000 0x5000 1024 0x200000 8, .schedule 0, .sysExit 0, .schedule 0, .schedule 0]
    (fun k => k.sched.liveWeight = 0 ∧ k.sched.graveyard = [] ∧
      (k.sched.tasks.get 1).isNone = true ∧ k.sched.totalWeight = 1024)
    (by decide) (by decide +kernel)
  exact ⟨k, hk, hlive, hgrave, Option.isNone_iff_eq_none.mp hslot, htotal⟩

end KernelR.Proc
