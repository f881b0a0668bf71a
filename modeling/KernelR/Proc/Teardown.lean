import KernelR.Proc.Dispatch

/-!
# No live process is torn down

A record of the process table goes when `reap_zombies` finds it in the slot of a dead
thread, or when the parent harvests it. `OnlyExited` says that all records that went
were those of processes that had executed `SYS_EXIT`.

`reap_zombies` looks at the pid of the dead thread only. Between the harvest of a
process and the reaping of its thread its pid can be given to a new process, and if
that one is an orphan by then, its record goes with the old thread:
`live_process_torn_down`. `Sound` is the invariant of the runs in which no pid is
given out again while a thread still has it, and `live_processes_kept` what follows.

## Main results

* `Ledger.own_record` — a live user thread has its own record, if `OnlyExited`
* `Sound.step` — the invariant
-/

namespace KernelR.Proc

open Foundations View

/-- Slot 0 is the kernel's: it holds the record created at boot. -/
def View.KernelSlot (v : View) : Prop := ∃ p, v.procs 0 = some p ∧ p.serial = 0

instance (v : View) : Decidable v.KernelSlot :=
  decidable_of_iff ((v.procs 0).any (fun p => decide (p.serial = 0)) = true) (by
    rw [Option.any_eq_true]
    simp only [decide_eq_true_eq]
    rfl)

/-- Every record that was removed belonged to a process that executed `SYS_EXIT`. -/
def OnlyExited (h : History) : Prop := ∀ n ∈ h.gone, n ∈ h.exited

instance (h : History) : Decidable (OnlyExited h) :=
  inferInstanceAs (Decidable (∀ n ∈ h.gone, n ∈ h.exited))

/-- A record that is marked as a zombie belongs to a process that executed `SYS_EXIT`. -/
def ZombiesExited (v : View) : Prop :=
  ∀ {q p}, v.procs q = some p → p.isZombie = true → p.serial ∈ v.history.exited

/-- No thread in the arena has the pid that the next process gets. -/
def Kernel.PidFree (k : Kernel) : Prop := ∀ t ∈ k.sched.tasks.values, t.pid ≠ k.freePid

instance (k : Kernel) : Decidable k.PidFree :=
  inferInstanceAs (Decidable (∀ t ∈ k.sched.tasks.values, t.pid ≠ k.freePid))

variable {v v' : View} {e : Event}

theorem View.KernelSlot.of_step (h : Ledger v) (hs : Step v e v') (hslot : v'.KernelSlot) :
    v.KernelSlot := by
  obtain ⟨p, hp, hserial⟩ := hslot
  cases hs.record_from hp with
  | kept hold hsame => exact ⟨_, hold, hsame.serial.symm.trans hserial⟩
  | new _ hnew =>
    rw [hnew.serial] at hserial
    exact absurd hserial h.started.ne'

namespace Ledger

/-- **A live user thread has its own record.** -/
theorem own_record (h : Ledger v) (hexited : OnlyExited v.history) {j : ℕ} {t : TaskView}
    (ht : v.threads j = some t) (huser : t.user = true) (hz : t.state ≠ .zombie) :
    ∃ p, v.procs t.pid = some p ∧ p.serial = t.serial := by
  rcases h.tracked ht huser with hown | hgone
  · exact hown
  · exact absurd (hexited _ hgone) (h.alive ht huser hz)

theorem running_record (h : Ledger v) (hexited : OnlyExited v.history) {c : ℕ} {t : TaskView}
    (hrun : v.Running c t) (huser : t.user = true) :
    ∃ p, v.procs t.pid = some p ∧ p.serial = t.serial := by
  refine h.own_record hexited hrun.thread huser ?_
  rw [hrun.ready]
  nofun

/-- `SYS_EXIT` marks the record of the process that executes it. -/
theorem zombiesExited_step (h : Ledger v) (hexited : OnlyExited v.history)
    (hzombies : ZombiesExited v) (hs : Step v e v') : ZombiesExited v' := by
  intro q p hp hz
  cases hs.record_from hp with
  | kept hold hsame hrest =>
    rw [hsame.serial]
    obtain ⟨hne, -⟩ | ⟨-, c, t, exitCode, hrun, huser, hexits, -, hprocs⟩ := hs.exits
    · exact exited_mono hs (hzombies hold ((hrest hne).2.1.symm.trans hz))
    · by_cases hq : q = t.pid
      · subst hq
        obtain ⟨own, hown, hserial⟩ := h.running_record hexited hrun huser
        obtain rfl := Option.some.inj (hown.symm.trans hold)
        rw [hserial, History.exited, hexits]
        exact List.mem_cons_self
      · rw [hprocs, hold] at hp
        rw [← Option.some.inj hp] at hz
        refine exited_mono hs (hzombies hold ?_)
        simpa only [exitRecord, hq, if_false] using hz
  | new _ hnew => cases hnew.isZombie.symm.trans hz

end Ledger

/-! ### The invariant -/

/-- What holds as long as no pid is given out while a thread has it. -/
structure Sound (v : View) : Prop where
  exited : OnlyExited v.history
  zombies : ZombiesExited v
  /-- a record in the slot of a thread is the one that was created with it -/
  own : ∀ {j t p}, v.threads j = some t → t.user = true → v.procs t.pid = some p →
    p.serial = t.serial

namespace Sound

theorem initial (kernelCr3 : ℕ) : Sound (View.initial kernelCr3) where
  exited := nofun
  zombies hp hz := by
    obtain ⟨-, rfl⟩ := initial_procs.mp hp
    cases hz
  own ht huser _ := by
    obtain ⟨-, rfl⟩ := initial_threads.mp ht
    cases huser

/-- What goes has exited: the record of a dead thread, because it is its own. -/
theorem exited_step (h : Sound v) (hledger : Ledger v) (hs : Step v e v')
    (hslot : v'.KernelSlot) : OnlyExited v'.history := by
  obtain ⟨heq, -⟩ | ⟨n, p, ⟨hp, hwhy⟩, hprocs, heq, -⟩ := hs.removed hledger.pid
  · intro m hm
    rw [History.gone, heq] at hm
    exact Ledger.exited_mono hs (h.exited m hm)
  · have hexited : p.serial ∈ v.history.exited := by
      rcases hwhy with ⟨-, hz, -⟩ | ⟨-, -, z, t, -, hthread, hdead, rfl⟩
      · exact h.zombies hp hz
      · by_cases huser : t.user = true
        · rw [h.own hthread huser hp]
          exact hledger.dead hthread huser hdead
        · -- a kernel thread would take the kernel's record along
          have hpid := (hledger.kernel hthread (Bool.eq_false_iff.mpr huser)).1
          obtain ⟨p₀, hp₀, -⟩ := hslot
          rw [hprocs, hpid, Function.update_self] at hp₀
          cases hp₀
    intro m hm
    rw [History.gone, heq] at hm
    rcases List.mem_cons.mp hm with rfl | hm
    · exact Ledger.exited_mono hs hexited
    · exact Ledger.exited_mono hs (h.exited m hm)

theorem own_step (h : Sound v) (hs : Step v e v')
    (hfree : ∀ {n}, e = .fork n → ∀ {j t}, v.threads j = some t → t.pid ≠ n) {j : ℕ}
    {t : TaskView} {p : Process} (ht : v'.threads j = some t) (huser : t.user = true)
    (hp : v'.procs t.pid = some p) : p.serial = t.serial := by
  obtain ⟨t₀, hold, hsame⟩ | hnew := (hs.thread_from ht).old_or_new
  · rw [hsame.pid] at hp
    cases hs.record_from hp with
    | kept hrecord hkept =>
      rw [hkept.serial, hsame.serial]
      exact h.own hold (hsame.user.symm.trans huser) hrecord
    | new he => exact absurd rfl (hfree he hold)
  · rcases hnew.kind with ⟨hkernel, -⟩ | ⟨-, rfl⟩
    · exact nomatch hkernel.symm.trans huser
    · cases hs with
      | fork _ hborn =>
        obtain ⟨-, rfl⟩ | ⟨hne, -⟩ := update_eq_some_iff.mp hp
        · exact hborn.serial.trans hnew.serial.symm
        · exact absurd rfl hne

/-- **The invariant is kept** if a new process gets a pid that no thread has. -/
theorem step (h : Sound v) (hledger : Ledger v) (hs : Step v e v') (hslot : v'.KernelSlot)
    (hfree : ∀ {n}, e = .fork n → ∀ {j t}, v.threads j = some t → t.pid ≠ n) : Sound v' where
  exited := h.exited_step hledger hs hslot
  zombies := hledger.zombiesExited_step h.exited h.zombies hs
  own := h.own_step hs hfree

end Sound

/-! ### Runs -/

/-- Slot 0 stays the kernel's, and a process is created only while no thread in the
arena has its pid. -/
def NoStalePid (k : Kernel) (a : Action) (k' : Kernel) : Prop :=
  k'.view.KernelSlot ∧ (a.forks = true → k.PidFree)

instance (k : Kernel) (a : Action) (k' : Kernel) : Decidable (NoStalePid k a k') :=
  inferInstanceAs (Decidable (_ ∧ _))

theorem KernelSlot.initial (kernelCr3 : ℕ) : (View.initial kernelCr3).KernelSlot := ⟨_, rfl, rfl⟩

/-- A process that is created gets a pid that no thread has. -/
theorem Kernel.PidFree.fork {k : Kernel} {a : Action} (h : a.forks = true → k.PidFree)
    (horigin : Origin k a v e) {n : ℕ} (he : e = .fork n) {j : ℕ} {t : TaskView}
    (ht : v.threads j = some t) : t.pid ≠ n := by
  subst he
  obtain ⟨rfl, rfl, hforks⟩ := horigin
  obtain ⟨t', ht', rfl⟩ := Option.map_eq_some_iff.mp ht
  exact h hforks t' (Arena.mem_values.mpr ⟨j, ht'⟩)

/-- The invariant holds in every state of such a run, as long as slot 0 is the
kernel's. -/
theorem Kernel.Reachable.sound {kernelCr3 : ℕ} {ok : Kernel → Action → Kernel → Prop}
    (hok : ∀ {k a k'}, ok k a k' → a.forks = true → k.PidFree) {k : Kernel}
    (h : Kernel.Reachable kernelCr3 ok k) (hslot : k.view.KernelSlot) : Sound k.view := by
  refine h.invariant (J := fun v => v.KernelSlot → Sound v) (fun _ _ => Sound.initial kernelCr3)
    ?_ hslot
  intro k a k' v e v' _ hmeets horigin hledger hs hsound hslot'
  exact (hsound (hslot'.of_step hledger hs)).step hledger hs hslot'
    (Kernel.PidFree.fork (hok hmeets) horigin)

theorem Kernel.Reachable.kernelSlot {kernelCr3 : ℕ} {ok : Kernel → Action → Kernel → Prop}
    (hok : ∀ {k a k'}, ok k a k' → k'.view.KernelSlot) {k : Kernel}
    (h : Kernel.Reachable kernelCr3 ok k) : k.view.KernelSlot := by
  cases h with
  | start hboot =>
    rw [(Kernel.boot_spec hboot).2]
    exact KernelSlot.initial kernelCr3
  | next _ _ hmeets => exact hok hmeets

/-- **No live process is torn down** in a run in which a process is created only while
no thread in the arena has its pid: every record that `reap_zombies` or `SYS_WAIT`
removed is that of a process that executed `SYS_EXIT`, and every thread of a user
process that is not a zombie has the record that was created with it. -/
theorem live_processes_kept {kernelCr3 : ℕ} {k : Kernel}
    (h : Kernel.Reachable kernelCr3 NoStalePid k) :
    (∀ p ∈ k.history.removed, p.serial ∈ k.history.exited) ∧
      ∀ i t, k.sched.tasks.get i = some t → t.state ≠ .zombie → 1 ≤ t.pid →
        ∃ p, k.sched.process t.pid = some p ∧ p.serial = t.serial := by
  have hledger := h.inv.2
  have hslot := h.kernelSlot fun hmeets => hmeets.1
  have hsound := h.sound (fun hmeets => hmeets.2) hslot
  refine ⟨fun p hp => hsound.exited _ (List.mem_map_of_mem hp), ?_⟩
  intro i t ht hz hpid
  have hthread : k.view.threads i = some t.view := congrArg (Option.map Thread.view) ht
  refine hledger.own_record hsound.exited hthread ?_ hz
  by_contra huser
  have hzero := (hledger.kernel hthread (Bool.eq_false_iff.mpr huser)).1
  exact absurd hzero (Nat.one_le_iff_ne_zero.mp hpid)

/-- Process 1 spawns three children, waits for child 3, and harvests it after its
exit; the thread of the child is in the graveyard. -/
def harvestRun : List Action :=
  [.spawnUser 0x2000 0x5000 1024 0x200000 8, .schedule 0, .schedule 0,
    .sysSpawn 0x3000 0x5000 0x300000 16, .sysSpawn 0x4000 0x5000 0x400000 24,
    .sysSpawn 0x5000 0x5000 0x500000 32, .sysWait 3 0, .schedule 0, .schedule 0, .schedule 0,
    .schedule 0, .schedule 0, .schedule 0, .schedule 0, .schedule 0, .sysExit 5, .schedule 0,
    .resume, .resume]

theorem live_processes_kept_harvestRun :
    ∃ k, Kernel.Reachable 0x1000 NoStalePid k ∧ k.history.gone = [3] ∧
      (∀ p ∈ k.history.removed, p.serial ∈ k.history.exited) ∧
      ∀ i t, k.sched.tasks.get i = some t → t.state ≠ .zombie → 1 ≤ t.pid →
        ∃ p, k.sched.process t.pid = some p ∧ p.serial = t.serial := by
  obtain ⟨k, hk, hgone⟩ := Kernel.Reachable.of_execute NoStalePid 0x1000 harvestRun
    (fun k => k.history.gone = [3]) (by decide) (by decide +kernel)
  exact ⟨k, hk, hgone, live_processes_kept hk⟩

/-- **A live process is torn down.**  Going on with the last run, process 1 spawns
another child, which gets the pid 3 again, and exits. The new child is an orphan now;
the next tick reaps the dead thread with pid 3 and takes the record and the address
space of the new child, whose thread 5 is `Ready`. -/
theorem live_process_torn_down :
    ∃ k, Kernel.Reachable 0x1000 (fun _ _ k' => k'.view.KernelSlot) k ∧
      (∃ p ∈ k.history.removed, p.serial ∉ k.history.exited ∧
        p.pageTable ∈ k.history.destroyed) ∧
      ∃ t, k.sched.tasks.get 5 = some t ∧ t.state = .ready ∧ t.pid = 3 ∧
        k.sched.process 3 = none := by
  obtain ⟨k, hk, hremoved, hthread, hslot⟩ := Kernel.Reachable.of_execute
    (fun _ _ k' => k'.view.KernelSlot) 0x1000
    (harvestRun ++ [.sysSpawn 0x6000 0x5000 0x600000 40, .sysExit 0, .schedule 0])
    (fun k => (∃ p ∈ k.history.removed, p.serial ∉ k.history.exited ∧
        p.pageTable ∈ k.history.destroyed) ∧
      (k.sched.tasks.get 5).any (fun t => decide (t.state = .ready ∧ t.pid = 3)) = true ∧
      k.sched.process 3 = none) (by decide) (by decide +kernel)
  obtain ⟨t, ht, hdec⟩ := (Option.any_eq_true _ _).mp hthread
  obtain ⟨hready, hpid⟩ := of_decide_eq_true hdec
  exact ⟨k, hk, hremoved, t, ht, hready, hpid, hslot⟩

end KernelR.Proc
