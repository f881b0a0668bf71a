import KernelR.Proc.AddressSpace

/-!
# `CR3` and the current thread

`schedule` loads `CR3` when the pid changes, and not at all when it falls back to the
idle task. `Coherent` says that the page table in `CR3` is that of the process of the
current thread. It is kept by every step (`Coherent.step`), provided that

* no live process is torn down (`Sound`) and the kernel's record stays (`KernelKept`);
* the idle task takes over from a thread of process 0.

Without the last condition the idle task runs on the page table of the process that
was there before, also after `reap_zombies` has destroyed it:
`idle_on_destroyed_address_space`.
-/

namespace KernelR.Proc

open Function Option Foundations View

variable {v v' : View} {e : Event} {kernelCr3 : ℕ}

/-! ### What stays -/

/-- **Where a thread goes**: it is there after the step, or it was the dead thread at
the head of the graveyard. -/
theorem View.Step.thread_to (hs : Step v e v') {j : ℕ} {t : TaskView} (ht : v.threads j = some t) :
    (∃ t', v'.threads j = some t' ∧ SameThread t t') ∨ v.current ≠ some j ∧ t.state = .zombie ∧
        ∃ rest, v.graveyard = j :: rest ∧ v' = (v.removeThread j rest).reapProcess t.pid := by
  have hsame : ∀ {t'}, v'.threads j = some t' → SameThread t t' := by
    intro t' ht'
    obtain ⟨t₀, hold, hsame⟩ | hnew := (hs.thread_from ht').old_or_new
    · exact some.inj (hold.symm.trans ht) ▸ hsame
    · exact nomatch hnew.empty.symm.trans ht
  have hupdate : ∀ {f : ℕ → Option TaskView} {i : ℕ} {a u : TaskView}, f j = some u →
      ∃ t', update f i (some a) j = some t' := by
    intro f i a u hu
    by_cases hj : j = i
    · exact ⟨a, hj ▸ update_self ..⟩
    · exact ⟨u, (update_of_ne hj _ _).trans hu⟩
  have hwake : ∀ waiters, ∃ t', wakeThreads waiters v.threads j = some t' := by
    intro waiters
    unfold wakeThreads
    split
    · exact ⟨t.wake, congrArg (Option.map _) ht⟩
    · exact ⟨t, ht⟩
  have hto : (∃ t', v'.threads j = some t') ∨ v.current ≠ some j ∧ t.state = .zombie ∧
      ∃ rest, v.graveyard = j :: rest ∧ v' = (v.removeThread j rest).reapProcess t.pid := by
    cases hs with
    | wake waiters => exact Or.inl (hwake waiters)
    | sysExit =>
      obtain ⟨u, hu⟩ := hwake (v.parentQueue _)
      exact Or.inl (hupdate hu)
    | @reap z rest tz hg hcur hz hdead =>
      by_cases hj : j = z
      · subst hj
        obtain rfl := some.inj (hz.symm.trans ht)
        exact Or.inr ⟨hcur, hdead, rest, hg, rfl⟩
      · rw [threads_reapProcess]
        exact Or.inl ⟨t, (update_of_ne hj _ _).trans ht⟩
    | bury | switch | idle => exact Or.inl ⟨t, ht⟩
    | _ => exact Or.inl (hupdate ht)
  exact hto.imp_left fun ⟨t', ht'⟩ => ⟨t', ht', hsame ht'⟩

/-- The current thread, and a thread that is alive, are there after the step. -/
theorem View.Step.thread_stays (hs : Step v e v') {j : ℕ} {t : TaskView}
    (ht : v.threads j = some t) (hstay : v.current = some j ∨ t.state ≠ .zombie) :
    ∃ t', v'.threads j = some t' ∧ SameThread t t' := by
  rcases hs.thread_to ht with hthere | ⟨hcur, hdead, -⟩
  · exact hthere
  · rcases hstay with hstay | hstay
    · exact absurd hstay hcur
    · exact absurd hdead hstay

theorem View.Step.idle_eq (hs : Step v e v') : v'.idle = v.idle := by
  cases hs with
  | reap =>
    rw [idle_reapProcess]
    rfl
  | _ => rfl

theorem View.Step.idle_kernel (hs : Step v e v')
    (h : ∃ i t, v.idle = some i ∧ v.threads i = some t ∧ t.user = false ∧ t.state ≠ .zombie) :
    ∃ i t, v'.idle = some i ∧ v'.threads i = some t ∧ t.user = false ∧ t.state ≠ .zombie := by
  obtain ⟨i, t, hidle, ht, huser, hz⟩ := h
  obtain ⟨t', ht', hsame⟩ := hs.thread_stays ht (Or.inr hz)
  refine ⟨i, t', hs.idle_eq.trans hidle, ht', hsame.user.trans huser, ?_⟩
  intro hz'
  cases hs.thread_from ht' with
  | kept hold _ hiff =>
    rw [some.inj (hold.symm.trans ht)] at hiff
    exact hz (hiff.mp hz')
  | died hdies => exact hdies.1.busy hidle
  | new hnew => exact nomatch hnew.ready.symm.trans hz'

/-- The current thread and `CR3` change in `schedule` only. -/
theorem View.Step.current_eq (hs : Step v e v') (hswitch : e ≠ .switch) (hidle : e ≠ .idle) :
    v'.current = v.current ∧ v'.cr3 = v.cr3 := by
  cases hs with
  | @reap z rest t =>
    obtain heq | ⟨p, -, -, heq⟩ := (v.removeThread z rest).reapProcess_cases t.pid
    · rw [heq]
      exact ⟨rfl, rfl⟩
    · rw [heq]
      exact ⟨rfl, rfl⟩
  | switch => exact absurd rfl hswitch
  | idle => exact absurd rfl hidle
  | _ => exact ⟨rfl, rfl⟩

theorem Sound.current_ne (hsound : Sound v) (hkept : KernelKept kernelCr3 v) (hledger : Ledger v)
    {n c : ℕ} {p : Process} {t : TaskView} (hremoves : v.Removes e n p)
    (hcur : v.current = some c) (ht : v.threads c = some t) : t.pid ≠ n := by
  rintro rfl
  obtain ⟨hp, ⟨-, hz, c', t', target, hrun, huser, -⟩ | ⟨-, -, z, tz, hne, hthread, hdead, hpid⟩⟩ :=
    hremoves
  · -- a child that has exited is not the process that runs
    obtain rfl := some.inj (hcur.symm.trans hrun.current)
    obtain rfl := some.inj (ht.symm.trans hrun.thread)
    have hexited := hsound.zombies hp hz
    rw [hsound.own ht huser hp] at hexited
    refine hledger.alive ht huser ?_ hexited
    rw [hrun.ready]
    nofun
  · -- two threads with the same record are the same thread
    have huser := hkept.zombies hthread hdead
    by_cases hkernel : t.user = true
    · rw [← hpid] at hp
      have hserial := hsound.own hthread huser hp
      rw [hpid] at hp
      rw [hsound.own ht hkernel hp] at hserial
      exact hne (hcur.trans (congrArg some (hledger.thread_inj ht hthread hserial)))
    · have hzero := (hledger.kernel ht (Bool.eq_false_iff.mpr hkernel)).1
      exact hkept.users hthread huser (hpid.trans hzero)

/-! ### The invariant -/

/-- The page table in `CR3` is that of the current thread's process. -/
structure Coherent (kernelCr3 : ℕ) (v : View) : Prop where
  loaded : ∀ {c}, v.current = some c →
    ∃ t p, v.threads c = some t ∧ v.procs t.pid = some p ∧ v.cr3 = p.pageTable
  fresh : v.current = none → v.cr3 = kernelCr3
  /-- the idle task is a kernel thread -/
  idle : ∃ i t, v.idle = some i ∧ v.threads i = some t ∧ t.user = false ∧ t.state ≠ .zombie
  frames : ∀ {q p}, v.procs q = some p → 4096 ∣ p.pageTable ∧ q < 2 ^ 60

namespace Coherent

theorem initial (hcr3 : 4096 ∣ kernelCr3) : Coherent kernelCr3 (View.initial kernelCr3) where
  loaded := nofun
  fresh _ := rfl
  idle := ⟨0, _, rfl, rfl, rfl, nofun⟩
  frames hp := by
    obtain ⟨rfl, rfl⟩ := initial_procs.mp hp
    exact ⟨hcr3, by decide⟩

theorem frames_step (h : Coherent kernelCr3 v) (hs : Step v e v') {q : ℕ} {p : Process}
    (hp : v'.procs q = some p) : 4096 ∣ p.pageTable ∧ q < 2 ^ 60 := by
  cases hs.record_from hp with
  | kept hold hsame =>
    rw [hsame.pageTable]
    exact h.frames hold
  | new _ hnew => exact ⟨hnew.aligned, hnew.small⟩

/-- The pid of a thread that can run is a slot of the table. -/
theorem pid_lt (h : Coherent kernelCr3 v) (hsound : Sound v) (hledger : Ledger v) {j : ℕ}
    {t : TaskView} (ht : v.threads j = some t) (hready : t.state = .ready) : t.pid < 2 ^ 60 := by
  by_cases huser : t.user = true
  · have hz : t.state ≠ .zombie := by
      rw [hready]
      nofun
    obtain ⟨p, hp, -⟩ := hledger.own_record hsound.exited ht huser hz
    exact (h.frames hp).2
  · rw [(hledger.kernel ht (Bool.eq_false_iff.mpr huser)).1]
    decide

theorem loaded_stays (h : Coherent kernelCr3 v) (hsound : Sound v)
    (hkept : KernelKept kernelCr3 v) (hledger : Ledger v) (hs : Step v e v')
    (hcurrent : v'.current = v.current) (hcr3 : v'.cr3 = v.cr3) {c : ℕ}
    (hc : v'.current = some c) :
    ∃ t p, v'.threads c = some t ∧ v'.procs t.pid = some p ∧ v'.cr3 = p.pageTable := by
  rw [hcurrent] at hc
  rw [hcr3]
  obtain ⟨t, p, ht, hp, hload⟩ := h.loaded hc
  obtain ⟨t', ht', hsame⟩ := hs.thread_stays ht (Or.inl hc)
  obtain ⟨-, -, hkeep⟩ | ⟨n, p₀, hremoves, hprocs, -⟩ := hs.removed hledger.pid
  · obtain ⟨p', hp', hsame'⟩ := hkeep hp
    exact ⟨t', p', ht', hsame.pid ▸ hp', hload.trans hsame'.pageTable.symm⟩
  · refine ⟨t', p, ht', ?_, hload⟩
    rw [hsame.pid, hprocs, update_of_ne (hsound.current_ne hkept hledger hremoves hc ht)]
    exact hp

/-- `schedule` takes a thread from the tree: the page table is loaded unless the
thread before had the same pid. -/
theorem loaded_switch (h : Coherent kernelCr3 v) (hsound : Sound v) (hledger : Ledger v)
    (hs : Step v .switch v') {c : ℕ} (hc : v'.current = some c) :
    ∃ t p, v'.threads c = some t ∧ v'.procs t.pid = some p ∧ v'.cr3 = p.pageTable := by
  cases hs with
  | @switch i prev cr3 t ht hready _ hprev hcr3 =>
    cases hc
    refine ⟨t, ?_⟩
    rcases hcr3 with ⟨rfl, rfl⟩ | ⟨-, p, hp, rfl⟩
    · unfold View.prevPid at hprev
      split at hprev
      · next c hcur =>
          obtain ⟨t₀, p, ht₀, hp, hload⟩ := h.loaded hcur
          rw [ht₀] at hprev
          rw [some.inj hprev] at hp
          exact ⟨p, ht, hp, hload⟩
      · have hlt := h.pid_lt hsound hledger ht hready
        rw [← some.inj hprev] at hlt
        exact absurd hlt (by decide)
    · exact ⟨p, ht, hp, Nat.div_mul_cancel (h.frames hp).1⟩

theorem loaded_idle (h : Coherent kernelCr3 v) (hkept : KernelKept kernelCr3 v)
    (hledger : Ledger v) (hs : Step v .idle v')
    (hbefore : ∀ {c t}, v.current = some c → v.threads c = some t → t.pid = 0) {c : ℕ}
    (hc : v'.current = some c) :
    ∃ t p, v'.threads c = some t ∧ v'.procs t.pid = some p ∧ v'.cr3 = p.pageTable := by
  obtain ⟨i, t, hidle, ht, huser, -⟩ := h.idle
  obtain ⟨p, hp, -, -, htable⟩ := hkept.kernel
  have hpid := (hledger.kernel ht huser).1
  have hload : v.cr3 = p.pageTable := by
    cases hcur : v.current with
    | none => exact (h.fresh hcur).trans htable.symm
    | some c₀ =>
      obtain ⟨t₀, p₀, ht₀, hp₀, hload⟩ := h.loaded hcur
      rw [hbefore hcur ht₀, hp] at hp₀
      rw [hload, ← some.inj hp₀]
  cases hs with
  | @idle j hj _ =>
    cases hc
    obtain rfl := some.inj (hidle.symm.trans hj)
    exact ⟨t, p, ht, hpid ▸ hp, hload⟩

/-- **The invariant is kept** if the idle task takes over from process 0 only. -/
theorem step (h : Coherent kernelCr3 v) (hsound : Sound v) (hkept : KernelKept kernelCr3 v)
    (hledger : Ledger v) (hs : Step v e v')
    (hbefore : e = .idle → ∀ {c t}, v.current = some c → v.threads c = some t → t.pid = 0) :
    Coherent kernelCr3 v' where
  loaded := by
    intro c hc
    by_cases hswitch : e = .switch
    · subst hswitch
      exact h.loaded_switch hsound hledger hs hc
    by_cases hidle : e = .idle
    · subst hidle
      exact h.loaded_idle hkept hledger hs (hbefore rfl) hc
    obtain ⟨hcurrent, hcr3⟩ := hs.current_eq hswitch hidle
    exact h.loaded_stays hsound hkept hledger hs hcurrent hcr3 hc
  fresh := by
    intro hnone
    by_cases hswitch : e = .switch
    · subst hswitch
      cases hs
      cases hnone
    by_cases hidle : e = .idle
    · subst hidle
      cases hs
      cases hnone
    obtain ⟨hcurrent, hcr3⟩ := hs.current_eq hswitch hidle
    exact hcr3.trans (h.fresh (hcurrent.symm.trans hnone))
  idle := hs.idle_kernel h.idle
  frames := h.frames_step hs

end Coherent

/-! ### Runs -/

/-- A call of `schedule`. -/
def Action.schedules : Action → Bool
  | .schedule _ => true
  | _ => false

/-- No thread but the idle task is `Ready`. -/
def Kernel.Drained (k : Kernel) : Prop :=
  ∀ t ∈ k.sched.tasks.values, t.state = .ready → k.sched.idleTaskId = some t.tid

/-- The thread that ran until now, if any, belongs to process 0. -/
def Kernel.InKernel (k : Kernel) : Prop :=
  ∀ t ∈ k.sched.currentTask.bind k.sched.tasks.get, t.pid = 0

instance (k : Kernel) : Decidable k.Drained :=
  inferInstanceAs (Decidable (∀ t ∈ k.sched.tasks.values, _))

instance (k : Kernel) : Decidable k.InKernel :=
  inferInstanceAs (Decidable (∀ t ∈ k.sched.currentTask.bind k.sched.tasks.get, _))

/-- No kernel thread ends, a process is created only while no thread in the arena has
its pid, and `schedule` finds nobody to run only after a thread of process 0. -/
def KeepsCr3 (k : Kernel) (a : Action) (k' : Kernel) : Prop :=
  NoKernelExit k a k' ∧ (a.forks = true → k.PidFree) ∧
    (a.schedules = true → k.Drained → k.InKernel)

instance (k : Kernel) (a : Action) (k' : Kernel) : Decidable (KeepsCr3 k a k') :=
  inferInstanceAs (Decidable (_ ∧ _))

/-- What the condition says about the abstract step to the idle task. -/
theorem KeepsCr3.idle {k k' : Kernel} {a : Action} (h : KeepsCr3 k a k') (hinv : SchedInv k.sched)
    (horigin : Origin k a v .idle) {c : ℕ} {t : TaskView} (hcur : v.current = some c)
    (ht : v.threads c = some t) : t.pid = 0 := by
  obtain ⟨-, ⟨context, rfl⟩, hcurrent, hsame, hall⟩ := horigin
  obtain ⟨T, hT⟩ := hinv.queue
  have hdrained : k.Drained := by
    intro u hu hready
    obtain ⟨i, hi⟩ := Arena.mem_values.mp hu
    rw [hT.tid hi]
    exact hall i u.view (congrArg (Option.map Thread.view) hi) hready
  rw [hsame c hcur] at ht
  obtain ⟨t', ht', rfl⟩ := map_eq_some_iff.mp ht
  have hcur' : k.sched.currentTask = some c := hcurrent.symm.trans hcur
  refine h.2.2 rfl hdrained t' ?_
  rw [hcur']
  exact ht'

theorem KernelKept.slot (h : KernelKept kernelCr3 v) : v.KernelSlot := by
  obtain ⟨p, hp, hserial, -⟩ := h.kernel
  exact ⟨p, hp, hserial⟩

/-- The invariants of this and the two previous modules, together. -/
theorem Kernel.Reachable.coherent {k : Kernel} (h : Kernel.Reachable kernelCr3 KeepsCr3 k) :
    KernelKept kernelCr3 k.view ∧ Coherent kernelCr3 k.view := by
  have hall : KernelKept kernelCr3 k.view ∧ Sound k.view ∧ Coherent kernelCr3 k.view := by
    refine h.invariant (J := fun v => KernelKept kernelCr3 v ∧ Sound v ∧ Coherent kernelCr3 v)
      (fun hcr3 => ⟨.initial kernelCr3, .initial kernelCr3, .initial hcr3⟩) ?_
    rintro k a k' v e v' hreach hmeets horigin hledger hs ⟨hkept, hsound, hcoherent⟩
    have hkept' : KernelKept kernelCr3 v' := by
      refine hkept.step hledger hs ?_
      rintro rfl
      exact hmeets.1 horigin.2
    refine ⟨hkept', hsound.step hledger hs hkept'.slot ?_, ?_⟩
    · exact Kernel.PidFree.fork hmeets.2.1 horigin
    · refine hcoherent.step hsound hkept hledger hs ?_
      rintro rfl
      exact hmeets.idle hreach.inv.1 horigin
  exact ⟨hall.1, hall.2.2⟩

/-- **Address spaces are coherent** in a run that meets the condition: in every state,
so in particular after every call of `schedule`, the page table in `CR3` is that of the
process of the current thread, and its PML4 is in use. -/
theorem address_spaces_coherent {k : Kernel} (h : Kernel.Reachable kernelCr3 KeepsCr3 k) :
    (∀ c, k.sched.currentTask = some c → ∃ t p, k.sched.tasks.get c = some t ∧
        k.sched.process t.pid = some p ∧ k.cpu.cr3 = p.pageTable) ∧
      k.cpu.cr3 ∈ k.history.pml4s := by
  obtain ⟨hkept, hcoherent⟩ := h.coherent
  constructor
  · intro c hc
    obtain ⟨t, p, ht, hp, hload⟩ := hcoherent.loaded hc
    obtain ⟨t', ht', rfl⟩ := Option.map_eq_some_iff.mp ht
    exact ⟨t', p, ht', hp, hload⟩
  · show k.view.cr3 ∈ k.view.history.pml4s
    cases hc : k.view.current with
    | none =>
      obtain ⟨p, hp, -, -, htable⟩ := hkept.kernel
      rw [hcoherent.fresh hc]
      exact hkept.owned.used (table_inl.mpr ⟨p, hp, htable⟩)
    | some c =>
      obtain ⟨t, p, -, hp, hload⟩ := hcoherent.loaded hc
      exact hkept.owned.used (table_inl.mpr ⟨p, hp, hload.symm⟩)

theorem address_spaces_coherent_harvestRun :
    ∃ k, Kernel.Reachable 0x1000 KeepsCr3 k ∧ k.sched.currentTask = some 1 ∧
      (∃ t p, k.sched.tasks.get 1 = some t ∧ k.sched.process t.pid = some p ∧
        k.cpu.cr3 = p.pageTable) ∧
      k.cpu.cr3 ∈ k.history.pml4s := by
  obtain ⟨k, hk, hcur⟩ := Kernel.Reachable.of_execute KeepsCr3 0x1000 harvestRun
    (fun k => k.sched.currentTask = some 1) (by decide) (by decide +kernel)
  obtain ⟨hloaded, hused⟩ := address_spaces_coherent hk
  exact ⟨k, hk, hcur, hloaded 1 hcur, hused⟩

/-- **`schedule` returns** in every state of a run in which no kernel thread ends and no pid is
given to a process while a thread has it: whatever thread it picks, the process is in the table.
Overflows wrap here. -/
theorem schedule_returns {k : Kernel} (h : Kernel.Reachable kernelCr3
    (fun k a k' => NoKernelExit k a k' ∧ (a.forks = true → k.PidFree)) k) (context : ℕ) :
    k.schedule context ≠ none := by
  have hkept := h.kernelKept And.left
  obtain ⟨hinv, hledger⟩ := h.inv
  obtain ⟨-, -, hpath, -⟩ := Kernel.reapZombies_sim (fun _ e => e = .reap) (fun _ => rfl) hinv
  -- reaping keeps the invariants, so they hold when `schedule` looks for a thread
  obtain ⟨hledger, hkept, hsound⟩ : Ledger k.reapZombies.view ∧
      KernelKept kernelCr3 k.reapZombies.view ∧ Sound k.reapZombies.view := by
    refine hpath.invariant (J := fun v => Ledger v ∧ KernelKept kernelCr3 v ∧ Sound v) ?_
      ⟨hledger, hkept, h.sound And.right hkept.slot⟩
    rintro v e v' ⟨hledger, hkept, hsound⟩ hs rfl
    have hkept' := hkept.step hledger hs (fun he => by cases he)
    exact ⟨hledger.step hs, hkept', hsound.step hledger hs hkept'.slot fun he => by cases he⟩
  refine Kernel.schedule_ne_none hinv (fun i t ht hready => ?_) context
  cases huser : t.user with
  | false =>
    obtain ⟨p, hp, -⟩ := hkept.kernel
    rw [(hledger.kernel ht huser).1, hp]
    exact some_ne_none _
  | true =>
    obtain ⟨p, hp, -⟩ | hgone := hledger.tracked ht huser
    · rw [hp]
      exact some_ne_none _
    · have halive := hledger.alive ht huser (fun hz => by rw [hready] at hz; cases hz)
      exact absurd (hsound.exited _ hgone) halive

theorem schedule_returns_harvestRun : ∃ k : Kernel, k.history.gone = [3] ∧ k.schedule 0 ≠ none := by
  obtain ⟨k, hk, hgone⟩ := Kernel.Reachable.of_execute
    (fun k a k' => NoKernelExit k a k' ∧ (a.forks = true → k.PidFree)) 0x1000 harvestRun
    (fun k => k.history.gone = [3]) (by decide) (by decide +kernel)
  exact ⟨k, hgone, schedule_returns hk 0⟩

/-- **The idle task on a destroyed address space.**  The only process exits, the tree
is empty, and the next tick switches to the idle task without loading `CR3`; the tick
after that reaps the process and destroys the address space that `CR3` still holds. -/
theorem idle_on_destroyed_address_space :
    ∃ k, Kernel.Reachable 0x1000 (fun _ _ _ => True) k ∧ k.sched.currentTask = some 0 ∧
      (∃ t p, k.sched.tasks.get 0 = some t ∧ k.sched.process t.pid = some p ∧
        k.cpu.cr3 ≠ p.pageTable) ∧
      k.cpu.cr3 ∈ k.history.destroyed ∧ k.cpu.cr3 ∉ k.history.pml4s := by
  obtain ⟨k, hk, hcur, hwrong, hdestroyed, hfree⟩ := Kernel.Reachable.of_execute
    (fun _ _ _ => True) 0x1000
    [.spawnUser 0x2000 0x5000 1024 0x200000 8, .schedule 0, .sysExit 3, .schedule 0, .schedule 0]
    (fun k => k.sched.currentTask = some 0 ∧
      (k.sched.tasks.get 0).any (fun t => (k.sched.process t.pid).any
        fun p => decide (k.cpu.cr3 ≠ p.pageTable)) = true ∧
      k.cpu.cr3 ∈ k.history.destroyed ∧ k.cpu.cr3 ∉ k.history.pml4s) (by decide) (by decide +kernel)
  obtain ⟨t, ht, hrest⟩ := (Option.any_eq_true _ _).mp hwrong
  obtain ⟨p, hp, hne⟩ := (Option.any_eq_true _ _).mp hrest
  exact ⟨k, hk, hcur, ⟨t, p, ht, hp, of_decide_eq_true hne⟩, hdestroyed, hfree⟩

end KernelR.Proc
