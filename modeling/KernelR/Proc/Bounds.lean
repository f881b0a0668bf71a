import KernelR.Proc.ThreadTable
import KernelR.Proc.UserCode
import KernelR.Proc.UserHeap

/-!
# The bounds of the page fault handler

`CURRENT_BOUNDS` is a second copy of four fields of the current process, which the page fault
handler reads without a lock. `schedule` refreshes it on both of its ways out
(`Kernel.dispatch_bounds`), and a `sys_brk` that succeeds writes the new break into the record
and into the copy (`sysBrk_break`). No other call changes the copy, the current thread or the
bounds of a record (`Steady`, `View.Step.bounds_from`); what is left is a new record in the slot
of the current thread, and `LoadedTable` rules that out.
-/

namespace KernelR.Proc

open Option Foundations View

/-! ### `SYS_BRK` on the kernel -/

/-- **What `sys_brk` writes**: at most the break, and that in both places. -/
theorem sysBrk_break {pml4 : BitVec 64} {requestedBreak rax : ℕ} {u u' : UserMemory}
    (h : sysBrk pml4 requestedBreak u = some (rax, u')) :
    ∃ b, u'.process = { u.process with programBreak := b } ∧
      (u.bounds = u.process.bounds → u'.bounds = u'.process.bounds) := by
  have hmoved : ∀ pages, ∃ b,
      (u.moveBreak requestedBreak pages).process = { u.process with programBreak := b } ∧
        (u.bounds = u.process.bounds → (u.moveBreak requestedBreak pages).bounds =
          (u.moveBreak requestedBreak pages).process.bounds) := by
    intro pages
    refine ⟨requestedBreak, rfl, fun hbounds => ?_⟩
    rw [UserMemory.moveBreak, hbounds]
    rfl
  by_cases haccepted : Accepted u.process requestedBreak
  · obtain ⟨hzero, hstart, hguard⟩ := haccepted
    simp only [sysBrk] at h
    rw [if_neg hzero, if_neg (by omega), if_neg (by omega), if_neg (by omega)] at h
    obtain ⟨_, -, h⟩ := bind_eq_some_iff.mp h
    obtain ⟨_, -, h⟩ := bind_eq_some_iff.mp h
    split at h
    · obtain ⟨⟨ok, pages⟩, -, h⟩ := bind_eq_some_iff.mp h
      cases ok with
      | true =>
        cases h
        exact hmoved pages
      | false =>
        cases h
        exact ⟨u.process.programBreak, rfl, id⟩
    · split at h
      · obtain ⟨pages, -, h⟩ := bind_eq_some_iff.mp h
        cases h
        exact hmoved pages
      · cases h
        exact hmoved u.pages
  · rw [sysBrk_of_not_accepted haccepted] at h
    cases h
    exact ⟨u.process.programBreak, rfl, id⟩

namespace Kernel

variable {k k' : Kernel} {kernelCr3 : ℕ}

/-- The copy agrees with the record of the current thread's process. -/
def BoundsAgree (k : Kernel) : Prop :=
  ∀ c t p, k.sched.currentTask = some c → k.sched.tasks.get c = some t →
    k.sched.process t.pid = some p → k.cpu.currentBounds = p.bounds

/-- **`SYS_BRK`.** -/
theorem sysBrk_spec {pages : PageLog} {requestedBreak : ℕ}
    (h : k.sysBrk pages requestedBreak = some k') :
    (∃ processes, k'.sched = { k.sched with processes }) ∧
      (∃ q b, k'.view = k.view.setBreak q b) ∧ (k.BoundsAgree → k'.BoundsAgree) := by
  simp only [sysBrk, bind_eq_bind, bind_eq_some_iff] at h
  obtain ⟨c, hc, t, ht, p, hp, ⟨rax, u⟩, hbrk, h⟩ := h
  cases h
  obtain ⟨b, hprocess, hbounds⟩ := sysBrk_break hbrk
  have hprocs : (k.modifyProcess t.pid fun _ => u.process).sched.process =
      Function.update k.sched.process t.pid (some u.process) := by
    refine (join_modify k.sched.processes t.pid fun _ => u.process).trans ?_
    show Function.update k.sched.process t.pid ((k.sched.process t.pid).map _) = _
    rw [hp]
    rfl
  refine ⟨⟨_, rfl⟩, ⟨t.pid, b, ?_⟩, ?_⟩
  · refine view_eq (hprocs.trans ?_) rfl rfl rfl rfl rfl rfl
    show _ = Function.update k.sched.process t.pid ((k.sched.process t.pid).map _)
    rw [hp, hprocess]
    rfl
  · intro hagree c' t' p' hc' ht' hp'
    obtain rfl := some.inj (hc.symm.trans hc')
    obtain rfl := some.inj (ht.symm.trans ht')
    have hnew : Function.update k.sched.process t.pid (some u.process) t.pid = some p' :=
      hprocs ▸ hp'
    rw [Function.update_self] at hnew
    exact some.inj hnew ▸ hbounds (hagree c t p hc ht hp)

end Kernel

/-! ### Calls other than `schedule` -/

theorem View.Step.bounds_from {v v' : View} {e : Event} (hs : Step v e v') {q : ℕ} {p' : Process}
    (hp' : v'.procs q = some p') :
    (∃ p, v.procs q = some p ∧ p'.bounds = p.bounds) ∨ e = .fork q := by
  cases hs with
  | fork =>
    obtain ⟨rfl, -⟩ | ⟨-, hp⟩ := update_eq_some_iff.mp hp'
    · exact Or.inr rfl
    · exact Or.inl ⟨p', hp, rfl⟩
  | sysExit =>
    obtain ⟨p, hp, rfl⟩ := map_eq_some_iff.mp hp'
    exact Or.inl ⟨p, hp, rfl⟩
  | harvest => exact Or.inl ⟨p', (update_none_eq_some_iff.mp hp').2, rfl⟩
  | waitBlock _ _ _ _ _ hown =>
    obtain ⟨rfl, rfl⟩ | ⟨-, hp⟩ := update_eq_some_iff.mp hp'
    · exact Or.inl ⟨_, hown, rfl⟩
    · exact Or.inl ⟨p', hp, rfl⟩
  | reap =>
    have hp := reapProcess_procs hp'
    exact Or.inl ⟨p', hp, rfl⟩
  | _ => exact Or.inl ⟨p', hp', rfl⟩

/-- The same thread is current, and the registers are as they were. -/
structure Steady (k k' : Kernel) : Prop where
  currentTask : k'.sched.currentTask = k.sched.currentTask
  cpu : k'.cpu = k.cpu

namespace Steady

variable {s s' : Scheduler} {k k' k'' : Kernel} {a : Action}

theorem refl (k : Kernel) : Steady k k := ⟨rfl, rfl⟩

theorem trans (h : Steady k k') (h' : Steady k' k'') : Steady k k'' :=
  ⟨h'.currentTask.trans h.currentTask, h'.cpu.trans h.cpu⟩

theorem wakeTask {i : ℕ} (h : s.wakeTask i = some s') : s'.currentTask = s.currentTask := by
  obtain rfl | ⟨t, tree, -, -, rfl⟩ := Scheduler.wakeTask_inv h <;> rfl

theorem addTask {task : Thread} {node i : ℕ} (h : s.addTask task node = some (s', i)) :
    s'.currentTask = s.currentTask := by
  obtain ⟨tasks, tree, -, rfl⟩ := Scheduler.addTask_inv h
  rfl

theorem enters {processes : List (Option Process)} {pid : ℕ} {user : Bool}
    {weight stack node : ℕ} {pml4s : List ℕ}
    (h : k.Enters processes pid user weight stack node pml4s k') : Steady k k' := by
  obtain ⟨thread, s', i, -, hadd, rfl⟩ := h
  have hcurrent := addTask hadd
  exact ⟨hcurrent, rfl⟩

theorem spawnUserProcess {pml4 highestVaddr weight ppid parent stack node : ℕ}
    (h : k.spawnUserProcess pml4 highestVaddr weight ppid parent stack node = some k') :
    Steady k k' := enters (Kernel.spawnUserProcess_inv h).2

theorem of_touch (h : Touch k k') : Steady k k' := by
  cases h with
  | outside hsched hcpu => exact ⟨by rw [hsched], hcpu⟩
  | thread => exact ⟨rfl, rfl⟩
  | wake hwake => exact ⟨wakeTask hwake, rfl⟩

theorem of_touches (h : Touches k k') : Steady k k' := by
  induction h with
  | refl => exact .refl k
  | tail _ htouch ih => exact ih.trans (of_touch htouch)

theorem step (h : k.step a = some k') (hschedule : ∀ context, a ≠ .schedule context) :
    Steady k k' := by
  cases a with
  | spawn weight stack node =>
    exact enters (Kernel.spawn_inv (ite_none_right_eq_some.mp h).2)
  | spawnUser pml4 highestVaddr weight stack node =>
    exact spawnUserProcess (ite_none_right_eq_some.mp h).2
  | sysSpawn pml4 highestVaddr stack node =>
    obtain ⟨⟨c, t⟩, -, hact⟩ := bind_eq_some_iff.mp h
    exact spawnUserProcess (ite_none_right_eq_some.mp hact).2
  | _ => exact of_touches (Kernel.step_touches rfl hschedule h)

end Steady

namespace Kernel

variable {k k' : Kernel} {kernelCr3 : ℕ} {a : Action}

theorem Executes.userCode (h : k.Executes a) (hforks : a.forks = true) : k.view.UserCode := by
  intro c t hc ht huser
  obtain ⟨t', ht', rfl⟩ := map_eq_some_iff.mp ht
  cases a with
  | spawnUser pml4 highestVaddr weight stack node =>
    have hcur : k.sched.currentTask = some c := hc
    have hkernel := h.2 rfl t' (by rw [hcur]; exact ht')
    exact nomatch hkernel.symm.trans huser
  | sysSpawn pml4 highestVaddr stack node => exact h.1 rfl
  | _ => cases hforks

theorem current_ne_freePid (hledger : Ledger k.view) (hslot : k.view.KernelSlot)
    (hloaded : LoadedTable k.view) (hcode : k.view.UserCode) {c : ℕ} {t : Thread}
    (hc : k.sched.currentTask = some c) (ht : k.sched.tasks.get c = some t) :
    t.pid ≠ k.freePid := by
  intro hpid
  have hnone : k.view.procs t.view.pid = none := by
    show k.sched.process t.pid = none
    rw [hpid]
    exact process_freePid k
  have hthread : k.view.threads c = some t.view := congrArg (Option.map Thread.view) ht
  by_cases huser : t.user = true
  · exact hloaded.process_of_code hcode hc hthread huser hnone
  · obtain ⟨p, hp, -⟩ := hslot
    rw [(hledger.kernel hthread (Bool.eq_false_iff.mpr huser)).1, hp] at hnone
    cases hnone

/-- The current thread before a call other than `schedule`. -/
theorem current_before (hinv : SchedInv k.sched) (h : k.step a = some k')
    (hschedule : ∀ context, a ≠ .schedule context) {c : ℕ} {t' : Thread}
    (hc : k.sched.currentTask = some c) (ht' : k'.sched.tasks.get c = some t') :
    ∃ t, k.sched.tasks.get c = some t ∧ t'.pid = t.pid := by
  cases hnew : a.newThread with
  | none =>
    obtain ⟨t, ht, hcont⟩ := (step_same hnew hschedule h).before ht'
    exact ⟨t, ht, congrArg Fixed.pid hcont.fixed⟩
  | some new =>
    obtain ⟨i, u, hnone, hget, -⟩ := (step_adds hinv hnew h).thread
    obtain ⟨t, ht⟩ := hinv.census.present hc
    have hne : c ≠ i := by
      rintro rfl
      exact nomatch hnone.symm.trans ht
    rw [hget, Function.update_of_ne hne] at ht'
    exact ⟨t', ht', rfl⟩

/-- **Calls other than `schedule`.** -/
theorem BoundsAgree.step (h : k.BoundsAgree) (hinv : SchedInv k.sched) (hledger : Ledger k.view)
    (hslot : k.view.KernelSlot) (hloaded : LoadedTable k.view) (hexec : k.Executes a)
    (hstep : k.step a = some k') (hschedule : ∀ context, a ≠ .schedule context) :
    k'.BoundsAgree := by
  intro c t' p' hc ht' hp'
  have hsteady := Steady.step hstep hschedule
  rw [hsteady.currentTask] at hc
  obtain ⟨t, ht, hpid⟩ := current_before hinv hstep hschedule hc ht'
  have hrecords : ∀ {q p}, k'.view.procs q = some p →
      (∃ p₀, k.view.procs q = some p₀ ∧ p.bounds = p₀.bounds) ∨ q = k.freePid ∧ a.forks = true := by
    refine (step_sim hinv hledger hstep).path.invariant
      (J := fun v => ∀ {q p}, v.procs q = some p →
        (∃ p₀, k.view.procs q = some p₀ ∧ p.bounds = p₀.bounds) ∨ q = k.freePid ∧ a.forks = true)
      ?_ (fun hp => Or.inl ⟨_, hp, rfl⟩)
    intro v e v' hJ hs horigin q p hp
    rcases hs.bounds_from hp with ⟨p₁, hp₁, hsame⟩ | rfl
    · exact (hJ hp₁).imp_left fun ⟨p₀, hp₀, hsame₀⟩ => ⟨p₀, hp₀, hsame.trans hsame₀⟩
    · exact Or.inr ⟨horigin.2.1, horigin.2.2⟩
  rw [hsteady.cpu]
  rw [hpid] at hp'
  obtain ⟨p, hp, hsame⟩ | ⟨hfree, hforks⟩ := hrecords hp'
  · exact (h c t p hc ht hp).trans hsame.symm
  · exact absurd hfree (current_ne_freePid hledger hslot hloaded (hexec.userCode hforks) hc ht)

/-! ### `schedule` -/

/-- **`schedule`** refreshes the copy on both of its ways out. -/
theorem schedule_bounds (hinv : SchedInv k.sched) {context out : ℕ}
    (h : k.schedule context = some (k', out)) : k'.BoundsAgree := by
  obtain ⟨sched, -, h⟩ := schedule_inv hinv h
  obtain ⟨tree, i, u, hgoes⟩ := dispatch_inv h
  intro c t p hc ht hp
  rw [hgoes.sched] at hc ht hp
  obtain rfl := some.inj hc
  obtain rfl := some.inj (hgoes.thread.symm.trans ht)
  exact hgoes.bounds p hp

/-! ### Runs -/

/-- What holds in every state. -/
structure MemoryInv (k : Kernel) : Prop where
  sched : SchedInv k.sched
  ledger : Ledger k.view
  kernelSlot : k.view.KernelSlot
  loaded : LoadedTable k.view
  agree : k.BoundsAgree

theorem MemoryInv.of_boots (h : Boots kernelCr3 k) : MemoryInv k := by
  obtain ⟨hinv, hview⟩ := boot_spec h
  refine ⟨hinv, hview ▸ Ledger.initial kernelCr3, hview ▸ KernelSlot.initial kernelCr3,
    hview ▸ LoadedTable.initial h.1, ?_⟩
  intro c t p hc
  have hnone : k.view.current = none := by rw [hview]; rfl
  exact nomatch hnone.symm.trans hc

theorem MemoryInv.call (h : MemoryInv k) (hexec : k.Executes a) (hstep : k.step a = some k')
    (hslot : k'.view.KernelSlot) : MemoryInv k' := by
  have hsim := step_sim h.sched h.ledger hstep
  have hpath := hsim.path.invariant
    (J := fun v => Ledger v ∧ (v.KernelSlot → LoadedTable v)) ?_ ⟨h.ledger, fun _ => h.loaded⟩
  · refine ⟨hsim.inv, hpath.1, hslot, hpath.2 hslot, ?_⟩
    by_cases hschedule : ∃ context, a = .schedule context
    · obtain ⟨context, rfl⟩ := hschedule
      obtain ⟨⟨k₁, out⟩, hrun, rfl⟩ := map_eq_some_iff.mp hstep
      exact schedule_bounds h.sched hrun
    · exact h.agree.step h.sched h.ledger h.kernelSlot h.loaded hexec hstep
        fun context heq => hschedule ⟨context, heq⟩
  · rintro v e v' ⟨hledger, hloaded⟩ hs horigin
    refine ⟨hledger.step hs, fun hslot' => ?_⟩
    have hslot := hslot'.of_step hledger hs
    refine (hloaded hslot).step hledger hs hslot ?_
    rintro n rfl
    obtain ⟨rfl, -, hforks⟩ := horigin
    exact hexec.userCode hforks

theorem MemoryInv.brk (h : MemoryInv k) {pages : PageLog} {requestedBreak : ℕ}
    (hstep : k.sysBrk pages requestedBreak = some k') (hslot : k'.view.KernelSlot) :
    MemoryInv k' := by
  obtain ⟨⟨processes, hsched⟩, ⟨q, b, hview⟩, hagree⟩ := sysBrk_spec hstep
  refine ⟨?_, hview ▸ h.ledger.setBreak q b, hslot, hview ▸ h.loaded.setBreak q b, hagree h.agree⟩
  rw [hsched]
  exact ⟨h.sched.queue, h.sched.census⟩

end Kernel

/-- **The page fault handler's bounds** are those of the process of the current thread, in every
state of every run in which process 0 stays in its slot. -/
theorem current_bounds_agree {kernelCr3 : ℕ} {k : Kernel}
    (h : Run (Kernel.Boots kernelCr3) Kernel.stepMemory (fun _ _ k' => k'.view.KernelSlot) k)
    {c : ℕ} {t : Thread} {p : Process} (hc : k.sched.currentTask = some c)
    (ht : k.sched.tasks.get c = some t) (hp : k.sched.process t.pid = some p) :
    k.cpu.currentBounds = p.bounds := by
  refine Kernel.MemoryInv.agree (h.invariant (I := Kernel.MemoryInv) ?_ ?_) c t p hc ht hp
  · intro k hboot
    exact .of_boots hboot
  · intro k a k' _ hinv hstep hslot
    cases a with
    | call a =>
      obtain ⟨hexec, hstep⟩ := Option.ite_none_right_eq_some.mp hstep
      exact hinv.call hexec hstep hslot
    | brk pages requestedBreak =>
      obtain ⟨⟨c, t⟩, -, hstep⟩ := Option.bind_eq_some_iff.mp hstep
      exact hinv.brk (Option.ite_none_right_eq_some.mp hstep).2 hslot

/-- A process is started, gets the CPU and asks for two pages. -/
def brkRun : List MemoryAction :=
  [.call (.spawnUser 0x8000 0x5000 1024 0x200000 8), .call (.schedule 0), .call (.schedule 0),
    .brk ⟨directMapMachine, []⟩ 0x6800]

theorem current_bounds_agree_brkRun :
    ∃ k t p, Run (Kernel.Boots 0x1000) Kernel.stepMemory (fun _ _ k' => k'.view.KernelSlot) k ∧
      k.sched.currentTask = some 1 ∧ k.sched.tasks.get 1 = some t ∧
      k.sched.process t.pid = some p ∧ p.programBreak = 0x6800 ∧
      k.cpu.currentBounds = p.bounds := by
  have hrun : ((Kernel.boot 0x1000 0x100000 (fun _ => ⟨0, 0, 0, 0, 0, 0, 0⟩) fun _ => 0).bind
      fun k => exec Kernel.stepMemory (fun _ _ k' => k'.view.KernelSlot) k brkRun).any (fun k =>
        decide (k.sched.currentTask = some 1) && (k.sched.tasks.get 1).any fun t =>
          (k.sched.process t.pid).any fun p => decide (p.programBreak = 0x6800)) = true := by
    decide +kernel
  obtain ⟨k, hk, hP⟩ := (Option.any_eq_true _ _).mp hrun
  obtain ⟨k₀, hboot, hexec⟩ := Option.bind_eq_some_iff.mp hk
  obtain ⟨hc, hrest⟩ := Bool.and_eq_true_iff.mp hP
  obtain ⟨t, ht, hrest⟩ := (Option.any_eq_true _ _).mp hrest
  obtain ⟨p, hp, hbreak⟩ := (Option.any_eq_true _ _).mp hrest
  have hboots : Kernel.Boots 0x1000 k₀ := ⟨by decide, _, _, _, hboot⟩
  have hreach := Run.exec (.start hboots) hexec
  have hcur := of_decide_eq_true hc
  exact ⟨k, t, p, hreach, hcur, ht, hp, of_decide_eq_true hbreak,
    current_bounds_agree hreach hcur ht hp⟩

end KernelR.Proc
