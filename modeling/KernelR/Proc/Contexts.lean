import KernelR.Proc.ThreadTable

/-!
# Context switches

`schedule` gets the address of the context that the interrupt pushed, and returns the address
of the context that the interrupt is to pop. In between it attributes the first one to the
thread in `current_task`, and takes the second one from the thread it chose.

To say that a thread gets its own context back, the system is run together with a log: for
every thread, by its number, the context that was passed to `schedule` on the tick that last
switched the thread out. The slots of the arena are used again and the numbers are not, so
the log never confuses two threads.
-/

namespace KernelR.Proc

open Option Foundations

/-- A kernel with the log of its context switches. -/
structure Traced where
  kernel : Kernel
  passed : ℕ → Option ℕ

namespace Traced

/-- The log after a call of `schedule`, which switches the current thread out. -/
def logged (s : Traced) (context : ℕ) : ℕ → Option ℕ :=
  match s.kernel.sched.currentTask.bind s.kernel.sched.tasks.get with
  | none => s.passed
  | some t => Function.update s.passed t.serial (some context)

/-- The log after a call. -/
def log (s : Traced) : Action → ℕ → Option ℕ
  | .schedule context => s.logged context
  | _ => s.passed

/-- One step. -/
def step (s : Traced) (a : Action) : Option Traced :=
  (s.kernel.step a).map fun kernel => { kernel, passed := s.log a }

/-- The kernel has just booted, and no thread ever ran. -/
def Boots (kernelCr3 : ℕ) (s : Traced) : Prop :=
  Kernel.Boots kernelCr3 s.kernel ∧ s.passed = fun _ => none

/-- The states of all runs from boot. -/
def Reachable (kernelCr3 : ℕ) : Traced → Prop := Run (Boots kernelCr3) step fun _ _ _ => True

/-- What a thread has to go on with: the context from the tick that last switched it out, or the
one that `Thread::new` wrote. -/
def expected (passed : ℕ → Option ℕ) (t : Thread) : ℕ :=
  (passed t.serial).getD (Kernel.initialContext t.stack)

variable {kernelCr3 : ℕ} {s s' : Traced} {context out : ℕ} {k' : Kernel}

theorem Reachable.kernel (h : s.Reachable kernelCr3) :
    Kernel.Reachable kernelCr3 (fun _ _ _ => True) s.kernel := by
  induction h with
  | start hboot => exact .start hboot.1
  | next _ hstep _ ih =>
    obtain ⟨k', hk', rfl⟩ := map_eq_some_iff.mp hstep
    exact .next ih hk' trivial

/-! ### What the threads have saved -/

/-- Every thread that is alive has saved what it has to go on with, and the log does not know
threads that do not exist yet. -/
structure Inv (s : Traced) : Prop where
  saved : ∀ {i t}, s.kernel.sched.tasks.get i = some t → t.state ≠ .zombie →
    t.stackPointer = expected s.passed t
  fresh : ∀ n, s.kernel.history.spawned ≤ n → s.passed n = none

theorem logged_of_ne (hledger : Ledger s.kernel.view) {i : ℕ} {t : Thread}
    (ht : s.kernel.sched.tasks.get i = some t) (hne : s.kernel.sched.currentTask ≠ some i) :
    s.logged context t.serial = s.passed t.serial := by
  cases hcur : s.kernel.sched.currentTask.bind s.kernel.sched.tasks.get with
  | none => simp only [logged, hcur]
  | some u =>
    obtain ⟨c, hc, hu⟩ := bind_eq_some_iff.mp hcur
    have hct : s.kernel.view.threads c = some u.view := congrArg (Option.map Thread.view) hu
    have hit : s.kernel.view.threads i = some t.view := congrArg (Option.map Thread.view) ht
    simp only [logged, hcur]
    refine Function.update_of_ne (fun hserial => hne ?_) _ _
    exact hc.trans (congrArg some (hledger.thread_inj hct hit hserial.symm))

theorem logged_current {c : ℕ} {t : Thread} (hc : s.kernel.sched.currentTask = some c)
    (ht : s.kernel.sched.tasks.get c = some t) : s.logged context t.serial = some context := by
  simp only [logged, hc, bind_some, ht, Function.update_self]

/-- **After a call of `schedule`** every thread has saved what the log says. -/
theorem Inv.saved_schedule (h : Inv s) (hledger : Ledger s.kernel.view)
    (hswitched : Switched s.kernel context k' out) {i : ℕ} {t' : Thread}
    (hi : k'.sched.tasks.get i = some t') (hlive : t'.state ≠ .zombie) :
    t'.stackPointer = expected (s.logged context) t' := by
  obtain ⟨t, ht, hsaves⟩ := hswitched.before hi
  have halive : t.state ≠ .zombie := hsaves.state ▸ hlive
  rw [hsaves.stackPointer, expected, hsaves.serial, hsaves.stack]
  by_cases hcur : s.kernel.sched.currentTask = some i
  · rw [Scheduler.savedBy, if_pos ⟨hcur, halive⟩, logged_current hcur ht, getD_some]
  · rw [Scheduler.savedBy, if_neg fun hi => hcur hi.1, logged_of_ne hledger ht hcur]
    exact h.saved ht halive

theorem Inv.fresh_schedule (h : Inv s) (hledger : Ledger s.kernel.view) (n : ℕ)
    (hn : s.kernel.history.spawned ≤ n) : s.logged context n = none := by
  cases hcur : s.kernel.sched.currentTask.bind s.kernel.sched.tasks.get with
  | none =>
    simp only [logged, hcur]
    exact h.fresh n hn
  | some u =>
    obtain ⟨c, -, hu⟩ := bind_eq_some_iff.mp hcur
    have hct : s.kernel.view.threads c = some u.view := congrArg (Option.map Thread.view) hu
    have hlt : u.serial < s.kernel.history.spawned := hledger.thread_lt hct
    simp only [logged, hcur]
    rw [Function.update_of_ne (by omega)]
    exact h.fresh n hn

theorem Inv.adds (h : Inv s) {weight stack : ℕ} (hadds : Kernel.Adds s.kernel weight stack k') :
    Inv ⟨k', s.passed⟩ := by
  obtain ⟨i, t, -, hget, hserial, -, hstack, hpointer⟩ := hadds.thread
  constructor
  · intro j u hj hlive
    rw [hget] at hj
    obtain ⟨rfl, rfl⟩ | ⟨-, hj⟩ := View.update_eq_some_iff.mp hj
    · rw [expected, hserial, h.fresh _ le_rfl, getD_none, hstack, hpointer]
    · exact h.saved hj hlive
  · intro n hn
    have hspawned : k'.history.spawned ≤ n := hn
    rw [hadds.spawned] at hspawned
    exact h.fresh n (by omega)

theorem Inv.same (h : Inv s) (hsame : SameThreads s.kernel.sched k'.sched)
    (hspawned : s.kernel.history.spawned ≤ k'.history.spawned) : Inv ⟨k', s.passed⟩ := by
  constructor
  · intro i t' hi hlive
    obtain ⟨t, ht, hcont⟩ := hsame.before hi
    rw [hcont.stackPointer, expected, hcont.serial, hcont.stack]
    exact h.saved ht fun hz => hlive (hcont.dead hz)
  · intro n hn
    exact h.fresh n (hspawned.trans hn)

theorem Inv.of_boots (h : s.Boots kernelCr3) : Inv s := by
  obtain ⟨⟨-, stack, mem, permits, hboot⟩, hpassed⟩ := h
  simp only [Kernel.boot, bind_eq_bind, bind_eq_some_iff] at hboot
  obtain ⟨t, hnew, sched, hset, hboot⟩ := hboot
  cases hset
  have hkernel := some.inj hboot
  obtain ⟨-, hstack, hpointer⟩ := Kernel.new_fields hnew
  constructor
  · intro i u hi _
    rw [← hkernel] at hi
    cases i with
    | zero =>
      cases hi
      rw [expected, hpassed, getD_none, hstack]
      exact hpointer
    | succ i => cases hi
  · intro n _
    rw [hpassed]

/-- **Every state of every run.** -/
theorem Reachable.inv (h : s.Reachable kernelCr3) : Inv s := by
  refine Run.invariant (I := Inv) (fun s hboot => .of_boots hboot) ?_ h
  intro s a s' hrun hinv hstep _
  obtain ⟨hsched, hledger⟩ := (Reachable.kernel hrun).inv
  obtain ⟨k', hk', rfl⟩ := map_eq_some_iff.mp hstep
  have hspawned : s.kernel.history.spawned ≤ k'.history.spawned :=
    (Kernel.step_sim hsched hledger hk').path.invariant
      (J := fun v => s.kernel.history.spawned ≤ v.history.spawned)
      (fun _ _ _ hle hs _ => hle.trans hs.spawned_le) le_rfl
  by_cases hschedule : ∃ context, a = .schedule context
  · obtain ⟨context, rfl⟩ := hschedule
    obtain ⟨⟨k₁, out⟩, hrun', rfl⟩ := map_eq_some_iff.mp hk'
    have hswitched := Kernel.schedule_switched hsched hrun'
    exact ⟨fun hi hlive => hinv.saved_schedule hledger hswitched hi hlive,
      fun n hn => hinv.fresh_schedule hledger n (hspawned.trans hn)⟩
  · have hlog : s.log a = s.passed := by
      cases a with
      | schedule context => exact absurd ⟨context, rfl⟩ hschedule
      | _ => rfl
    rw [hlog]
    cases hnew : a.newThread with
    | some new => exact hinv.adds (Kernel.step_adds hsched hnew hk')
    | none =>
      exact hinv.same (Kernel.step_same hnew (fun context ha => hschedule ⟨context, ha⟩) hk')
        hspawned

end Traced

/-- **Context switches keep the threads apart.**  In every state of every run, a call of
`schedule` makes some thread the current one and returns the context that was passed to
`schedule` on the tick that last switched this thread out, or the one that `Thread::new` wrote
if there was no such tick; and no thread but the one that was current on entry has another
context saved than before. -/
theorem context_switch_integrity {kernelCr3 : ℕ} {s : Traced} (h : s.Reachable kernelCr3)
    {context out : ℕ} {k' : Kernel} (hk' : s.kernel.schedule context = some (k', out)) :
    (∃ c t, k'.sched.currentTask = some c ∧ k'.sched.tasks.get c = some t ∧
      out = (s.logged context t.serial).getD (Kernel.initialContext t.stack)) ∧
    ∀ i t', k'.sched.tasks.get i = some t' → s.kernel.sched.currentTask ≠ some i →
      ∃ t, s.kernel.sched.tasks.get i = some t ∧ t'.serial = t.serial ∧
        t'.stackPointer = t.stackPointer := by
  obtain ⟨hsched, hledger⟩ := h.kernel.inv
  have hswitched := Kernel.schedule_switched hsched hk'
  constructor
  · obtain ⟨c, t, hc, ht, hready, rfl⟩ := hswitched.next
    refine ⟨c, t, hc, ht, h.inv.saved_schedule hledger hswitched ht ?_⟩
    rw [hready]
    nofun
  · intro i t' hi hne
    obtain ⟨t, ht, hsaves⟩ := hswitched.before hi
    refine ⟨t, ht, hsaves.serial, hsaves.stackPointer.trans ?_⟩
    exact if_neg fun hcur => hne hcur.1

/-- Two threads take turns, and on the fourth tick the second one gets back the context from the
third. -/
theorem context_switch_integrity_turns :
    ∃ (s : Traced) (k' : Kernel) (c : ℕ) (t : Thread), s.Reachable 0x1000 ∧
      s.kernel.schedule 0x8000 = some (k', 0x7000) ∧
      k'.sched.currentTask = some c ∧ k'.sched.tasks.get c = some t ∧
      0x7000 = (s.logged 0x8000 t.serial).getD (Kernel.initialContext t.stack) := by
  have hrun : Option.any (fun s : Traced => (s.kernel.schedule 0x8000).any (·.2 == 0x7000))
      ((Kernel.boot 0x1000 0x100000 (fun _ => ⟨0, 0, 0, 0, 0, 0, 0⟩) fun _ => 0).bind fun k =>
        exec Traced.step (fun _ _ _ => True) ⟨k, fun _ => none⟩
          [.spawn 1024 0x200000 8, .spawn 1024 0x300000 16, .schedule 0x5000, .schedule 0x6000,
            .schedule 0x7000]) = true := by
    decide +kernel
  obtain ⟨s, hs, hany⟩ := (Option.any_eq_true _ _).mp hrun
  obtain ⟨k, hboot, hexec⟩ := Option.bind_eq_some_iff.mp hs
  have hreach : s.Reachable 0x1000 := Run.exec (.start ⟨⟨by decide, _, _, _, hboot⟩, rfl⟩) hexec
  obtain ⟨⟨k', out⟩, hk', hout⟩ := (Option.any_eq_true _ _).mp hany
  obtain rfl : out = 0x7000 := beq_iff_eq.mp hout
  obtain ⟨⟨c, t, hc, ht, hctx⟩, -⟩ := context_switch_integrity hreach hk'
  exact ⟨s, k', c, t, hreach, hk', hc, ht, hctx⟩

end KernelR.Proc
