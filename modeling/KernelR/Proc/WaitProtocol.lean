import KernelR.Proc.Family

/-!
# The wait/exit protocol

What `SYS_WAIT` returns and when it sleeps, over all runs in which only processes that
have exited are removed.

* `Served` — a child that was harvested is a child of the caller, matches the target,
  and its code is the one it passed to `SYS_EXIT`;
* `Sleeper` — a caller that sleeps in `SYS_WAIT` is in the queue of its process, has a
  child that it waits for, and none of these has exited: no wake-up is lost.

`Waits.step` is the invariant, and `wait_exit_protocol` the protocol.
-/

namespace KernelR.Proc

open List Option Foundations View

variable {v v' : View} {e : Event}

/-- The process with the number `child` was harvested by `caller` with this target. -/
def Served (h : History) (caller target childPid child : ℕ) (exitCode : ℤ) : Prop :=
  ∃ p ∈ h.removed, p.serial = child ∧ p.pid = childPid ∧ p.parent = caller ∧
    Kernel.waitMatches target p ∧ (child, exitCode) ∈ h.exits

/-- The thread `j` sleeps in `SYS_WAIT` and is right to do so. -/
structure Sleeper (v : View) (j : ℕ) (t : TaskView) (target : ℕ) : Prop where
  queued : ∃ own, v.procs t.pid = some own ∧ j ∈ own.waitQueue
  child : ∃ q p, v.IsChild t.pid target q p
  living : ∀ {q p}, v.IsChild t.pid target q p → p.isZombie = false

/-- The state of all calls of `SYS_WAIT`. -/
structure Waits (v : View) : Prop where
  held : ∀ {j t target statusPtr childPid child pageTable exitCode}, v.threads j = some t →
    t.pending = .harvested target statusPtr childPid child pageTable exitCode →
    Served v.history t.serial target childPid child exitCode
  returns : ∀ r ∈ v.history.returns, ∃ exitCode,
    Served v.history r.caller r.target r.rax r.child exitCode ∧
      r.status = Kernel.writtenStatus r.statusPtr exitCode
  blocked : ∀ {j t target statusPtr}, v.threads j = some t → t.state = .blocked →
    t.pending = .waiting target statusPtr → Sleeper v j t target

/-! ### The history grows -/

theorem View.Step.exits_mono (hs : Step v e v') {x : ℕ × ℤ} (hx : x ∈ v.history.exits) :
    x ∈ v'.history.exits := by
  obtain ⟨-, heq⟩ | ⟨-, c, t, exitCode, -, -, heq, -⟩ := hs.exits
  · rwa [heq]
  · rw [heq]
    exact mem_cons_of_mem _ hx

theorem View.Step.removed_mono (hs : Step v e v') (hledger : Ledger v) {p : Process}
    (hp : p ∈ v.history.removed) : p ∈ v'.history.removed := by
  obtain ⟨heq, -⟩ | ⟨n, p₀, -, -, heq, -⟩ := hs.removed hledger.pid
  · rwa [heq]
  · rw [heq]
    exact mem_cons_of_mem _ hp

theorem Served.step {caller target childPid child : ℕ} {exitCode : ℤ}
    (h : Served v.history caller target childPid child exitCode) (hledger : Ledger v)
    (hs : Step v e v') : Served v'.history caller target childPid child exitCode := by
  obtain ⟨p, hp, hserial, hpid, hparent, hmatch, hexit⟩ := h
  exact ⟨p, hs.removed_mono hledger hp, hserial, hpid, hparent, hmatch, hs.exits_mono hexit⟩

theorem View.Step.returns_eq (hs : Step v e v') (he : e ≠ .finish) :
    v'.history.returns = v.history.returns := by
  cases hs with
  | finish => exact absurd rfl he
  | @reap z rest t =>
    obtain heq | ⟨p, -, -, heq⟩ := (v.removeThread z rest).reapProcess_cases t.pid
    · rw [heq]
      rfl
    · rw [heq]
      rfl
  | _ => rfl

/-! ### What `SYS_WAIT` returns -/

theorem Served.harvest (hfamily : Family v) (hproper : Proper v) {c q target : ℕ} {t : TaskView}
    {p : Process} (hrun : v.Running c t) (huser : t.user = true)
    (hchild : v.IsChild t.pid target q p) (hz : p.isZombie = true) {h : History}
    (hremoved : p ∈ h.removed) (hexits : h.exits = v.history.exits) :
    Served h t.serial target p.pid p.serial (p.exitCode.getD 0) := by
  obtain ⟨hp, hparent, hmatch⟩ :=
    (hfamily.isChild_iff hproper hrun.thread huser hrun.not_zombie).mp hchild
  obtain ⟨exitCode, hcode, hexit⟩ := hfamily.code hp hz
  refine ⟨p, hremoved, rfl, rfl, hparent, hmatch, ?_⟩
  rw [hexits, hcode]
  exact hexit

theorem Waits.held_step (h : Waits v) (hfamily : Family v) (hproper : Proper v)
    (hs : Step v e v') {j : ℕ} {t : TaskView} {target statusPtr childPid child pageTable : ℕ}
    {exitCode : ℤ} (ht : v'.threads j = some t)
    (hpending : t.pending = .harvested target statusPtr childPid child pageTable exitCode) :
    Served v'.history t.serial target childPid child exitCode := by
  obtain hnone | ⟨t₀, hold, hsame⟩ | ⟨hcur, ⟨-, _, _, hwaiting⟩ | rfl⟩ := hs.pending_from ht
  · exact nomatch hnone.symm.trans hpending
  · have hserial : t.serial = t₀.serial := by
      obtain ⟨t₁, hold₁, hsame₁⟩ | hnew := (hs.thread_from ht).old_or_new
      · rw [hsame₁.serial, some.inj (hold₁.symm.trans hold)]
      · exact nomatch hnew.empty.symm.trans hold
    rw [hserial]
    exact (h.held hold (hsame.symm.trans hpending)).step hproper.ledger hs
  · exact nomatch hwaiting.symm.trans hpending
  · cases hs with
    | harvest hrun huser _ hchild hz =>
      obtain rfl := some.inj (hcur.symm.trans hrun.current)
      obtain ⟨-, rfl⟩ | ⟨hne, -⟩ := update_eq_some_iff.mp ht
      · cases hpending
        exact Served.harvest hfamily hproper hrun huser hchild hz mem_cons_self rfl
      · exact absurd rfl hne

theorem Waits.returns_step (h : Waits v) (hledger : Ledger v) (hs : Step v e v') :
    ∀ r ∈ v'.history.returns, ∃ exitCode,
      Served v'.history r.caller r.target r.rax r.child exitCode ∧
        r.status = Kernel.writtenStatus r.statusPtr exitCode := by
  have hold : ∀ r ∈ v.history.returns, ∃ exitCode,
      Served v'.history r.caller r.target r.rax r.child exitCode ∧
        r.status = Kernel.writtenStatus r.statusPtr exitCode := by
    intro r hr
    obtain ⟨exitCode, hserved, hstatus⟩ := h.returns r hr
    exact ⟨exitCode, hserved.step hledger hs, hstatus⟩
  by_cases he : e = .finish
  · subst he
    cases hs with
    | finish hrun hpending =>
      intro r hr
      rcases mem_cons.mp hr with rfl | hr
      · exact ⟨_, h.held hrun.thread hpending, rfl⟩
      · exact hold r hr
  · rw [hs.returns_eq he]
    exact hold

/-! ### Sleeping in `SYS_WAIT` -/

theorem Kernel.waitMatches_congr {target : ℕ} {p p' : Process} (hpid : p'.pid = p.pid) :
    Kernel.waitMatches target p' ↔ Kernel.waitMatches target p := by
  unfold Kernel.waitMatches
  rw [hpid]

/-- A thread that sleeps in `SYS_WAIT` did so before, or has just called it. -/
theorem View.Step.blocked_from (hs : Step v e v') {j target statusPtr : ℕ} {t : TaskView}
    (ht : v'.threads j = some t) (hstate : t.state = .blocked)
    (hpending : t.pending = .waiting target statusPtr) :
    v.threads j = some t ∨ e = .waitBlock ∧ v.current = some j := by
  have hwoken : ∀ {waiters : List ℕ}, wakeThreads waiters v.threads j = some t →
      v.threads j = some t := by
    intro waiters hw
    obtain ⟨t₀, hold, rfl | ⟨-, -, rfl⟩⟩ := wakeThreads_eq_some hw
    · exact hold
    · cases hstate
  cases hs with
  | thread | fork | exit =>
    obtain ⟨-, rfl⟩ | ⟨-, ht⟩ := update_eq_some_iff.mp ht
    · cases hstate
    · exact Or.inl ht
  | wake waiters => exact Or.inl (hwoken ht)
  | sleep _ hnone =>
    obtain ⟨-, rfl⟩ | ⟨-, ht⟩ := update_eq_some_iff.mp ht
    · exact nomatch hnone.symm.trans hpending
    · exact Or.inl ht
  | sysExit =>
    obtain ⟨-, rfl⟩ | ⟨-, ht⟩ := update_eq_some_iff.mp ht
    · cases hstate
    · exact Or.inl (hwoken ht)
  | waitNone hrun | harvest hrun | finish hrun =>
    obtain ⟨-, rfl⟩ | ⟨-, ht⟩ := update_eq_some_iff.mp ht
    · exact nomatch hrun.ready.symm.trans hstate
    · exact Or.inl ht
  | waitBlock hrun =>
    obtain ⟨rfl, -⟩ | ⟨-, ht⟩ := update_eq_some_iff.mp ht
    · exact Or.inr ⟨rfl, hrun.current⟩
    · exact Or.inl ht
  | reap =>
    rw [threads_reapProcess] at ht
    exact Or.inl (update_none_eq_some_iff.mp ht).2
  | bury | switch | idle => exact Or.inl ht

theorem View.Step.waitQueue_subset (hs : Step v e v') (he : e ≠ .sysExit) {q : ℕ}
    {p p' : Process} (hp : v.procs q = some p) (hp' : v'.procs q = some p') :
    p.waitQueue ⊆ p'.waitQueue := by
  have hkept : v.procs q = some p' → p.waitQueue ⊆ p'.waitQueue := by
    intro hsame
    rw [some.inj (hp.symm.trans hsame)]
    exact List.Subset.refl _
  cases hs with
  | fork _ hnew =>
    obtain ⟨rfl, -⟩ | ⟨-, hold⟩ := update_eq_some_iff.mp hp'
    · exact nomatch hnew.empty.symm.trans hp
    · exact hkept hold
  | sysExit => exact absurd rfl he
  | harvest => exact hkept (update_none_eq_some_iff.mp hp').2
  | waitBlock _ _ _ _ _ hown =>
    obtain ⟨rfl, rfl⟩ | ⟨-, hold⟩ := update_eq_some_iff.mp hp'
    · rw [some.inj (hp.symm.trans hown)]
      exact subset_append_left _ _
    · exact hkept hold
  | @reap z rest t =>
    have hold : (v.removeThread z rest).procs q = some p' := reapProcess_procs hp'
    exact hkept hold
  | _ => exact hkept hp'

/-- A sleeper is not woken by a step other than `SYS_EXIT`, and nothing it depends on
changes. -/
theorem Sleeper.step (h : Family v) (hproper : Proper v) (hs : Step v e v')
    (hexited : OnlyExited v'.history) (he : e ≠ .sysExit) {j target : ℕ} {t : TaskView}
    (ht : v.threads j = some t) (huser : t.user = true) (hz : t.state ≠ .zombie)
    (hsleeper : Sleeper v j t target) : Sleeper v' j t target where
  queued := by
    obtain ⟨own, hown, hqueued⟩ := hsleeper.queued
    obtain ⟨own₁, hown₁, -, hliving⟩ := h.own hproper ht huser hz
    obtain rfl := some.inj (hown₁.symm.trans hown)
    obtain ⟨own', hown', -⟩ := h.living_stays hproper.ledger hs hexited hown hliving
      (fun hexit => absurd hexit he)
    exact ⟨own', hown', hs.waitQueue_subset he hown hown' hqueued⟩
  child := by
    obtain ⟨q, p, hchild⟩ := hsleeper.child
    obtain ⟨p', hp', -, hsame⟩ := h.living_stays hproper.ledger hs hexited hchild.1
      (hsleeper.living hchild) (fun hexit => absurd hexit he)
    refine ⟨q, p', hp', ?_, (Kernel.waitMatches_congr hsame.pid).mpr hchild.2.2⟩
    cases hs.record_cases hp' with
    | kept _ hold _ hppid =>
      rw [hppid, some.inj (hold.symm.trans hchild.1)]
      exact hchild.2.1
    | exit hexit => exact absurd hexit he
    | new _ hnew => exact nomatch hnew.empty.symm.trans hchild.1
  living := by
    rintro q p' ⟨hp', hppid', hmatch⟩
    cases hs.record_cases hp' with
    | kept _ hold hsame hppid hzombie =>
      rw [hzombie]
      exact hsleeper.living
        ⟨hold, hppid.symm.trans hppid', (Kernel.waitMatches_congr hsame.pid).mp hmatch⟩
    | exit hexit => exact absurd hexit he
    | new _ hnew => exact hnew.isZombie

/-- The queue that an exit wakes is that of the parent's record. -/
theorem View.parentQueue_eq {pid n : ℕ} {own : Process} (hwoken : v.wokenParent pid = some n)
    (hown : v.procs n = some own) : v.parentQueue pid = own.waitQueue := by
  rw [View.parentQueue, hwoken, bind_some, hown]

theorem wakeThreads_blocked {waiters : List ℕ} {threads : ℕ → Option TaskView} {j : ℕ}
    {t : TaskView} (h : wakeThreads waiters threads j = some t) (hstate : t.state = .blocked) :
    threads j = some t ∧ j ∉ waiters := by
  unfold wakeThreads at h
  split at h
  · obtain ⟨t₀, -, rfl⟩ := map_eq_some_iff.mp h
    unfold TaskView.wake at hstate
    split at hstate
    · cases hstate
    · next hawake => exact absurd (Or.inr hstate) hawake
  · next hj => exact ⟨h, hj⟩

/-- **No lost wake-up**: if a process exits and a sleeper goes on sleeping, the process
was not its child. -/
theorem Sleeper.exit (hproper : Proper v) (hs : Step v .sysExit v') {j target : ℕ}
    {t : TaskView} (ht' : v'.threads j = some t) (huser : t.user = true)
    (hstate : t.state = .blocked) (hsleeper : Sleeper v j t target) : Sleeper v' j t target := by
  cases hs with
  | @sysExit c t₁ exitCode hrun huser₁ _ =>
    obtain ⟨-, rfl⟩ | ⟨hne, hw⟩ := update_eq_some_iff.mp ht'
    · cases hstate
    obtain ⟨ht, hasleep⟩ := wakeThreads_blocked hw hstate
    have hz : t.state ≠ .zombie := by
      rw [hstate]
      nofun
    have hpid : t.pid ≠ t₁.pid := fun hpid =>
      hne (hproper.pid_inj ht huser hz hrun.thread huser₁ hrun.not_zombie hpid)
    obtain ⟨own, hown, hqueued⟩ := hsleeper.queued
    have hwoken : v.wokenParent t₁.pid ≠ some t.pid := fun hwoken =>
      hasleep (parentQueue_eq hwoken hown ▸ hqueued)
    refine ⟨?_, ?_, ?_⟩
    · refine ⟨_, congrArg (Option.map _) hown, ?_⟩
      show j ∈ if v.wokenParent t₁.pid = some t.pid then [] else own.waitQueue
      rwa [if_neg hwoken]
    · obtain ⟨q, p, hp, hppid, hmatch⟩ := hsleeper.child
      refine ⟨q, _, congrArg (Option.map _) hp, ?_, hmatch⟩
      show (if p.ppid = t₁.pid then 0 else p.ppid) = t.pid
      rwa [if_neg (hppid ▸ hpid)]
    · rintro q p' ⟨hp', hppid', hmatch⟩
      obtain ⟨p, hp, rfl⟩ := map_eq_some_iff.mp hp'
      have hppid : p.ppid = t.pid := by
        by_contra hother
        have hzero := hproper.pid_ne_zero ht huser hz
        rw [← hppid'] at hzero hother
        exact hother (if_neg fun heq => hzero (if_pos heq)).symm
      show (if q = t₁.pid then true else p.isZombie) = false
      rw [if_neg]
      · exact hsleeper.living ⟨hp, hppid, hmatch⟩
      · rintro rfl
        refine hwoken ?_
        rw [View.wokenParent, hp, bind_some, hppid, hown]
        rfl

/-- A call that goes to sleep has found a child, and no child that has exited. -/
theorem Sleeper.waitBlock (hs : Step v .waitBlock v') {j target statusPtr : ℕ} {t : TaskView}
    (hcur : v.current = some j) (ht : v'.threads j = some t)
    (hpending : t.pending = .waiting target statusPtr) : Sleeper v' j t target := by
  cases hs with
  | @waitBlock c q t₁ target' statusPtr' p own hrun _ _ hchild hliving hown =>
    obtain rfl := some.inj (hcur.symm.trans hrun.current)
    obtain ⟨-, rfl⟩ | ⟨hne, -⟩ := update_eq_some_iff.mp ht
    swap
    · exact absurd rfl hne
    cases hpending
    -- the call changes the queue of its own record only
    have hsame : ∀ {n : ℕ} {p : Process}, v.procs n = some p → ∃ w, Function.update v.procs t₁.pid
          (some { own with waitQueue := own.waitQueue ++ [j] }) n =
            some { p with waitQueue := w } := by
      intro n p hp
      by_cases hn : n = t₁.pid
      · subst hn
        rw [some.inj (hp.symm.trans hown)]
        exact ⟨_, Function.update_self ..⟩
      · exact ⟨p.waitQueue, (Function.update_of_ne hn _ _).trans hp⟩
    refine ⟨?_, ?_, ?_⟩
    · exact ⟨_, Function.update_self .., mem_append_right _ mem_cons_self⟩
    · obtain ⟨hp, hppid, hmatch⟩ := hchild
      obtain ⟨w, hp'⟩ := hsame hp
      exact ⟨q, _, hp', hppid, hmatch⟩
    · rintro n p' ⟨hp', hppid', hmatch⟩
      obtain ⟨rfl, rfl⟩ | ⟨-, hp⟩ := update_eq_some_iff.mp hp'
      · exact hliving t₁.pid own ⟨hown, hppid', hmatch⟩
      · exact hliving n p' ⟨hp, hppid', hmatch⟩

theorem Waits.blocked_step (h : Waits v) (hfamily : Family v) (hproper : Proper v)
    (hs : Step v e v') (hexited : OnlyExited v'.history) {j target statusPtr : ℕ} {t : TaskView}
    (ht : v'.threads j = some t) (hstate : t.state = .blocked)
    (hpending : t.pending = .waiting target statusPtr) : Sleeper v' j t target := by
  obtain hold | ⟨rfl, hcur⟩ := hs.blocked_from ht hstate hpending
  · have huser : t.user = true := by
      by_contra hkernel
      exact nomatch (hproper.ledger.kernel hold (Bool.eq_false_iff.mpr hkernel)).2.symm.trans
        hpending
    have hsleeper := h.blocked hold hstate hpending
    by_cases he : e = .sysExit
    · subst he
      exact hsleeper.exit hproper hs ht huser hstate
    · refine hsleeper.step hfamily hproper hs hexited he hold huser ?_
      rw [hstate]
      nofun
  · exact Sleeper.waitBlock hs hcur ht hpending

/-- **The invariant is kept.** -/
theorem Waits.step (h : Waits v) (hfamily : Family v) (hproper : Proper v) (hs : Step v e v')
    (hexited : OnlyExited v'.history) : Waits v' where
  held := h.held_step hfamily hproper hs
  returns := h.returns_step hproper.ledger hs
  blocked := h.blocked_step hfamily hproper hs hexited

theorem Waits.initial (kernelCr3 : ℕ) : Waits (View.initial kernelCr3) where
  held ht hpending := by
    obtain ⟨-, rfl⟩ := initial_threads.mp ht
    cases hpending
  returns := nofun
  blocked ht hstate := by
    obtain ⟨-, rfl⟩ := initial_threads.mp ht
    cases hstate

/-! ### Runs -/

/-- No record of a process that has not exited is removed, and slot 0 is the kernel's. -/
def RemovesExited (_ : Kernel) (_ : Action) (k' : Kernel) : Prop :=
  OnlyExited k'.history ∧ k'.view.KernelSlot

instance (k : Kernel) (a : Action) (k' : Kernel) : Decidable (RemovesExited k a k') :=
  inferInstanceAs (Decidable (_ ∧ _))

theorem Kernel.Reachable.proper {kernelCr3 : ℕ} {k : Kernel}
    (h : Kernel.Reachable kernelCr3 RemovesExited k) : Proper k.view := by
  refine ⟨h.inv.2, ?_, h.kernelSlot fun hmeets => hmeets.2⟩
  cases h with
  | start hboot =>
    rw [(Kernel.boot_spec hboot).2]
    nofun
  | next _ _ hmeets => exact hmeets.1

/-- The protocol's invariants hold in every state of such a run. -/
theorem Kernel.Reachable.waits {kernelCr3 : ℕ} {k : Kernel}
    (h : Kernel.Reachable kernelCr3 RemovesExited k) : Family k.view ∧ Waits k.view := by
  refine h.invariant (J := fun v => Proper v → Family v ∧ Waits v)
    (fun _ _ => ⟨Family.initial kernelCr3, Waits.initial kernelCr3⟩) ?_ h.proper
  intro k a k' v e v' hreach _ horigin hledger hs hJ hproper'
  have hproper : Proper v := by
    by_cases he : e = .sysExit
    · subst he
      obtain rfl : v = k.view := horigin.1
      exact hreach.proper
    · exact hproper'.of_step hledger hs he
  obtain ⟨hfamily, hwaits⟩ := hJ hproper
  exact ⟨hfamily.step hproper hs hproper'.exited, hwaits.step hfamily hproper hs hproper'.exited⟩

/-- The process `p` in slot `q` was spawned by the process with this number, and the
target of `SYS_WAIT` means it. -/
def Kernel.Child (k : Kernel) (caller target q : ℕ) (p : Process) : Prop :=
  k.sched.process q = some p ∧ p.parent = caller ∧ Kernel.waitMatches target p

/-- A call of `SYS_WAIT` by the running thread is at the top of its loop. -/
def Kernel.Calls (t : Thread) (target statusPtr : ℕ) : Prop :=
  Kernel.Starts true t ∨ t.pending = .waiting target statusPtr

/-- **The wait/exit protocol.**  Each process is harvested at most once. What
`SYS_WAIT` returned is a child of the caller that the target means, with the code that
this child, and only it, passed to `SYS_EXIT`. `SYS_WAIT` returns `-ECHILD` only if
the caller has no such child. A caller that sleeps has a child that it waits for, and
none of these has exited. -/
theorem wait_exit_protocol {kernelCr3 : ℕ} {k : Kernel}
    (h : Kernel.Reachable kernelCr3 RemovesExited k) :
    (k.history.harvests.Nodup ∧ k.history.exited.Nodup) ∧
      (∀ r ∈ k.history.returns, ∃ p ∈ k.history.removed, ∃ exitCode,
        p.serial = r.child ∧ p.pid = r.rax ∧ p.parent = r.caller ∧
          Kernel.waitMatches r.target p ∧ (r.child, exitCode) ∈ k.history.exits ∧
          r.status = Kernel.writtenStatus r.statusPtr exitCode) ∧
      (∀ c t target statusPtr k' rax, k.running = some (c, t) →
        Kernel.Calls t target statusPtr →
        k.sysWaitRound target statusPtr = some (k', .returned rax) →
        rax = negEchild ∧ ∀ q p, ¬ k.Child t.serial target q p) ∧
      ∀ i t target statusPtr, k.sched.tasks.get i = some t → t.state = .blocked →
        t.pending = .waiting target statusPtr →
        (∃ own, k.sched.process t.pid = some own ∧ i ∈ own.waitQueue) ∧
          (∃ q p, k.Child t.serial target q p) ∧
          ∀ q p, k.Child t.serial target q p → p.isZombie = false := by
  have hproper := h.proper
  have hledger := hproper.ledger
  obtain ⟨hfamily, hwaits⟩ := h.waits
  refine ⟨⟨hledger.harvests_nodup, hledger.exited_nodup⟩, ?_, ?_, ?_⟩
  · intro r hr
    obtain ⟨exitCode, ⟨p, hp, hserial, hpid, hparent, hmatch, hexit⟩, hstatus⟩ :=
      hwaits.returns r hr
    exact ⟨p, hp, exitCode, hserial, hpid, hparent, hmatch, hexit, hstatus⟩
  · intro c t target statusPtr k' rax hrun hcalls hround
    have hview := Kernel.running_view hrun
    have huser : t.user = true := by
      rcases hcalls with hstarts | hwaiting
      · exact hstarts.2
      · by_contra hkernel
        have hnone := (hledger.kernel hview.thread (Bool.eq_false_iff.mpr hkernel)).2
        exact nomatch hnone.symm.trans hwaiting
    have hloop : AtLoop t.view target statusPtr := hcalls.imp (fun hstarts => hstarts.1) id
    obtain ⟨-, ⟨hres, hnone, -⟩ | ⟨hres, -⟩ | ⟨hres, -⟩⟩ :=
      Kernel.sysWaitRound_cases h.inv.1 hrun huser hloop hround
    · refine ⟨Kernel.WaitResult.returned.inj hres, fun q p hchild => hnone q p ?_⟩
      exact (hfamily.isChild_iff hproper hview.thread huser hview.not_zombie).mpr hchild
    · cases hres
    · cases hres
  · intro i t target statusPtr hi hstate hpending
    have hthread : k.view.threads i = some t.view := congrArg (Option.map Thread.view) hi
    have huser : t.user = true := by
      by_contra hkernel
      have hnone := (hledger.kernel hthread (Bool.eq_false_iff.mpr hkernel)).2
      exact nomatch hnone.symm.trans hpending
    have hz : t.view.state ≠ .zombie := fun hz => nomatch hstate.symm.trans hz
    obtain ⟨hqueued, ⟨q, p, hchild⟩, hliving⟩ := hwaits.blocked hthread hstate hpending
    refine ⟨hqueued, ⟨q, p, (hfamily.isChild_iff hproper hthread huser hz).mp hchild⟩, ?_⟩
    intro q p hchild
    exact hliving ((hfamily.isChild_iff hproper hthread huser hz).mpr hchild)

/-- Process 1 has harvested one child and sleeps until another one exits. -/
theorem wait_exit_protocol_harvestRun :
    ∃ k, Kernel.Reachable 0x1000 RemovesExited k ∧ k.history.returns.length = 1 ∧
      (∀ r ∈ k.history.returns, ∃ p ∈ k.history.removed, p.serial = r.child ∧ p.pid = r.rax) ∧
      ∃ t, k.sched.tasks.get 1 = some t ∧ t.state = .blocked ∧
        t.pending = .waiting (2 ^ 64 - 1) 0 ∧ ∃ q p, k.Child t.serial (2 ^ 64 - 1) q p := by
  obtain ⟨k, hk, hreturns, hblocked⟩ := Kernel.Reachable.of_execute RemovesExited 0x1000
    (harvestRun ++ [.sysWait (2 ^ 64 - 1) 0])
    (fun k => k.history.returns.length = 1 ∧
      (k.sched.tasks.get 1).any (fun t => decide (t.state = ThreadState.blocked ∧
        t.pending = Pending.waiting (2 ^ 64 - 1) 0)) = true) (by decide) (by decide +kernel)
  obtain ⟨t, ht, hdec⟩ := (Option.any_eq_true _ _).mp hblocked
  obtain ⟨hstate, hpending⟩ := of_decide_eq_true hdec
  obtain ⟨-, hserved, -, hsleep⟩ := wait_exit_protocol hk
  obtain ⟨-, hchild, -⟩ := hsleep 1 t _ _ ht hstate hpending
  refine ⟨k, hk, hreturns, ?_, t, ht, hstate, hpending, hchild⟩
  intro r hr
  obtain ⟨p, hp, -, hserial, hpid, -⟩ := hserved r hr
  exact ⟨p, hp, hserial, hpid⟩

end KernelR.Proc
