import KernelR.Proc.Coherence
import KernelR.Proc.Family

/-!
# Zombies that nobody frees

The record of a zombie goes when its parent harvests it, or, if it has no parent, when
`reap_zombies` takes its dead thread out of the arena. `Tended` says that one of the
two can still happen: a zombie without a parent has its dead thread in the arena, and
every dead thread is the current one or in the graveyard. A zombie with a parent has a
parent that is alive, by `Family`.

`SYS_EXIT` hands the children of the process over to nobody. If a child is a zombie and
its thread was reaped while it still had a parent, both chances are gone:
`zombie_leaked`. `Tended.step` is the invariant of the runs in which this does not
happen, `zombies_tended` what follows, and `reapZombies_frees` says that the dead thread
in the graveyard is enough.
-/

namespace KernelR.Proc

open Foundations View

variable {v v' : View} {e : Event} {kernelCr3 : ℕ}

/-- Everybody who can still free a record is there. -/
structure Tended (v : View) : Prop where
  /-- a zombie without a parent has its dead thread -/
  body : ∀ {q p}, v.procs q = some p → p.isZombie = true → p.ppid = 0 →
    ∃ j t, v.threads j = some t ∧ t.state = .zombie ∧ t.pid = q ∧ t.serial = p.serial
  /-- a process that has not exited has its thread -/
  staffed : ∀ {q p}, v.procs q = some p → p.isZombie = false → q ≠ 0 →
    ∃ j t, v.threads j = some t ∧ t.user = true ∧ t.state ≠ .zombie ∧ t.pid = q ∧
      t.serial = p.serial
  buried : ∀ {j t}, v.threads j = some t → t.state = .zombie →
    v.current = some j ∨ j ∈ v.graveyard

/-- The children of the running process that are zombies have their dead threads in the
arena. -/
def View.ChildrenInArena (v : View) : Prop :=
  ∀ {c t q p}, v.Running c t → v.procs q = some p → p.ppid = t.pid → p.isZombie = true →
    ∃ j t', v.threads j = some t' ∧ t'.state = .zombie ∧ t'.serial = p.serial

namespace Tended

theorem initial (kernelCr3 : ℕ) : Tended (View.initial kernelCr3) where
  body hp hz := by
    obtain ⟨-, rfl⟩ := initial_procs.mp hp
    cases hz
  staffed hp _ h0 := absurd (initial_procs.mp hp).1 h0
  buried ht hz := by
    obtain ⟨-, rfl⟩ := initial_threads.mp ht
    cases hz

/-! ### Dead threads -/

variable {j q : ℕ} {p : Process} {t : TaskView}

/-- The thread with the number of a record is in the record's slot. -/
theorem pid_of_serial (hledger : Ledger v)
    (ht : v.threads j = some t) (huser : t.user = true) (hp : v.procs q = some p)
    (hserial : t.serial = p.serial) : t.pid = q := by
  rcases hledger.tracked ht huser with ⟨own, hown, hnumber⟩ | hgone
  · exact hledger.record_inj hown hp (hnumber.trans hserial)
  · rw [hserial] at hgone
    exact absurd hgone (hledger.record_not_gone hp)

/-- A dead thread that is there after the step is dead after it. -/
theorem dead_later (hkept : KernelKept kernelCr3 v) (hledger : Ledger v) (hs : Step v e v')
    {t t' : TaskView} (ht : v.threads j = some t) (hz : t.state = .zombie)
    (ht' : v'.threads j = some t') (hsame : SameThread t t') : t'.state = .zombie := by
  have huser := hkept.zombies ht hz
  by_contra halive
  refine (hledger.step hs).alive ht' (hsame.user.trans huser) halive ?_
  rw [hsame.serial]
  exact Ledger.exited_mono hs (hledger.dead ht huser hz)

/-- `reap_zombies` does not take a dead thread away from an orphan. -/
theorem body_stays (hkept : KernelKept kernelCr3 v) (hledger : Ledger v) (hs : Step v e v')
    {p' : Process} (ht : v.threads j = some t) (hz : t.state = .zombie)
    (hpid : t.pid = q) (hp' : v'.procs q = some p') (h0 : p'.ppid = 0) :
    ∃ t', v'.threads j = some t' ∧ t'.state = .zombie ∧ t'.pid = q ∧ t'.serial = t.serial := by
  rcases hs.thread_to ht with ⟨t', ht', hsame⟩ | ⟨-, -, rest, -, rfl⟩
  · exact ⟨t', ht', dead_later hkept hledger hs ht hz ht' hsame, hsame.pid.trans hpid, hsame.serial⟩
  · -- the record would have been removed with the thread
    exfalso
    subst hpid
    have hp : (v.removeThread j rest).procs t.pid = some p' := reapProcess_procs hp'
    rw [reapProcess, hp] at hp'
    simp only [h0, if_true] at hp'
    exact (update_none_eq_some_iff.mp hp').1 rfl

/-! ### Steps -/

theorem body_step (h : Tended v) (hkept : KernelKept kernelCr3 v) (hsound : Sound v)
    (hledger : Ledger v) (hs : Step v e v') (hexit : e = .sysExit → v.ChildrenInArena)
    (hp : v'.procs q = some p) (hz : p.isZombie = true) (h0 : p.ppid = 0) :
    ∃ j t, v'.threads j = some t ∧ t.state = .zombie ∧ t.pid = q ∧ t.serial = p.serial := by
  cases hs.record_cases hp with
  | kept _ hold hsame hppid hzombie =>
    obtain ⟨j, t, ht, hdead, hpid, hserial⟩ :=
      h.body hold (hzombie.symm.trans hz) (hppid.symm.trans h0)
    obtain ⟨t', ht', hdead', hpid', hserial'⟩ := body_stays hkept hledger hs ht hdead hpid hp h0
    exact ⟨j, t', ht', hdead', hpid', hserial'.trans (hserial.trans hsame.serial.symm)⟩
  | @exit c t exitCode p₀ he hold heq hrun huser _ hthread =>
    subst heq
    by_cases hq : q = t.pid
    · -- the process that exits leaves its own thread
      subst hq
      exact ⟨c, _, hthread, rfl, rfl, (hsound.own hrun.thread huser hold).symm⟩
    · have hz₀ : p₀.isZombie = true := (if_neg hq).symm.trans hz
      have hbody : ∃ j u, v.threads j = some u ∧ u.state = .zombie ∧ u.pid = q ∧
          u.serial = p₀.serial := by
        by_cases hppid : p₀.ppid = t.pid
        · obtain ⟨j, u, hu, hdead, hserial⟩ := hexit he hrun hold hppid hz₀
          exact ⟨j, u, hu, hdead,
            pid_of_serial hledger hu (hkept.zombies hu hdead) hold hserial, hserial⟩
        · exact h.body hold hz₀ ((if_neg hppid).symm.trans h0)
      obtain ⟨j, u, hu, hdead, hpid, hserial⟩ := hbody
      obtain ⟨u', hu', hdead', hpid', hserial'⟩ := body_stays hkept hledger hs hu hdead hpid hp h0
      exact ⟨j, u', hu', hdead', hpid', hserial'.trans hserial⟩
  | new _ hnew => exact nomatch hnew.isZombie.symm.trans hz

theorem staffed_step (h : Tended v) (hledger : Ledger v) (hfamily' : Family v')
    (hs : Step v e v') (hp : v'.procs q = some p)
    (hz : p.isZombie = false) (h0 : q ≠ 0) :
    ∃ j t, v'.threads j = some t ∧ t.user = true ∧ t.state ≠ .zombie ∧ t.pid = q ∧
      t.serial = p.serial := by
  have hthread : ∃ j t, v'.threads j = some t ∧ t.user = true ∧ t.pid = q ∧
      t.serial = p.serial := by
    have hlater : ∀ {p₀}, v.procs q = some p₀ → p₀.isZombie = false → p.serial = p₀.serial →
        ∃ j t, v'.threads j = some t ∧ t.user = true ∧ t.pid = q ∧ t.serial = p.serial := by
      intro p₀ hold hz₀ hnumber
      obtain ⟨j, t, ht, huser, halive, hpid, hserial⟩ := h.staffed hold hz₀ h0
      obtain ⟨t', ht', hsame⟩ := hs.thread_stays ht (Or.inr halive)
      exact ⟨j, t', ht', hsame.user.trans huser, hsame.pid.trans hpid,
        hsame.serial.trans (hserial.trans hnumber.symm)⟩
    cases hs.record_cases hp with
    | kept _ hold hsame _ hzombie => exact hlater hold (hzombie.symm.trans hz) hsame.serial
    | @exit c t exitCode p₀ _ hold heq =>
      subst heq
      have hq : q ≠ t.pid := fun hq => nomatch (if_pos hq).symm.trans hz
      exact hlater hold ((if_neg hq).symm.trans hz) rfl
    | new he hnew =>
      subst he
      cases hs with
      | fork => exact ⟨_, _, Function.update_self .., rfl, rfl, hnew.serial.symm⟩
  obtain ⟨j, t, ht, huser, hpid, hserial⟩ := hthread
  refine ⟨j, t, ht, huser, fun hdead => ?_, hpid, hserial⟩
  -- a thread that is dead would have made a zombie of the record
  have hexited := (hledger.step hs).dead ht huser hdead
  rw [hserial] at hexited
  exact nomatch hz.symm.trans (hfamily'.zombie hp hexited)

theorem buried_step (h : Tended v) (hs : Step v e v')
    (hswitch : e = .switch ∨ e = .idle → v.DeadBuried)
    (ht : v'.threads j = some t) (hz : t.state = .zombie) :
    v'.current = some j ∨ j ∈ v'.graveyard := by
  cases hs.thread_from ht with
  | @kept t₀ hold _ hiff =>
    have hold_or := h.buried hold (hiff.mp hz)
    have hburied : e = .switch ∨ e = .idle → j ∈ v.graveyard := fun he =>
      hold_or.elim (fun hcur => hswitch he hcur hold (hiff.mp hz)) id
    cases hs with
    | @reap z rest tz hg _ _ _ =>
      have hj : j ≠ z := by
        rw [threads_reapProcess] at ht
        exact (update_none_eq_some_iff.mp ht).1
      have hgraveyard : ((v.removeThread z rest).reapProcess tz.pid).graveyard = rest := by
        obtain heq | ⟨p, -, -, heq⟩ := (v.removeThread z rest).reapProcess_cases tz.pid
        · rw [heq]
          rfl
        · rw [heq]
          rfl
      rw [current_reapProcess, hgraveyard]
      refine hold_or.imp_right fun hmem => ?_
      rw [hg] at hmem
      exact (List.mem_cons.mp hmem).resolve_left hj
    | bury => exact hold_or.imp_right fun hmem => List.mem_append_left _ hmem
    | switch => exact Or.inr (hburied (Or.inl rfl))
    | idle => exact Or.inr (hburied (Or.inr rfl))
    | _ => exact hold_or
  | died hdies =>
    obtain ⟨hrun, he⟩ := hdies
    refine Or.inl ((hs.current_eq ?_ ?_).1.trans hrun.current)
    · rintro rfl
      exact he.elim (fun he => nomatch he.1) fun he => nomatch he.1
    · rintro rfl
      exact he.elim (fun he => nomatch he.1) fun he => nomatch he.1
  | new hnew => exact nomatch hnew.ready.symm.trans hz

/-- **The invariant is kept** if a process exits only while its zombies have their
threads, and `schedule` buries a dead thread before it switches. -/
theorem step (h : Tended v) (hkept : KernelKept kernelCr3 v) (hsound : Sound v)
    (hledger : Ledger v) (hfamily' : Family v') (hs : Step v e v')
    (hexit : e = .sysExit → v.ChildrenInArena)
    (hswitch : e = .switch ∨ e = .idle → v.DeadBuried) : Tended v' where
  body := h.body_step hkept hsound hledger hs hexit
  staffed := h.staffed_step hledger hfamily' hs
  buried := h.buried_step hs hswitch

end Tended

/-! ### Runs -/

/-- A call of `SYS_EXIT`. -/
def Action.exits : Action → Bool
  | .sysExit _ => true
  | _ => false

/-- The zombies among the children of the running process have their dead threads in
the arena. -/
def Kernel.ChildrenInArena (k : Kernel) : Prop :=
  ∀ x ∈ k.running, ∀ slot ∈ k.sched.processes, ∀ p ∈ slot, p.ppid = x.2.pid →
    p.isZombie = true → ∃ t ∈ k.sched.tasks.values, t.state = .zombie ∧ t.serial = p.serial

instance (k : Kernel) : Decidable k.ChildrenInArena :=
  inferInstanceAs (Decidable (∀ x ∈ k.running, ∀ slot ∈ k.sched.processes, ∀ p ∈ slot,
    p.ppid = x.2.pid → p.isZombie = true →
      ∃ t ∈ k.sched.tasks.values, t.state = .zombie ∧ t.serial = p.serial))

theorem Kernel.ChildrenInArena.view {k : Kernel} (h : k.ChildrenInArena) :
    k.view.ChildrenInArena := by
  intro c tv q p hrun hp hppid hz
  obtain ⟨t, ht, rfl⟩ := Option.map_eq_some_iff.mp hrun.thread
  have hrunning : k.running = some (c, t) := by
    have hcur : k.sched.currentTask = some c := hrun.current
    have hguard : t.state = .ready ∧ k.sched.idleTaskId ≠ some c := ⟨hrun.ready, hrun.busy⟩
    simp only [Kernel.running, hcur, ht, Option.bind_eq_bind, Option.bind_some]
    exact if_pos hguard
  have hslot : some p ∈ k.sched.processes := some_mem_iff.mpr ⟨q, hp⟩
  obtain ⟨t', ht', hdead, hserial⟩ := h _ hrunning _ hslot p rfl hppid hz
  obtain ⟨j, hj⟩ := Arena.mem_values.mp ht'
  exact ⟨j, t'.view, congrArg (Option.map Thread.view) hj, hdead, hserial⟩

/-- No kernel thread ends, a process is created only while no thread has its pid, and a
process exits only while its zombies have their threads. -/
def NoLostChild (k : Kernel) (a : Action) (_ : Kernel) : Prop :=
  a ≠ .exitThread ∧ (a.forks = true → k.PidFree) ∧ (a.exits = true → k.ChildrenInArena)

instance (k : Kernel) (a : Action) (k' : Kernel) : Decidable (NoLostChild k a k') :=
  inferInstanceAs (Decidable (_ ∧ _ ∧ _))

/-- The invariants of such a run. -/
structure Parented (kernelCr3 : ℕ) (v : View) : Prop where
  kept : KernelKept kernelCr3 v
  sound : Sound v
  family : Family v
  tended : Tended v

theorem Parented.initial (kernelCr3 : ℕ) : Parented kernelCr3 (View.initial kernelCr3) :=
  ⟨.initial kernelCr3, .initial kernelCr3, .initial kernelCr3, .initial kernelCr3⟩

theorem Parented.step (h : Parented kernelCr3 v) (hledger : Ledger v) (hs : Step v e v')
    (hthread : e ≠ .exit)
    (hfree : ∀ {n}, e = .fork n → ∀ {j t}, v.threads j = some t → t.pid ≠ n)
    (hexit : e = .sysExit → v.ChildrenInArena)
    (hswitch : e = .switch ∨ e = .idle → v.DeadBuried) : Parented kernelCr3 v' := by
  have hkept' := h.kept.step hledger hs hthread
  have hsound' := h.sound.step hledger hs hkept'.slot hfree
  have hproper : Proper v := ⟨hledger, h.sound.exited, h.kept.slot⟩
  have hfamily' := h.family.step hproper hs hsound'.exited
  exact ⟨hkept', hsound', hfamily', h.tended.step h.kept h.sound hledger hfamily' hs hexit hswitch⟩

theorem Kernel.Reachable.parented {k : Kernel} (h : Kernel.Reachable kernelCr3 NoLostChild k) :
    Parented kernelCr3 k.view := by
  refine h.invariant (fun _ => Parented.initial kernelCr3) ?_
  rintro k a k' v e v' _ ⟨hthread, hfree, hexit⟩ horigin hledger hs hparented
  refine hparented.step hledger hs ?_ (Kernel.PidFree.fork hfree horigin) ?_ ?_
  · rintro rfl
    exact hthread horigin.2
  · rintro rfl
    obtain ⟨rfl, arg, rfl⟩ := horigin
    exact (hexit rfl).view
  · rintro (rfl | rfl)
    · exact horigin
    · exact horigin.1

/-- **A dead thread in the graveyard is enough**: the next `reap_zombies` removes the
record of its process, if that has no parent, and gives the address space back. -/
theorem reapZombies_frees {k : Kernel} (hinv : SchedInv k.sched) (hledger : Ledger k.view)
    (h : Parented kernelCr3 k.view) {j q : ℕ} {t : Thread} {p : Process}
    (hj : k.sched.tasks.get j = some t) (hg : j ∈ k.sched.graveyard)
    (hp : k.sched.process q = some p) (hz : p.isZombie = true) (h0 : p.ppid = 0)
    (hserial : t.serial = p.serial) :
    k.reapZombies.sched.process q = none ∧ p.pageTable ∈ k.reapZombies.history.destroyed := by
  obtain ⟨-, hempty, hpath, hmid⟩ :=
    Kernel.reapZombies_sim (k := k) (fun _ e => e = .reap) (fun _ => rfl) hinv
  -- the record stays as it is until it goes
  have hrun : (Ledger k.reapZombies.view ∧ Parented kernelCr3 k.reapZombies.view) ∧
      (k.reapZombies.view.procs q = some p ∨ k.reapZombies.view.procs q = none ∧
        p.pageTable ∈ k.reapZombies.view.history.destroyed) := by
    refine hpath.invariant (J := fun v => (Ledger v ∧ Parented kernelCr3 v) ∧
      (v.procs q = some p ∨ v.procs q = none ∧ p.pageTable ∈ v.history.destroyed)) ?_
      ⟨⟨hledger, h⟩, Or.inl hp⟩
    rintro v e v' ⟨⟨hledger, hparented⟩, hrecord⟩ hs rfl
    refine ⟨⟨hledger.step hs, hparented.step hledger hs nofun nofun nofun nofun⟩, ?_⟩
    cases hs with
    | @reap z rest tz =>
      obtain heq | ⟨p₀, hp₀, -, heq⟩ := (v.removeThread z rest).reapProcess_cases tz.pid
      · rw [heq]
        exact hrecord
      · rw [heq]
        show Function.update v.procs tz.pid none q = _ ∨
          Function.update v.procs tz.pid none q = _ ∧ _ ∈ p₀.pageTable :: v.history.destroyed
        by_cases hq : q = tz.pid
        · subst hq
          rw [Function.update_self]
          refine Or.inr ⟨rfl, ?_⟩
          rcases hrecord with hold | ⟨hnone, -⟩
          · rw [Option.some.inj (hold.symm.trans hp₀)]
            exact List.mem_cons_self
          · exact nomatch hnone.symm.trans hp₀
        · rw [Function.update_of_ne hq]
          exact hrecord.imp_right fun hrest => ⟨hrest.1, List.mem_cons_of_mem _ hrest.2⟩
  obtain ⟨⟨hledger', hparented'⟩, hstill | hfreed⟩ := hrun
  · -- its thread would be current, but it was in the graveyard
    exfalso
    obtain ⟨j', t', ht', hdead, -, hserial'⟩ := hparented'.tended.body hstill hz h0
    rcases hparented'.tended.buried ht' hdead with hcur | hmem
    · have hcur₀ : k.view.current = some j' := hmid.current.symm.trans hcur
      have hsame := hmid.same hcur₀
      rw [ht'] at hsame
      have hslot : j' = j := hledger.thread_inj hsame.symm (congrArg (Option.map Thread.view) hj)
          (hserial'.trans hserial.symm)
      subst hslot
      exact (hinv.census.buried _ hg).1 hcur₀
    · have hnil : k.reapZombies.view.graveyard = [] := hempty
      rw [hnil] at hmem
      cases hmem
  · exact hfreed

/-- **No zombie is lost** in a run in which no kernel thread ends, a process is created
only while no thread in the arena has its pid, and a process exits only while those of
its children that are zombies have their dead threads in the arena: the record of a
zombie has a parent that is alive, record and thread, or it has none, its own dead
thread is in the arena, and as soon as this is not the current one any more, the next
`reap_zombies` frees the record and its address space. -/
theorem zombies_tended {k : Kernel} (h : Kernel.Reachable kernelCr3 NoLostChild k) {q : ℕ}
    {p : Process} (hp : k.sched.process q = some p) (hz : p.isZombie = true) :
    (p.ppid ≠ 0 ∧ ∃ parent j t, k.sched.process p.ppid = some parent ∧
        parent.isZombie = false ∧ parent.serial = p.parent ∧ k.sched.tasks.get j = some t ∧
        t.state ≠ .zombie ∧ t.pid = p.ppid ∧ t.serial = p.parent) ∨
      (p.ppid = 0 ∧ ∃ j t, k.sched.tasks.get j = some t ∧ t.state = .zombie ∧ t.pid = q ∧
        t.serial = p.serial ∧
        (k.sched.currentTask = some j ∨ j ∈ k.sched.graveyard ∧
          k.reapZombies.sched.process q = none ∧
          p.pageTable ∈ k.reapZombies.history.destroyed)) := by
  obtain ⟨hinv, hledger⟩ := h.inv
  have hparented := h.parented
  by_cases h0 : p.ppid = 0
  · obtain ⟨j, tv, ht, hdead, hpid, hserial⟩ := hparented.tended.body hp hz h0
    have hburied := hparented.tended.buried ht hdead
    obtain ⟨t, hj, rfl⟩ := Option.map_eq_some_iff.mp ht
    refine Or.inr ⟨h0, j, t, hj, hdead, hpid, hserial, hburied.imp_right fun hg => ?_⟩
    exact ⟨hg, reapZombies_frees hinv hledger hparented hj hg hp hz h0 hserial⟩
  · obtain ⟨parent, hparent, hlive, hnumber⟩ := hparented.family.parent hp h0
    obtain ⟨j, tv, ht, -, halive, hpid, hserial⟩ :=
      hparented.tended.staffed hparent hlive h0
    obtain ⟨t, hj, rfl⟩ := Option.map_eq_some_iff.mp ht
    exact Or.inl ⟨h0, parent, j, t, hparent, hlive, hnumber, hj, halive, hpid,
      hserial.trans hnumber⟩

/-- Process 1 spawns process 2, which exits; its thread is in the graveyard and process 1
runs. -/
def orphanRun : List Action :=
  [.spawnUser 0x2000 0x5000 1024 0x200000 8, .schedule 0, .sysSpawn 0x3000 0x5000 0x300000 16,
    .schedule 0, .sysExit 5, .schedule 0]

/-- Process 1 exits in time: process 2 is an orphan, and its thread in the graveyard. -/
theorem zombies_tended_orphanRun :
    ∃ k, Kernel.Reachable 0x1000 NoLostChild k ∧
      ∃ p, k.sched.process 2 = some p ∧ p.isZombie = true ∧ p.ppid = 0 ∧
        k.reapZombies.sched.process 2 = none := by
  obtain ⟨k, hk, hrecord, hcur⟩ := Kernel.Reachable.of_execute NoLostChild 0x1000
    (orphanRun ++ [.sysExit 0])
    (fun k => (k.sched.process 2).any
        (fun p => decide (p.isZombie = true ∧ p.ppid = 0)) = true ∧
      k.sched.currentTask = some 1 ∧ ∀ t ∈ k.sched.tasks.get 1, t.pid = 1)
    (by decide) (by decide +kernel)
  obtain ⟨p, hp, hdec⟩ := (Option.any_eq_true _ _).mp hrecord
  obtain ⟨hz, h0⟩ := of_decide_eq_true hdec
  refine ⟨k, hk, p, hp, hz, h0, ?_⟩
  obtain ⟨hne, -⟩ | ⟨-, j, t, hj, -, hpid, -, hcurrent | hburied⟩ := zombies_tended hk hp hz
  · exact absurd h0 hne
  · obtain rfl := Option.some.inj (hcur.1.symm.trans hcurrent)
    exact nomatch hpid.symm.trans (hcur.2 t hj)
  · exact hburied.2.1

/-- **A zombie is leaked.**  The thread of process 2 is reaped while process 1 is its
parent, so the record stays; then process 1 exits without having waited. The record of
process 2 is a zombie without a parent, its thread is gone, the graveyard is empty, and
the kernel, process 0, makes no system calls: nobody will ever remove the record. -/
theorem zombie_leaked :
    ∃ k, Kernel.Reachable 0x1000
        (fun k a _ => a ≠ .exitThread ∧ (a.forks = true → k.PidFree)) k ∧
      (∃ p, k.sched.process 2 = some p ∧ p.isZombie = true ∧ p.ppid = 0 ∧
        p.pageTable ∉ k.history.destroyed ∧ ∀ t ∈ k.sched.tasks.values, t.serial ≠ p.serial) ∧
      k.sched.graveyard = [] ∧
      ∀ t ∈ k.sched.tasks.values, t.user = false ∧ t.state ≠ .zombie := by
  obtain ⟨k, hk, hrecord, hrest⟩ := Kernel.Reachable.of_execute
    (fun k a _ => a ≠ .exitThread ∧ (a.forks = true → k.PidFree)) 0x1000
    (orphanRun ++ [.schedule 0, .sysExit 0, .schedule 0, .schedule 0])
    (fun k => (k.sched.process 2).any (fun p => decide (p.isZombie = true ∧ p.ppid = 0 ∧
        p.pageTable ∉ k.history.destroyed ∧
        ∀ t ∈ k.sched.tasks.values, t.serial ≠ p.serial)) = true ∧
      k.sched.graveyard = [] ∧
      ∀ t ∈ k.sched.tasks.values, t.user = false ∧ t.state ≠ ThreadState.zombie)
    (by decide) (by decide +kernel)
  obtain ⟨p, hp, hdec⟩ := (Option.any_eq_true _ _).mp hrecord
  exact ⟨k, hk, ⟨p, hp, of_decide_eq_true hdec⟩, hrest⟩

end KernelR.Proc
