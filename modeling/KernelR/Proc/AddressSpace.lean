import KernelR.Foundations.Ownership
import KernelR.Proc.Teardown

/-!
# Address spaces

The frame of a PML4 belongs to a record of the process table or, between the harvest
of a child and the end of `SYS_WAIT`, to the thread of the parent: `View.table`. All
steps move these frames as `Owned` allows, so a frame is destroyed once and never
while another process has it (`Step.tables`, `Owned.step`).
-/

namespace KernelR.Proc

open Option Foundations View

/-- The PML4 that a thread in the middle of `SYS_WAIT` is about to destroy. -/
def TaskView.held (t : TaskView) : Option ℕ :=
  match t.pending with
  | .harvested _ _ _ _ pageTable _ => some pageTable
  | _ => none

/-- The PML4s of the records, and those that threads hold. -/
def View.table (v : View) : ℕ ⊕ ℕ → Option ℕ
  | .inl q => (v.procs q).map Process.pageTable
  | .inr j => (v.threads j).bind TaskView.held

variable {v v' : View} {e : Event}

theorem View.table_inl {q x : ℕ} :
    v.table (.inl q) = some x ↔ ∃ p, v.procs q = some p ∧ p.pageTable = x :=
  map_eq_some_iff

theorem View.table_inr {j x : ℕ} :
    v.table (.inr j) = some x ↔ ∃ t, v.threads j = some t ∧ t.held = some x :=
  bind_eq_some_iff

namespace View

/-- A thread holds what it held before, unless it has just harvested a child. -/
theorem Step.held_from (hs : Step v e v') (he : e ≠ .harvest) {j x : ℕ} {t' : TaskView}
    (ht : v'.threads j = some t') (hx : t'.held = some x) :
    ∃ t, v.threads j = some t ∧ t.held = some x := by
  unfold TaskView.held at hx ⊢
  obtain hnone | ⟨t, hold, hpending⟩ | ⟨-, ⟨-, target, statusPtr, hwaiting⟩ | hharvest⟩ :=
    hs.pending_from ht
  · rw [hnone] at hx
    cases hx
  · exact ⟨t, hold, hpending ▸ hx⟩
  · rw [hwaiting] at hx
    cases hx
  · exact absurd hharvest he

/-- What a step does to the PML4s. -/
inductive TableMove (v v' : View) : Prop
  | keep : (∀ {k y}, v'.table k = some y → v.table k = some y) →
      v'.history.pml4s = v.history.pml4s → v'.history.destroyed = v.history.destroyed →
      TableMove v v'
  | acquire {n x : ℕ} : x ∉ v.history.pml4s →
      (∀ {k y}, v'.table k = some y → k = .inl n ∧ y = x ∨ v.table k = some y) →
      v'.history.pml4s = x :: v.history.pml4s →
      v'.history.destroyed = v.history.destroyed → TableMove v v'
  | transfer {q c x : ℕ} : v.table (.inl q) = some x →
      (∀ {k y}, v'.table k = some y → k = .inr c ∧ y = x ∨ k ≠ .inl q ∧ v.table k = some y) →
      v'.history.pml4s = v.history.pml4s → v'.history.destroyed = v.history.destroyed →
      TableMove v v'
  | release {i : ℕ ⊕ ℕ} {x : ℕ} : v.table i = some x →
      (∀ {k y}, v'.table k = some y → k ≠ i ∧ v.table k = some y) →
      v'.history.pml4s = v.history.pml4s.erase x →
      v'.history.destroyed = x :: v.history.destroyed → TableMove v v'

/-- No step but the creation and the harvest of a process gives a PML4 to anybody. -/
theorem Step.table_le (hs : Step v e v') (hfork : ∀ n, e ≠ .fork n) (hharvest : e ≠ .harvest)
    {k : ℕ ⊕ ℕ} {y : ℕ} (hk : v'.table k = some y) : v.table k = some y := by
  cases k with
  | inl q =>
    obtain ⟨p', hp', rfl⟩ := table_inl.mp hk
    cases hs.record_from hp' with
    | kept hp hsame => exact table_inl.mpr ⟨_, hp, hsame.pageTable.symm⟩
    | new he => exact absurd he (hfork q)
  | inr j =>
    obtain ⟨t', ht', hx⟩ := table_inr.mp hk
    exact table_inr.mpr (hs.held_from hharvest ht' hx)

/-- **What becomes of the PML4s.** -/
theorem Step.tables (hs : Step v e v') (hpid : ∀ {q p}, v.procs q = some p → p.pid = q) :
    TableMove v v' := by
  have hle := hs.table_le
  cases hs with
  | @fork i n p hnone hnew _ =>
    refine .acquire (n := n) hnew.fresh ?_ rfl rfl
    intro k y hk
    cases k with
    | inl q =>
      obtain ⟨p', hp', rfl⟩ := table_inl.mp hk
      obtain ⟨rfl, rfl⟩ | ⟨-, hp'⟩ := update_eq_some_iff.mp hp'
      · exact Or.inl ⟨rfl, rfl⟩
      · exact Or.inr (table_inl.mpr ⟨p', hp', rfl⟩)
    | inr j =>
      obtain ⟨t', ht', hx⟩ := table_inr.mp hk
      obtain ⟨-, rfl⟩ | ⟨-, ht'⟩ := update_eq_some_iff.mp ht'
      · cases hx
      · exact Or.inr (table_inr.mpr ⟨t', ht', hx⟩)
  | @harvest c q t target statusPtr p hrun _ hloop hchild _ =>
    obtain rfl := hpid hchild.1
    refine .transfer (q := p.pid) (c := c) (table_inl.mpr ⟨p, hchild.1, rfl⟩) ?_ rfl rfl
    intro k y hk
    cases k with
    | inl q =>
      obtain ⟨p', hp', rfl⟩ := table_inl.mp hk
      obtain ⟨hne, hp'⟩ := update_none_eq_some_iff.mp hp'
      exact Or.inr ⟨fun heq => hne (Sum.inl.inj heq), table_inl.mpr ⟨p', hp', rfl⟩⟩
    | inr j =>
      obtain ⟨t', ht', hx⟩ := table_inr.mp hk
      obtain ⟨rfl, rfl⟩ | ⟨-, ht'⟩ := update_eq_some_iff.mp ht'
      · exact Or.inl ⟨rfl, (some.inj hx).symm⟩
      · exact Or.inr ⟨nofun, table_inr.mpr ⟨t', ht', hx⟩⟩
  | @finish c t target statusPtr childPid child pageTable exitCode hrun hpending =>
    have hheld : t.held = some pageTable := by
      rw [TaskView.held, hpending]
    refine .release (i := .inr c) (table_inr.mpr ⟨t, hrun.thread, hheld⟩) ?_ rfl rfl
    intro k y hk
    refine ⟨?_, hle nofun nofun hk⟩
    rintro rfl
    obtain ⟨t', ht', hx⟩ := table_inr.mp hk
    obtain ⟨-, rfl⟩ | ⟨hne, -⟩ := update_eq_some_iff.mp ht'
    · cases hx
    · exact hne rfl
  | @reap z rest t hgrave hcur hz hdead =>
    obtain heq | ⟨p, hp, -, heq⟩ := (v.removeThread z rest).reapProcess_cases t.pid
    · rw [heq] at hle ⊢
      exact .keep (hle nofun nofun) rfl rfl
    · rw [heq] at hle ⊢
      refine .release (i := .inl t.pid) (table_inl.mpr ⟨p, hp, rfl⟩) ?_ rfl rfl
      intro k y hk
      refine ⟨?_, hle nofun nofun hk⟩
      rintro rfl
      obtain ⟨p', hp', -⟩ := table_inl.mp hk
      exact (update_none_eq_some_iff.mp hp').1 rfl
  | _ => exact .keep (hle nofun nofun) rfl rfl

end View

/-- **Frames stay owned.** -/
theorem owned_step (h : Owned v.table v.history.pml4s) (hmove : TableMove v v') :
    Owned v'.table v'.history.pml4s := by
  cases hmove with
  | keep hle hused =>
    rw [hused]
    exact h.mono hle
  | acquire hx hle hused =>
    rw [hused]
    exact h.acquire hx hle
  | transfer hi hle hused =>
    rw [hused]
    exact h.transfer hi hle
  | release hi hle hused =>
    rw [hused]
    exact h.release hi hle

/-! ### The kernel's address space -/

theorem ppid_zero_step (hs : Step v e v') {q : ℕ} {p p' : Process} (hp : v.procs q = some p)
    (h0 : p.ppid = 0) (hp' : v'.procs q = some p') : p'.ppid = 0 := by
  cases hs.record_from hp' with
  | kept hold _ hrest =>
    obtain rfl := some.inj (hold.symm.trans hp)
    obtain ⟨hne, -⟩ | ⟨-, c, t, exitCode, -, -, -, -, hprocs⟩ := hs.exits
    · exact (hrest hne).1.trans h0
    · rw [hprocs, hold] at hp'
      rw [← some.inj hp']
      show (if _ then 0 else _) = 0
      rw [h0, ite_self]
  | new _ hnew => exact nomatch hnew.empty.symm.trans hp

/-- What holds as long as no kernel thread has ended. -/
structure KernelKept (kernelCr3 : ℕ) (v : View) : Prop where
  kernel : ∃ p, v.procs 0 = some p ∧ p.serial = 0 ∧ p.ppid = 0 ∧ p.pageTable = kernelCr3
  users : ∀ {j t}, v.threads j = some t → t.user = true → t.pid ≠ 0
  zombies : ∀ {j t}, v.threads j = some t → t.state = .zombie → t.user = true
  owned : Owned v.table v.history.pml4s
  intact : kernelCr3 ∉ v.history.destroyed

namespace KernelKept

variable {kernelCr3 : ℕ}

theorem initial (kernelCr3 : ℕ) : KernelKept kernelCr3 (View.initial kernelCr3) where
  kernel := ⟨_, rfl, rfl, rfl, rfl⟩
  users ht huser := by
    obtain ⟨-, rfl⟩ := initial_threads.mp ht
    cases huser
  zombies ht hz := by
    obtain ⟨-, rfl⟩ := initial_threads.mp ht
    cases hz
  owned := by
    have htable : ∀ {k x}, (View.initial kernelCr3).table k = some x → k = .inl 0 ∧
        x = kernelCr3 := by
      intro k x hk
      cases k with
      | inl q =>
        obtain ⟨p, hp, rfl⟩ := table_inl.mp hk
        obtain ⟨rfl, rfl⟩ := initial_procs.mp hp
        exact ⟨rfl, rfl⟩
      | inr j =>
        obtain ⟨t, ht, hx⟩ := table_inr.mp hk
        obtain ⟨-, rfl⟩ := initial_threads.mp ht
        cases hx
    refine ⟨?_, ?_⟩
    · intro k x hk
      rw [(htable hk).2]
      exact List.mem_singleton_self _
    · intro i j x hi hj
      rw [(htable hi).1, (htable hj).1]
  intact := nofun

theorem removes_ne_zero (h : KernelKept kernelCr3 v) {n : ℕ} {p : Process}
    (hremoves : v.Removes e n p) : n ≠ 0 := by
  obtain ⟨hp, ⟨-, -, c, t, target, hrun, huser, hchild⟩ | ⟨-, -, z, t, -, hz, hdead, rfl⟩⟩ :=
    hremoves
  · rintro rfl
    obtain ⟨p₀, hp₀, -, h0, -⟩ := h.kernel
    obtain rfl := some.inj (hp.symm.trans hp₀)
    exact h.users hrun.thread huser (hchild.2.1.symm.trans h0)
  · exact h.users hz (h.zombies hz hdead)

theorem kernel_step (h : KernelKept kernelCr3 v) (hledger : Ledger v) (hs : Step v e v') :
    ∃ p, v'.procs 0 = some p ∧ p.serial = 0 ∧ p.ppid = 0 ∧ p.pageTable = kernelCr3 := by
  obtain ⟨p, hp, hserial, h0, htable⟩ := h.kernel
  obtain ⟨-, -, hkeep⟩ | ⟨n, p₀, hremoves, hprocs, -⟩ := hs.removed hledger.pid
  · obtain ⟨p', hp', hsame⟩ := hkeep hp
    exact ⟨p', hp', hsame.serial.trans hserial, ppid_zero_step hs hp h0 hp',
      hsame.pageTable.trans htable⟩
  · rw [hprocs, Function.update_of_ne (h.removes_ne_zero hremoves).symm]
    exact ⟨p, hp, hserial, h0, htable⟩

theorem users_step (h : KernelKept kernelCr3 v) (hs : Step v e v') {j : ℕ} {t : TaskView}
    (ht : v'.threads j = some t) (huser : t.user = true) : t.pid ≠ 0 := by
  obtain ⟨t₀, hold, hsame⟩ | hnew := (hs.thread_from ht).old_or_new
  · rw [hsame.pid]
    exact h.users hold (hsame.user.symm.trans huser)
  · intro hpid
    rcases hnew.kind with ⟨hkernel, -⟩ | ⟨-, rfl⟩
    · exact nomatch hkernel.symm.trans huser
    · cases hs with
      | fork _ hborn =>
        obtain ⟨p, hp, -⟩ := h.kernel
        rw [hpid] at hborn
        exact nomatch hborn.empty.symm.trans hp

theorem zombies_step (h : KernelKept kernelCr3 v) (hs : Step v e v') (he : e ≠ .exit) {j : ℕ}
    {t : TaskView} (ht : v'.threads j = some t) (hz : t.state = .zombie) : t.user = true := by
  cases hs.thread_from ht with
  | kept hold hsame hiff => exact hsame.user.trans (h.zombies hold (hiff.mp hz))
  | died hdies hsame =>
    obtain ⟨-, ⟨hexit, -⟩ | ⟨-, huser⟩⟩ := hdies
    · exact absurd hexit he
    · exact hsame.user.trans huser
  | new hnew => exact nomatch hnew.ready.symm.trans hz

/-- The PML4 of slot 0 is still there after the step, so it was not destroyed. -/
theorem intact_step (h : KernelKept kernelCr3 v) (hledger : Ledger v) (hs : Step v e v') :
    kernelCr3 ∉ v'.history.destroyed := by
  obtain ⟨p, hp, -, -, htable⟩ := h.kernel
  obtain ⟨p', hp', -, -, htable'⟩ := h.kernel_step hledger hs
  cases hs.tables hledger.pid with
  | keep _ _ heq | acquire _ _ _ heq | transfer _ _ _ heq =>
    rw [heq]
    exact h.intact
  | @release i x hi hle _ heq =>
    rw [heq]
    refine List.not_mem_cons_of_ne_of_not_mem ?_ h.intact
    rintro rfl
    have hslot := h.owned.unique (table_inl.mpr ⟨p, hp, htable⟩) hi
    exact (hle (table_inl.mpr ⟨p', hp', htable'⟩)).1 hslot

/-- **The invariant is kept** by every step but the exit of a kernel thread. -/
theorem step (h : KernelKept kernelCr3 v) (hledger : Ledger v) (hs : Step v e v')
    (he : e ≠ .exit) : KernelKept kernelCr3 v' where
  kernel := h.kernel_step hledger hs
  users := h.users_step hs
  zombies := h.zombies_step hs he
  owned := owned_step h.owned (hs.tables hledger.pid)
  intact := h.intact_step hledger hs

end KernelKept

/-- No kernel thread ends. -/
def NoKernelExit (_ : Kernel) (a : Action) (_ : Kernel) : Prop := a ≠ .exitThread

instance (k : Kernel) (a : Action) (k' : Kernel) : Decidable (NoKernelExit k a k') :=
  inferInstanceAs (Decidable (a ≠ .exitThread))

theorem Kernel.Reachable.kernelKept {kernelCr3 : ℕ} {ok : Kernel → Action → Kernel → Prop}
    (hok : ∀ {k a k'}, ok k a k' → NoKernelExit k a k') {k : Kernel}
    (h : Kernel.Reachable kernelCr3 ok k) : KernelKept kernelCr3 k.view := by
  refine h.invariant (fun _ => KernelKept.initial kernelCr3) ?_
  intro k a k' v e v' _ hmeets horigin hledger hs hkept
  refine hkept.step hledger hs ?_
  rintro rfl
  exact hok hmeets horigin.2

/-- **The kernel's address space survives** in a run in which no kernel thread ends:
process 0 is in its slot with the page table of boot, that PML4 is in use and was never
destroyed, and no user process has pid 0. -/
theorem kernel_address_space_kept {kernelCr3 : ℕ} {k : Kernel}
    (h : Kernel.Reachable kernelCr3 NoKernelExit k) :
    (∃ p, k.sched.process 0 = some p ∧ p.serial = 0 ∧ p.pageTable = kernelCr3) ∧
      kernelCr3 ∈ k.history.pml4s ∧ kernelCr3 ∉ k.history.destroyed ∧
      ∀ i t, k.sched.tasks.get i = some t → t.user = true → t.pid ≠ 0 := by
  have hkept := h.kernelKept fun hmeets => hmeets
  obtain ⟨p, hp, hserial, -, htable⟩ := hkept.kernel
  refine ⟨⟨p, hp, hserial, htable⟩, hkept.owned.used (table_inl.mpr ⟨p, hp, htable⟩),
    hkept.intact, ?_⟩
  intro i t ht huser
  exact hkept.users (t := t.view) (congrArg (Option.map Thread.view) ht) huser

theorem kernel_address_space_kept_harvestRun :
    ∃ k, Kernel.Reachable 0x1000 NoKernelExit k ∧ k.history.gone = [3] ∧
      (∃ p, k.sched.process 0 = some p ∧ p.serial = 0 ∧ p.pageTable = 0x1000) ∧
      0x1000 ∉ k.history.destroyed := by
  obtain ⟨k, hk, hgone⟩ := Kernel.Reachable.of_execute NoKernelExit 0x1000 harvestRun
    (fun k => k.history.gone = [3]) (by decide) (by decide +kernel)
  obtain ⟨hkernel, -, hintact, -⟩ := kernel_address_space_kept hk
  exact ⟨k, hk, hgone, hkernel, hintact⟩

/-- **A kernel thread that ends takes the kernel's address space along.**  Its pid is
0, and the record in slot 0 has no parent, so `reap_zombies` removes it and gives the
PML4 of boot back; the next process then gets pid 0 and, if the allocator returns the
frame, the PML4 as well. -/
theorem kernel_address_space_destroyed :
    ∃ k, Kernel.Reachable 0x1000 (fun _ _ _ => True) k ∧
      (∀ p ∈ k.sched.process 0, p.serial ≠ 0) ∧ 0x1000 ∈ k.history.destroyed ∧
      ∃ t, k.sched.tasks.get 1 = some t ∧ t.user = true ∧ t.pid = 0 := by
  obtain ⟨k, hk, hslot, hdestroyed, hthread⟩ := Kernel.Reachable.of_execute
    (fun _ _ _ => True) 0x1000
    [.spawn 1024 0x200000 8, .schedule 0, .exitThread, .schedule 0, .schedule 0,
      .spawnUser 0x1000 0x5000 1024 0x200000 8]
    (fun k => (∀ p ∈ k.sched.process 0, p.serial ≠ 0) ∧ 0x1000 ∈ k.history.destroyed ∧
      (k.sched.tasks.get 1).any (fun t => decide (t.user = true ∧ t.pid = 0)) = true)
    (by decide) (by decide +kernel)
  obtain ⟨t, ht, hdec⟩ := (Option.any_eq_true _ _).mp hthread
  obtain ⟨huser, hpid⟩ := of_decide_eq_true hdec
  exact ⟨k, hk, hslot, hdestroyed, t, ht, huser, hpid⟩

end KernelR.Proc
