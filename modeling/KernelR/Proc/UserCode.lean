import KernelR.Proc.Brk
import KernelR.Proc.Coherence

/-!
# Who can make a system call

The scheduler as a system with `SYS_BRK`, and with a rule of the machine.
`destroy_user_address_space` removes every user page from the page table and flushes the TLB, so
a thread that runs on a page table that was given back has no code left to make a system call
with. `Kernel.stepMemory` therefore lets user code make one only while the page table in `CR3`
is in use, and leaves `exec_from_vfs` to the boot code and to kernel threads, which call it.

`LoadedTable` says that the page table in `CR3` is the one of the current user thread's process,
or that it was given back together with the record. So the slot of a thread that can make a
system call is filled, and no new process takes it.
-/

namespace KernelR.Proc

open Function Option Foundations View

/-! ### The system -/

/-- A system call, which is an instruction of a user program. -/
def Action.userCode : Action → Bool
  | .sysSpawn .. => true
  | .sysExit _ => true
  | .sysWait .. => true
  | _ => false

/-- `exec_from_vfs`: a spawn with pid 0 as the parent, by the boot code or by a kernel thread. -/
def Action.execs : Action → Bool
  | .spawnUser .. => true
  | _ => false

/-- The steps of the system, with `SYS_BRK`; the memory that it finds is left open. -/
inductive MemoryAction where
  | call (a : Action)
  | brk (pages : PageLog) (requestedBreak : ℕ)

namespace Kernel

/-- User code can be fetched: the page table in `CR3` has not been given back. -/
def UserCode (k : Kernel) : Prop := k.cpu.cr3 ∈ k.history.pml4s

/-- The current thread, if there is one, is a kernel thread. -/
def KernelCode (k : Kernel) : Prop :=
  ∀ t ∈ k.sched.currentTask.bind k.sched.tasks.get, t.user = false

instance (k : Kernel) : Decidable k.UserCode :=
  inferInstanceAs (Decidable (_ ∈ k.history.pml4s))

instance (k : Kernel) : Decidable k.KernelCode :=
  inferInstanceAs (Decidable (∀ t ∈ k.sched.currentTask.bind k.sched.tasks.get, _))

/-- Who executes this call can execute at all. -/
def Executes (k : Kernel) (a : Action) : Prop :=
  (a.userCode = true → k.UserCode) ∧ (a.execs = true → k.KernelCode)

instance (k : Kernel) (a : Action) : Decidable (k.Executes a) :=
  inferInstanceAs (Decidable (_ ∧ _))

/-- `SYS_BRK` -/
def sysBrk (k : Kernel) (pages : PageLog) (requestedBreak : ℕ) : Option Kernel := do
  let current ← k.sched.currentTask
  let t ← k.sched.tasks.get current
  let process ← k.sched.process t.pid
  let (_, u) ← Proc.sysBrk (.ofNat 64 k.cpu.cr3) requestedBreak
    ⟨process, k.cpu.currentBounds, pages⟩
  let k := k.modifyProcess t.pid fun _ => u.process
  some { k with cpu := { k.cpu with currentBounds := u.bounds } }

/-- One step. -/
def stepMemory (k : Kernel) : MemoryAction → Option Kernel
  | .call a => if k.Executes a then k.step a else none
  | .brk pages requestedBreak =>
    k.running.bind fun (_, t) =>
      if Starts true t ∧ k.UserCode then k.sysBrk pages requestedBreak else none

end Kernel

/-! ### The page table of the current thread -/

section Table

variable {v v' : View} {e : Event} {kernelCr3 : ℕ}

theorem View.Step.ppid_from (hs : Step v e v') {q : ℕ} {p' : Process} (hp' : v'.procs q = some p') :
    (∃ p, v.procs q = some p ∧ (p'.ppid = p.ppid ∨ p'.ppid = 0)) ∨
      e = .fork q ∧ v.Newborn q p' ∧ v.Fathered p' := by
  cases hs.record_from hp' with
  | kept hp _ hrest =>
    refine Or.inl ⟨_, hp, ?_⟩
    obtain ⟨hne, -⟩ | ⟨-, c, t, exitCode, -, -, -, -, hprocs⟩ := hs.exits
    · exact Or.inl (hrest hne).1
    · rw [hprocs, hp] at hp'
      rw [← some.inj hp']
      show (if _ then 0 else _) = _ ∨ (if _ then 0 else _) = 0
      split
      · exact Or.inr rfl
      · exact Or.inl rfl
  | new he hnew hfather => exact Or.inr ⟨he, hnew, hfather⟩

/-- A page table that was given back comes into use with a new process only. -/
theorem View.Step.pml4s_subset (hs : Step v e v') (hfork : ∀ n, e ≠ .fork n) :
    v'.history.pml4s ⊆ v.history.pml4s := by
  cases hs with
  | @fork i n => exact absurd rfl (hfork n)
  | finish => exact List.erase_subset
  | @reap z rest t =>
    obtain heq | ⟨p, -, -, heq⟩ := (v.removeThread z rest).reapProcess_cases t.pid
    · rw [heq]
      exact List.Subset.refl _
    · rw [heq]
      exact List.erase_subset
  | _ => exact List.Subset.refl _

/-- The page table of a process that is reaped is given back. -/
theorem View.Step.reap_pml4s (hs : Step v .reap v') {q : ℕ} {p : Process}
    (hp : v.procs q = some p) (hnone : v'.procs q = none) :
    v'.history.pml4s = v.history.pml4s.erase p.pageTable := by
  cases hs with
  | @reap z rest t =>
    obtain heq | ⟨p', hp', -, heq⟩ := (v.removeThread z rest).reapProcess_cases t.pid
    · rw [heq] at hnone
      exact nomatch hnone.symm.trans hp
    · rw [heq] at hnone ⊢
      have hq : q = t.pid := by
        by_contra hne
        exact nomatch hnone.symm.trans ((update_of_ne hne _ _).trans hp)
      subst hq
      obtain rfl := some.inj (hp.symm.trans hp')
      rfl

/-- If a user thread is current, its code can be fetched. -/
def View.UserCode (v : View) : Prop :=
  ∀ {c t}, v.current = some c → v.threads c = some t → t.user = true → v.cr3 ∈ v.history.pml4s

/-- The page table of the current user thread's process is in `CR3`; if the process is gone, its
page table was given back. -/
structure LoadedTable (v : View) : Prop where
  present : ∀ {c}, v.current = some c → ∃ t, v.threads c = some t
  users : ∀ {j t}, v.threads j = some t → t.user = true → t.pid ≠ 0
  small : ∀ {j t}, v.threads j = some t → t.pid < 2 ^ 60
  idle : ∃ i t, v.idle = some i ∧ v.threads i = some t ∧ t.user = false ∧ t.state ≠ .zombie
  /-- no process but process 0 is its own parent -/
  parents : ∀ {q p}, v.procs q = some p → p.ppid = q → q = 0
  aligned : ∀ {q p}, v.procs q = some p → 4096 ∣ p.pageTable
  nodup : v.history.pml4s.Nodup
  loaded : ∀ {c t p}, v.current = some c → v.threads c = some t → t.user = true →
    v.procs t.pid = some p → v.cr3 = p.pageTable
  gone : ∀ {c t}, v.current = some c → v.threads c = some t → t.user = true →
    v.procs t.pid = none → v.cr3 ∉ v.history.pml4s

namespace LoadedTable

theorem initial (hcr3 : 4096 ∣ kernelCr3) : LoadedTable (View.initial kernelCr3) where
  present := nofun
  users ht huser := by
    obtain ⟨-, rfl⟩ := initial_threads.mp ht
    cases huser
  small ht := by
    obtain ⟨-, rfl⟩ := initial_threads.mp ht
    decide
  idle := ⟨0, _, rfl, rfl, rfl, nofun⟩
  parents hp _ := (initial_procs.mp hp).1
  aligned hp := by
    obtain ⟨rfl, rfl⟩ := initial_procs.mp hp
    exact hcr3
  nodup := List.nodup_singleton _
  loaded := nofun
  gone := nofun

variable {c : ℕ} {t : TaskView}

theorem process_of_code (h : LoadedTable v) (hcode : v.UserCode)
    (hcur : v.current = some c) (ht : v.threads c = some t) (huser : t.user = true) :
    v.procs t.pid ≠ none :=
  fun hnone => h.gone hcur ht huser hnone (hcode hcur ht huser)

theorem present_step (h : LoadedTable v) (hs : Step v e v') (hc : v'.current = some c) :
    ∃ t, v'.threads c = some t := by
  by_cases hswitch : e = .switch
  · subst hswitch
    cases hs with
    | switch ht => exact ⟨_, some.inj hc ▸ ht⟩
  by_cases hidle : e = .idle
  · subst hidle
    obtain ⟨i, t, hi, ht, -⟩ := h.idle
    cases hs with
    | idle hj =>
      obtain rfl := some.inj (hi.symm.trans (hj.trans hc))
      exact ⟨t, ht⟩
  obtain ⟨hcurrent, -⟩ := hs.current_eq hswitch hidle
  rw [hcurrent] at hc
  obtain ⟨t, ht⟩ := h.present hc
  obtain ⟨t', ht', -⟩ := hs.thread_stays ht (Or.inl hc)
  exact ⟨t', ht'⟩

theorem users_step (h : LoadedTable v) (hs : Step v e v') (hslot : v.KernelSlot) {j : ℕ}
    (ht : v'.threads j = some t) (huser : t.user = true) : t.pid ≠ 0 := by
  obtain ⟨t₀, hold, hsame⟩ | hnew := (hs.thread_from ht).old_or_new
  · rw [hsame.pid]
    exact h.users hold (hsame.user.symm.trans huser)
  · rcases hnew.kind with ⟨hkernel, -⟩ | ⟨-, rfl⟩
    · exact nomatch hkernel.symm.trans huser
    · intro hpid
      obtain ⟨p, hp, -⟩ := hslot
      cases hs with
      | fork _ hborn =>
        rw [hpid] at hborn
        exact nomatch hborn.empty.symm.trans hp

theorem small_step (h : LoadedTable v) (hs : Step v e v') {j : ℕ}
    (ht : v'.threads j = some t) : t.pid < 2 ^ 60 := by
  obtain ⟨t₀, hold, hsame⟩ | hnew := (hs.thread_from ht).old_or_new
  · rw [hsame.pid]
    exact h.small hold
  · rcases hnew.kind with ⟨-, hpid, -⟩ | ⟨-, rfl⟩
    · rw [hpid]
      decide
    · cases hs with
      | fork _ hborn => exact hborn.small

theorem parents_step (h : LoadedTable v) (hs : Step v e v')
    (hfork : ∀ n, e = .fork n → v.UserCode) {q : ℕ} {p : Process} (hp : v'.procs q = some p)
    (hself : p.ppid = q) : q = 0 := by
  obtain ⟨p₀, hp₀, hsame | hzero⟩ | ⟨he, hnew, hzero | ⟨c, t, hrun, huser, hppid, -⟩⟩ :=
    hs.ppid_from hp
  · exact h.parents hp₀ (hsame.symm.trans hself)
  · exact hself.symm.trans hzero
  · exact hself.symm.trans hzero.1
  · -- the creator has a record, and the new one is in another slot
    refine absurd ?_ (h.process_of_code (hfork q he) hrun.current hrun.thread huser)
    rw [← hppid, hself]
    exact hnew.empty

theorem aligned_step (h : LoadedTable v) (hs : Step v e v') {q : ℕ} {p : Process}
    (hp : v'.procs q = some p) : 4096 ∣ p.pageTable := by
  cases hs.record_from hp with
  | kept hold hsame =>
    rw [hsame.pageTable]
    exact h.aligned hold
  | new _ hnew => exact hnew.aligned

theorem nodup_step (h : LoadedTable v) (hledger : Ledger v) (hs : Step v e v') :
    v'.history.pml4s.Nodup := by
  cases hs.tables hledger.pid with
  | keep _ heq | transfer _ _ heq =>
    rw [heq]
    exact h.nodup
  | acquire hx _ heq =>
    rw [heq]
    exact List.nodup_cons.mpr ⟨hx, h.nodup⟩
  | release _ _ heq =>
    rw [heq]
    exact h.nodup.erase _

/-- **`CR3` and the record** of a thread that stays current. -/
theorem stays (h : LoadedTable v) (hledger : Ledger v) (hs : Step v e v')
    (hfork : ∀ n, e = .fork n → v.UserCode) (hcr3 : v'.cr3 = v.cr3) {t t' : TaskView}
    (hcur : v.current = some c) (ht : v.threads c = some t) (hsame : SameThread t t')
    (huser : t'.user = true) :
    (∀ {p}, v'.procs t'.pid = some p → v'.cr3 = p.pageTable) ∧
      (v'.procs t'.pid = none → v'.cr3 ∉ v'.history.pml4s) := by
  rw [hsame.user] at huser
  rw [hsame.pid, hcr3]
  constructor
  · intro p' hp'
    cases hs.record_from hp' with
    | kept hp hrecord => exact (h.loaded hcur ht huser hp).trans hrecord.pageTable.symm
    | new he hnew =>
      exact absurd hnew.empty (h.process_of_code (hfork _ he) hcur ht huser)
  · intro hnone
    cases hp : v.procs t.pid with
    | none =>
      refine fun hmem => h.gone hcur ht huser hp (hs.pml4s_subset ?_ hmem)
      rintro n rfl
      exact h.process_of_code (hfork n rfl) hcur ht huser hp
    | some p =>
      obtain ⟨-, -, hkeep⟩ | ⟨n, p₀, hremoves, hprocs, -⟩ := hs.removed hledger.pid
      · obtain ⟨p', hp', -⟩ := hkeep hp
        exact nomatch hp'.symm.trans hnone
      · have hn : t.pid = n := by
          by_contra hne
          rw [hprocs, update_of_ne hne, hp] at hnone
          cases hnone
        subst hn
        rw [h.loaded hcur ht huser hp]
        obtain ⟨hp₀, ⟨-, -, c', u, target, hrun, -, hchild⟩ | ⟨rfl, -⟩⟩ := hremoves
        · -- nobody harvests its own record
          obtain rfl := some.inj (hcur.symm.trans hrun.current)
          obtain rfl := some.inj (ht.symm.trans hrun.thread)
          exact absurd (h.parents hchild.1 hchild.2.1) (h.users ht huser)
        · obtain rfl := some.inj (hp.symm.trans hp₀)
          rw [hs.reap_pml4s hp hnone]
          exact h.nodup.not_mem_erase

theorem switched (h : LoadedTable v) (hledger : Ledger v) (hs : Step v .switch v')
    (hc : v'.current = some c) (ht : v'.threads c = some t)
    (huser : t.user = true) :
    (∀ {p}, v'.procs t.pid = some p → v'.cr3 = p.pageTable) ∧
      (v'.procs t.pid = none → v'.cr3 ∉ v'.history.pml4s) := by
  cases hs with
  | @switch i prev cr3 u hu hready _ hprev hcr3 =>
    cases hc
    obtain rfl := some.inj (hu.symm.trans ht)
    rcases hcr3 with ⟨rfl, rfl⟩ | ⟨-, p, hp, rfl⟩
    · unfold View.prevPid at hprev
      split at hprev
      · next c hcur =>
          obtain ⟨t₀, ht₀, hpid⟩ := map_eq_some_iff.mp hprev
          have huser₀ : t₀.user = true := by
            by_contra hkernel
            have hzero := (hledger.kernel ht₀ (Bool.eq_false_iff.mpr hkernel)).1
            exact h.users ht huser (hpid.symm.trans hzero)
          rw [← hpid]
          exact ⟨h.loaded hcur ht₀ huser₀, h.gone hcur ht₀ huser₀⟩
      · have hlt := h.small ht
        rw [← some.inj hprev] at hlt
        exact absurd hlt (by decide)
    · refine ⟨fun {p'} hp' => ?_, fun hnone => nomatch hnone.symm.trans hp⟩
      obtain rfl := some.inj (hp.symm.trans hp')
      exact Nat.div_mul_cancel (h.aligned hp)

theorem current_step (h : LoadedTable v) (hledger : Ledger v) (hs : Step v e v')
    (hfork : ∀ n, e = .fork n → v.UserCode) (hc : v'.current = some c)
    (ht : v'.threads c = some t) (huser : t.user = true) :
    (∀ {p}, v'.procs t.pid = some p → v'.cr3 = p.pageTable) ∧
      (v'.procs t.pid = none → v'.cr3 ∉ v'.history.pml4s) := by
  by_cases hswitch : e = .switch
  · subst hswitch
    exact h.switched hledger hs hc ht huser
  by_cases hidle : e = .idle
  · subst hidle
    obtain ⟨i, t₀, hi, ht₀, hkernel, -⟩ := h.idle
    cases hs with
    | idle hj =>
      obtain rfl := some.inj (hi.symm.trans (hj.trans hc))
      obtain rfl := some.inj (ht₀.symm.trans ht)
      exact nomatch hkernel.symm.trans huser
  obtain ⟨hcurrent, hcr3⟩ := hs.current_eq hswitch hidle
  rw [hcurrent] at hc
  obtain ⟨t₀, ht₀⟩ := h.present hc
  obtain ⟨t', ht', hsame⟩ := hs.thread_stays ht₀ (Or.inl hc)
  obtain rfl := some.inj (ht'.symm.trans ht)
  exact h.stays hledger hs hfork hcr3 hc ht₀ hsame huser

/-- **The invariant is kept** as long as processes are created by code that can run. -/
theorem step (h : LoadedTable v) (hledger : Ledger v) (hs : Step v e v') (hslot : v.KernelSlot)
    (hfork : ∀ n, e = .fork n → v.UserCode) : LoadedTable v' where
  present := h.present_step hs
  users := h.users_step hs hslot
  small := h.small_step hs
  idle := hs.idle_kernel h.idle
  parents := h.parents_step hs hfork
  aligned := h.aligned_step hs
  nodup := h.nodup_step hledger hs
  loaded hc ht huser hp := (h.current_step hledger hs hfork hc ht huser).1 hp
  gone hc ht huser := (h.current_step hledger hs hfork hc ht huser).2

end LoadedTable

/-! ### `SYS_BRK` on the view -/

/-- The process in this slot has another break. -/
def View.setBreak (v : View) (q b : ℕ) : View :=
  { v with
    procs := Function.update v.procs q
      ((v.procs q).map fun p => { p with programBreak := b }) }

theorem View.setBreak_before {q b n : ℕ} {p' : Process} (h : (v.setBreak q b).procs n = some p') :
    ∃ p b', v.procs n = some p ∧ p' = { p with programBreak := b' } := by
  by_cases hn : n = q
  · subst hn
    simp only [View.setBreak, update_self, map_eq_some_iff] at h
    obtain ⟨p, hp, rfl⟩ := h
    exact ⟨p, b, hp, rfl⟩
  · exact ⟨p', p'.programBreak, (update_of_ne hn _ _).symm.trans h, rfl⟩

theorem View.setBreak_after {q b n : ℕ} {p : Process} (h : v.procs n = some p) :
    ∃ b', (v.setBreak q b).procs n = some { p with programBreak := b' } := by
  by_cases hn : n = q
  · subst hn
    exact ⟨b, (update_self ..).trans (congrArg (Option.map _) h)⟩
  · exact ⟨p.programBreak, (update_of_ne hn _ _).trans h⟩

theorem Ledger.setBreak (h : Ledger v) (q b : ℕ) : Ledger (v.setBreak q b) where
  started := h.started
  pid hp := by
    obtain ⟨p, b', hold, rfl⟩ := setBreak_before hp
    exact h.pid (p := p) hold
  record_lt hp := by
    obtain ⟨p, b', hold, rfl⟩ := setBreak_before hp
    exact h.record_lt (p := p) hold
  record_inj hp hp' hserial := by
    obtain ⟨p, b₁, hold, rfl⟩ := setBreak_before hp
    obtain ⟨p', b₂, hold', rfl⟩ := setBreak_before hp'
    exact h.record_inj hold hold' hserial
  thread_lt := h.thread_lt
  thread_inj := h.thread_inj
  kernel := h.kernel
  number := h.number
  gone_lt := h.gone_lt
  record_not_gone hp := by
    obtain ⟨p, b', hold, rfl⟩ := setBreak_before hp
    exact h.record_not_gone (p := p) hold
  tracked ht huser := by
    refine (h.tracked ht huser).imp_left ?_
    rintro ⟨p, hp, hserial⟩
    obtain ⟨b', hp'⟩ := setBreak_after hp
    exact ⟨_, hp', hserial⟩
  exited_lt := h.exited_lt
  exited_nodup := h.exited_nodup
  alive := h.alive
  dead := h.dead
  harvests_nodup := h.harvests_nodup
  harvests_gone := h.harvests_gone

theorem LoadedTable.setBreak (h : LoadedTable v) (q b : ℕ) : LoadedTable (v.setBreak q b) where
  present := h.present
  users := h.users
  small := h.small
  idle := h.idle
  parents hp hself := by
    obtain ⟨p, b', hold, rfl⟩ := setBreak_before hp
    exact h.parents hold hself
  aligned hp := by
    obtain ⟨p, b', hold, rfl⟩ := setBreak_before hp
    exact h.aligned (p := p) hold
  nodup := h.nodup
  loaded hc ht huser hp := by
    obtain ⟨p, b', hold, rfl⟩ := setBreak_before hp
    exact h.loaded (p := p) hc ht huser hold
  gone {c t} hc ht huser hnone := by
    refine h.gone hc ht huser ?_
    cases hp : v.procs t.pid with
    | none => rfl
    | some p =>
      obtain ⟨b', hp'⟩ := setBreak_after hp
      exact nomatch hp'.symm.trans hnone

end Table

end KernelR.Proc
