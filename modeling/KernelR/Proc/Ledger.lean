import KernelR.Proc.Lifecycle

/-!
# Who is who

Pids are used again, numbers are not: a process and its thread get the next number
when they are created. `Ledger` says that the numbers identify threads and records,
that a thread's record stays in its slot until it is removed (`Ledger.tracked`), and
that the user threads that are dead are those whose processes executed `SYS_EXIT`
(`Ledger.alive` and `Ledger.dead`). All of this holds whatever the processes do:
`Ledger.step`.
-/

namespace KernelR.Proc

open List View

/-- The numbers of the records that were removed. -/
def History.gone (h : History) : List ℕ := h.removed.map Process.serial

/-- The numbers of the processes that executed `SYS_EXIT`. -/
def History.exited (h : History) : List ℕ := h.exits.map Prod.fst

/-- **The ledger.** -/
structure Ledger (v : View) : Prop where
  started : 0 < v.history.spawned
  pid : ∀ {q p}, v.procs q = some p → p.pid = q
  record_lt : ∀ {q p}, v.procs q = some p → p.serial < v.history.spawned
  record_inj : ∀ {q q' p p'}, v.procs q = some p → v.procs q' = some p' →
    p.serial = p'.serial → q = q'
  thread_lt : ∀ {j t}, v.threads j = some t → t.serial < v.history.spawned
  thread_inj : ∀ {j j' t t'}, v.threads j = some t → v.threads j' = some t' →
    t.serial = t'.serial → j = j'
  /-- kernel threads belong to process 0 and make no system calls -/
  kernel : ∀ {j t}, v.threads j = some t → t.user = false → t.pid = 0 ∧ t.pending = .none
  /-- the number 0 is that of process 0 -/
  number : ∀ {j t}, v.threads j = some t → t.user = true → t.serial ≠ 0
  gone_lt : ∀ n ∈ v.history.gone, n < v.history.spawned
  record_not_gone : ∀ {q p}, v.procs q = some p → p.serial ∉ v.history.gone
  /-- the record that was created with a thread is in its slot, or was removed -/
  tracked : ∀ {j t}, v.threads j = some t → t.user = true →
    (∃ p, v.procs t.pid = some p ∧ p.serial = t.serial) ∨ t.serial ∈ v.history.gone
  exited_lt : ∀ n ∈ v.history.exited, n < v.history.spawned
  exited_nodup : v.history.exited.Nodup
  alive : ∀ {j t}, v.threads j = some t → t.user = true → t.state ≠ .zombie →
    t.serial ∉ v.history.exited
  dead : ∀ {j t}, v.threads j = some t → t.user = true → t.state = .zombie →
    t.serial ∈ v.history.exited
  harvests_nodup : v.history.harvests.Nodup
  harvests_gone : ∀ n ∈ v.history.harvests, n ∈ v.history.gone

namespace Ledger

variable {v v' : View} {e : Event}

/-! ### The history grows -/

theorem exited_mono (hs : Step v e v') {n : ℕ} (hn : n ∈ v.history.exited) :
    n ∈ v'.history.exited := by
  obtain ⟨-, heq⟩ | ⟨-, c, t, exitCode, -, -, heq, -⟩ := hs.exits
  · rwa [History.exited, heq]
  · rw [History.exited, heq]
    exact mem_cons_of_mem _ hn

theorem gone_mono (h : Ledger v) (hs : Step v e v') {n : ℕ} (hn : n ∈ v.history.gone) :
    n ∈ v'.history.gone := by
  obtain ⟨heq, -⟩ | ⟨q, p, -, -, heq, -⟩ := hs.removed h.pid
  · rwa [History.gone, heq]
  · rw [History.gone, heq]
    exact mem_cons_of_mem _ hn

theorem gone_step (h : Ledger v) (hs : Step v e v') :
    ∀ n ∈ v'.history.gone, n < v.history.spawned := by
  obtain ⟨heq, -⟩ | ⟨q, p, hp, -, heq, -⟩ := hs.removed h.pid
  · rw [History.gone, heq]
    exact h.gone_lt
  · rw [History.gone, heq]
    intro n hn
    rcases mem_cons.mp hn with rfl | hn
    · exact h.record_lt hp.1
    · exact h.gone_lt n hn

theorem exited_step (h : Ledger v) (hs : Step v e v') :
    ∀ n ∈ v'.history.exited, n < v.history.spawned := by
  obtain ⟨-, heq⟩ | ⟨-, c, t, exitCode, hrun, -, heq, -⟩ := hs.exits
  · rw [History.exited, heq]
    exact h.exited_lt
  · rw [History.exited, heq]
    intro n hn
    rcases mem_cons.mp hn with rfl | hn
    · exact h.thread_lt hrun.thread
    · exact h.exited_lt n hn

/-! ### Records -/

variable {j q : ℕ} {p : Process} {t : TaskView}

theorem pid_step (h : Ledger v) (hs : Step v e v') (hp : v'.procs q = some p) : p.pid = q := by
  cases hs.record_from hp with
  | kept hold hsame => exact hsame.pid.trans (h.pid hold)
  | new _ hnew => exact hnew.pid

theorem record_lt_step (h : Ledger v) (hs : Step v e v')
    (hp : v'.procs q = some p) : p.serial < v'.history.spawned := by
  cases hs.record_from hp with
  | kept hold hsame =>
    rw [hsame.serial]
    exact (h.record_lt hold).trans_le hs.spawned_le
  | new he hnew =>
    rw [hnew.serial, hs.spawned_lt (Or.inr ⟨q, he⟩)]
    exact Nat.lt_succ_self _

theorem record_inj_step (h : Ledger v) (hs : Step v e v') {q q' : ℕ} {p p' : Process}
    (hp : v'.procs q = some p) (hp' : v'.procs q' = some p') (heq : p.serial = p'.serial) :
    q = q' := by
  cases hs.record_from hp with
  | kept hold hsame =>
    cases hs.record_from hp' with
    | kept hold' hsame' =>
      exact h.record_inj hold hold' (hsame.serial.symm.trans (heq.trans hsame'.serial))
    | new _ hnew =>
      have hlt := h.record_lt hold
      rw [← hsame.serial, heq, hnew.serial] at hlt
      exact absurd hlt (lt_irrefl _)
  | new he hnew =>
    cases hs.record_from hp' with
    | kept hold' hsame' =>
      have hlt := h.record_lt hold'
      rw [← hsame'.serial, ← heq, hnew.serial] at hlt
      exact absurd hlt (lt_irrefl _)
    | new he' => exact Event.fork.inj (he.symm.trans he')

theorem record_not_gone_step (h : Ledger v) (hs : Step v e v')
    (hp : v'.procs q = some p) : p.serial ∉ v'.history.gone := by
  intro hgone
  cases hs.record_from hp with
  | kept hold hsame =>
    rw [hsame.serial] at hgone
    obtain ⟨heq, -⟩ | ⟨n, p₀, hp₀, hprocs, heq, -⟩ := hs.removed h.pid
    · rw [History.gone, heq] at hgone
      exact h.record_not_gone hold hgone
    · rw [History.gone, heq] at hgone
      rcases mem_cons.mp hgone with hserial | hgone
      · -- the record that was removed had the number: its slot is empty
        rw [h.record_inj hold hp₀.1 hserial, hprocs, Function.update_self] at hp
        cases hp
      · exact h.record_not_gone hold hgone
  | new _ hnew =>
    have hlt := h.gone_step hs _ hgone
    rw [hnew.serial] at hlt
    exact lt_irrefl _ hlt

/-! ### Threads -/

theorem thread_lt_step (h : Ledger v) (hs : Step v e v')
    (ht : v'.threads j = some t) : t.serial < v'.history.spawned := by
  obtain ⟨t₀, hold, hsame⟩ | hnew := (hs.thread_from ht).old_or_new
  · rw [hsame.serial]
    exact (h.thread_lt hold).trans_le hs.spawned_le
  · rw [hnew.serial, hs.spawned_lt]
    · exact Nat.lt_succ_self _
    · exact hnew.kind.imp (fun hk => hk.2.2) fun hk => ⟨_, hk.2⟩

theorem thread_inj_step (h : Ledger v) (hs : Step v e v') {j j' : ℕ} {t t' : TaskView}
    (ht : v'.threads j = some t) (ht' : v'.threads j' = some t') (heq : t.serial = t'.serial) :
    j = j' := by
  obtain ⟨t₀, hold, hsame⟩ | hnew := (hs.thread_from ht).old_or_new
  · obtain ⟨t₀', hold', hsame'⟩ | hnew' := (hs.thread_from ht').old_or_new
    · exact h.thread_inj hold hold' (hsame.serial.symm.trans (heq.trans hsame'.serial))
    · have hlt := h.thread_lt hold
      rw [← hsame.serial, heq, hnew'.serial] at hlt
      exact absurd hlt (lt_irrefl _)
  · obtain ⟨t₀', hold', hsame'⟩ | hnew' := (hs.thread_from ht').old_or_new
    · have hlt := h.thread_lt hold'
      rw [← hsame'.serial, ← heq, hnew.serial] at hlt
      exact absurd hlt (lt_irrefl _)
    · exact hs.spawned_unique ht ht' hnew hnew'

theorem kernel_step (h : Ledger v) (hs : Step v e v')
    (ht : v'.threads j = some t) (huser : t.user = false) : t.pid = 0 ∧ t.pending = .none := by
  obtain ⟨t₀, hold, hsame⟩ | hnew := (hs.thread_from ht).old_or_new
  · rw [hsame.user] at huser
    obtain ⟨hpid, hpending⟩ := h.kernel hold huser
    refine ⟨hsame.pid.trans hpid, ?_⟩
    rcases hsame.call with hcall | hcall | hcall
    · exact hcall.trans hpending
    · exact hcall
    · exact nomatch huser.symm.trans hcall
  · rcases hnew.kind with ⟨-, hpid, -⟩ | ⟨hkind, -⟩
    · exact ⟨hpid, hnew.pending⟩
    · exact nomatch huser.symm.trans hkind

theorem number_step (h : Ledger v) (hs : Step v e v')
    (ht : v'.threads j = some t) (huser : t.user = true) : t.serial ≠ 0 := by
  obtain ⟨t₀, hold, hsame⟩ | hnew := (hs.thread_from ht).old_or_new
  · rw [hsame.serial]
    exact h.number hold (hsame.user.symm.trans huser)
  · rw [hnew.serial]
    exact h.started.ne'

theorem tracked_step (h : Ledger v) (hs : Step v e v')
    (ht : v'.threads j = some t) (huser : t.user = true) :
    (∃ p, v'.procs t.pid = some p ∧ p.serial = t.serial) ∨ t.serial ∈ v'.history.gone := by
  obtain ⟨t₀, hold, hsame⟩ | hnew := (hs.thread_from ht).old_or_new
  · rw [hsame.pid, hsame.serial]
    rcases h.tracked hold (hsame.user.symm.trans huser) with ⟨p, hp, hserial⟩ | hgone
    · obtain ⟨-, -, hkeep⟩ | ⟨n, p₀, hp₀, hprocs, heq, -⟩ := hs.removed h.pid
      · obtain ⟨p', hp', hsame'⟩ := hkeep hp
        exact Or.inl ⟨p', hp', hsame'.serial.trans hserial⟩
      · by_cases hn : t₀.pid = n
        · subst hn
          obtain rfl : p = p₀ := Option.some.inj (hp.symm.trans hp₀.1)
          rw [History.gone, heq, ← hserial]
          exact Or.inr mem_cons_self
        · rw [hprocs, Function.update_of_ne hn]
          exact Or.inl ⟨p, hp, hserial⟩
    · exact Or.inr (h.gone_mono hs hgone)
  · rcases hnew.kind with ⟨hkind, -⟩ | ⟨-, rfl⟩
    · exact nomatch hkind.symm.trans huser
    · cases hs with
      | fork hnone hborn =>
        rw [hnew.serial]
        exact Or.inl ⟨_, Function.update_self .., hborn.serial⟩

/-! ### Deaths -/

theorem exited_nodup_step (h : Ledger v) (hs : Step v e v') : v'.history.exited.Nodup := by
  obtain ⟨-, heq⟩ | ⟨-, c, t, exitCode, hrun, huser, heq, -⟩ := hs.exits
  · rw [History.exited, heq]
    exact h.exited_nodup
  · rw [History.exited, heq]
    refine nodup_cons.mpr ⟨h.alive hrun.thread huser ?_, h.exited_nodup⟩
    rw [hrun.ready]
    nofun

theorem alive_step (h : Ledger v) (hs : Step v e v')
    (ht : v'.threads j = some t) (huser : t.user = true) (hz : t.state ≠ .zombie) :
    t.serial ∉ v'.history.exited := by
  intro hexit
  cases hs.thread_from ht with
  | @kept t₀ hold hsame hiff =>
    have halive := h.alive hold (hsame.user.symm.trans huser) (mt hiff.mpr hz)
    obtain ⟨-, heq⟩ | ⟨-, c, t', exitCode, hrun, -, heq, hdead, -⟩ := hs.exits
    · rw [History.exited, heq, hsame.serial] at hexit
      exact halive hexit
    · rw [History.exited, heq, hsame.serial] at hexit
      rcases mem_cons.mp hexit with hserial | hexit
      · -- then it is the thread that has just died
        rw [h.thread_inj hold hrun.thread hserial, hdead] at ht
        exact hz (Option.some.inj ht ▸ rfl)
      · exact halive hexit
  | died _ _ hdead => exact hz hdead
  | new hnew =>
    have hlt := h.exited_step hs _ hexit
    rw [hnew.serial] at hlt
    exact lt_irrefl _ hlt

theorem dead_step (h : Ledger v) (hs : Step v e v')
    (ht : v'.threads j = some t) (huser : t.user = true) (hz : t.state = .zombie) :
    t.serial ∈ v'.history.exited := by
  cases hs.thread_from ht with
  | kept hold hsame hiff =>
    rw [hsame.serial]
    exact exited_mono hs (h.dead hold (hsame.user.symm.trans huser) (hiff.mp hz))
  | @died t₀ hdies hsame =>
    rw [hsame.user] at huser
    rw [hsame.serial]
    obtain ⟨hrun, ⟨-, hkernel⟩ | ⟨he, -⟩⟩ := hdies
    · exact nomatch hkernel.symm.trans huser
    · obtain ⟨hne, -⟩ | ⟨-, c, t', exitCode, hrun', -, heq, -⟩ := hs.exits
      · exact absurd he hne
      · obtain rfl : j = c := Option.some.inj (hrun.current.symm.trans hrun'.current)
        obtain rfl : t₀ = t' := Option.some.inj (hrun.thread.symm.trans hrun'.thread)
        rw [History.exited, heq]
        exact mem_cons_self
  | new hnew => exact nomatch hnew.ready.symm.trans hz

theorem harvests_step (h : Ledger v) (hs : Step v e v') :
    v'.history.harvests.Nodup ∧ ∀ n ∈ v'.history.harvests, n ∈ v'.history.gone := by
  obtain ⟨heq, hsame, -⟩ | ⟨n, p, hp, -, heq, hharvest⟩ := hs.removed h.pid
  · rw [hsame, History.gone, heq]
    exact ⟨h.harvests_nodup, h.harvests_gone⟩
  · have hgone : ∀ n ∈ v.history.harvests, n ∈ v'.history.gone :=
      fun n hn => h.gone_mono hs (h.harvests_gone n hn)
    rcases hharvest with hharvest | hharvest
    · rw [hharvest]
      exact ⟨h.harvests_nodup, hgone⟩
    · rw [hharvest]
      refine ⟨nodup_cons.mpr ⟨?_, h.harvests_nodup⟩, ?_⟩
      · exact fun hn => h.record_not_gone hp.1 (h.harvests_gone _ hn)
      · intro n hn
        rcases mem_cons.mp hn with rfl | hn
        · rw [History.gone, heq]
          exact mem_cons_self
        · exact hgone n hn

theorem initial (kernelCr3 : ℕ) : Ledger (View.initial kernelCr3) where
  started := Nat.one_pos
  pid hp := by
    obtain ⟨rfl, rfl⟩ := initial_procs.mp hp
    rfl
  record_lt hp := by
    obtain ⟨-, rfl⟩ := initial_procs.mp hp
    exact Nat.one_pos
  record_inj hp hp' _ := (initial_procs.mp hp).1.trans (initial_procs.mp hp').1.symm
  thread_lt ht := by
    obtain ⟨-, rfl⟩ := initial_threads.mp ht
    exact Nat.one_pos
  thread_inj ht ht' _ := (initial_threads.mp ht).1.trans (initial_threads.mp ht').1.symm
  kernel ht _ := by
    obtain ⟨-, rfl⟩ := initial_threads.mp ht
    exact ⟨rfl, rfl⟩
  number ht huser := by
    obtain ⟨-, rfl⟩ := initial_threads.mp ht
    cases huser
  gone_lt := nofun
  record_not_gone _ := nofun
  tracked ht huser := by
    obtain ⟨-, rfl⟩ := initial_threads.mp ht
    cases huser
  exited_lt := nofun
  exited_nodup := nodup_nil
  alive _ _ _ := nofun
  dead ht huser := by
    obtain ⟨-, rfl⟩ := initial_threads.mp ht
    cases huser
  harvests_nodup := nodup_nil
  harvests_gone := nofun

/-- **The ledger is kept** by every step. -/
theorem step (h : Ledger v) (hs : Step v e v') : Ledger v' where
  started := h.started.trans_le hs.spawned_le
  pid := h.pid_step hs
  record_lt := h.record_lt_step hs
  record_inj := h.record_inj_step hs
  thread_lt := h.thread_lt_step hs
  thread_inj := h.thread_inj_step hs
  kernel := h.kernel_step hs
  number := h.number_step hs
  gone_lt n hn := (h.gone_step hs n hn).trans_le hs.spawned_le
  record_not_gone := h.record_not_gone_step hs
  tracked := h.tracked_step hs
  exited_lt n hn := (h.exited_step hs n hn).trans_le hs.spawned_le
  exited_nodup := h.exited_nodup_step hs
  alive := h.alive_step hs
  dead := h.dead_step hs
  harvests_nodup := (h.harvests_step hs).1
  harvests_gone := (h.harvests_step hs).2

end Ledger

end KernelR.Proc
