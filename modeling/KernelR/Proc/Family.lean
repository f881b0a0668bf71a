import KernelR.Proc.Teardown

/-!
# Parents and children

The part of the wait/exit protocol that is about records. A record names its parent
by pid, and pids are used again; `Family` says that this is safe as long as only
processes that have exited are removed. A `ppid` other than 0 leads to the record of
the process that did the `SYS_SPAWN`, which has not exited (`Family.parent`), and the
children of a live process are exactly the records with its pid as `ppid`
(`Family.isChild_iff`).

`Proper` collects the assumptions of the protocol.
-/

namespace KernelR.Proc

open Option View

/-- Only processes that executed `SYS_EXIT` were removed, and slot 0 is the kernel's. -/
structure Proper (v : View) : Prop where
  ledger : Ledger v
  exited : OnlyExited v.history
  slot : v.KernelSlot

variable {v v' : View} {e : Event}

namespace Proper

theorem pid_ne_zero (h : Proper v) {j : ℕ} {t : TaskView} (ht : v.threads j = some t)
    (huser : t.user = true) (hz : t.state ≠ .zombie) : t.pid ≠ 0 := by
  intro hpid
  obtain ⟨own, hown, hserial⟩ := h.ledger.own_record h.exited ht huser hz
  obtain ⟨p, hp, hzero⟩ := h.slot
  rw [hpid, hp] at hown
  rw [← some.inj hown, hzero] at hserial
  exact h.ledger.number ht huser hserial.symm

theorem pid_inj (h : Proper v) {j j' : ℕ} {t t' : TaskView} (ht : v.threads j = some t)
    (huser : t.user = true) (hz : t.state ≠ .zombie) (ht' : v.threads j' = some t')
    (huser' : t'.user = true) (hz' : t'.state ≠ .zombie) (hpid : t.pid = t'.pid) : j = j' := by
  obtain ⟨own, hown, hserial⟩ := h.ledger.own_record h.exited ht huser hz
  obtain ⟨own', hown', hserial'⟩ := h.ledger.own_record h.exited ht' huser' hz'
  rw [hpid, hown'] at hown
  rw [← some.inj hown, hserial'] at hserial
  exact h.ledger.thread_inj ht ht' hserial.symm

/-- The assumptions held before a step other than `SYS_EXIT`, if they hold after it. -/
theorem of_step (hledger : Ledger v) (hs : Step v e v') (he : e ≠ .sysExit) (h : Proper v') :
    Proper v := by
  refine ⟨hledger, ?_, h.slot.of_step hledger hs⟩
  intro n hn
  have hexited := h.exited n (hledger.gone_mono hs hn)
  obtain ⟨-, heq⟩ | ⟨hexit, -⟩ := hs.exits
  · rwa [History.exited, heq] at hexited
  · exact absurd hexit he

end Proper

theorem View.Running.not_zombie {c : ℕ} {t : TaskView} (h : v.Running c t) : t.state ≠ .zombie := by
  rw [h.ready]
  nofun

/-! ### What a step does to a record -/

/-- Where a record comes from, with all that the protocol reads. -/
inductive RecordCase (v : View) (e : Event) (v' : View) (q : ℕ) (p' : Process) : Prop
  | kept {p : Process} : e ≠ .sysExit → v.procs q = some p → SameRecord p p' →
      p'.ppid = p.ppid → p'.isZombie = p.isZombie → p'.exitCode = p.exitCode →
      v'.history.exits = v.history.exits → RecordCase v e v' q p'
  | exit {c : ℕ} {t : TaskView} {exitCode : ℤ} {p : Process} : e = .sysExit →
      v.procs q = some p → p' = exitRecord t.pid exitCode (v.wokenParent t.pid) q p →
      v.Running c t → t.user = true →
      v'.history.exits = (t.serial, exitCode) :: v.history.exits →
      v'.threads c = some { t with state := .zombie } → RecordCase v e v' q p'
  | new : e = .fork q → v.Newborn q p' → v.Fathered p' → RecordCase v e v' q p'

theorem View.Step.record_cases (hs : Step v e v') {q : ℕ} {p' : Process}
    (hp' : v'.procs q = some p') : RecordCase v e v' q p' := by
  cases hs.record_from hp' with
  | kept hp hsame hrest =>
    obtain ⟨hne, hexits⟩ | ⟨he, c, t, exitCode, hrun, huser, hexits, hdead, hprocs⟩ := hs.exits
    · obtain ⟨hppid, hz, hcode⟩ := hrest hne
      exact .kept hne hp hsame hppid hz hcode hexits
    · rw [hprocs, hp] at hp'
      exact .exit he hp (some.inj hp').symm hrun huser hexits hdead
  | new he hnew hfather => exact .new he hnew hfather

/-! ### The invariant -/

/-- The records of a run. -/
structure Family (v : View) : Prop where
  /-- the record of a zombie has the code its process passed to `SYS_EXIT` -/
  code : ∀ {q p}, v.procs q = some p → p.isZombie = true →
    ∃ exitCode, p.exitCode = some exitCode ∧ (p.serial, exitCode) ∈ v.history.exits
  zombie : ∀ {q p}, v.procs q = some p → p.serial ∈ v.history.exited → p.isZombie = true
  parent_lt : ∀ {q p}, v.procs q = some p → p.parent < v.history.spawned
  /-- a `ppid` leads to the parent, which has not exited -/
  parent : ∀ {q p}, v.procs q = some p → p.ppid ≠ 0 →
    ∃ pp, v.procs p.ppid = some pp ∧ pp.isZombie = false ∧ pp.serial = p.parent
  /-- the children of a live process name it -/
  child : ∀ {j t q p}, v.threads j = some t → t.user = true → t.state ≠ .zombie →
    v.procs q = some p → p.parent = t.serial → p.ppid = t.pid

namespace Family

theorem initial (kernelCr3 : ℕ) : Family (View.initial kernelCr3) where
  code hp hz := by
    obtain ⟨-, rfl⟩ := initial_procs.mp hp
    cases hz
  zombie _ := nofun
  parent_lt hp := by
    obtain ⟨-, rfl⟩ := initial_procs.mp hp
    exact Nat.one_pos
  parent hp h0 := by
    obtain ⟨-, rfl⟩ := initial_procs.mp hp
    exact absurd rfl h0
  child ht huser := by
    obtain ⟨-, rfl⟩ := initial_threads.mp ht
    cases huser

variable {j q : ℕ} {p : Process} {t : TaskView}

/-- The record of a live user thread is not that of a zombie. -/
theorem own (h : Family v) (hproper : Proper v)
    (ht : v.threads j = some t) (huser : t.user = true) (hz : t.state ≠ .zombie) :
    ∃ p, v.procs t.pid = some p ∧ p.serial = t.serial ∧ p.isZombie = false := by
  obtain ⟨p, hp, hserial⟩ := hproper.ledger.own_record hproper.exited ht huser hz
  refine ⟨p, hp, hserial, ?_⟩
  by_contra hzombie
  obtain ⟨exitCode, -, hexit⟩ := h.code hp (Bool.not_eq_false _ ▸ hzombie)
  rw [hserial] at hexit
  exact hproper.ledger.alive ht huser hz (List.mem_map_of_mem hexit)

theorem removed_zombie (h : Family v) (hs : Step v e v') (hexited : OnlyExited v'.history) {n : ℕ}
    (hremoves : v.Removes e n p)
    (heq : v'.history.removed = p :: v.history.removed) : p.isZombie = true := by
  have hgone : p.serial ∈ v'.history.gone := by
    rw [History.gone, heq]
    exact List.mem_cons_self
  refine h.zombie hremoves.1 ?_
  obtain ⟨-, hexits⟩ | ⟨rfl, -⟩ := hs.exits
  · have hmem := hexited _ hgone
    rwa [History.exited, hexits] at hmem
  · obtain ⟨-, ⟨he, -⟩ | ⟨he, -⟩⟩ := hremoves
    · cases he
    · cases he

/-- **The children of a live process** are the records with its pid as `ppid`. -/
theorem isChild_iff (h : Family v) (hproper : Proper v)
    (ht : v.threads j = some t) (huser : t.user = true) (hz : t.state ≠ .zombie)
    {target q : ℕ} :
    v.IsChild t.pid target q p ↔
      v.procs q = some p ∧ p.parent = t.serial ∧ Kernel.waitMatches target p := by
  constructor
  · rintro ⟨hp, hppid, hmatch⟩
    have h0 := hproper.pid_ne_zero ht huser hz
    rw [← hppid] at h0
    obtain ⟨pp, hpp, -, hserial⟩ := h.parent hp h0
    obtain ⟨own, hown, hown_serial, -⟩ := h.own hproper ht huser hz
    rw [hppid, hown] at hpp
    rw [← some.inj hpp, hown_serial] at hserial
    exact ⟨hp, hserial.symm, hmatch⟩
  · rintro ⟨hp, hparent, hmatch⟩
    exact ⟨hp, h.child ht huser hz hp hparent, hmatch⟩

/-! ### Steps -/

theorem code_step (h : Family v) (hproper : Proper v) (hs : Step v e v')
    (hp : v'.procs q = some p) (hz : p.isZombie = true) :
    ∃ exitCode, p.exitCode = some exitCode ∧ (p.serial, exitCode) ∈ v'.history.exits := by
  cases hs.record_cases hp with
  | kept _ hold hsame _ hzombie hcode hexits =>
    rw [hcode, hsame.serial, hexits]
    exact h.code hold (hzombie ▸ hz)
  | @exit c t exitCode p₀ _ hold heq hrun huser hexits =>
    subst heq
    rw [hexits]
    by_cases hq : q = t.pid
    · subst hq
      obtain ⟨own, hown, hserial, -⟩ := h.own hproper hrun.thread huser hrun.not_zombie
      obtain rfl := some.inj (hown.symm.trans hold)
      refine ⟨exitCode, if_pos rfl, ?_⟩
      show (own.serial, exitCode) ∈ _
      rw [hserial]
      exact List.mem_cons_self
    · obtain ⟨exitCode₀, hcode, hmem⟩ := h.code hold ((if_neg hq).symm.trans hz)
      exact ⟨exitCode₀, (if_neg hq).trans hcode, List.mem_cons_of_mem _ hmem⟩
  | new _ hnew => exact nomatch hnew.isZombie.symm.trans hz

theorem zombie_step (h : Family v) (hproper : Proper v) (hs : Step v e v')
    (hp : v'.procs q = some p) (hexited : p.serial ∈ v'.history.exited) : p.isZombie = true := by
  cases hs.record_cases hp with
  | kept _ hold hsame _ hzombie _ hexits =>
    rw [hsame.serial, History.exited, hexits] at hexited
    exact hzombie.trans (h.zombie hold hexited)
  | @exit c t exitCode p₀ _ hold heq hrun huser hexits =>
    subst heq
    show (if q = t.pid then true else p₀.isZombie) = true
    rw [History.exited, hexits] at hexited
    rcases List.mem_cons.mp hexited with hserial | hexited
    · obtain ⟨own, hown, hown_serial, -⟩ := h.own hproper hrun.thread huser hrun.not_zombie
      rw [if_pos (hproper.ledger.record_inj hold hown (hserial.trans hown_serial.symm))]
    · rw [h.zombie hold hexited, ite_self]
  | new _ hnew =>
    have hlt := hproper.ledger.exited_step hs _ hexited
    rw [hnew.serial] at hlt
    exact absurd hlt (lt_irrefl _)

theorem parent_lt_step (h : Family v) (hledger : Ledger v) (hs : Step v e v')
    (hp : v'.procs q = some p) : p.parent < v'.history.spawned := by
  refine lt_of_lt_of_le ?_ hs.spawned_le
  cases hs.record_from hp with
  | kept hold hsame =>
    rw [hsame.parent]
    exact h.parent_lt hold
  | new _ _ hfather =>
    obtain ⟨-, hzero⟩ | ⟨c, t, hrun, -, -, hserial⟩ := hfather
    · rw [hzero]
      exact hledger.started
    · rw [hserial]
      exact hledger.thread_lt hrun.thread

/-- A record that stays and that is not marked by the step. -/
theorem living_stays (h : Family v) (hledger : Ledger v) (hs : Step v e v')
    (hexited : OnlyExited v'.history) {n : ℕ} {pp : Process} (hpp : v.procs n = some pp)
    (hz : pp.isZombie = false)
    (hexit : ∀ {c t}, e = .sysExit → v.Running c t → n ≠ t.pid) :
    ∃ pp', v'.procs n = some pp' ∧ pp'.isZombie = false ∧ SameRecord pp pp' := by
  obtain ⟨-, -, hkeep⟩ | ⟨m, p₀, hremoves, hprocs, heq, -⟩ := hs.removed hledger.pid
  · obtain ⟨pp', hpp', hsame⟩ := hkeep hpp
    refine ⟨pp', hpp', ?_, hsame⟩
    cases hs.record_cases hpp' with
    | kept _ hold _ _ hzombie =>
      obtain rfl := some.inj (hold.symm.trans hpp)
      exact hzombie.trans hz
    | exit he hold heq hrun =>
      obtain rfl := some.inj (hold.symm.trans hpp)
      subst heq
      exact (if_neg (hexit he hrun)).trans hz
    | new _ hnew => exact hnew.isZombie
  · refine ⟨pp, ?_, hz, rfl, rfl, rfl, rfl⟩
    rw [hprocs, Function.update_of_ne]
    · exact hpp
    · rintro rfl
      obtain rfl := some.inj (hremoves.1.symm.trans hpp)
      exact nomatch hz.symm.trans (h.removed_zombie hs hexited hremoves heq)

theorem parent_step (h : Family v) (hproper : Proper v) (hs : Step v e v')
    (hexited : OnlyExited v'.history) (hp : v'.procs q = some p)
    (h0 : p.ppid ≠ 0) :
    ∃ pp, v'.procs p.ppid = some pp ∧ pp.isZombie = false ∧ pp.serial = p.parent := by
  cases hs.record_cases hp with
  | kept hne hold hsame hppid =>
    rw [hppid] at h0
    obtain ⟨pp, hpp, hz, hserial⟩ := h.parent hold h0
    obtain ⟨pp', hpp', hz', hsame'⟩ :=
      h.living_stays hproper.ledger hs hexited hpp hz (fun he => absurd he hne)
    exact ⟨pp', hppid ▸ hpp', hz', hsame'.serial.trans (hserial.trans hsame.parent.symm)⟩
  | @exit c t exitCode p₀ _ hold heq hrun =>
    subst heq
    -- the record was not handed over, so its parent is not the process that exits
    have hppid : p₀.ppid ≠ t.pid := fun hpid => h0 (if_pos hpid)
    have hsame : (exitRecord t.pid exitCode (v.wokenParent t.pid) q p₀).ppid = p₀.ppid :=
      if_neg hppid
    rw [hsame] at h0 ⊢
    obtain ⟨pp, hpp, hz, hserial⟩ := h.parent hold h0
    obtain ⟨pp', hpp', hz', hsame'⟩ := h.living_stays hproper.ledger hs hexited hpp hz (by
      intro c' t' _ hrun'
      obtain rfl := some.inj (hrun.current.symm.trans hrun'.current)
      obtain rfl := some.inj (hrun.thread.symm.trans hrun'.thread)
      exact hppid)
    exact ⟨pp', hpp', hz', hsame'.serial.trans hserial⟩
  | new he hnew hfather =>
    subst he
    obtain ⟨hzero, -⟩ | ⟨c, t, hrun, huser, hppid, hserial⟩ := hfather
    · exact absurd hzero h0
    · obtain ⟨own, hown, hown_serial, hz⟩ := h.own hproper hrun.thread huser hrun.not_zombie
      obtain ⟨own', hown', hz', hsame'⟩ :=
        h.living_stays hproper.ledger hs hexited hown hz (fun he => nomatch he)
      rw [hppid]
      exact ⟨own', hown', hz', hsame'.serial.trans (hown_serial.trans hserial.symm)⟩

theorem child_step (h : Family v) (hproper : Proper v) (hs : Step v e v')
    (ht : v'.threads j = some t) (huser : t.user = true)
    (hz : t.state ≠ .zombie) (hp : v'.procs q = some p) (hparent : p.parent = t.serial) :
    p.ppid = t.pid := by
  have hledger := hproper.ledger
  cases hs.thread_from ht with
  | @kept t₀ hold hsame hiff =>
    rw [hsame.serial] at hparent
    rw [hsame.user] at huser
    rw [hsame.pid]
    have hz₀ : t₀.state ≠ .zombie := mt hiff.mpr hz
    cases hs.record_cases hp with
    | kept _ hrecord hkept hppid =>
      rw [hppid]
      exact h.child hold huser hz₀ hrecord (hkept.parent.symm.trans hparent)
    | @exit c t₁ exitCode p₀ _ hrecord heq hrun huser₁ _ hdead =>
      subst heq
      have hppid : p₀.ppid = t₀.pid := h.child hold huser hz₀ hrecord hparent
      refine (if_neg ?_).trans hppid
      rw [hppid]
      intro hpid
      obtain rfl := hproper.pid_inj hold huser hz₀ hrun.thread huser₁ hrun.not_zombie hpid
      rw [hdead] at ht
      exact hz (some.inj ht ▸ rfl)
    | new _ _ hfather =>
      obtain ⟨-, hzero⟩ | ⟨c, t₁, hrun, -, hppid, hserial⟩ := hfather
      · exact absurd (hparent.symm.trans hzero) (hledger.number hold huser)
      · obtain rfl := hledger.thread_inj hold hrun.thread (hparent.symm.trans hserial)
        rw [hppid, some.inj (hold.symm.trans hrun.thread)]
  | died _ _ hdead => exact absurd hdead hz
  | new hnew =>
    -- nobody is a child of a process that was not there before
    rw [hnew.serial] at hparent
    cases hs.record_from hp with
    | kept hrecord hkept =>
      have hlt := h.parent_lt hrecord
      rw [← hkept.parent, hparent] at hlt
      exact absurd hlt (lt_irrefl _)
    | new _ _ hfather =>
      obtain ⟨-, hzero⟩ | ⟨c, t₁, hrun, -, -, hserial⟩ := hfather
      · exact absurd (hparent.symm.trans hzero) hledger.started.ne'
      · have hlt := hledger.thread_lt hrun.thread
        rw [← hserial, hparent] at hlt
        exact absurd hlt (lt_irrefl _)

/-- **The invariant is kept.** -/
theorem step (h : Family v) (hproper : Proper v) (hs : Step v e v')
    (hexited : OnlyExited v'.history) : Family v' where
  code := h.code_step hproper hs
  zombie := h.zombie_step hproper hs
  parent_lt := h.parent_lt_step hproper.ledger hs
  parent := h.parent_step hproper hs hexited
  child := h.child_step hproper hs

end Family

end KernelR.Proc
