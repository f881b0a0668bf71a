import KernelR.Proc.HandlerRules

/-!
# The interrupt flag at the return of a system call

`syscall_entry_stub` runs `rust_syscall_handler` with interrupts off, and after that it restores
the user's stack pointer and swaps `GS` with the kernel's stack gone already: an interrupt there
would run on the user's stack. The guards of `Locked` put the flag back. The blocking
primitives do not: they turn interrupts on and leave them on, and so does `SYS_WAIT` when it has
to sleep. `interrupts_off_at_return` says which calls return with interrupts off: all but these.
-/

namespace KernelR.Proc

open Option Foundations Code

/-- The child that `SYS_WAIT` of this process may wait for. -/
def Kernel.Awaits (k : Kernel) (pid target : ℕ) (p : Process) : Prop :=
  some p ∈ k.sched.processes ∧ p.ppid = pid ∧ Kernel.waitMatches target p

/-- `SYS_WAIT`, with children to wait for none of which is a zombie. -/
def WaitsForChild (regs : Registers) (s : System) : Prop :=
  SyscallNo.decode regs.rax = .sysWait ∧
    ∃ pid serial, s.currentPid = some (pid, serial) ∧
      (∃ p, s.files.kernel.Awaits pid regs.rdi p) ∧
      ∀ p, s.files.kernel.Awaits pid regs.rdi p → p.isZombie = false

/-- The call has to turn interrupts on. -/
def TurnsInterruptsOn (regs : Registers) (s : System) : Prop :=
  ReadsConsole regs s ∨ WaitsForChild regs s

namespace Handler

/-! ### The first round of `SYS_WAIT` -/

/-- It ends with the thread asleep if there are children to wait for and no zombie among them. -/
theorem waitRound_blocked {target statusPtr : ℕ} {s s' : System} {result : Kernel.WaitResult}
    (h : waitRound target statusPtr s = some (result, s')) :
    result = .blocked ↔ ∃ pid serial, s.currentPid = some (pid, serial) ∧
      (∃ p, s.files.kernel.Awaits pid target p) ∧
      ∀ p, s.files.kernel.Awaits pid target p → p.isZombie = false := by
  obtain ⟨⟨k, r⟩, hround, hpair⟩ := map_eq_some_iff.mp h
  cases hpair
  obtain ⟨current, hcur, hround⟩ := bind_eq_some_iff.mp hround
  obtain ⟨t, ht, hround⟩ := bind_eq_some_iff.mp hround
  have hpid : s.currentPid = some (t.pid, t.serial) := by
    simp only [System.currentPid, hcur, ht, bind_eq_bind, bind_some]
  have hcaller : (∃ pid serial, s.currentPid = some (pid, serial) ∧
      (∃ p, s.files.kernel.Awaits pid target p) ∧
      ∀ p, s.files.kernel.Awaits pid target p → p.isZombie = false) ↔
      (∃ p, s.files.kernel.Awaits t.pid target p) ∧
        ∀ p, s.files.kernel.Awaits t.pid target p → p.isZombie = false := by
    constructor
    · rintro ⟨pid, serial, hsame, hwaits⟩
      obtain ⟨rfl, -⟩ := Prod.mk.inj (some.inj (hpid.symm.trans hsame))
      exact hwaits
    · exact fun hwaits => ⟨t.pid, t.serial, hpid, hwaits⟩
  rw [hcaller]
  obtain ⟨hsome, hnone⟩ := Kernel.waitScan_spec t.pid target s.files.kernel.sched.processes false
  generalize Kernel.waitScan t.pid target s.files.kernel.sched.processes false = scan
    at hround hsome hnone
  obtain ⟨childFound, zombie⟩ := scan
  cases zombie with
  | some p =>
    obtain ⟨rfl, hmem, hppid, hmatches, hzombie⟩ := hsome p rfl
    obtain ⟨-, hround⟩ := ite_none_right_eq_some.mp hround
    cases hround
    refine iff_of_false nofun ?_
    rintro ⟨-, halive⟩
    exact nomatch (halive p ⟨hmem, hppid, hmatches⟩).symm.trans hzombie
  | none =>
    obtain ⟨halive, hfound⟩ := hnone rfl
    have hawaits : childFound = true ↔ ∃ p, s.files.kernel.Awaits t.pid target p :=
      hfound.trans (or_iff_right Bool.false_ne_true)
    cases childFound with
    | false =>
      cases hround
      refine iff_of_false nofun ?_
      rintro ⟨hchild, -⟩
      exact nomatch hawaits.mpr hchild
    | true =>
      obtain ⟨process, -, hround⟩ := bind_eq_some_iff.mp hround
      obtain ⟨⟨k₁, c⟩, -, hround⟩ := bind_eq_some_iff.mp hround
      cases hround
      refine iff_of_true rfl ⟨hawaits.mp rfl, ?_⟩
      rintro p ⟨hmem, hppid, hmatches⟩
      exact halive p hmem hppid hmatches

/-! ### The flag -/

theorem suits_unrestricted : Suits (Policy.unrestricted System ℕ) where
  keeps _ := trivial
  file _ _ _ := trivial
  same _ _ := trivial
  interruptible := trivial

theorem reachable_unrestricted (addr : ℕ) : (Policy.unrestricted System ℕ).Reachable addr :=
  fun _ _ => trivial

/-- **The flag of a call** that returns, from the data that it began with. -/
theorem wp_flag (env : SpawnEnv) (fuel : ℕ) (regs : Registers) (s : System) :
    (rustSyscallHandler env fuel regs).wp (Policy.unrestricted System ℕ)
      (Ends fun i => i = true ↔ TurnsInterruptsOn regs s) false none s := by
  have hP := suits_unrestricted
  have hreach := reachable_unrestricted
  -- a call that is neither `SYS_READ` nor `SYS_WAIT` is none of the exceptions
  have hoff : SyscallNo.decode regs.rax ≠ .sysRead → SyscallNo.decode regs.rax ≠ .sysWait →
      (false = true ↔ TurnsInterruptsOn regs s) := by
    intro hread hwait
    refine iff_of_false Bool.false_ne_true ?_
    rintro (⟨hno, -⟩ | ⟨hno, -⟩)
    · exact hread hno
    · exact hwait hno
  unfold rustSyscallHandler
  cases hno : SyscallNo.decode regs.rax with
  | sysRead =>
    have hconsole : TurnsInterruptsOn regs s ↔ ReadsConsole regs s :=
      or_iff_left fun hwaits => nomatch hno.symm.trans hwaits.1
    simp only [hconsole]
    refine wp_transfer hP trivial ?_ ?_
    · intro hdenied
      refine iff_of_false Bool.false_ne_true ?_
      rintro ⟨-, -, i, file, hdenotes, hreadable, -⟩
      exact nomatch (hdenied i file hdenotes).symm.trans hreadable
    · intro i file hdenotes hreadable _
      cases hvnode : file.vnode with
      | file v =>
        refine wp_vnodeRead_file ?_ fun _ _ _ _ _ => hreach _
        refine iff_of_false Bool.false_ne_true ?_
        rintro ⟨-, -, i', file', hdenotes', -, hvnode'⟩
        rw [(hdenotes.unique hdenotes').2, hvnode] at hvnode'
        cases hvnode'
      | console =>
        refine wp_vnodeRead_console (fun _ _ _ _ => trivial) (fun _ => trivial)
          (fun _ => hreach _) ?_ ?_
        · intro hlen
          refine iff_of_false Bool.false_ne_true ?_
          rintro ⟨-, hne, -⟩
          exact hne hlen
        · intro hlen
          exact iff_of_true rfl ⟨hno, hlen, i, file, hdenotes, hreadable, hvnode⟩
  | sysWait =>
    have hwaits : TurnsInterruptsOn regs s ↔ WaitsForChild regs s :=
      or_iff_right fun hreads => nomatch hno.symm.trans hreads.1
    refine wp_sysWait_off hP ?_ fun _ => hreach _
    intro result s' hround
    have hblocked := waitRound_blocked hround
    rw [hwaits]
    split
    · next hresult => exact iff_of_true rfl ⟨hno, hblocked.mp hresult⟩
    · next hresult =>
        refine iff_of_false Bool.false_ne_true ?_
        rintro ⟨-, hchild⟩
        exact hresult (hblocked.mpr hchild)
  | sysWrite =>
    have hF := hoff (by rw [hno]; nofun) (by rw [hno]; nofun)
    refine wp_transfer hP trivial (fun _ => hF) fun i file _ _ _ => ?_
    exact wp_vnodeWrite hF fun _ _ => hreach _
  | sysOpen => exact wp_sysOpen hP (hoff (by rw [hno]; nofun) (by rw [hno]; nofun)) (hreach _)
  | sysClose => exact wp_sysClose hP (hoff (by rw [hno]; nofun) (by rw [hno]; nofun))
  | sysSpawn =>
    exact wp_sysSpawn hP (hoff (by rw [hno]; nofun) (by rw [hno]; nofun)) fun _ => hreach _
  | sysExit => exact wp_sysExit hP
  | sysGetdents =>
    exact wp_sysGetdents (hoff (by rw [hno]; nofun) (by rw [hno]; nofun)) fun _ => hreach _
  | sysBrk => exact wp_sysBrk hP (hoff (by rw [hno]; nofun) (by rw [hno]; nofun))
  | unknown => exact ⟨hoff (by rw [hno]; nofun) (by rw [hno]; nofun), rfl⟩

end Handler

/-- **Interrupts at the return of a system call.**  A call that was entered with interrupts off
returns with interrupts off if and only if it neither reads from a console nor has to wait for a
child. -/
theorem interrupts_off_at_return {env : SpawnEnv} {fuel : ℕ} {regs : Registers}
    {c : Activation System} (hoff : c.interrupts = false) {rax : ℕ}
    (hreturns : ((rustSyscallHandler env fuel regs).run c).1 = some rax) :
    ((rustSyscallHandler env fuel regs).run c).2.interrupts = false ↔
      ¬ TurnsInterruptsOn regs c.data := by
  have hwp := Handler.wp_flag env fuel regs c.data
  rw [← hoff] at hwp
  obtain ⟨-, hends⟩ := run_of_wp hwp fun _ _ => trivial
  obtain ⟨held, hflag, -⟩ := hends rax hreturns
  rw [← hflag, Bool.not_eq_true]

/-- A process gets the CPU, and a key is pressed. -/
def keyRun : List FileAction :=
  [.kernel (.spawnUser 0x8000 0x5000 1024 0x200000 8), .kernel (.schedule 0),
    .kernel (.release keyboardSemaphore)]

/-- The process makes a system call; the key is in the mailbox. -/
def keyActivation (files : FileKernel) : Activation System where
  data := ⟨files, ⟨directMapMachine, []⟩, [.unicode 'a']⟩
  mem _ := 0
  accessible _ := true
  interrupts := false
  accesses := []
  resumptions := []

theorem reachable_keyRun (R : FileKernel → Bool)
    (h : ((Kernel.boot 0x1000 0x100000 (fun _ => ⟨0, 0, 0, 0, 0, 0, 0⟩) fun _ => 0).bind
      fun k => exec FileKernel.step (fun _ _ s' => s'.Kept) ⟨k, fun _ _ => none, []⟩
        keyRun).any R = true) :
    ∃ files, FileKernel.Reachable 0x1000 files ∧ R files = true := by
  obtain ⟨files, hfiles, hR⟩ := (any_eq_true _ _).mp h
  obtain ⟨k₀, hboot, hexec⟩ := bind_eq_some_iff.mp hfiles
  have hboots : FileKernel.Boots 0x1000 ⟨k₀, fun _ _ => none, []⟩ :=
    ⟨⟨by decide, _, _, _, hboot⟩, rfl, rfl⟩
  exact ⟨files, Run.exec (.start hboots) hexec, hR⟩

/-- The system call, and the flag and the accesses at its end. -/
def keyCall (regs : Registers) (c : Activation System) : Option ℕ × Bool × List Access :=
  let r := (rustSyscallHandler (ramdiskEnv 97) 1 regs).run c
  (r.1, r.2.interrupts, r.2.accesses)

/-- A write to the console. -/
theorem interrupts_off_at_return_write :
    ∃ c : Activation System, FileKernel.Reachable 0x1000 c.data.files ∧
      ((rustSyscallHandler (ramdiskEnv 97) 1 ⟨1, 1, 0x400000, 1⟩).run c).1 = some 1 ∧
      ((rustSyscallHandler (ramdiskEnv 97) 1 ⟨1, 1, 0x400000, 1⟩).run c).2.interrupts = false ∧
      ¬ TurnsInterruptsOn ⟨1, 1, 0x400000, 1⟩ c.data := by
  obtain ⟨files, hreach, hR⟩ := reachable_keyRun (fun files =>
    let r := keyCall ⟨1, 1, 0x400000, 1⟩ (keyActivation files)
    decide (r.1 = some 1 ∧ r.2.1 = false)) (by decide +kernel)
  obtain ⟨hreturns, hflag⟩ := of_decide_eq_true hR
  exact ⟨keyActivation files, hreach, hreturns, hflag,
    (interrupts_off_at_return rfl hreturns).mp hflag⟩

/-- **A read from the console** returns with interrupts on, also if the key was there already. -/
theorem interrupts_on_after_console_read :
    ∃ c : Activation System, FileKernel.Reachable 0x1000 c.data.files ∧ c.interrupts = false ∧
      ((rustSyscallHandler (ramdiskEnv 97) 1 ⟨0, 0, 0x400000, 1⟩).run c).1 = some 1 ∧
      ((rustSyscallHandler (ramdiskEnv 97) 1 ⟨0, 0, 0x400000, 1⟩).run c).2.interrupts = true := by
  obtain ⟨files, hreach, hR⟩ := reachable_keyRun (fun files =>
    let r := keyCall ⟨0, 0, 0x400000, 1⟩ (keyActivation files)
    decide (r.1 = some 1 ∧ r.2.1 = true)) (by decide +kernel)
  obtain ⟨hreturns, hflag⟩ := of_decide_eq_true hR
  exact ⟨keyActivation files, hreach, rfl, hreturns, hflag⟩

end KernelR.Proc
