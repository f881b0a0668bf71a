import KernelR.Proc.Bounds
import KernelR.Proc.Handler

/-!
# Rules for the handler

One rule for each part of `rust_syscall_handler`, for all policies that a property of the handler
may ask for (`Suits`). The handler begins with interrupts off and without a lock, and every rule
follows it from there; `Ends F` says that it returns without a lock and with a flag that meets
`F`.

Two parts turn interrupts on and leave them on: `Semaphore::acquire`, which the read of the
console goes through (`wp_consoleRead`), and `SYS_WAIT` once it has slept (`wp_sysWait_on`).
-/

namespace KernelR.Proc

open Option Foundations Code

/-! ### The current thread -/

/-- The number of the current thread. -/
def Kernel.currentSerial (k : Kernel) : Option ℕ := do
  let current ← k.sched.currentTask
  let t ← k.sched.tasks.get current
  some t.serial

/-- The current thread stays the current one. -/
def KeepsCurrent (k k' : Kernel) : Prop := ∀ n, k.currentSerial = some n → k'.currentSerial = some n

namespace KeepsCurrent

variable {k k' k'' : Kernel}

theorem refl (k : Kernel) : KeepsCurrent k k := fun _ h => h

theorem trans (h : KeepsCurrent k k') (h' : KeepsCurrent k' k'') : KeepsCurrent k k'' :=
  fun n hn => h' n (h n hn)

theorem of_slots (hcur : k'.sched.currentTask = k.sched.currentTask)
    (hslot : ∀ c t, k.sched.tasks.get c = some t →
      ∃ t', k'.sched.tasks.get c = some t' ∧ t'.serial = t.serial) : KeepsCurrent k k' := by
  intro n hn
  obtain ⟨c, hc, hn⟩ := bind_eq_some_iff.mp hn
  obtain ⟨t, ht, hserial⟩ := bind_eq_some_iff.mp hn
  obtain ⟨t', ht', hsame⟩ := hslot c t ht
  simp only [Kernel.currentSerial, hcur, hc, ht', hsame, bind_eq_bind, bind_some]
  exact hserial

theorem of_same (hcur : k'.sched.currentTask = k.sched.currentTask)
    (h : SameThreads k.sched k'.sched) : KeepsCurrent k k' := by
  refine of_slots hcur fun c t ht => ?_
  obtain ⟨t', ht', hcontinues⟩ := h.after ht
  exact ⟨t', ht', hcontinues.serial⟩

theorem modify {i : ℕ} {f : Thread → Thread} (htasks : k'.sched.tasks = k.sched.tasks.modify i f)
    (hf : ∀ t, (f t).serial = t.serial)
    (hcur : k'.sched.currentTask = k.sched.currentTask) : KeepsCurrent k k' := by
  refine of_slots hcur fun c t ht => ?_
  rw [htasks, Arena.get_modify]
  by_cases hc : c = i
  · subst hc
    rw [Function.update_self, ht]
    exact ⟨f t, rfl, hf t⟩
  · rw [Function.update_of_ne hc]
    exact ⟨t, ht, rfl⟩

theorem blockCurrent {current : ℕ} (h : k.blockCurrent = some (k', current)) :
    KeepsCurrent k k' := by
  simp only [Kernel.blockCurrent, bind_eq_bind, bind_eq_some_iff] at h
  obtain ⟨c, -, t, -, h⟩ := h
  cases h
  exact modify rfl (fun _ => rfl) rfl

theorem acquire {i : ℕ} (h : k.acquire i = some k') : KeepsCurrent k k' := by
  unfold Kernel.acquire at h
  dsimp only at h
  split at h
  · cases h
    exact refl k
  · obtain ⟨⟨k₁, c⟩, hblock, h⟩ := bind_eq_some_iff.mp h
    cases h
    exact (blockCurrent hblock).trans fun _ hn => hn

theorem sysExit {arg : ℕ} (h : k.sysExit arg = some k') : KeepsCurrent k k' :=
  of_same (Steady.of_touches (.sysExit h)).currentTask (.of_touches (.sysExit h))

theorem sysWaitRound {target statusPtr : ℕ} {result : Kernel.WaitResult}
    (h : k.sysWaitRound target statusPtr = some (k', result)) : KeepsCurrent k k' := by
  simp only [Kernel.sysWaitRound, bind_eq_bind, bind_eq_some_iff] at h
  obtain ⟨c, -, t, -, h⟩ := h
  split at h
  · cases h
    exact modify rfl (fun _ => rfl) rfl
  · split at h
    · cases h
      exact modify rfl (fun _ => rfl) rfl
    · cases h
  · simp only [bind_eq_some_iff] at h
    obtain ⟨p, -, ⟨k₁, c'⟩, hblock, h⟩ := h
    cases h
    exact (blockCurrent hblock).trans (modify rfl (fun _ => rfl) rfl)

theorem sysWaitFinish (k : Kernel)
    (current caller target statusPtr childPid child pageTable : ℕ) (exitCode : ℤ) :
    KeepsCurrent k
      (k.sysWaitFinish current caller target statusPtr childPid child pageTable exitCode) :=
  modify rfl (fun _ => rfl) rfl

theorem spawnUserProcess {pml4 highestVaddr weight ppid parent stack node : ℕ}
    (h : k.spawnUserProcess pml4 highestVaddr weight ppid parent stack node = some k') :
    KeepsCurrent k k' := by
  refine of_slots (Steady.spawnUserProcess h).currentTask fun c t ht => ⟨t, ?_, rfl⟩
  obtain ⟨-, thread, s', i, -, hadd, rfl⟩ := Kernel.spawnUserProcess_inv h
  obtain ⟨tasks, tree, hinsert, rfl⟩ := Scheduler.addTask_inv hadd
  obtain ⟨hget, hne⟩ := Arena.get_of_insert hinsert ht
  rw [Arena.get_modify, Function.update_of_ne hne]
  exact hget

end KeepsCurrent

/-! ### Policies for the handler -/

/-- The policy lets the handler work on the data. -/
structure Suits (P : Policy System ℕ) : Prop where
  /-- without a lock, as long as the current thread stays -/
  keeps : ∀ {s s'}, KeepsCurrent s.files.kernel s'.files.kernel → P.permits none s s'
  /-- with a lock, on the file itself -/
  file : ∀ i s file, P.permits (some i) s (s.withFile i file)
  same : ∀ held s, P.permits held s s
  interruptible : P.interruptible none

/-- The descriptor denotes this file in the table of the current process. -/
def System.Denotes (s : System) (fd i : ℕ) (file : Fs.OpenFile) : Prop :=
  fd < maxFds ∧ s.fdOf fd = some (some i) ∧ s.files.openFiles[i]? = some file

theorem System.Denotes.unique {s : System} {fd i i' : ℕ} {file file' : Fs.OpenFile}
    (h : s.Denotes fd i file) (h' : s.Denotes fd i' file') : i' = i ∧ file' = file := by
  obtain ⟨-, hfd, hfile⟩ := h
  obtain ⟨-, hfd', hfile'⟩ := h'
  obtain rfl := some.inj (some.inj (hfd.symm.trans hfd'))
  exact ⟨rfl, some.inj (hfile'.symm.trans hfile)⟩

/-- `SYS_READ` into a buffer that is not empty, from a console. -/
def ReadsConsole (regs : Registers) (s : System) : Prop :=
  SyscallNo.decode regs.rax = .sysRead ∧ regs.rdx ≠ 0 ∧
    ∃ i file, s.Denotes regs.rdi i file ∧ file.readable = true ∧ file.vnode = .console

/-- The handler returns without a lock, and with a flag that meets `F`. -/
def Ends {α : Type} (F : Bool → Prop) : Bool → Option ℕ → α → System → Prop :=
  fun i held _ _ => F i ∧ held = none

namespace Handler

section Rules

variable {α : Type} {P : Policy System ℕ} {i : Bool} {held : Option ℕ} {s : System}
  {F : Bool → Prop}

/-! ### Pointers -/

variable {Q : Bool → Option ℕ → Unit → System → Prop} {env : SpawnEnv}
  {filenamePtr fuel statusPtr target : ℕ} {s' : System}

theorem wp_fromRawParts {ptr len : ℕ}
    (h : SliceOk ptr len → Q i held () s) : (fromRawParts ptr len).wp P Q i held s := by
  unfold fromRawParts
  split
  · next hok => exact h hok
  · trivial

theorem wp_copyNonoverlapping {mem : Fs.Memory} {src dst n : ℕ}
    (haddr : n ≠ 0 → n ≤ Nat.dist src dst → P.Reachable dst)
    (h : ∀ s', Others i s s' → Q i held () s') :
    (copyNonoverlapping mem src dst n).wp P Q i held s := by
  unfold copyNonoverlapping
  split
  · next hok =>
      refine wp_storeCells (fun hne => ?_) h
      have hn : n ≠ 0 := by
        rintro rfl
        exact hne rfl
      exact haddr hn (hok.resolve_left hn)
  · trivial

theorem wp_writeAligned {ptr align : ℕ} {bytes : List UInt8} (haddr : P.Reachable ptr)
    (h : ∀ s', Others i s s' → Q i held () s') :
    (writeAligned ptr align bytes).wp P Q i held s := by
  unfold writeAligned
  split
  · exact wp_storeCells (fun _ => haddr) h
  · trivial

theorem wp_scanName {filenamePtr rounds j : ℕ} {Q : Bool → Option ℕ → ℕ → System → Prop}
    (haddr : P.Reachable (filenamePtr + j)) (h : ∀ len, Q false held len s) :
    (scanName filenamePtr rounds j).wp P Q false held s := by
  induction rounds generalizing j with
  | zero => exact h 0
  | succ rounds ih =>
    intro haccessible
    refine ⟨haddr.head haccessible, fun byte s' hs' => ?_⟩
    obtain rfl := hs'.eq
    show Code.wp P Q (if byte = 0 then pure j else scanName filenamePtr rounds (j + 1)) _ _ _
    split
    · exact h j
    · exact ih (haddr.tail haccessible)

theorem wp_loadName {Q : Bool → Option ℕ → List UInt8 → System → Prop}
    (haddr : P.Reachable filenamePtr) (h : ∀ filename, Q false held filename s) :
    (loadName filenamePtr).wp P Q false held s := by
  simp only [loadName, wp_bind]
  refine wp_scanName haddr fun len => ?_
  split
  · exact h []
  · rw [wp_bind]
    refine wp_fromRawParts fun _ => wp_loadCells haddr fun bytes s' _ hs' => ?_
    obtain rfl := hs'.eq
    exact h bytes

/-! ### The console -/

theorem acquireKey_keeps {b : Bool} (h : s.acquireKey = some (b, s')) :
    KeepsCurrent s.files.kernel s'.files.kernel := by
  obtain ⟨k, hk, h⟩ := bind_eq_some_iff.mp h
  cases h
  exact .acquire hk

theorem wp_acquire
    (hpermits : ∀ s s', KeepsCurrent s.files.kernel s'.files.kernel → P.permits held s s')
    (hfree : P.interruptible held) (h : ∀ s', Q true held () s') :
    (acquire fuel).wp P Q i held s := by
  induction fuel generalizing i s with
  | zero => trivial
  | succ fuel ih =>
    intro acquired s₁ hacquire
    refine ⟨hpermits s s₁ (acquireKey_keeps hacquire), fun s₂ _ => ⟨hfree, fun s₃ => ?_⟩⟩
    show Code.wp P Q (if acquired = true then pure () else yield (acquire fuel)) _ _ _
    split
    · exact h s₃
    · exact ⟨hfree, fun s₄ => ih⟩

theorem wp_receive {Q : Bool → Option ℕ → Option Fs.DecodedKey → System → Prop}
    (hpermits : ∀ s s', KeepsCurrent s.files.kernel s'.files.kernel → P.permits held s s')
    (hfree : P.interruptible held) (h : ∀ key s', Q true held key s') :
    (receive fuel).wp P Q i held s := by
  simp only [receive, wp_bind]
  refine wp_acquire hpermits hfree fun s₁ => wp_locked_update (fun _ => hfree) ?_
  intro s₂ _ key s₃ hpop
  obtain ⟨-, rfl⟩ := Prod.mk.inj (some.inj hpop)
  exact ⟨hpermits _ _ (.refl _), fun s₄ _ => h key s₄⟩

/-- **The console.**  A read that returns has turned interrupts on. -/
theorem wp_consoleRead {fuel rounds bufPtr len : ℕ} {Q : Bool → Option ℕ → ℕ → System → Prop}
    (hpermits : ∀ s s', KeepsCurrent s.files.kernel s'.files.kernel → P.permits held s s')
    (hfree : P.interruptible held) (haddr : P.Reachable bufPtr) (h : ∀ n s', Q true held n s') :
    (consoleRead fuel bufPtr len rounds).wp P Q i held s := by
  induction rounds generalizing i s with
  | zero => trivial
  | succ rounds ih =>
    simp only [consoleRead, wp_bind]
    refine wp_receive hpermits hfree fun key s₁ => ?_
    split
    · rw [wp_bind]
      exact wp_storeCells (fun _ => haddr) fun s₂ _ => h _ s₂
    · exact ih

/-! ### `SYS_READ` and `SYS_WRITE` -/

/-- The rest of a transfer, when the vnode has been accessed. -/
theorem wp_advance {i : ℕ} {file : Fs.OpenFile} {bytes : ℕ} {j : Bool} {s : System} (hP : Suits P)
    (h : ∀ s', Q j (some i) () s') : (advance i file bytes).wp P Q j (some i) s := by
  intro _ s₁ hadvance
  obtain ⟨offset, -, hadvance⟩ := bind_eq_some_iff.mp hadvance
  cases hadvance
  exact ⟨hP.file i s _, fun s₂ _ => h s₂⟩

/-- **The rule for transfers.**  What is left to show is what happens to the vnode, with the lock
of its file held. -/
theorem wp_transfer {allowed : Fs.OpenFile → Bool} {access : Fs.OpenFile → Handler (Option ℕ)}
    {fd bufPtr len : ℕ} (hP : Suits P) (hlock : P.lockable false s)
    (hF : (∀ i file, s.Denotes fd i file → allowed file = false) → F false)
    (haccess : ∀ i file, s.Denotes fd i file → allowed file = true → SliceOk bufPtr len →
      (access file).wp P (fun j held _ _ => F j ∧ held = some i) false (some i) s) :
    (transfer allowed access fd bufPtr len).wp P (Ends F) false none s := by
  unfold transfer
  split
  · next hfd =>
      exact ⟨hF fun i file hdenotes => absurd hdenotes.1 (Nat.not_lt_of_le hfd), rfl⟩
  · next hfd =>
      simp only [lookupFd, lockFile, wp_bind]
      refine wp_locked_update (fun _ => hP.interruptible) ?_
      rintro s₀ hs₀ found s₁ hfound
      obtain rfl := hs₀.eq
      obtain ⟨found', hlookup, hpair⟩ := map_eq_some_iff.mp hfound
      obtain ⟨rfl, rfl⟩ := Prod.mk.inj hpair
      refine ⟨hP.same _ _, fun s₂ hs₂ => ?_⟩
      obtain rfl := hs₂.eq
      cases found' with
      | none =>
        refine ⟨hF fun i file hdenotes => ?_, rfl⟩
        cases hlookup.symm.trans hdenotes.2.1
      | some i =>
        simp only [wp_bind]
        refine ⟨rfl, hlock, fun s₃ hs₃ => ?_⟩
        obtain rfl := hs₃.eq
        rintro file s₄ hopen
        obtain ⟨file', hfile, hpair⟩ := map_eq_some_iff.mp hopen
        obtain ⟨rfl, rfl⟩ := Prod.mk.inj hpair
        refine ⟨hP.same _ _, fun s₅ hs₅ => ?_⟩
        obtain rfl := hs₅.eq
        have hdenotes : System.Denotes _ fd i file' := ⟨Nat.lt_of_not_le hfd, hlookup, hfile⟩
        have hunlock : ∀ (rax : ℕ) j s', F j →
            (unlock i (ret rax) : Handler ℕ).wp P (Ends F) j (some i) s' :=
          fun rax j s' hj => ⟨rfl, fun _ _ => ⟨hj, rfl⟩⟩
        show Code.wp P _ (if allowed file' = true then _ else _) _ _ _
        split
        · next hallowed =>
            simp only [wp_bind]
            refine wp_fromRawParts fun hslice => ?_
            refine wp_mono (haccess i file' hdenotes hallowed hslice) ?_
            rintro j held result s' ⟨hj, rfl⟩
            cases result with
            | none => exact hunlock _ j s' hj
            | some bytes =>
              simp only [wp_bind]
              exact wp_advance hP fun s'' => hunlock bytes j s'' hj
        · next hallowed =>
            refine hunlock _ false _ (hF fun i' file'' hdenotes' => ?_)
            rw [(hdenotes.unique hdenotes').2]
            exact Bool.eq_false_iff.mpr hallowed

theorem wp_vnodeRead_file {fuel offset bufPtr len l : ℕ} {v : Fs.TarVnode} (hF : F false)
    (haddr : ∀ n, offset < v.size → n = min len (v.size - offset) → n ≠ 0 →
      n ≤ Nat.dist (Fs.addU64 v.dataPtr offset) bufPtr → P.Reachable bufPtr) :
    (vnodeRead env fuel offset bufPtr len (.file v)).wp P (fun j held _ _ => F j ∧ held = some l)
      false (some l) s := by
  show Code.wp P _ (if offset ≥ v.size then _ else _) _ _ _
  split
  · exact ⟨hF, rfl⟩
  · next hoffset =>
      simp only [wp_bind]
      refine wp_copyNonoverlapping (haddr _ (Nat.lt_of_not_le hoffset) rfl) fun _ _ => ?_
      exact ⟨hF, rfl⟩

theorem wp_vnodeRead_console {fuel offset bufPtr len l : ℕ}
    (hpermits : len ≠ 0 → ∀ s s', KeepsCurrent s.files.kernel s'.files.kernel →
      P.permits (some l) s s')
    (hfree : len ≠ 0 → P.interruptible (some l)) (haddr : len ≠ 0 → P.Reachable bufPtr)
    (hF : len = 0 → F false) (hF' : len ≠ 0 → F true) :
    (vnodeRead env fuel offset bufPtr len .console).wp P (fun j held _ _ => F j ∧ held = some l)
      false (some l) s := by
  show Code.wp P _ (if len = 0 then _ else _) _ _ _
  split
  · next hlen => exact ⟨hF hlen, rfl⟩
  · next hlen =>
      simp only [wp_bind]
      exact wp_consoleRead (hpermits hlen) (hfree hlen) (haddr hlen) fun _ _ => ⟨hF' hlen, rfl⟩

theorem wp_vnodeWrite {bufPtr len l : ℕ} {vnode : Fs.Vnode} (hF : F false)
    (haddr : vnode = .console → len ≠ 0 → P.Reachable bufPtr) :
    (vnodeWrite bufPtr len vnode).wp P (fun j held _ _ => F j ∧ held = some l) false (some l)
      s := by
  cases vnode with
  | file v => exact ⟨hF, rfl⟩
  | console =>
    simp only [vnodeWrite, wp_bind]
    cases len with
    | zero => exact ⟨hF, rfl⟩
    | succ n =>
      refine wp_loadCells (haddr rfl (Nat.succ_ne_zero n)) fun _ _ _ _ => ?_
      exact ⟨hF, rfl⟩

/-! ### The calls that do not wait -/

theorem wp_locked_keeps {f : System → Option (α × System)} (hP : Suits P) (hF : F false)
    (hkeeps : ∀ a s', f s = some (a, s') → KeepsCurrent s.files.kernel s'.files.kernel) :
    (locked (update f) : Handler α).wp P (Ends F) false none s := by
  refine wp_locked_update (fun _ => hP.interruptible) fun s₁ hs₁ a s₂ hf => ?_
  obtain rfl := hs₁.eq
  exact ⟨hP.keeps (hkeeps a s₂ hf), fun _ _ => ⟨hF, rfl⟩⟩

theorem wp_sysOpen (hP : Suits P) (hF : F false) (haddr : P.Reachable filenamePtr) :
    (sysOpen env filenamePtr).wp P (Ends F) false none s := by
  simp only [sysOpen, wp_bind]
  refine wp_loadName haddr fun filename => ?_
  split
  · exact ⟨hF, rfl⟩
  · split
    · exact ⟨hF, rfl⟩
    · next vnode _ =>
        refine wp_locked_keeps hP hF fun rax s' h => ?_
        obtain ⟨⟨rax', files⟩, hopen, hpair⟩ := map_eq_some_iff.mp h
        cases hpair
        obtain ⟨pid, -, hopen⟩ := bind_eq_some_iff.mp hopen
        split at hopen
        · cases hopen
          exact .refl _
        · cases hopen
          exact .refl _

theorem wp_sysClose {fd : ℕ} (hP : Suits P) (hF : F false) :
    (sysClose fd).wp P (Ends F) false none s := by
  unfold sysClose
  split
  · exact ⟨hF, rfl⟩
  · refine wp_locked_keeps hP hF fun rax s' h => ?_
    obtain ⟨⟨rax', files⟩, hclose, hpair⟩ := map_eq_some_iff.mp h
    cases hpair
    have heffect := FileKernel.effect_of_syscall (c := .sysClose fd) hclose
    rw [show files.kernel = s.files.kernel from heffect.kernel]
    exact .refl _

theorem spawn_keeps {filename : List UInt8} {ppid parent rax : ℕ}
    (h : System.spawn env filename ppid parent s = some (rax, s')) :
    KeepsCurrent s.files.kernel s'.files.kernel := by
  obtain ⟨⟨child, k, m⟩, hchild, h⟩ := bind_eq_some_iff.mp h
  cases child with
  | none =>
    cases h
    exact .refl _
  | some child =>
    cases h
    unfold spawnFromVfs at hchild
    split at hchild
    · cases hchild
    · obtain ⟨m₁, -, hchild⟩ := bind_eq_some_iff.mp hchild
      split at hchild
      · cases hchild
      · obtain ⟨r, hspawn, hchild⟩ := bind_eq_some_iff.mp hchild
        cases hchild
        obtain ⟨headers, -, hspawn⟩ := bind_eq_some_iff.mp hspawn
        obtain ⟨loaded, -, hspawn⟩ := bind_eq_some_iff.mp hspawn
        obtain ⟨room, -, hspawn⟩ := bind_eq_some_iff.mp hspawn
        obtain ⟨k', hk', hspawn⟩ := bind_eq_some_iff.mp hspawn
        cases hspawn
        exact .spawnUserProcess hk'

theorem wp_sysSpawn (hP : Suits P) (hF : F false)
    (haddr : filenamePtr < 0x80000000 → P.Reachable filenamePtr) :
    (sysSpawn env filenamePtr).wp P (Ends F) false none s := by
  unfold sysSpawn
  split
  · exact ⟨hF, rfl⟩
  · next hptr =>
      simp only [wp_bind]
      refine wp_loadName (haddr (Nat.lt_of_not_le fun hle => hptr (Or.inl hle))) fun filename => ?_
      split
      · exact ⟨hF, rfl⟩
      · simp only [wp_bind]
        refine wp_locked_update (fun _ => hP.interruptible) fun s₁ hs₁ caller s₂ h => ?_
        obtain rfl := hs₁.eq
        obtain ⟨caller', -, hpair⟩ := map_eq_some_iff.mp h
        cases hpair
        refine ⟨hP.same _ _, fun s₃ hs₃ => ?_⟩
        obtain rfl := hs₃.eq
        intro rax s₄ hspawn
        exact ⟨hP.keeps (spawn_keeps hspawn), fun _ _ => ⟨hF, rfl⟩⟩

theorem wp_sysExit {arg : ℕ} {Q : Bool → Option ℕ → ℕ → System → Prop} (hP : Suits P) :
    (sysExit arg).wp P Q false none s := by
  simp only [sysExit, wp_bind]
  refine wp_locked_update (fun _ => hP.interruptible) fun s₁ hs₁ _ s₂ h => ?_
  obtain rfl := hs₁.eq
  obtain ⟨k', hexit, hpair⟩ := map_eq_some_iff.mp h
  cases hpair
  exact ⟨hP.keeps (.sysExit hexit), fun _ _ => ⟨hP.interruptible, fun _ => trivial⟩⟩

theorem wp_sysGetdents {index bufPtr : ℕ} (hF : F false)
    (haddr : bufPtr < 0x80000000 → P.Reachable bufPtr) :
    (sysGetdents env index bufPtr).wp P (Ends F) false none s := by
  unfold sysGetdents
  split
  · exact ⟨hF, rfl⟩
  · next hptr =>
      split
      · exact ⟨hF, rfl⟩
      · split
        · exact ⟨hF, rfl⟩
        · simp only [wp_bind]
          refine wp_writeAligned (haddr (Nat.lt_of_not_le fun hle => hptr (Or.inl hle))) ?_
          exact fun _ _ => ⟨hF, rfl⟩

theorem wp_sysBrk {requestedBreak : ℕ} (hP : Suits P) (hF : F false) :
    (locked (update (System.brk requestedBreak)) : Handler ℕ).wp P (Ends F) false none s := by
  refine wp_locked_keeps hP hF fun rax s' h => ?_
  simp only [System.brk, bind_eq_bind, bind_eq_some_iff] at h
  obtain ⟨current, -, t, -, process, -, ⟨rax', u⟩, -, h⟩ := h
  cases h
  exact .of_slots rfl fun c t ht => ⟨t, ht, rfl⟩

/-! ### `SYS_WAIT` -/

/-- One round. -/
def waitRound (target statusPtr : ℕ) (s : System) : Option (Kernel.WaitResult × System) :=
  (s.files.kernel.sysWaitRound target statusPtr).map fun (k, r) => (r, s.withKernel k)

theorem waitRound_keeps {result : Kernel.WaitResult}
    (h : waitRound target statusPtr s = some (result, s')) :
    KeepsCurrent s.files.kernel s'.files.kernel := by
  obtain ⟨⟨k, r⟩, hround, hpair⟩ := map_eq_some_iff.mp h
  cases hpair
  exact .sysWaitRound hround

theorem wp_finishWait (hP : Suits P) (hF : F i)
    (haddr : statusPtr < 0x80000000 → P.Reachable statusPtr) :
    (update System.finishWait >>= fun (childPid, exitCode) => do
      if statusPtr ≠ 0 ∧ statusPtr < 0x80000000 then
        writeAligned statusPtr 4 (littleEndian 4 (exitCode % 2 ^ 32).toNat)
      pure childPid : Handler ℕ).wp P (Ends F) i none s := by
  rw [wp_bind]
  intro child s₁ hfinish
  simp only [System.finishWait, bind_eq_bind, bind_eq_some_iff] at hfinish
  obtain ⟨current, -, t, -, hfinish⟩ := hfinish
  split at hfinish
  · cases hfinish
    refine ⟨hP.keeps (.sysWaitFinish _ _ _ _ _ _ _ _ _), fun s₂ _ => ?_⟩
    show Code.wp P (Ends F) (if _ then _ else _) _ _ _
    split
    · next hptr =>
        rw [wp_bind]
        exact wp_writeAligned (haddr hptr.2) fun _ _ => ⟨hF, rfl⟩
    · exact ⟨hF, rfl⟩
  · cases hfinish

/-- **After `SYS_WAIT` has slept**, interrupts stay on. -/
theorem wp_sysWait_on (hP : Suits P) (hF : F true)
    (haddr : statusPtr < 0x80000000 → P.Reachable statusPtr) :
    (sysWait target statusPtr fuel).wp P (Ends F) true none s := by
  induction fuel generalizing s with
  | zero => trivial
  | succ fuel ih =>
    simp only [sysWait, wp_bind]
    refine wp_locked_update (fun _ => hP.interruptible) fun s₁ _ result s₂ h => ?_
    refine ⟨hP.keeps (waitRound_keeps h), fun s₃ _ => ?_⟩
    cases result with
    | returned rax => exact ⟨hF, rfl⟩
    | harvested => exact wp_finishWait hP hF haddr
    | blocked => exact ⟨hP.interruptible, fun _ => ⟨hP.interruptible, fun _ => ih⟩⟩

/-- **The first round** decides. -/
theorem wp_sysWait_off (hP : Suits P)
    (hF : ∀ result s', waitRound target statusPtr s = some (result, s') →
      if result = .blocked then F true else F false)
    (haddr : statusPtr < 0x80000000 → P.Reachable statusPtr) :
    (sysWait target statusPtr fuel).wp P (Ends F) false none s := by
  cases fuel with
  | zero => trivial
  | succ fuel =>
    simp only [sysWait, wp_bind]
    refine wp_locked_update (fun _ => hP.interruptible) fun s₁ hs₁ result s₂ h => ?_
    obtain rfl := hs₁.eq
    refine ⟨hP.keeps (waitRound_keeps h), fun s₃ _ => ?_⟩
    have hflag := hF result s₂ h
    cases result with
    | returned rax => exact ⟨hflag, rfl⟩
    | harvested => exact wp_finishWait hP hflag haddr
    | blocked =>
      refine ⟨hP.interruptible, fun _ => ⟨hP.interruptible, fun _ => ?_⟩⟩
      exact wp_sysWait_on hP hflag haddr

end Rules

end Handler

end KernelR.Proc
