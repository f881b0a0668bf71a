import KernelR.Sync.WaitQueue

/-!
# The sleeping mutex

`Mutex::lock` and the drop of a `MutexGuard`, for any number of threads on the single
CPU. A round of the loop of `lock` has interrupts off from the `compare_exchange` to the
end of it, and is one step. The drop is two steps, the store of the lock word and
`wake_one`, and a timer tick can come in between.

A mutex is a gate with one permit, which is free while `is_locked` is false
(`MutexSystem.gate`).
-/

namespace KernelR.Sync

open Option Foundations Proc

/-- A mutex and the threads that use it. -/
structure MutexSystem where
  isLocked : Bool
  waitQueue : WaitQueue
  /-- how many `MutexGuard`s there are. A guard can be moved: who drops it need not be the
  one that has locked the mutex. It comes with the exchange and goes with the store. -/
  guards : ℕ
  /-- the threads between the store of a drop and its `wake_one` -/
  dropping : List ℕ

/-- The steps. -/
inductive MutexAction where
  /-- a round of `lock` by the current thread -/
  | lock
  /-- the current thread drops a guard: the store -/
  | store
  /-- the current thread drops a guard: `wake_one` -/
  | wakeOne
  /-- another thread goes on -/
  | switch (task : ℕ)
deriving DecidableEq, Repr

namespace MutexSystem

/-- One round of `Mutex::lock`. -/
def lock (s : MutexSystem) : MutexSystem :=
  if s.isLocked = false then
    { s with isLocked := true, waitQueue := s.waitQueue.retry, guards := s.guards + 1 }
  else { s with waitQueue := s.waitQueue.retry.block }

/-- `MutexGuard::drop`: the lock word is cleared. -/
def store (s : MutexSystem) : MutexSystem :=
  { s with
    isLocked := false
    guards := s.guards - 1
    dropping := s.waitQueue.current :: s.dropping }

/-- `MutexGuard::drop`: `wake_one`. -/
def wakeOne (s : MutexSystem) : MutexSystem :=
  { s with
    waitQueue := s.waitQueue.wakeOne
    dropping := s.dropping.erase s.waitQueue.current }

/-- The current thread is in the middle of a drop. -/
def Drops (s : MutexSystem) : Prop := s.waitQueue.current ∈ s.dropping

instance (s : MutexSystem) : Decidable s.Drops := inferInstanceAs (Decidable (_ ∈ _))

/-- One step. A thread in the middle of a drop goes on with it, and one that was woken
goes on with `lock`. -/
def step (s : MutexSystem) : MutexAction → Option MutexSystem
  | .lock => if s.waitQueue.Runs ∧ ¬s.Drops then some s.lock else none
  | .store =>
    if s.waitQueue.Runs ∧ ¬s.Drops ∧ s.waitQueue.current ∉ s.waitQueue.woken ∧ 0 < s.guards then
      some s.store
    else none
  | .wakeOne => if s.waitQueue.Runs ∧ s.Drops then some s.wakeOne else none
  | .switch task => (s.waitQueue.switch task).map fun waitQueue => { s with waitQueue }

/-- `Mutex::new`; the threads are in any states. -/
structure Init (s : MutexSystem) : Prop where
  unlocked : s.isLocked = false
  waiters : s.waitQueue.waiters = []
  woken : s.waitQueue.woken = []
  guards : s.guards = 0
  dropping : s.dropping = []

/-- The states reached by any interleaving. -/
def Reachable : MutexSystem → Prop := Run Init step fun _ _ _ => True

variable {s s' : MutexSystem} {a : MutexAction}

theorem step_cases (h : s.step a = some s') :
    (s.waitQueue.Runs ∧ s' = s.lock) ∨ (0 < s.guards ∧ s' = s.store) ∨ (s.Drops ∧ s' = s.wakeOne) ∨
      ∃ task q, s.waitQueue.switch task = some q ∧ s' = { s with waitQueue := q } := by
  cases a with
  | lock =>
    obtain ⟨⟨hruns, -⟩, h⟩ := ite_none_right_eq_some.mp h
    exact Or.inl ⟨hruns, (some.inj h).symm⟩
  | store =>
    obtain ⟨⟨-, -, -, hguards⟩, h⟩ := ite_none_right_eq_some.mp h
    exact Or.inr (Or.inl ⟨hguards, (some.inj h).symm⟩)
  | wakeOne =>
    obtain ⟨⟨-, hdrops⟩, h⟩ := ite_none_right_eq_some.mp h
    exact Or.inr (Or.inr (Or.inl ⟨hdrops, (some.inj h).symm⟩))
  | switch task =>
    obtain ⟨q, hq, rfl⟩ := map_eq_some_iff.mp h
    exact Or.inr (Or.inr (Or.inr ⟨task, q, hq, rfl⟩))

/-! ### The invariant -/

/-- The one permit of the mutex. -/
def permits (s : MutexSystem) : ℕ := if s.isLocked then 0 else 1

/-- The mutex as a gate. -/
def gate (s : MutexSystem) : Gate ℕ ℕ := s.waitQueue.gate s.permits s.dropping

/-- The permit is free or in the only guard, nobody is forgotten, and the queue is in
order. -/
structure Inv (s : MutexSystem) : Prop where
  permits : s.permits + s.guards = 1
  covered : s.gate.Covered
  orderly : s.waitQueue.Orderly

theorem Inv.init (h : s.Init) : s.Inv where
  permits := by
    rw [MutexSystem.permits, h.unlocked, h.guards]
    rfl
  covered := .of_no_waiters h.waiters
  orderly := .of_nil h.waiters h.woken

theorem Inv.lock (h : s.Inv) (hruns : s.waitQueue.Runs) : s.lock.Inv := by
  have hone := h.permits
  cases hlocked : s.isLocked with
  | false =>
    -- the permit goes into a new guard
    have hpermits : s.permits = 1 := by
      rw [MutexSystem.permits, hlocked]
      rfl
    have hfree : 0 < s.gate.permits := by
      show 0 < s.permits
      omega
    have htake := h.covered.step (.take s.waitQueue.current hfree)
    have hgate : s.gate.permits - 1 = 0 := by
      show s.permits - 1 = 0
      rw [hpermits]
    rw [hgate] at htake
    rw [MutexSystem.lock, if_pos hlocked]
    refine ⟨?_, htake, h.orderly.retry⟩
    show 0 + (s.guards + 1) = 1
    omega
  | true =>
    have hnone : s.gate.permits = 0 := by
      show s.permits = 0
      rw [MutexSystem.permits, hlocked]
      rfl
    rw [MutexSystem.lock, if_neg (by rw [hlocked]; exact Bool.noConfusion)]
    exact ⟨hone, h.covered.step (.park s.waitQueue.current hnone), h.orderly.retry_block hruns⟩

theorem Inv.store (h : s.Inv) (hguards : 0 < s.guards) : s.store.Inv := by
  have hone := h.permits
  have hbound : 1 ≤ s.gate.permits + 1 := by omega
  refine ⟨?_, h.covered.step (.add s.waitQueue.current 1 hbound), h.orderly⟩
  show 1 + (s.guards - 1) = 1
  omega

theorem Inv.wakeOne (h : s.Inv) (hdrops : s.Drops) : s.wakeOne.Inv :=
  ⟨h.permits, h.covered.step (h.orderly.gate_wakeOne hdrops), h.orderly.wakeOne⟩

theorem Inv.switch (h : s.Inv) {task : ℕ} {q : WaitQueue}
    (hq : s.waitQueue.switch task = some q) : Inv { s with waitQueue := q } := by
  have horderly := h.orderly.switch hq
  obtain ⟨-, hq⟩ := ite_none_right_eq_some.mp hq
  cases hq
  exact ⟨h.permits, h.covered, horderly⟩

/-- **Every step keeps the invariant.** -/
theorem Inv.step (h : s.Inv) (hs : s.step a = some s') : s'.Inv := by
  rcases step_cases hs with ⟨hruns, rfl⟩ | ⟨hguards, rfl⟩ | ⟨hdrops, rfl⟩ | ⟨task, q, hq, rfl⟩
  · exact h.lock hruns
  · exact h.store hguards
  · exact h.wakeOne hdrops
  · exact h.switch hq

theorem Reachable.inv (h : s.Reachable) : s.Inv :=
  Run.invariant (fun _ => Inv.init) (fun _ _ _ _ hinv hs _ => hinv.step hs) h

end MutexSystem

/-- **The protocol of the mutex.**  In every interleaving there is at most one guard, and
`is_locked` is true exactly while there is one. If the mutex is unlocked and a thread
waits for it, then a thread is between the store of its drop and its `wake_one`, or a
thread that was popped from the queue, and is `Ready`, has not yet tried again. -/
theorem mutex_protocol {s : MutexSystem} (h : s.Reachable) :
    s.guards ≤ 1 ∧ (s.isLocked = true ↔ s.guards = 1) ∧
      (s.isLocked = false → s.waitQueue.waiters ≠ [] →
        (∃ t, t ∈ s.dropping) ∨
          ∃ t ∈ s.waitQueue.woken, s.waitQueue.state t = .ready) := by
  obtain ⟨hone, hcover, horderly⟩ := h.inv
  refine ⟨by omega, ?_, fun hunlocked hwait => ?_⟩
  · rw [MutexSystem.permits] at hone
    cases hlocked : s.isLocked with
    | false =>
      have hnone : s.guards = 0 := by
        rw [hlocked] at hone
        simpa using hone
      simp [hnone]
    | true =>
      rw [hlocked] at hone
      simpa using hone
  · have hfree : 0 < s.permits := by
      rw [MutexSystem.permits, hunlocked]
      exact Nat.one_pos
    exact horderly.on_the_way hcover hwait hfree

/-- Thread 1 found the mutex locked and sleeps; thread 0 has cleared the lock word and was
not yet at its `wake_one`. -/
theorem mutex_protocol_contended :
    ∃ s : MutexSystem, s.Reachable ∧ s.isLocked = false ∧ s.waitQueue.waiters = [1] ∧
      ∃ t, t ∈ s.dropping := by
  let start : MutexSystem := ⟨false, ⟨0, fun _ => .ready, [], []⟩, 0, []⟩
  obtain ⟨s, hs⟩ : ∃ s, exec MutexSystem.step (fun _ _ _ => True) start
      [.lock, .switch 1, .lock, .switch 0, .store] = some s := ⟨_, rfl⟩
  have hreach : s.Reachable := Run.exec (.start ⟨rfl, rfl, rfl, rfl, rfl⟩) hs
  cases hs
  refine ⟨_, hreach, rfl, rfl, ?_⟩
  exact ((mutex_protocol hreach).2.2 rfl (List.cons_ne_nil _ _)).resolve_right
    fun ⟨t, ht, _⟩ => absurd ht List.not_mem_nil

end KernelR.Sync
