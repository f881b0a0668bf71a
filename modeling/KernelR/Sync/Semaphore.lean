import KernelR.Sync.WaitQueue
import Mathlib.Data.Nat.ModEq

/-!
# The counting semaphore

`Semaphore::acquire` and `Semaphore::release` for any number of threads on the single
CPU. Interrupt handlers release too; who executes is a `Context`.

`acquire` has interrupts off from the moment it loads the count until it has a permit or
sleeps. A weak exchange that fails for no reason is tried again with interrupts still
off, so all of this is one step, in which the exchange fails any number of times.
`release` is two steps, `fetch_add` and `wake_one`.

The count is an `AtomicUsize`, and `fetch_add` wraps around.
-/

namespace KernelR.Sync

open Option Foundations Proc

/-- Who executes. -/
inductive Context where
  | thread (task : ℕ)
  /-- the handler of an interrupt -/
  | handler (n : ℕ)
deriving DecidableEq, Repr

/-- A semaphore and the threads and handlers that use it. -/
structure SemaphoreSystem where
  count : ℕ
  waitQueue : WaitQueue
  /-- who has added a permit and has not called `wake_one` -/
  releasing : List Context
  /-- how often `acquire` was completed -/
  acquired : ℕ
  /-- how often `fetch_add` was executed -/
  added : ℕ

/-- The steps. -/
inductive SemaphoreAction where
  /-- the current thread is in `acquire`, and this many weak exchanges fail -/
  | acquire (spurious : ℕ)
  /-- `release`: the count is raised -/
  | fetchAdd (c : Context)
  /-- `release`: `wake_one` -/
  | wakeOne (c : Context)
  /-- another thread goes on -/
  | switch (task : ℕ)
deriving DecidableEq, Repr

namespace SemaphoreSystem

/-- `Semaphore::acquire`: the count is zero, go to sleep. -/
def sleep (s : SemaphoreSystem) : SemaphoreSystem :=
  { s with waitQueue := s.waitQueue.retry.block }

/-- `Semaphore::acquire`, until interrupts are on again. -/
def acquire (s : SemaphoreSystem) : ℕ → SemaphoreSystem
  | 0 =>
    if 0 < s.count then
      { s with
        count := s.count - 1
        waitQueue := s.waitQueue.retry
        acquired := s.acquired + 1 }
    else s.sleep
  | spurious + 1 => if 0 < s.count then s.acquire spurious else s.sleep

/-- `Semaphore::release`: `fetch_add`. -/
def fetchAdd (s : SemaphoreSystem) (c : Context) : SemaphoreSystem :=
  { s with
    count := wrap (s.count + 1)
    releasing := c :: s.releasing
    added := s.added + 1 }

/-- `Semaphore::release`: `wake_one`. -/
def wakeOne (s : SemaphoreSystem) (c : Context) : SemaphoreSystem :=
  { s with
    waitQueue := s.waitQueue.wakeOne
    releasing := s.releasing.erase c }

/-- The thread is the one that executes; a handler can come at any time. -/
def Executes (s : SemaphoreSystem) : Context → Prop
  | .thread task => s.waitQueue.current = task ∧ s.waitQueue.Runs
  | .handler _ => True

instance (s : SemaphoreSystem) : ∀ c, Decidable (s.Executes c)
  | .thread _ => inferInstanceAs (Decidable (_ ∧ _))
  | .handler _ => inferInstanceAs (Decidable True)

/-- In the middle of `acquire`, after a wake-up. -/
def Acquires (s : SemaphoreSystem) : Context → Prop
  | .thread task => task ∈ s.waitQueue.woken
  | .handler _ => False

instance (s : SemaphoreSystem) : ∀ c, Decidable (s.Acquires c)
  | .thread _ => inferInstanceAs (Decidable (_ ∈ _))
  | .handler _ => inferInstanceAs (Decidable False)

/-- One step. Who is in the middle of a call goes on with it. -/
def step (s : SemaphoreSystem) : SemaphoreAction → Option SemaphoreSystem
  | .acquire spurious =>
    if s.waitQueue.Runs ∧ .thread s.waitQueue.current ∉ s.releasing then
      some (s.acquire spurious)
    else none
  | .fetchAdd c =>
    if s.Executes c ∧ ¬s.Acquires c ∧ c ∉ s.releasing then some (s.fetchAdd c) else none
  | .wakeOne c => if s.Executes c ∧ c ∈ s.releasing then some (s.wakeOne c) else none
  | .switch task => (s.waitQueue.switch task).map fun waitQueue => { s with waitQueue }

/-- `Semaphore::new(initial_count)`; the threads are in any states. -/
structure Init (initialCount : ℕ) (s : SemaphoreSystem) : Prop where
  /-- the argument is a `usize` -/
  bound : initialCount < 2 ^ 64
  count : s.count = initialCount
  waiters : s.waitQueue.waiters = []
  woken : s.waitQueue.woken = []
  releasing : s.releasing = []
  acquired : s.acquired = 0
  added : s.added = 0

/-- The states reached by any interleaving. -/
def Reachable (initialCount : ℕ) : SemaphoreSystem → Prop :=
  Run (Init initialCount) step fun _ _ _ => True

variable {s s' : SemaphoreSystem} {a : SemaphoreAction} {initialCount : ℕ}

/-! ### What a step does -/

theorem acquire_spurious (s : SemaphoreSystem) (spurious : ℕ) :
    s.acquire spurious = s.acquire 0 := by
  induction spurious with
  | zero => rfl
  | succ spurious ih =>
    show (if 0 < s.count then s.acquire spurious else s.sleep) = s.acquire 0
    by_cases hfree : 0 < s.count
    · rw [if_pos hfree, ih]
    · rw [if_neg hfree, acquire, if_neg hfree]

theorem acquire_of_pos (hfree : 0 < s.count) (spurious : ℕ) : s.acquire spurious =
      { s with
        count := s.count - 1
        waitQueue := s.waitQueue.retry
        acquired := s.acquired + 1 } := by
  rw [acquire_spurious, acquire, if_pos hfree]

theorem acquire_of_zero (hnone : s.count = 0) (spurious : ℕ) : s.acquire spurious = s.sleep := by
  rw [acquire_spurious, acquire, if_neg (by omega)]

theorem step_acquire {spurious : ℕ} (h : s.step (.acquire spurious) = some s') :
    s.waitQueue.Runs ∧ .thread s.waitQueue.current ∉ s.releasing ∧ s' = s.acquire spurious := by
  obtain ⟨⟨hruns, hidle⟩, h⟩ := ite_none_right_eq_some.mp h
  exact ⟨hruns, hidle, (some.inj h).symm⟩

theorem step_fetchAdd {c : Context} (h : s.step (.fetchAdd c) = some s') :
    s.Executes c ∧ s' = s.fetchAdd c := by
  obtain ⟨⟨hexec, -, -⟩, h⟩ := ite_none_right_eq_some.mp h
  exact ⟨hexec, (some.inj h).symm⟩

theorem step_wakeOne {c : Context} (h : s.step (.wakeOne c) = some s') :
    s.Executes c ∧ c ∈ s.releasing ∧ s' = s.wakeOne c := by
  obtain ⟨⟨hexec, hmem⟩, h⟩ := ite_none_right_eq_some.mp h
  exact ⟨hexec, hmem, (some.inj h).symm⟩

theorem step_switch {task : ℕ} (h : s.step (.switch task) = some s') :
    ∃ q, s.waitQueue.switch task = some q ∧ s' = { s with waitQueue := q } := by
  obtain ⟨q, hq, rfl⟩ := map_eq_some_iff.mp h
  exact ⟨q, hq, rfl⟩

/-! ### The invariant -/

/-- The semaphore as a gate. -/
def gate (s : SemaphoreSystem) : Gate ℕ Context := s.waitQueue.gate s.count s.releasing

/-- The permits are accounted for, nobody is forgotten, and the queue is in order. -/
structure Inv (initialCount : ℕ) (s : SemaphoreSystem) : Prop where
  /-- `lost` counts how often the count has wrapped around -/
  permits : ∃ lost, s.count + s.acquired + 2 ^ 64 * lost = initialCount + s.added
  bound : s.count < 2 ^ 64
  covered : s.gate.Covered
  orderly : s.waitQueue.Orderly

theorem Inv.init (h : s.Init initialCount) : s.Inv initialCount where
  permits := ⟨0, by rw [h.count, h.acquired, h.added]; omega⟩
  bound := h.count ▸ h.bound
  covered := .of_no_waiters h.waiters
  orderly := .of_nil h.waiters h.woken

theorem Inv.acquire (h : s.Inv initialCount) (hruns : s.waitQueue.Runs) (spurious : ℕ) :
    (s.acquire spurious).Inv initialCount := by
  obtain ⟨lost, hpermits⟩ := h.permits
  have hbound := h.bound
  by_cases hfree : 0 < s.count
  · rw [acquire_of_pos hfree]
    refine ⟨⟨lost, ?_⟩, ?_, h.covered.step (.take s.waitQueue.current hfree), h.orderly.retry⟩
    · show s.count - 1 + (s.acquired + 1) + 2 ^ 64 * lost = initialCount + s.added
      omega
    · show s.count - 1 < 2 ^ 64
      omega
  · have hnone : s.count = 0 := Nat.eq_zero_of_not_pos hfree
    rw [acquire_of_zero hnone]
    exact ⟨⟨lost, hpermits⟩, hbound, h.covered.step (.park s.waitQueue.current hnone),
      h.orderly.retry_block hruns⟩

theorem Inv.fetchAdd (h : s.Inv initialCount) (c : Context) : (s.fetchAdd c).Inv initialCount := by
  obtain ⟨lost, hpermits⟩ := h.permits
  have hwrap : wrap (s.count + 1) ≤ s.count + 1 := Nat.mod_le _ _
  have hdiv := Nat.mod_add_div (s.count + 1) (2 ^ 64)
  refine ⟨⟨lost + (s.count + 1) / 2 ^ 64, ?_⟩, Nat.mod_lt _ (by decide),
    h.covered.step (.add c (wrap (s.count + 1)) hwrap), h.orderly⟩
  show wrap (s.count + 1) + s.acquired + 2 ^ 64 * (lost + (s.count + 1) / 2 ^ 64) =
    initialCount + (s.added + 1)
  unfold wrap
  omega

theorem Inv.wakeOne (h : s.Inv initialCount) {c : Context} (hc : c ∈ s.releasing) :
    (s.wakeOne c).Inv initialCount :=
  ⟨h.permits, h.bound, h.covered.step (h.orderly.gate_wakeOne hc), h.orderly.wakeOne⟩

theorem Inv.switch (h : s.Inv initialCount) {task : ℕ} {q : WaitQueue}
    (hq : s.waitQueue.switch task = some q) : Inv initialCount { s with waitQueue := q } := by
  have horderly := h.orderly.switch hq
  obtain ⟨-, hq⟩ := ite_none_right_eq_some.mp hq
  cases hq
  exact ⟨h.permits, h.bound, h.covered, horderly⟩

/-- **Every step keeps the invariant.** -/
theorem Inv.step (h : s.Inv initialCount) (hs : s.step a = some s') : s'.Inv initialCount := by
  cases a with
  | acquire spurious =>
    obtain ⟨hruns, -, rfl⟩ := step_acquire hs
    exact h.acquire hruns spurious
  | fetchAdd c =>
    obtain ⟨-, rfl⟩ := step_fetchAdd hs
    exact h.fetchAdd c
  | wakeOne c =>
    obtain ⟨-, hc, rfl⟩ := step_wakeOne hs
    exact h.wakeOne hc
  | switch task =>
    obtain ⟨q, hq, rfl⟩ := step_switch hs
    exact h.switch hq

theorem Reachable.inv (h : s.Reachable initialCount) : s.Inv initialCount :=
  Run.invariant (fun _ => Inv.init) (fun _ _ _ _ hinv hs _ => hinv.step hs) h

end SemaphoreSystem

/-- **The protocol of the semaphore.**  In every interleaving the count and the completed
`acquire`s add up to the initial count and the executed `fetch_add`s, modulo `2 ^ 64`, and
exactly as long as that sum is below `2 ^ 64`. While a thread waits, the count is at most
the number of those that have added a permit and not yet called `wake_one`, and of the
threads that were popped from the queue and have not tried again; so if a permit is free
then somebody is on the way. -/
theorem semaphore_protocol {initialCount : ℕ} {s : SemaphoreSystem}
    (h : s.Reachable initialCount) :
    s.count + s.acquired ≡ initialCount + s.added [MOD 2 ^ 64] ∧
      (initialCount + s.added < 2 ^ 64 →
        s.count + s.acquired = initialCount + s.added) ∧
      (s.waitQueue.waiters ≠ [] →
        s.count ≤ s.releasing.length + s.waitQueue.woken.length) ∧
      (s.waitQueue.waiters ≠ [] → 0 < s.count →
        (∃ c, c ∈ s.releasing) ∨
          ∃ t ∈ s.waitQueue.woken, s.waitQueue.state t = .ready) := by
  obtain ⟨⟨lost, hpermits⟩, -, hcover, horderly⟩ := h.inv
  refine ⟨?_, fun hsmall => by omega, hcover, horderly.on_the_way hcover⟩
  rw [← hpermits]
  exact (Nat.add_modulus_mul_modEq_iff.mpr rfl).symm

/-- Thread 0 sleeps; a handler has added a permit and was not yet at its `wake_one`. -/
theorem semaphore_protocol_handler :
    ∃ s : SemaphoreSystem, s.Reachable 0 ∧ s.waitQueue.waiters = [0] ∧ s.count = 1 ∧
      s.count + s.acquired = 0 + s.added ∧ s.count ≤ s.releasing.length := by
  let start : SemaphoreSystem := ⟨0, ⟨0, fun _ => .ready, [], []⟩, [], 0, 0⟩
  obtain ⟨s, hs⟩ : ∃ s, exec SemaphoreSystem.step (fun _ _ _ => True) start
      [.acquire 3, .fetchAdd (.handler 0)] = some s := ⟨_, rfl⟩
  have hreach : s.Reachable 0 :=
    Run.exec (.start ⟨by decide, rfl, rfl, rfl, rfl, rfl, rfl⟩) hs
  cases hs
  obtain ⟨-, hexact, hcover, -⟩ := semaphore_protocol hreach
  exact ⟨_, hreach, rfl, rfl, hexact (by decide), hcover (List.cons_ne_nil _ _)⟩

/-- A `release` on a semaphore that has `usize::MAX` permits takes all of them away. -/
theorem release_wraps :
    ∃ s : SemaphoreSystem, s.Reachable (2 ^ 64 - 1) ∧
      s.count + s.acquired ≠ 2 ^ 64 - 1 + s.added := by
  let start : SemaphoreSystem := ⟨2 ^ 64 - 1, ⟨0, fun _ => .ready, [], []⟩, [], 0, 0⟩
  obtain ⟨s, hs⟩ : ∃ s, exec SemaphoreSystem.step (fun _ _ _ => True) start
      [.fetchAdd (.thread 0), .wakeOne (.thread 0)] = some s := ⟨_, rfl⟩
  have hreach : s.Reachable (2 ^ 64 - 1) :=
    Run.exec (.start ⟨by decide, rfl, rfl, rfl, rfl, rfl, rfl⟩) hs
  cases hs
  exact ⟨_, hreach, by decide⟩

end KernelR.Sync
