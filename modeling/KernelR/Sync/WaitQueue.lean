import KernelR.Foundations.Gate
import KernelR.Foundations.Run
import KernelR.Proc.Thread
import Mathlib.Data.List.Nodup

/-!
# Wait queues

`WaitQueue` of `sync.rs` with the threads around it: which one executes, and which
ones are `Blocked`. A thread that does not get what it wants marks itself `Blocked`
and puts itself at the end of the queue, with interrupts off; `wake_one` pops the
first one and calls `wake_task` on it, with interrupts off as well. So each of the two
is one step on the single CPU.

A thread that has put itself to sleep executes nothing before it was woken: what is left
between `enable` and `int 0x20` touches no shared data. After it was woken it tries
again. Until it does so it is in `woken`.
-/

namespace KernelR.Sync

open List Function Foundations Proc

/-- A wait queue and the threads. -/
structure WaitQueue where
  /-- `SCHEDULER.current_task` -/
  current : ℕ
  state : ℕ → ThreadState
  /-- `state.waiters` -/
  waiters : List ℕ
  /-- the threads that were popped from the queue and have not tried again -/
  woken : List ℕ

namespace WaitQueue

/-- The current thread executes: it has not put itself to sleep. -/
def Runs (q : WaitQueue) : Prop := q.state q.current = .ready

instance (q : WaitQueue) : Decidable q.Runs := inferInstanceAs (Decidable (_ = _))

/-- The current thread tries again. -/
def retry (q : WaitQueue) : WaitQueue := { q with woken := q.woken.erase q.current }

/-- Mark the current thread `Blocked` and put it at the end of the queue. -/
def block (q : WaitQueue) : WaitQueue :=
  { q with
    state := Function.update q.state q.current .blocked
    waiters := q.waiters ++ [q.current] }

/-- `wake_task`, as far as the states of the threads go. -/
def wakeTask (q : WaitQueue) (task : ℕ) : WaitQueue :=
  if q.state task = .sleeping ∨ q.state task = .blocked then
    { q with state := Function.update q.state task .ready }
  else q

/-- `wake_one` -/
def wakeOne (q : WaitQueue) : WaitQueue :=
  match q.waiters with
  | [] => q
  | id :: rest => { q with waiters := rest, woken := id :: q.woken }.wakeTask id

/-- A timer tick, or the `int 0x20` of a thread that yields: the scheduler picks a thread
that is `Ready`. -/
def switch (q : WaitQueue) (task : ℕ) : Option WaitQueue :=
  if q.state task = .ready then some { q with current := task } else none

/-- The queue and the woken threads are in order. -/
structure Orderly (q : WaitQueue) : Prop where
  nodup : q.waiters.Nodup
  woken_nodup : q.woken.Nodup
  blocked : ∀ t ∈ q.waiters, q.state t = .blocked
  ready : ∀ t ∈ q.woken, q.state t = .ready

variable {q q' : WaitQueue}

theorem Orderly.of_nil (hwaiters : q.waiters = []) (hwoken : q.woken = []) : q.Orderly where
  nodup := hwaiters ▸ nodup_nil
  woken_nodup := hwoken ▸ nodup_nil
  blocked := by simp [hwaiters]
  ready := by simp [hwoken]

theorem Orderly.current_not_mem (h : q.Orderly) (hruns : q.Runs) : q.current ∉ q.waiters := by
  intro hmem
  have hblocked := h.blocked _ hmem
  rw [show q.state q.current = .ready from hruns] at hblocked
  cases hblocked

theorem Orderly.retry (h : q.Orderly) : q.retry.Orderly where
  nodup := h.nodup
  woken_nodup := h.woken_nodup.erase _
  blocked := h.blocked
  ready := fun t ht => h.ready t (mem_of_mem_erase ht)

theorem Orderly.retry_block (h : q.Orderly) (hruns : q.Runs) : q.retry.block.Orderly where
  nodup := by
    have hnew := h.current_not_mem hruns
    show (q.waiters ++ [q.current]).Nodup
    rw [nodup_append]
    refine ⟨h.nodup, nodup_singleton _, fun t ht u hu heq => hnew ?_⟩
    rw [← mem_singleton.mp hu, ← heq]
    exact ht
  woken_nodup := h.woken_nodup.erase _
  blocked := by
    intro t ht
    show update q.state q.current .blocked t = .blocked
    by_cases heq : t = q.current
    · rw [heq, update_self]
    · rw [update_of_ne heq]
      rcases mem_append.mp ht with ht | ht
      · exact h.blocked t ht
      · exact absurd (mem_singleton.mp ht) heq
  ready := by
    intro t ht
    obtain ⟨hne, hmem⟩ := h.woken_nodup.mem_erase_iff.mp ht
    show update q.state q.current .blocked t = .ready
    rw [update_of_ne hne]
    exact h.ready t hmem

theorem Orderly.wakeOne_cons (h : q.Orderly) {id : ℕ} {rest : List ℕ}
    (hq : q.waiters = id :: rest) :
    q.wakeOne = { q with
      state := update q.state id .ready
      waiters := rest
      woken := id :: q.woken } := by
  have hblocked : q.state id = .blocked := h.blocked id (hq ▸ mem_cons_self)
  rw [wakeOne, hq]
  exact if_pos (Or.inr hblocked)

theorem wakeOne_nil (hq : q.waiters = []) : q.wakeOne = q := by
  rw [wakeOne, hq]

theorem Orderly.wakeOne (h : q.Orderly) : q.wakeOne.Orderly := by
  cases hq : q.waiters with
  | nil => exact (wakeOne_nil hq).symm ▸ h
  | cons id rest =>
    have hblocked : q.state id = .blocked := h.blocked id (hq ▸ mem_cons_self)
    have hnodup := h.nodup
    rw [hq, nodup_cons] at hnodup
    rw [h.wakeOne_cons hq]
    refine ⟨hnodup.2, nodup_cons.mpr ⟨fun hmem => ?_, h.woken_nodup⟩, ?_, ?_⟩
    · have hready := h.ready id hmem
      rw [hblocked] at hready
      cases hready
    · intro t ht
      have hne : t ≠ id := fun heq => hnodup.1 (heq ▸ ht)
      show update q.state id .ready t = .blocked
      rw [update_of_ne hne]
      exact h.blocked t (hq ▸ mem_cons_of_mem id ht)
    · intro t ht
      show update q.state id .ready t = .ready
      by_cases heq : t = id
      · rw [heq, update_self]
      · rw [update_of_ne heq]
        exact h.ready t ((mem_cons.mp ht).resolve_left heq)

theorem Orderly.switch (h : q.Orderly) {task : ℕ} (hq : q.switch task = some q') : q'.Orderly := by
  obtain ⟨-, hq⟩ := Option.ite_none_right_eq_some.mp hq
  cases hq
  exact ⟨h.nodup, h.woken_nodup, h.blocked, h.ready⟩

/-! ### The queue at a gate -/

/-- The gate with these permits, this queue and these wake-ups still to come. -/
def gate {κ : Type*} (q : WaitQueue) (permits : ℕ) (adding : List κ) : Gate ℕ κ :=
  ⟨permits, q.waiters, q.woken, adding⟩

variable {κ : Type*} {permits : ℕ} {adding : List κ}

theorem Orderly.on_the_way (h : q.Orderly) (hcover : (q.gate permits adding).Covered)
    (hwait : q.waiters ≠ []) (hfree : 0 < permits) :
    (∃ c, c ∈ adding) ∨ ∃ t ∈ q.woken, q.state t = .ready := by
  rcases hcover.on_the_way hwait hfree with hadding | hwoken
  · exact Or.inl (exists_mem_of_ne_nil adding hadding)
  · obtain ⟨t, ht⟩ := exists_mem_of_ne_nil q.woken hwoken
    exact Or.inr ⟨t, ht, h.ready t ht⟩

theorem Orderly.gate_wakeOne [DecidableEq κ] (h : q.Orderly) {c : κ} (hc : c ∈ adding) :
    (q.gate permits adding).Step (q.wakeOne.gate permits (adding.erase c)) := by
  cases hq : q.waiters with
  | nil =>
    rw [wakeOne_nil hq]
    exact .wakeNobody (g := q.gate permits adding) c hc hq
  | cons id rest =>
    rw [h.wakeOne_cons hq]
    exact .wake (g := q.gate permits adding) c id rest hc hq

end WaitQueue

end KernelR.Sync
