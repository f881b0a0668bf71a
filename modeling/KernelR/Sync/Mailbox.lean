import KernelR.Sync.Semaphore
import Mathlib.Data.List.ReduceOption

/-!
# The mailbox

`Mailbox::send` and `Mailbox::receive`: a queue under a lock that disables interrupts, and
a semaphore that counts its messages. A sender pushes first and releases afterwards; a
receiver acquires first and pops afterwards. Both are sequences of steps, and in between
the count and the length of the queue differ by those on the way
(`MailboxSystem.Inv.balance`).

The length of a `VecDeque` is a `usize`; a `push_back` that would exceed it panics.
-/

namespace KernelR.Sync

open List Option Foundations Proc

/-- A mailbox and those that use it. -/
structure MailboxSystem (T : Type*) where
  queue : List T
  available : SemaphoreSystem
  /-- who has pushed a message and not yet raised the count -/
  sending : List Context
  /-- who has got through `acquire` and not yet popped a message -/
  receiving : List Context
  /-- the messages pushed so far, in order -/
  sent : List T
  /-- what `pop_front` has returned so far, in order -/
  received : List (Option T)

/-- The steps. -/
inductive MailboxAction (T : Type*) where
  /-- `send`: the message goes into the queue -/
  | pushBack (c : Context) (message : T)
  /-- `send`: the first half of `release` -/
  | fetchAdd (c : Context)
  /-- `send`: the second half of `release` -/
  | wakeOne (c : Context)
  /-- `receive`, by the current thread: `acquire` -/
  | acquire (spurious : ℕ)
  /-- `receive`, by the current thread: the message is taken -/
  | popFront
  /-- another thread goes on -/
  | switch (task : ℕ)
deriving DecidableEq, Repr

namespace MailboxSystem

variable {T : Type*}

/-- `send`: `push_back` under the lock. -/
def pushBack (s : MailboxSystem T) (c : Context) (message : T) : MailboxSystem T :=
  { s with
    queue := s.queue ++ [message]
    sending := c :: s.sending
    sent := s.sent ++ [message] }

/-- `receive`: `pop_front` under the lock. -/
def popFront (s : MailboxSystem T) : MailboxSystem T :=
  { s with
    queue := s.queue.tail
    receiving := s.receiving.erase (.thread s.available.waitQueue.current)
    received := s.received ++ [s.queue.head?] }

/-- `receive`: `acquire`, which returns if there was a permit. -/
def acquire (s : MailboxSystem T) (available : SemaphoreSystem) : MailboxSystem T :=
  { s with
    available
    receiving :=
      if 0 < s.available.count then .thread s.available.waitQueue.current :: s.receiving
      else s.receiving }

/-- In the middle of `send` or `receive`. -/
def Busy (s : MailboxSystem T) (c : Context) : Prop :=
  s.available.Acquires c ∨ c ∈ s.available.releasing ∨ c ∈ s.sending ∨ c ∈ s.receiving

instance (s : MailboxSystem T) (c : Context) : Decidable (s.Busy c) :=
  inferInstanceAs (Decidable (_ ∨ _))

/-- One step. Who is in the middle of a call goes on with it. -/
def step (s : MailboxSystem T) : MailboxAction T → Option (MailboxSystem T)
  | .pushBack c message =>
    if s.available.Executes c ∧ ¬s.Busy c ∧ s.queue.length + 1 < 2 ^ 64 then
      some (s.pushBack c message)
    else none
  | .fetchAdd c =>
    if c ∈ s.sending then
      (s.available.step (.fetchAdd c)).map fun available =>
        { s with available, sending := s.sending.erase c }
    else none
  | .wakeOne c =>
    (s.available.step (.wakeOne c)).map fun available => { s with available }
  | .acquire spurious =>
    if .thread s.available.waitQueue.current ∉ s.sending ∧
        .thread s.available.waitQueue.current ∉ s.receiving then
      (s.available.step (.acquire spurious)).map s.acquire
    else none
  | .popFront =>
    if s.available.waitQueue.Runs ∧ .thread s.available.waitQueue.current ∈ s.receiving then
      some s.popFront
    else none
  | .switch task =>
    (s.available.step (.switch task)).map fun available => { s with available }

/-- `Mailbox::new` -/
structure Init (s : MailboxSystem T) : Prop where
  queue : s.queue = []
  available : s.available.Init 0
  sending : s.sending = []
  receiving : s.receiving = []
  sent : s.sent = []
  received : s.received = []

/-- The states reached by any interleaving. -/
def Reachable : MailboxSystem T → Prop := Run Init step fun _ _ _ => True

/-! ### The invariant -/

/-- The messages that were sent are those that were received and those in the queue, in
this order; and there is a message for every permit, for every receiver that has used up
a permit, and for every sender that has not yet added one. -/
structure Inv (s : MailboxSystem T) : Prop where
  history : s.received ++ s.queue.map some = s.sent.map some
  balance : s.queue.length = s.available.count + s.receiving.length + s.sending.length
  bound : s.queue.length < 2 ^ 64

variable {s s' : MailboxSystem T} {a : MailboxAction T}

theorem Inv.init (h : s.Init) : s.Inv where
  history := by rw [h.received, h.queue, h.sent, map_nil, append_nil]
  balance := by
    rw [h.queue, h.available.count, h.receiving, h.sending]
    rfl
  bound := by
    rw [h.queue]
    exact Nat.two_pow_pos 64

theorem Inv.pushBack (h : s.Inv) (c : Context) (message : T)
    (hroom : s.queue.length + 1 < 2 ^ 64) : (s.pushBack c message).Inv := by
  have hbalance := h.balance
  refine ⟨?_, ?_, ?_⟩
  · show s.received ++ (s.queue ++ [message]).map some = (s.sent ++ [message]).map some
    rw [map_append, map_append, ← append_assoc, h.history]
  · show (s.queue ++ [message]).length =
      s.available.count + s.receiving.length + (c :: s.sending).length
    rw [length_append, length_singleton, length_cons]
    omega
  · show (s.queue ++ [message]).length < 2 ^ 64
    rw [length_append, length_singleton]
    exact hroom

/-- The count does not wrap around: there is a message for every permit, and one more. -/
theorem Inv.fetchAdd (h : s.Inv) {c : Context} (hc : c ∈ s.sending) :
    Inv { s with available := s.available.fetchAdd c, sending := s.sending.erase c } := by
  have hbalance := h.balance
  have hbound := h.bound
  have hpos := length_pos_of_mem hc
  have hwrap : wrap (s.available.count + 1) = s.available.count + 1 := Nat.mod_eq_of_lt (by omega)
  refine ⟨h.history, ?_, hbound⟩
  show s.queue.length =
    wrap (s.available.count + 1) + s.receiving.length + (s.sending.erase c).length
  rw [hwrap, length_erase_of_mem hc]
  omega

theorem Inv.acquire (h : s.Inv) (spurious : ℕ) :
    (s.acquire (s.available.acquire spurious)).Inv := by
  have hbalance := h.balance
  refine ⟨h.history, ?_, h.bound⟩
  by_cases hfree : 0 < s.available.count
  · rw [MailboxSystem.acquire, if_pos hfree, SemaphoreSystem.acquire_of_pos hfree]
    show s.queue.length = s.available.count - 1 + (_ :: s.receiving).length + s.sending.length
    rw [length_cons]
    omega
  · have hnone : s.available.count = 0 := Nat.eq_zero_of_not_pos hfree
    rw [MailboxSystem.acquire, if_neg hfree, SemaphoreSystem.acquire_of_zero hnone]
    exact hbalance

theorem Inv.queue_ne_nil (h : s.Inv) {c : Context} (hc : c ∈ s.receiving) : s.queue ≠ [] := by
  have hbalance := h.balance
  have hpos := length_pos_of_mem hc
  apply ne_nil_of_length_pos
  omega

theorem Inv.popFront (h : s.Inv)
    (hc : .thread s.available.waitQueue.current ∈ s.receiving) : s.popFront.Inv := by
  obtain ⟨message, rest, hqueue⟩ := exists_cons_of_ne_nil (h.queue_ne_nil hc)
  have hhistory := h.history
  have hbalance := h.balance
  have hbound := h.bound
  have hpos := length_pos_of_mem hc
  rw [hqueue] at hhistory hbalance hbound
  rw [length_cons] at hbalance hbound
  refine ⟨?_, ?_, ?_⟩
  · show s.received ++ [s.queue.head?] ++ s.queue.tail.map some = s.sent.map some
    rw [hqueue, append_assoc]
    exact hhistory
  · show s.queue.tail.length = s.available.count + (s.receiving.erase _).length + s.sending.length
    rw [hqueue, tail_cons, length_erase_of_mem hc]
    omega
  · show s.queue.tail.length < 2 ^ 64
    rw [hqueue, tail_cons]
    omega

/-- The semaphore goes on without a permit being added or taken. -/
theorem Inv.of_count (h : s.Inv) {available : SemaphoreSystem}
    (hcount : available.count = s.available.count) : Inv { s with available } := by
  refine ⟨h.history, ?_, h.bound⟩
  show s.queue.length = available.count + s.receiving.length + s.sending.length
  rw [hcount]
  exact h.balance

/-- **Every step keeps the invariant.** -/
theorem Inv.step (h : s.Inv) (hs : s.step a = some s') : s'.Inv := by
  cases a with
  | pushBack c message =>
    obtain ⟨⟨-, -, hroom⟩, hs⟩ := ite_none_right_eq_some.mp hs
    cases hs
    exact h.pushBack c message hroom
  | fetchAdd c =>
    obtain ⟨hc, hs⟩ := ite_none_right_eq_some.mp hs
    obtain ⟨available, hstep, rfl⟩ := map_eq_some_iff.mp hs
    obtain ⟨-, rfl⟩ := SemaphoreSystem.step_fetchAdd hstep
    exact h.fetchAdd hc
  | wakeOne c =>
    obtain ⟨available, hstep, rfl⟩ := map_eq_some_iff.mp hs
    obtain ⟨-, -, rfl⟩ := SemaphoreSystem.step_wakeOne hstep
    exact h.of_count rfl
  | acquire spurious =>
    obtain ⟨-, hs⟩ := ite_none_right_eq_some.mp hs
    obtain ⟨available, hstep, rfl⟩ := map_eq_some_iff.mp hs
    obtain ⟨-, -, rfl⟩ := SemaphoreSystem.step_acquire hstep
    exact h.acquire spurious
  | popFront =>
    obtain ⟨⟨-, hc⟩, hs⟩ := ite_none_right_eq_some.mp hs
    cases hs
    exact h.popFront hc
  | switch task =>
    obtain ⟨available, hstep, rfl⟩ := map_eq_some_iff.mp hs
    obtain ⟨q, -, rfl⟩ := SemaphoreSystem.step_switch hstep
    exact h.of_count rfl

theorem Reachable.inv (h : s.Reachable) : s.Inv :=
  Run.invariant (fun _ => Inv.init) (fun _ _ _ _ hinv hs _ => hinv.step hs) h

end MailboxSystem

/-- **Delivery.**  In every interleaving `receive` has never returned `None`, the messages
received are a prefix of those sent, and what was sent and not received is in the queue:
no message is lost and none is delivered twice. -/
theorem mailbox_delivery {T : Type*} {s : MailboxSystem T} (h : s.Reachable) :
    none ∉ s.received ∧ s.received.reduceOption ++ s.queue = s.sent ∧
      s.received.reduceOption <+: s.sent := by
  have hhistory := h.inv.history
  have hsent : s.received.reduceOption ++ s.queue = s.sent := by
    have hreduced := congrArg List.reduceOption hhistory
    rw [List.reduceOption_append] at hreduced
    simpa [List.reduceOption] using hreduced
  refine ⟨fun hnone => ?_, hsent, ⟨s.queue, hsent⟩⟩
  have hmem : none ∈ s.sent.map some := hhistory ▸ List.mem_append_left _ hnone
  simp at hmem

/-- A receiver sleeps, a handler sends, another thread sends as well, and the receiver
gets the first message. -/
theorem mailbox_delivery_handler :
    ∃ s : MailboxSystem Bool, s.Reachable ∧ s.received = [some true] ∧
      s.received.reduceOption ++ s.queue = [true, false] := by
  let start : MailboxSystem Bool :=
    ⟨[], ⟨0, ⟨0, fun _ => .ready, [], []⟩, [], 0, 0⟩, [], [], [], []⟩
  obtain ⟨s, hs⟩ : ∃ s, exec MailboxSystem.step (fun _ _ _ => True) start
      [.acquire 0, .switch 1, .pushBack (.handler 0) true, .fetchAdd (.handler 0),
        .pushBack (.thread 1) false, .wakeOne (.handler 0), .switch 0, .acquire 1,
        .popFront] = some s := ⟨_, rfl⟩
  have hreach : s.Reachable :=
    Run.exec (.start ⟨rfl, ⟨by decide, rfl, rfl, rfl, rfl, rfl, rfl⟩, rfl, rfl, rfl, rfl⟩) hs
  obtain ⟨-, hsent, -⟩ := mailbox_delivery hreach
  cases hs
  exact ⟨_, hreach, rfl, hsent⟩

end KernelR.Sync
