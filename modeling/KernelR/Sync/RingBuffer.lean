import KernelR.Foundations.Cyclic
import KernelR.Foundations.Run
import Mathlib.Data.List.ReduceOption

/-!
# The single-producer single-consumer ring buffer

`RingBuffer::push` and `RingBuffer::pop`, one access to shared memory at a time. The
producer and the consumer each have a program counter with the values they have loaded,
which may be stale by the time they are used; the accesses of the two interleave in any
way.

Item number `i` goes into slot `i % N`. What has been pushed and not yet popped is a
stretch of the sequence of all items, shorter than the buffer (`RingSystem.Inv`).
-/

namespace KernelR.Sync

open List Foundations

/-- Where the producer is in `push`. -/
inductive Producer (T : Type*) where
  | idle
  | loadedHead (item : T) (head : ℕ)
  /-- the buffer was not full -/
  | loadedTail (item : T) (head : ℕ)
  | wroteSlot (item : T) (head : ℕ)
deriving DecidableEq, Repr

/-- Where the consumer is in `pop`. -/
inductive Consumer (T : Type*) where
  | idle
  | loadedTail (tail : ℕ)
  /-- the buffer was not empty -/
  | loadedHead (tail : ℕ)
  | tookSlot (tail : ℕ) (item : Option T)
  | clearedSlot (tail : ℕ) (item : Option T)
deriving DecidableEq, Repr

/-- The slot that the producer accesses next. -/
def Producer.slot {T : Type*} : Producer T → Option ℕ
  | .loadedTail _ head => some head
  | _ => none

/-- The slot that the consumer accesses next. -/
def Consumer.slot {T : Type*} : Consumer T → Option ℕ
  | .loadedHead tail => some tail
  | .tookSlot tail _ => some tail
  | _ => none

/-- A ring buffer, its producer and its consumer. -/
structure RingSystem (T : Type*) where
  buffer : ℕ → Option T
  head : ℕ
  tail : ℕ
  producer : Producer T
  consumer : Consumer T
  /-- the items for which `push` returned `Ok`, in order -/
  pushed : List T
  /-- what `pop` returned after it had seen that the buffer is not empty, in order -/
  popped : List (Option T)
  /-- the items that `push` returned in `Err`, each with the number of items that were
  pushed and not yet released by the consumer when `tail` was loaded -/
  rejected : List (T × ℕ)

/-- The accesses to shared memory. -/
inductive RingAction (T : Type*) where
  /-- `push` begins and loads `head` -/
  | push (item : T)
  /-- `push` loads `tail`; it returns if the buffer is full -/
  | loadTail
  | writeSlot
  /-- `push` stores `head` and returns -/
  | storeHead
  /-- `pop` begins and loads `tail` -/
  | pop
  /-- `pop` loads `head`; it returns if the buffer is empty -/
  | loadHead
  | takeSlot
  | clearSlot
  /-- `pop` stores `tail` and returns -/
  | storeTail
deriving DecidableEq, Repr

namespace RingSystem

variable {T : Type*} {N : ℕ}

/-- How many items were pushed and not yet released. -/
def held (s : RingSystem T) : ℕ := s.pushed.length - s.popped.length

/-- One access to the head, the tail or a slot; `N` is the number of slots. The accesses of the
two sides interleave, in one order for both. -/
def step (N : ℕ) (s : RingSystem T) : RingAction T → Option (RingSystem T)
  | .push item =>
    match s.producer with
    | .idle => some { s with producer := .loadedHead item s.head }
    | _ => none
  | .loadTail =>
    match s.producer with
    | .loadedHead item head =>
      if (head + 1) % N = s.tail then
        some { s with producer := .idle, rejected := s.rejected ++ [(item, s.held)] }
      else some { s with producer := .loadedTail item head }
    | _ => none
  | .writeSlot =>
    match s.producer with
    | .loadedTail item head =>
      some { s with
        buffer := Function.update s.buffer head (some item)
        producer := .wroteSlot item head }
    | _ => none
  | .storeHead =>
    match s.producer with
    | .wroteSlot item head =>
      some { s with
        head := (head + 1) % N
        producer := .idle
        pushed := s.pushed ++ [item] }
    | _ => none
  | .pop =>
    match s.consumer with
    | .idle => some { s with consumer := .loadedTail s.tail }
    | _ => none
  | .loadHead =>
    match s.consumer with
    | .loadedTail tail =>
      if tail = s.head then some { s with consumer := .idle }
      else some { s with consumer := .loadedHead tail }
    | _ => none
  | .takeSlot =>
    match s.consumer with
    | .loadedHead tail =>
      some { s with
        buffer := Function.update s.buffer tail none
        consumer := .tookSlot tail (s.buffer tail) }
    | _ => none
  | .clearSlot =>
    match s.consumer with
    | .tookSlot tail item =>
      some { s with
        buffer := Function.update s.buffer tail none
        consumer := .clearedSlot tail item }
    | _ => none
  | .storeTail =>
    match s.consumer with
    | .clearedSlot tail item =>
      some { s with
        tail := (tail + 1) % N
        consumer := .idle
        popped := s.popped ++ [item] }
    | _ => none

/-- `RingBuffer::new` -/
def new : RingSystem T where
  buffer := fun _ => none
  head := 0
  tail := 0
  producer := .idle
  consumer := .idle
  pushed := []
  popped := []
  rejected := []

/-- The states reached by any interleaving. -/
def Reachable (N : ℕ) : RingSystem T → Prop := Run (· = new) (step N) fun _ _ _ => True

/-! ### The invariant -/

/-- The number of the first item that is still in its slot. -/
def first (s : RingSystem T) : ℕ :=
  match s.consumer with
  | .tookSlot _ _ => s.popped.length + 1
  | .clearedSlot _ _ => s.popped.length + 1
  | _ => s.popped.length

/-- What the producer has loaded is still right, and there is room for its item. -/
def ProducerOk (N : ℕ) (s : RingSystem T) : Prop :=
  match s.producer with
  | .idle => True
  | .loadedHead _ head => head = s.pushed.length % N
  | .loadedTail _ head =>
    head = s.pushed.length % N ∧ s.pushed.length + 1 < s.popped.length + N
  | .wroteSlot item head =>
    head = s.pushed.length % N ∧ s.pushed.length + 1 < s.popped.length + N ∧
      s.buffer head = some item

/-- What the consumer has loaded is still right, and there is an item for it. -/
def ConsumerOk (N : ℕ) (s : RingSystem T) : Prop :=
  match s.consumer with
  | .idle => True
  | .loadedTail tail => tail = s.popped.length % N
  | .loadedHead tail => tail = s.popped.length % N ∧ s.popped.length < s.pushed.length
  | .tookSlot tail item | .clearedSlot tail item =>
    tail = s.popped.length % N ∧ s.popped.length < s.pushed.length ∧
      item = s.pushed[s.popped.length]?

/-- The invariant of the ring buffer. -/
structure Inv (N : ℕ) (s : RingSystem T) : Prop where
  head : s.head = s.pushed.length % N
  tail : s.tail = s.popped.length % N
  le : s.popped.length ≤ s.pushed.length
  /-- one slot stays free -/
  room : s.pushed.length < s.popped.length + N
  history : s.popped = (s.pushed.take s.popped.length).map some
  slots : Cyclic.Holds N s.buffer s.pushed s.first s.pushed.length
  producer : s.ProducerOk N
  consumer : s.ConsumerOk N
  rejected : ∀ r ∈ s.rejected, r.2 = N - 1

variable {s s' : RingSystem T}

theorem inv_new (hN : 0 < N) : (new : RingSystem T).Inv N where
  head := (Nat.zero_mod N).symm
  tail := (Nat.zero_mod N).symm
  le := Nat.le_refl 0
  room := by
    show 0 < 0 + N
    omega
  history := rfl
  slots := fun i _ hi => absurd hi (Nat.not_lt_zero i)
  producer := trivial
  consumer := trivial
  rejected := fun _ hr => absurd hr not_mem_nil

/-! ### The producer's accesses -/

theorem Inv.push (h : s.Inv N) {item : T} (hs : s.step N (.push item) = some s') : s'.Inv N := by
  cases hp : s.producer with
  | idle =>
    simp only [step, hp] at hs
    cases hs
    exact { h with producer := h.head }
  | _ =>
    simp only [step, hp] at hs
    cases hs

theorem Inv.loadTail (h : s.Inv N) (hs : s.step N .loadTail = some s') : s'.Inv N := by
  cases hp : s.producer with
  | loadedHead item head =>
    have hhead : head = s.pushed.length % N := by
      have hok := h.producer
      rw [ProducerOk, hp] at hok
      exact hok
    -- the stale head is the true one: only the producer changes it
    have hfull : (head + 1) % N = s.tail ↔ s.held = N - 1 := by
      rw [hhead, h.tail]
      exact succ_mod_eq_mod_iff h.le h.room
    simp only [step, hp] at hs
    split at hs
    next hfound =>
      cases hs
      refine { h with producer := trivial, rejected := fun r hr => ?_ }
      rcases mem_append.mp hr with hr | hr
      · exact h.rejected r hr
      · rw [mem_singleton.mp hr]
        exact hfull.mp hfound
    next hfound =>
      cases hs
      refine { h with producer := ⟨hhead, ?_⟩ }
      have hroom := h.room
      have hheld : s.pushed.length - s.popped.length ≠ N - 1 := fun heq => hfound (hfull.mpr heq)
      show s.pushed.length + 1 < s.popped.length + N
      omega
  | _ =>
    simp only [step, hp] at hs
    cases hs

/-- The first item in the buffer comes at or after the ones that were released. -/
theorem le_first (s : RingSystem T) : s.popped.length ≤ s.first := by
  unfold first
  split <;> omega

theorem Inv.writeSlot (h : s.Inv N) (hs : s.step N .writeSlot = some s') : s'.Inv N := by
  cases hp : s.producer with
  | loadedTail item head =>
    have hok := h.producer
    rw [ProducerOk, hp] at hok
    obtain ⟨hhead, hroom⟩ := hok
    have hfirst := s.le_first
    simp only [step, hp] at hs
    cases hs
    refine { h with slots := ?_, producer := ⟨hhead, hroom, Function.update_self _ _ _⟩ }
    show Cyclic.Holds N (Function.update s.buffer head (some item)) s.pushed s.first _
    rw [hhead]
    exact h.slots.write (by omega) (some item)
  | _ =>
    simp only [step, hp] at hs
    cases hs

theorem Inv.storeHead (h : s.Inv N) (hs : s.step N .storeHead = some s') : s'.Inv N := by
  cases hp : s.producer with
  | wroteSlot item head =>
    have hok := h.producer
    rw [ProducerOk, hp] at hok
    obtain ⟨hhead, hroom, hslot⟩ := hok
    have hle := h.le
    have hlength : (s.pushed ++ [item]).length = s.pushed.length + 1 := length_append
    simp only [step, hp] at hs
    cases hs
    refine
      { tail := h.tail
        rejected := h.rejected
        head := ?_
        le := ?_
        room := ?_
        history := ?_
        slots := h.slots.push (hhead ▸ hslot)
        producer := trivial
        consumer := ?_ }
    · show (head + 1) % N = (s.pushed ++ [item]).length % N
      rw [hlength, hhead, Nat.mod_add_mod]
    · show s.popped.length ≤ (s.pushed ++ [item]).length
      omega
    · show (s.pushed ++ [item]).length < s.popped.length + N
      omega
    · show s.popped = ((s.pushed ++ [item]).take s.popped.length).map some
      rw [take_append_of_le_length hle]
      exact h.history
    · -- the consumer's item has a number below the new one
      have hcons := h.consumer
      unfold ConsumerOk at hcons ⊢
      have hget : s.popped.length < s.pushed.length →
          (s.pushed ++ [item])[s.popped.length]? = s.pushed[s.popped.length]? :=
        List.getElem?_append_left
      split at hcons
      next hc => simp [hc]
      next tail hc => simpa [hc] using hcons
      next tail hc =>
        simp only [hc]
        exact ⟨hcons.1, by omega⟩
      next tail taken hc =>
        simp only [hc]
        exact ⟨hcons.1, by omega, hcons.2.2.trans (hget hcons.2.1).symm⟩
      next tail taken hc =>
        simp only [hc]
        exact ⟨hcons.1, by omega, hcons.2.2.trans (hget hcons.2.1).symm⟩
  | _ =>
    simp only [step, hp] at hs
    cases hs

/-! ### The consumer's accesses -/

theorem Inv.pop (h : s.Inv N) (hs : s.step N .pop = some s') : s'.Inv N := by
  cases hc : s.consumer with
  | idle =>
    have hfirst : s.first = s.popped.length := by rw [first, hc]
    have hslots := h.slots
    rw [hfirst] at hslots
    simp only [step, hc] at hs
    cases hs
    exact { h with consumer := h.tail, slots := hslots }
  | _ =>
    simp only [step, hc] at hs
    cases hs

theorem Inv.loadHead (h : s.Inv N) (hs : s.step N .loadHead = some s') : s'.Inv N := by
  cases hc : s.consumer with
  | loadedTail tail =>
    have htail : tail = s.popped.length % N := by
      have hok := h.consumer
      rw [ConsumerOk, hc] at hok
      exact hok
    have hfirst : s.first = s.popped.length := by rw [first, hc]
    have hslots := h.slots
    rw [hfirst] at hslots
    simp only [step, hc] at hs
    split at hs
    next =>
      cases hs
      exact { h with consumer := trivial, slots := hslots }
    next hne =>
      cases hs
      -- different indices: the numbers of the items pushed and popped differ
      have hlt : s.popped.length < s.pushed.length := by
        refine lt_of_le_of_ne h.le fun heq => hne ?_
        rw [htail, h.head, heq]
      exact { h with consumer := ⟨htail, hlt⟩, slots := hslots }
  | _ =>
    simp only [step, hc] at hs
    cases hs

theorem ProducerOk.update (h : s.ProducerOk N) (hlt : s.popped.length < s.pushed.length)
    (a : Option T) (consumer : Consumer T) :
    ProducerOk N { s with
      buffer := Function.update s.buffer (s.popped.length % N) a
      consumer } := by
  cases hp : s.producer with
  | wroteSlot item head =>
    simp only [ProducerOk, hp] at h ⊢
    obtain ⟨hhead, hroom, hslot⟩ := h
    have hne : head ≠ s.popped.length % N := by
      rw [hhead]
      exact (mod_ne_of_lt_of_lt_add hlt (by omega)).symm
    refine ⟨hhead, hroom, ?_⟩
    rw [Function.update_of_ne hne]
    exact hslot
  | idle => simp only [ProducerOk]
  | loadedHead _ _ => simpa only [ProducerOk, hp] using h
  | loadedTail _ _ => simpa only [ProducerOk, hp] using h

theorem Inv.takeSlot (h : s.Inv N) (hs : s.step N .takeSlot = some s') : s'.Inv N := by
  cases hc : s.consumer with
  | loadedHead tail =>
    have hok := h.consumer
    rw [ConsumerOk, hc] at hok
    obtain ⟨htail, hlt⟩ := hok
    have hfirst : s.first = s.popped.length := by rw [first, hc]
    have hslots := h.slots
    rw [hfirst] at hslots
    have hitem : s.buffer tail = s.pushed[s.popped.length]? := by
      rw [htail]
      exact hslots _ (Nat.le_refl _) hlt
    simp only [step, hc] at hs
    cases hs
    subst htail
    exact { h with
      slots := hslots.pop h.room.le none
      producer := h.producer.update hlt none _
      consumer := ⟨rfl, hlt, hitem⟩ }
  | _ =>
    simp only [step, hc] at hs
    cases hs

theorem Inv.clearSlot (h : s.Inv N) (hs : s.step N .clearSlot = some s') : s'.Inv N := by
  cases hc : s.consumer with
  | tookSlot tail item =>
    have hok := h.consumer
    rw [ConsumerOk, hc] at hok
    obtain ⟨htail, hlt, hitem⟩ := hok
    have hroom := h.room
    have hfirst : s.first = s.popped.length + 1 := by rw [first, hc]
    have hslots := h.slots
    rw [hfirst] at hslots
    simp only [step, hc] at hs
    cases hs
    subst htail
    -- the slot has been given up already, and the others are not it
    have hfree : ∀ i, s.popped.length + 1 ≤ i → i < s.pushed.length →
        i % N ≠ s.popped.length % N := fun i hlo hhi =>
      (mod_ne_of_lt_of_lt_add (i := s.popped.length) hlo (by omega)).symm
    exact { h with
      slots := hslots.update hfree
      producer := h.producer.update hlt none _
      consumer := ⟨rfl, hlt, hitem⟩ }
  | _ =>
    simp only [step, hc] at hs
    cases hs

theorem Inv.storeTail (h : s.Inv N) (hs : s.step N .storeTail = some s') : s'.Inv N := by
  cases hc : s.consumer with
  | clearedSlot tail item =>
    have hok := h.consumer
    rw [ConsumerOk, hc] at hok
    obtain ⟨htail, hlt, hitem⟩ := hok
    have hroom := h.room
    have hlength : (s.popped ++ [item]).length = s.popped.length + 1 := length_append
    have hfirst : s.first = s.popped.length + 1 := by rw [first, hc]
    have hslots := h.slots
    rw [hfirst] at hslots
    simp only [step, hc] at hs
    cases hs
    refine
      { head := h.head
        rejected := h.rejected
        tail := ?_
        le := ?_
        room := ?_
        history := ?_
        slots := ?_
        producer := ?_
        consumer := trivial }
    · show (tail + 1) % N = (s.popped ++ [item]).length % N
      rw [hlength, htail, Nat.mod_add_mod]
    · show (s.popped ++ [item]).length ≤ s.pushed.length
      omega
    · show s.pushed.length < (s.popped ++ [item]).length + N
      omega
    · show s.popped ++ [item] = (s.pushed.take (s.popped ++ [item]).length).map some
      rw [hlength, take_add_one, map_append, ← h.history, hitem, List.getElem?_eq_getElem hlt]
      rfl
    · show Cyclic.Holds N s.buffer s.pushed (s.popped ++ [item]).length s.pushed.length
      rw [hlength]
      exact hslots
    · have hprod := h.producer
      cases hp : s.producer with
      | idle => simp only [ProducerOk]
      | loadedHead _ _ => simpa only [ProducerOk, hp] using hprod
      | loadedTail _ _ =>
        simp only [ProducerOk, hp] at hprod ⊢
        exact ⟨hprod.1, by omega⟩
      | wroteSlot _ _ =>
        simp only [ProducerOk, hp] at hprod ⊢
        exact ⟨hprod.1, by omega, hprod.2.2⟩
  | _ =>
    simp only [step, hc] at hs
    cases hs

/-! ### All interleavings -/

/-- **Every access keeps the invariant.** -/
theorem Inv.step (h : s.Inv N) {a : RingAction T} (hs : s.step N a = some s') : s'.Inv N := by
  cases a with
  | push item => exact h.push hs
  | loadTail => exact h.loadTail hs
  | writeSlot => exact h.writeSlot hs
  | storeHead => exact h.storeHead hs
  | pop => exact h.pop hs
  | loadHead => exact h.loadHead hs
  | takeSlot => exact h.takeSlot hs
  | clearSlot => exact h.clearSlot hs
  | storeTail => exact h.storeTail hs

theorem Reachable.inv (hN : 0 < N) (h : s.Reachable N) : s.Inv N :=
  Run.invariant (fun _ heq => heq ▸ inv_new hN) (fun _ _ _ _ hinv hs _ => hinv.step hs) h

/-- The producer is about to write a slot that no item is in, the consumer is about to
empty the slot of an item. -/
theorem Inv.slots_apart (h : s.Inv N) {i : ℕ} (hp : s.producer.slot = some i) :
    s.consumer.slot ≠ some i := by
  intro hc
  have hprod := h.producer
  have hcons := h.consumer
  cases hpc : s.producer with
  | loadedTail item head =>
    simp only [hpc, Producer.slot, Option.some.injEq] at hp
    simp only [ProducerOk, hpc] at hprod
    obtain ⟨hhead, hroom⟩ := hprod
    have hapart : s.popped.length < s.pushed.length → s.popped.length % N ≠ i := by
      intro hlt
      rw [← hp, hhead]
      exact mod_ne_of_lt_of_lt_add hlt (by omega)
    cases hcc : s.consumer with
    | loadedHead tail =>
      simp only [hcc, Consumer.slot, Option.some.injEq] at hc
      simp only [ConsumerOk, hcc] at hcons
      exact hapart hcons.2 (hcons.1 ▸ hc)
    | tookSlot tail item =>
      simp only [hcc, Consumer.slot, Option.some.injEq] at hc
      simp only [ConsumerOk, hcc] at hcons
      exact hapart hcons.2.1 (hcons.1 ▸ hc)
    | _ =>
      rw [hcc] at hc
      cases hc
  | _ =>
    rw [hpc] at hp
    cases hp

end RingSystem

/-- **The ring buffer is a queue.**  For every number of slots and in every interleaving:
the items popped are a prefix of the items pushed, `pop` has never returned `None` after it
had seen that the buffer is not empty, the two sides never access the same slot at once,
and whenever `push` gave an item back, `N - 1` items were pushed and not yet released when
it loaded `tail`. -/
theorem ringBuffer_queue {T : Type*} {N : ℕ} (hN : 0 < N) {s : RingSystem T}
    (h : s.Reachable N) :
    s.popped.reduceOption <+: s.pushed ∧ none ∉ s.popped ∧
      (∀ i, s.producer.slot = some i → s.consumer.slot ≠ some i) ∧
      ∀ item held, (item, held) ∈ s.rejected → held = N - 1 := by
  have hinv := h.inv hN
  refine ⟨?_, fun hnone => ?_, fun i => hinv.slots_apart, fun item held hr => ?_⟩
  · have hpopped : s.popped.reduceOption = s.pushed.take s.popped.length := by
      conv_lhs => rw [hinv.history]
      simp [List.reduceOption]
    rw [hpopped]
    exact List.take_prefix _ _
  · rw [hinv.history] at hnone
    obtain ⟨_, -, hsome⟩ := List.mem_map.mp hnone
    cases hsome
  · exact hinv.rejected _ hr

/-- With two slots there is room for one item: a second one is given back, and the first
one comes out. -/
theorem ringBuffer_queue_two :
    ∃ s : RingSystem Bool, s.Reachable 2 ∧ s.popped = [some true] ∧
      s.popped.reduceOption <+: s.pushed ∧ (false, 1) ∈ s.rejected ∧ 1 = 2 - 1 := by
  obtain ⟨s, hs⟩ : ∃ s, exec (RingSystem.step 2) (fun _ _ _ => True) (.new : RingSystem Bool)
      [.push true, .loadTail, .pop, .writeSlot, .storeHead, .loadHead, .push false, .takeSlot,
        .loadTail, .clearSlot, .storeTail] = some s := ⟨_, rfl⟩
  have hreach : s.Reachable 2 := Run.exec (.start rfl) hs
  obtain ⟨hbegins, -, -, hrejected⟩ := ringBuffer_queue (by decide) hreach
  cases hs
  have hmem : (false, 1) ∈ [(false, 1)] := List.mem_singleton_self _
  exact ⟨_, hreach, rfl, hbegins, hmem, hrejected _ _ hmem⟩

end KernelR.Sync
