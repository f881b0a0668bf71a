import Mathlib.Data.List.Basic

/-!
# Code of a kernel on one CPU

What a thread executes inside the kernel, as a tree of commands: it changes the kernel's data in
one piece, reads and writes memory through pointers, turns interrupts off and on, gives up the
CPU, and takes spin locks. A tree ends with a value, or with `fail`: a panic, or a loop that is
not followed any further.

The tree has two readings. `Code.run` executes it alone and records the accesses; others come
in only where it turns interrupts on or gives up the CPU, and what they have made of the data
and of memory by then is given (`Activation.resumptions`). The other reading, where several
threads execute at the same time, is in `Uniprocessor`.

`Code.wp` is the condition under which the code keeps to a `Policy` and ends as wanted, whoever
else executes in the meantime. While interrupts are off nobody does, and the condition follows
the data exactly; while they are on it has to hold for all data. `run_of_wp` is its soundness
for the first reading.
-/

namespace KernelR.Foundations

variable {σ L α β : Type}

/-- A tree of commands: on data `σ`, with locks `L` and a result in `α`. -/
inductive Code (σ L α : Type) : Type 1
  | ret (a : α)
  | fail
  /-- something done to the data in one piece; `none` is a panic -/
  | act {β : Type} (f : σ → Option (β × σ)) (k : β → Code σ L α)
  | load (addr : ℕ) (k : UInt8 → Code σ L α)
  | store (addr : ℕ) (v : UInt8) (k : Code σ L α)
  /-- ask whether interrupts are on -/
  | flag (k : Bool → Code σ L α)
  | disable (k : Code σ L α)
  | enable (k : Code σ L α)
  /-- call the scheduler by a software interrupt -/
  | yield (k : Code σ L α)
  /-- spin until the lock is free, and take it -/
  | lock (l : L) (k : Code σ L α)
  | unlock (l : L) (k : Code σ L α)

/-- An access to memory. -/
inductive Access where
  | load (addr : ℕ)
  | store (addr : ℕ)
deriving DecidableEq, Repr

/-- The address of an access. -/
def Access.addr : Access → ℕ
  | .load addr => addr
  | .store addr => addr

/-- What code finds when it executes. -/
structure Activation (σ : Type) where
  data : σ
  mem : ℕ → UInt8
  /-- the addresses at which an access does not end in a fault -/
  accessible : ℕ → Bool
  interrupts : Bool
  /-- the accesses so far, in order -/
  accesses : List Access
  /-- what others will have made of the data and of memory, each time they had the CPU -/
  resumptions : List (σ × (ℕ → UInt8))

/-- Others had the CPU, if anything is left of what they do. -/
def Activation.resumed (c : Activation σ) : Activation σ :=
  match c.resumptions with
  | [] => c
  | (data, mem) :: resumptions => { c with data, mem, resumptions }

/-- A byte was read. -/
def Activation.loaded (c : Activation σ) (addr : ℕ) : Activation σ :=
  { c with accesses := c.accesses ++ [.load addr] }

/-- A byte was written. -/
def Activation.stored (c : Activation σ) (addr : ℕ) (v : UInt8) : Activation σ :=
  { c with
    mem := Function.update c.mem addr v
    accesses := c.accesses ++ [.store addr] }

@[simp]
theorem Activation.resumed_accesses (c : Activation σ) : c.resumed.accesses = c.accesses := by
  rw [resumed]
  split
  · rfl
  · rfl

@[simp]
theorem Activation.resumed_accessible (c : Activation σ) : c.resumed.accessible = c.accessible := by
  rw [resumed]
  split
  · rfl
  · rfl

@[simp]
theorem Activation.resumed_interrupts (c : Activation σ) : c.resumed.interrupts = c.interrupts := by
  rw [resumed]
  split
  · rfl
  · rfl

namespace Code

/-! ### The monad -/

/-- Go on with the result. -/
def bind : Code σ L α → (α → Code σ L β) → Code σ L β
  | ret a, g => g a
  | fail, _ => fail
  | act f k, g => act f fun b => (k b).bind g
  | load addr k, g => load addr fun v => (k v).bind g
  | store addr v k, g => store addr v (k.bind g)
  | flag k, g => flag fun b => (k b).bind g
  | disable k, g => disable (k.bind g)
  | enable k, g => enable (k.bind g)
  | yield k, g => yield (k.bind g)
  | lock l k, g => lock l (k.bind g)
  | unlock l k, g => unlock l (k.bind g)

instance : Monad (Code σ L) where
  pure := ret
  bind := bind

/-- Change the data in one piece. -/
def update (f : σ → Option (α × σ)) : Code σ L α := act f ret

/-- A lock that saves the interrupt flag and turns interrupts off, and the end of its guard:
they are turned on again if they were on. -/
def locked (m : Code σ L α) : Code σ L α := do
  let saved ← flag ret
  disable (ret ())
  let a ← m
  if saved then enable (ret a) else pure a

/-- The bytes from an address on. -/
def loadCells : ℕ → ℕ → Code σ L (List UInt8)
  | _, 0 => pure []
  | addr, n + 1 => do
      let byte ← load addr ret
      let bytes ← loadCells (addr + 1) n
      pure (byte :: bytes)

/-- Write bytes from an address on. -/
def storeCells : ℕ → List UInt8 → Code σ L Unit
  | _, [] => pure ()
  | addr, byte :: bytes => do
      store addr byte (ret ())
      storeCells (addr + 1) bytes

/-! ### Execution -/

/-- Execute the code: its result, unless it does not end, and what it leaves. Locks are found
free. -/
def run : Code σ L α → Activation σ → Option α × Activation σ
  | ret a, c => (some a, c)
  | fail, c => (none, c)
  | act f k, c =>
    match f c.data with
    | some (b, data) => (k b).run { c with data }
    | none => (none, c)
  | load addr k, c =>
    if c.accessible addr then (k (c.mem addr)).run (c.loaded addr) else (none, c)
  | store addr v k, c => if c.accessible addr then k.run (c.stored addr v) else (none, c)
  | flag k, c => (k c.interrupts).run c
  | disable k, c => k.run { c with interrupts := false }
  | enable k, c => k.run { c.resumed with interrupts := true }
  | yield k, c => if c.resumptions.isEmpty then (none, c) else k.run c.resumed
  | lock _ k, c => k.run c
  | unlock _ k, c => k.run c

section Run

variable {m : Code σ L α} {g : α → Code σ L β} {c : Activation σ}

@[simp]
theorem run_pure (a : α) (c : Activation σ) : (pure a : Code σ L α).run c = (some a, c) := rfl

end Run

/-! ### What the code keeps to -/

/-- What is asked of code. `held` is the lock that the thread has. -/
structure Policy (σ L : Type) where
  /-- the addresses at which an access does not end in a fault -/
  accessible : ℕ → Prop
  /-- the addresses that may be accessed -/
  permitted : ℕ → Prop
  /-- what may be done to the data in one piece -/
  permits (held : Option L) (s s' : σ) : Prop
  /-- interrupts may be turned on, and the CPU given up -/
  interruptible (held : Option L) : Prop
  /-- a lock may be taken -/
  lockable (interrupts : Bool) (s : σ) : Prop

/-- Nothing is asked. -/
def Policy.unrestricted (σ L : Type) : Policy σ L where
  accessible _ := True
  permitted _ := True
  permits _ _ _ := True
  interruptible _ := True
  lockable _ _ := True

/-- What others make of the data between two commands. -/
def Others (interrupts : Bool) (s s' : σ) : Prop := interrupts = true ∨ s' = s

theorem Others.refl {interrupts : Bool} (s : σ) : Others interrupts s s := Or.inr rfl

theorem Others.trans {interrupts : Bool} {s s' s'' : σ} (h : Others interrupts s s')
    (h' : Others interrupts s' s'') : Others interrupts s s'' := by
  obtain hon | rfl := h'
  · exact Or.inl hon
  · exact h

theorem Others.eq {s s' : σ} (h : Others false s s') : s' = s := h.resolve_left nofun

/-- **The weakest precondition**: from this flag, lock and data on, the code keeps to the policy,
and if it ends, it ends with `Q`. -/
def wp (P : Policy σ L) (Q : Bool → Option L → α → σ → Prop) :
    Code σ L α → Bool → Option L → σ → Prop
  | ret a, i, held, s => Q i held a s
  | fail, _, _, _ => True
  | act f k, i, held, s => ∀ b s', f s = some (b, s') →
      P.permits held s s' ∧ ∀ s'', Others i s' s'' → (k b).wp P Q i held s''
  | load addr k, i, held, s => P.accessible addr →
      P.permitted addr ∧ ∀ v s', Others i s s' → (k v).wp P Q i held s'
  | store addr _ k, i, held, s => P.accessible addr →
      P.permitted addr ∧ ∀ s', Others i s s' → k.wp P Q i held s'
  | flag k, i, held, s => ∀ s', Others i s s' → (k i).wp P Q i held s'
  | disable k, _, held, s => k.wp P Q false held s
  | enable k, _, held, _ => P.interruptible held ∧ ∀ s', k.wp P Q true held s'
  | yield k, i, held, _ => P.interruptible held ∧ ∀ s', k.wp P Q i held s'
  | lock l k, i, held, s => held = none ∧ P.lockable i s ∧
      ∀ s', Others i s s' → k.wp P Q i (some l) s'
  | unlock l k, i, held, s => held = some l ∧ ∀ s', Others i s s' → k.wp P Q i none s'

section Wp

variable {P : Policy σ L} {Q : Bool → Option L → α → σ → Prop} {R : Bool → Option L → β → σ → Prop}
  {m : Code σ L α} {g : α → Code σ L β} {i : Bool} {held : Option L} {s : σ} {c : Activation σ}

@[simp]
theorem wp_bind (m : Code σ L α) (g : α → Code σ L β) : (m >>= g).wp P R i held s ↔
      m.wp P (fun i held a s => (g a).wp P R i held s) i held s := by
  show (m.bind g).wp P R i held s ↔ _
  induction m generalizing i held s with
  | ret | fail => rfl
  | act f k ih | load addr k ih => simp only [bind, wp, ih]
  | store addr v k ih => simp only [bind, wp, ih]
  | flag k ih => simp only [bind, wp, ih]
  | disable k ih | enable k ih | yield k ih => simp only [bind, wp, ih]
  | lock l k ih | unlock l k ih => simp only [bind, wp, ih]

/-- **The rule of consequence.** -/
theorem wp_mono {Q' : Bool → Option L → α → σ → Prop} (h : m.wp P Q i held s)
    (himp : ∀ i held a s, Q i held a s → Q' i held a s) : m.wp P Q' i held s := by
  induction m generalizing i held s with
  | ret a => exact himp _ _ _ _ h
  | fail => trivial
  | act f k ih =>
    intro b s' hf
    obtain ⟨hpermits, hk⟩ := h b s' hf
    exact ⟨hpermits, fun s'' hs'' => ih b (hk s'' hs'')⟩
  | load addr k ih =>
    intro haccessible
    obtain ⟨hpermitted, hk⟩ := h haccessible
    exact ⟨hpermitted, fun v s' hs' => ih v (hk v s' hs')⟩
  | store addr v k ih =>
    intro haccessible
    obtain ⟨hpermitted, hk⟩ := h haccessible
    exact ⟨hpermitted, fun s' hs' => ih (hk s' hs')⟩
  | flag k ih => exact fun s' hs' => ih _ (h s' hs')
  | disable k ih => exact ih h
  | enable k ih | yield k ih => exact ⟨h.1, fun s' => ih (h.2 s')⟩
  | lock l k ih => exact ⟨h.1, h.2.1, fun s' hs' => ih (h.2.2 s' hs')⟩
  | unlock l k ih => exact ⟨h.1, fun s' hs' => ih (h.2 s' hs')⟩

/-- **The rule for locks.**  What is done under a lock that turns interrupts off is done to data
that others may have changed before, and they may change it again afterwards. -/
theorem wp_locked_update {f : σ → Option (α × σ)} (hfree : i = true → P.interruptible held)
    (h : ∀ s₁, Others i s s₁ → ∀ a s₂, f s₁ = some (a, s₂) →
      P.permits held s₁ s₂ ∧ ∀ s₃, Others i s₂ s₃ → Q i held a s₃) :
    (locked (update f) : Code σ L α).wp P Q i held s := by
  simp only [locked, wp_bind, update, wp]
  intro s₁ hs₁ a s₂ hf
  obtain ⟨hpermits, hQ⟩ := h s₁ hs₁ a s₂ hf
  refine ⟨hpermits, fun s₃ hs₃ => ?_⟩
  obtain rfl := hs₃.eq
  cases i with
  | false => exact hQ s₃ (.refl _)
  | true => exact ⟨hfree rfl, fun s₄ => hQ s₄ (Or.inl rfl)⟩

/-- The addresses from `addr` on that are reached before a fault are permitted. -/
def Policy.Reachable (P : Policy σ L) (addr : ℕ) : Prop :=
  ∀ j, (∀ i ≤ j, P.accessible (addr + i)) → P.permitted (addr + j)

theorem Policy.Reachable.head (h : P.Reachable addr) (haccessible : P.accessible addr) :
    P.permitted addr :=
  h 0 fun i hi => by rwa [Nat.le_zero.mp hi]

theorem Policy.Reachable.tail (h : P.Reachable addr) (haccessible : P.accessible addr) :
    P.Reachable (addr + 1) := by
  intro j hj
  have hmapped : ∀ i ≤ j + 1, P.accessible (addr + i) := by
    intro i hi
    cases i with
    | zero => exact haccessible
    | succ i => exact Nat.add_right_comm addr 1 i ▸ hj i (Nat.le_of_succ_le_succ hi)
  exact Nat.add_right_comm addr 1 j ▸ h (j + 1) hmapped

/-- **The rule for reading** a run of bytes. -/
theorem wp_loadCells {n addr : ℕ} {Q : Bool → Option L → List UInt8 → σ → Prop}
    (haddr : P.Reachable addr)
    (h : ∀ bytes s', bytes.length = n → Others i s s' → Q i held bytes s') :
    (loadCells addr n : Code σ L _).wp P Q i held s := by
  induction n generalizing addr s Q with
  | zero => exact h [] s rfl (.refl s)
  | succ n ih =>
    intro haccessible
    refine ⟨haddr.head haccessible, fun v s₁ hs₁ => ?_⟩
    show (loadCells (addr + 1) n >>= fun bytes => pure (v :: bytes)).wp P Q i held s₁
    rw [wp_bind]
    refine ih (haddr.tail haccessible) fun bytes s₂ hlength hs₂ => ?_
    exact h (v :: bytes) s₂ (congrArg Nat.succ hlength) (hs₁.trans hs₂)

/-- **The rule for writing** a run of bytes. -/
theorem wp_storeCells {bytes : List UInt8} {addr : ℕ} {Q : Bool → Option L → Unit → σ → Prop}
    (haddr : bytes ≠ [] → P.Reachable addr)
    (h : ∀ s', Others i s s' → Q i held () s') :
    (storeCells addr bytes : Code σ L _).wp P Q i held s := by
  induction bytes generalizing addr s with
  | nil => exact h s (.refl s)
  | cons byte bytes ih =>
    intro haccessible
    have hreach := haddr (List.cons_ne_nil byte bytes)
    refine ⟨hreach.head haccessible, fun s₁ hs₁ => ?_⟩
    exact ih (fun _ => hreach.tail haccessible) fun s₂ hs₂ => h s₂ (hs₁.trans hs₂)

/-- What `run_of_wp` says about an execution: from the accesses before it, to what it leaves. -/
def Sound (P : Policy σ L) (Q : Bool → Option L → α → σ → Prop) (accesses : List Access)
    (r : Option α × Activation σ) : Prop :=
  (∀ x ∈ r.2.accesses, x ∈ accesses ∨ P.permitted x.addr) ∧
    ∀ a, r.1 = some a → ∃ held, Q r.2.interrupts held a r.2.data

theorem sound_none : Sound P Q c.accesses (none, c) := ⟨fun _ hx => Or.inl hx, nofun⟩

theorem Sound.cons {r : Option α × Activation σ} {x : Access} {accesses : List Access}
    (h : Sound P Q (accesses ++ [x]) r) (hx : P.permitted x.addr) : Sound P Q accesses r := by
  refine ⟨fun y hy => ?_, h.2⟩
  obtain hy | hy := h.1 y hy
  · obtain hy | hy := List.mem_append.mp hy
    · exact Or.inl hy
    · exact Or.inr (List.mem_singleton.mp hy ▸ hx)
  · exact Or.inr hy

/-- **Soundness.**  The accesses of code that keeps to the policy are permitted, and it ends
with `Q`. -/
theorem run_of_wp (h : m.wp P Q c.interrupts held c.data)
    (haccessible : ∀ addr, c.accessible addr = true → P.accessible addr) :
    Sound P Q c.accesses (m.run c) := by
  induction m generalizing c held with
  | ret a =>
    refine ⟨fun x hx => Or.inl hx, ?_⟩
    rintro _ ⟨⟩
    exact ⟨held, h⟩
  | fail => exact sound_none
  | act f k ih =>
    rw [run]
    split
    · next b data hf =>
        have hk := (h b data hf).2 data (.refl data)
        exact ih b (c := { c with data }) hk haccessible
    · exact sound_none
  | load addr k ih =>
    rw [run]
    split
    · next hmapped =>
        obtain ⟨hpermitted, hk⟩ := h (haccessible addr hmapped)
        have hrest := ih _ (c := c.loaded addr) (hk (c.mem addr) c.data (.refl _)) haccessible
        exact Sound.cons hrest hpermitted
    · exact sound_none
  | store addr v k ih =>
    rw [run]
    split
    · next hmapped =>
        obtain ⟨hpermitted, hk⟩ := h (haccessible addr hmapped)
        have hrest := ih (c := c.stored addr v) (hk c.data (.refl _)) haccessible
        exact Sound.cons hrest hpermitted
    · exact sound_none
  | flag k ih => exact ih _ (h c.data (.refl _)) haccessible
  | disable k ih => exact ih (c := { c with interrupts := false }) h haccessible
  | enable k ih =>
    rw [← c.resumed_accesses]
    exact ih (c := { c.resumed with interrupts := true }) (h.2 c.resumed.data)
      (by rwa [c.resumed_accessible])
  | yield k ih =>
    rw [run]
    split
    · exact sound_none
    · rw [← c.resumed_accesses]
      exact ih (c := c.resumed) (c.resumed_interrupts ▸ h.2 c.resumed.data)
        (by rwa [c.resumed_accessible])
  | lock l k ih => exact ih (h.2.2 c.data (.refl _)) haccessible
  | unlock l k ih => exact ih (h.2 c.data (.refl _)) haccessible

end Wp

end Code

end KernelR.Foundations
