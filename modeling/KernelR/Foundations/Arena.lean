import Mathlib.Data.List.Basic
import Mathlib.Logic.Function.Basic

/-!
# Arenas with an embedded free list

A growable array of slots in which the index of a value never changes. The empty
slots are linked into a free list through their own contents, so that inserting,
removing and looking up take a constant number of steps.

For a client an arena is the partial function `get`; the three operations are
pointwise updates of it (`insert_spec`, `get_remove`, `get_modify`), as long as the
free list is intact (`Wf`). If the list moreover leads to every empty slot
(`Complete`), no slot is ever lost.

What such a client relies on is written down as a machine on partial functions that
chooses the index of what it stores (`MapStep`, `MapRun`).
-/

namespace KernelR.Foundations

open List Function Option

variable {α : Type*}

/-- A slot holds a value, or the link to the next empty slot. -/
inductive Slot (α : Type*) where
  | empty (nextFree : Option ℕ)
  | occupied (a : α)

/-- The slots and the head of the free list. -/
structure Arena (α : Type*) where
  slots : List (Slot α)
  freeHead : Option ℕ

/-- The empty slots from `head` on are linked in the order of the list. -/
def FreeChain (slots : List (Slot α)) : Option ℕ → List ℕ → Prop
  | head, [] => head = none
  | head, i :: l => head = some i ∧ ∃ next, slots[i]? = some (.empty next) ∧ FreeChain slots next l

/-! ### The free list -/

/-- Writing to a slot that is not in the chain keeps the chain. -/
theorem FreeChain.set {slots : List (Slot α)} {l : List ℕ} {i : ℕ} (hi : i ∉ l) (s : Slot α) :
    ∀ {head : Option ℕ}, FreeChain slots head l → FreeChain (slots.set i s) head l := by
  induction l with
  | nil => exact fun h => h
  | cons j l ih =>
    rintro head ⟨hhead, next, hj, hrest⟩
    have hij : i ≠ j := fun e => hi (e ▸ mem_cons_self)
    refine ⟨hhead, next, ?_, ih (fun h => hi (mem_cons_of_mem _ h)) hrest⟩
    rw [List.getElem?_set_ne hij]
    exact hj

theorem FreeChain.empty_of_mem {slots : List (Slot α)} {l : List ℕ} {i : ℕ} :
    ∀ {head : Option ℕ}, FreeChain slots head l → i ∈ l →
      ∃ next, slots[i]? = some (.empty next) := by
  induction l with
  | nil => exact fun _ h => absurd h (not_mem_nil)
  | cons j l ih =>
    rintro head ⟨-, next, hj, hrest⟩ hi
    rcases mem_cons.mp hi with rfl | hi
    · exact ⟨next, hj⟩
    · exact ih hrest hi

namespace Arena

/-- The arena without any slot. -/
def new : Arena α := ⟨[], none⟩

/-- No slot was ever made. -/
def isEmpty (A : Arena α) : Bool := A.slots.isEmpty

/-- Look a value up. -/
def get (A : Arena α) (i : ℕ) : Option α :=
  match A.slots[i]? with
  | some (.occupied a) => some a
  | _ => none

/-- Change a value in place. -/
def modify (A : Arena α) (i : ℕ) (f : α → α) : Arena α :=
  match A.slots[i]? with
  | some (.occupied a) => { A with slots := A.slots.set i (.occupied (f a)) }
  | _ => A

/-- Put a value into the first free slot, or into a new one. A free list that leads
to an occupied slot is a fatal error. -/
def insert (A : Arena α) (a : α) : Option (Arena α × ℕ) :=
  match A.freeHead with
  | some i =>
    match A.slots[i]? with
    | some (.empty next) => some (⟨A.slots.set i (.occupied a), next⟩, i)
    | _ => none
  | none => some ({ A with slots := A.slots ++ [.occupied a] }, A.slots.length)

/-- Take a value out and put its slot at the head of the free list. -/
def remove (A : Arena α) (i : ℕ) : Arena α × Option α :=
  match A.slots[i]? with
  | some (.occupied a) => (⟨A.slots.set i (.empty A.freeHead), some i⟩, some a)
  | _ => (A, none)

/-- The values, in the order of their slots. -/
def values (A : Arena α) : List α :=
  A.slots.filterMap fun
    | .occupied a => some a
    | .empty _ => none

/-- The free list is a chain of empty slots without repetition. -/
def Wf (A : Arena α) : Prop := ∃ l, FreeChain A.slots A.freeHead l ∧ l.Nodup

/-- The free list leads once to every empty slot, and to no other. -/
def Complete (A : Arena α) : Prop :=
  ∃ l, FreeChain A.slots A.freeHead l ∧ l.Nodup ∧
    ∀ i, i ∈ l ↔ ∃ next, A.slots[i]? = some (.empty next)

/-! ### Looking up -/

variable {i : ℕ}

theorem get_eq_some {A : Arena α} {a : α} :
    A.get i = some a ↔ A.slots[i]? = some (.occupied a) := by
  unfold get
  split
  · next b hb => rw [hb, Option.some.injEq, Option.some.injEq, Slot.occupied.injEq]
  · next hne => exact ⟨fun h => (nomatch h), fun h => absurd h (hne a)⟩

theorem lt_length_of_get {A : Arena α} {a : α} (h : A.get i = some a) : i < A.slots.length :=
  (List.getElem?_eq_some_iff.mp (get_eq_some.mp h)).1

theorem not_isEmpty_of_get {A : Arena α} {a : α} (h : A.get i = some a) : A.isEmpty = false := by
  cases hs : A.slots with
  | nil => simp [get, hs] at h
  | cons s l => simp [isEmpty, hs]

theorem mem_values {A : Arena α} {a : α} : a ∈ A.values ↔ ∃ i, A.get i = some a := by
  simp only [values, mem_filterMap, get_eq_some, ← mem_iff_getElem?]
  constructor
  · rintro ⟨s, hs, ha⟩
    cases s with
    | empty next => cases ha
    | occupied b => exact (some.inj ha) ▸ hs
  · exact fun h => ⟨_, h, rfl⟩

/-! ### Changing a value -/

theorem get_set {slots : List (Slot α)} (hi : i < slots.length) (s : Slot α) (h h' : Option ℕ) :
    (⟨slots.set i s, h⟩ : Arena α).get = update (⟨slots, h'⟩ : Arena α).get i
      (match s with
        | .occupied a => some a
        | .empty _ => none) := by
  funext j
  by_cases hj : j = i
  · subst hj
    rw [update_self]
    simp only [get, List.getElem?_set_self hi]
    cases s <;> rfl
  · rw [update_of_ne hj]
    simp only [get, List.getElem?_set_ne (Ne.symm hj)]

theorem get_modify (A : Arena α) (i : ℕ) (f : α → α) :
    (A.modify i f).get = update A.get i ((A.get i).map f) := by
  cases hg : A.get i with
  | none =>
    have hm : A.modify i f = A := by
      unfold modify
      split
      · next a ha => rw [get_eq_some.mpr ha] at hg; cases hg
      · rfl
    rw [hm, map_none, ← hg, update_eq_self]
  | some a =>
    have hs := get_eq_some.mp hg
    have hm : A.modify i f = { A with slots := A.slots.set i (.occupied (f a)) } := by
      simp only [modify, hs]
    rw [hm]
    exact get_set (lt_length_of_get hg) _ _ _

theorem get_modify_some {A : Arena α} {a : α} (hi : A.get i = some a) (f : α → α) :
    (A.modify i f).get = update A.get i (some (f a)) := by
  rw [get_modify, hi, map_some]

/-! ### Insertion and removal -/

theorem not_mem_of_get {A : Arena α} {l : List ℕ} {a : α} {head : Option ℕ}
    (h : FreeChain A.slots head l) (hg : A.get i = some a) : i ∉ l := by
  intro hi
  obtain ⟨next, hnext⟩ := h.empty_of_mem hi
  rw [get_eq_some.mp hg] at hnext
  cases hnext

theorem Wf.modify {A : Arena α} (h : A.Wf) (i : ℕ) (f : α → α) : (A.modify i f).Wf := by
  obtain ⟨l, hl, hnodup⟩ := h
  unfold Arena.modify
  split
  · next a ha => exact ⟨l, hl.set (not_mem_of_get hl (get_eq_some.mpr ha)) _, hnodup⟩
  · exact ⟨l, hl, hnodup⟩

/-- **Insertion** fills a slot that held nothing. -/
theorem insert_spec {A : Arena α} (h : A.Wf) (a : α) :
    ∃ A' i, A.insert a = some (A', i) ∧ A'.Wf ∧ A.get i = none ∧
      A'.get = update A.get i (some a) ∧ A.slots.length ≤ A'.slots.length := by
  obtain ⟨l, hl, hnodup⟩ := h
  cases l with
  | nil =>
    have hhead : A.freeHead = none := hl
    refine ⟨⟨A.slots ++ [.occupied a], A.freeHead⟩, A.slots.length, ?_,
      ⟨[], hhead, nodup_nil⟩, ?_, ?_, ?_⟩
    · simp only [Arena.insert, hhead]
    · simp [get]
    · funext j
      rcases Nat.lt_trichotomy j A.slots.length with hj | rfl | hj
      · rw [update_of_ne (Nat.ne_of_lt hj)]
        simp only [get, List.getElem?_append_left hj]
      · simp [get]
      · rw [update_of_ne (Nat.ne_of_gt hj)]
        have hj' : (A.slots ++ [Slot.occupied a]).length ≤ j := by
          rw [length_append]
          exact hj
        simp only [get, List.getElem?_eq_none hj', List.getElem?_eq_none (Nat.le_of_lt hj)]
    · simp
  | cons i l =>
    obtain ⟨hhead, next, hi, hrest⟩ := hl
    obtain ⟨hil, hnodup'⟩ := nodup_cons.mp hnodup
    have hlt := (List.getElem?_eq_some_iff.mp hi).1
    refine ⟨⟨A.slots.set i (.occupied a), next⟩, i, ?_, ⟨l, hrest.set hil _, hnodup'⟩, ?_,
      get_set hlt _ _ _, Nat.le_of_eq length_set.symm⟩
    · simp only [Arena.insert, hhead, hi]
    · simp only [get, hi]

/-- Whatever the free list is like, a value that was there is not overwritten. -/
theorem get_of_insert {A A' : Arena α} {a b : α} {i j : ℕ} (h : A.insert a = some (A', i))
    (hj : A.get j = some b) : A'.get j = some b ∧ j ≠ i := by
  have hslot := get_eq_some.mp hj
  unfold insert at h
  split at h
  · split at h
    · next head _ _ next hhead =>
        obtain ⟨rfl, rfl⟩ := Prod.mk.inj (some.inj h)
        have hne : j ≠ head := by
          rintro rfl
          exact nomatch hslot.symm.trans hhead
        refine ⟨get_eq_some.mpr ?_, hne⟩
        rw [← hslot]
        exact List.getElem?_set_ne (Ne.symm hne)
    · cases h
  · obtain ⟨rfl, rfl⟩ := Prod.mk.inj (some.inj h)
    have hlt := lt_length_of_get hj
    refine ⟨get_eq_some.mpr ?_, Nat.ne_of_lt hlt⟩
    rw [← hslot]
    exact List.getElem?_append_left hlt

/-- **Removal** empties a slot. -/
theorem get_remove (A : Arena α) (i : ℕ) : (A.remove i).1.get = update A.get i none := by
  unfold remove
  split
  · next a ha => exact get_set (List.getElem?_eq_some_iff.mp ha).1 _ _ _
  · next hne =>
      have hg : A.get i = none := by
        unfold get
        split
        · next a ha => exact absurd ha (hne a)
        · rfl
      rw [← hg, update_eq_self]

theorem remove_of_get_none {A : Arena α} (h : A.get i = none) : A.remove i = (A, none) := by
  unfold remove
  split
  · next a ha => exact nomatch h.symm.trans (get_eq_some.mpr ha)
  · rfl

theorem remove_snd (A : Arena α) (i : ℕ) : (A.remove i).2 = A.get i := by
  unfold remove get
  split <;> simp_all

theorem Wf.remove {A : Arena α} (h : A.Wf) (i : ℕ) : (A.remove i).1.Wf := by
  obtain ⟨l, hl, hnodup⟩ := h
  unfold Arena.remove
  split
  · next a ha =>
      have hil := not_mem_of_get hl (get_eq_some.mpr ha)
      refine ⟨i :: l, ⟨rfl, A.freeHead, ?_, hl.set hil _⟩, nodup_cons.mpr ⟨hil, hnodup⟩⟩
      exact List.getElem?_set_self (List.getElem?_eq_some_iff.mp ha).1
  · exact ⟨l, hl, hnodup⟩

/-! ### No slot is lost -/

theorem complete_new : (new : Arena α).Complete := ⟨[], rfl, nodup_nil, fun i => by simp [new]⟩

theorem Complete.wf {A : Arena α} (h : A.Complete) : A.Wf := by
  obtain ⟨l, hl, hnodup, -⟩ := h
  exact ⟨l, hl, hnodup⟩

/-- After a write to slot `i`, the empty slots are those there were elsewhere, and
`i` itself if it was made empty. -/
theorem empty_set_iff {slots : List (Slot α)} (hi : i < slots.length) (s : Slot α) (j : ℕ) :
    (∃ next, (slots.set i s)[j]? = some (.empty next)) ↔ (j = i ∧ ∃ next, s = .empty next) ∨
        (j ≠ i ∧ ∃ next, slots[j]? = some (.empty next)) := by
  by_cases hj : j = i
  · subst hj
    simp [hi]
  · simp [List.getElem?_set_ne (Ne.symm hj), hj]

theorem Complete.insert {A A' : Arena α} {a : α} (h : A.Complete)
    (hins : A.insert a = some (A', i)) : A'.Complete := by
  obtain ⟨l, hl, hnodup, hmem⟩ := h
  cases l with
  | nil =>
    have hhead : A.freeHead = none := hl
    simp only [Arena.insert, hhead] at hins
    cases hins
    refine ⟨[], rfl, nodup_nil, fun j => ?_⟩
    rw [hmem j]
    -- the slot that is added at the end is occupied
    rcases Nat.lt_trichotomy j A.slots.length with hj | rfl | hj
    · rw [List.getElem?_append_left hj]
    · simp
    · have hj' : (A.slots ++ [Slot.occupied a]).length ≤ j := by
        rw [length_append]
        exact hj
      rw [List.getElem?_eq_none hj', List.getElem?_eq_none (Nat.le_of_lt hj)]
  | cons k l =>
    obtain ⟨hhead, next, hk, hrest⟩ := hl
    obtain ⟨hkl, hnodup'⟩ := nodup_cons.mp hnodup
    simp only [Arena.insert, hhead, hk] at hins
    cases hins
    refine ⟨l, hrest.set hkl _, hnodup', fun j => ?_⟩
    rw [empty_set_iff (List.getElem?_eq_some_iff.mp hk).1, ← hmem j, mem_cons]
    constructor
    · exact fun hj => .inr ⟨fun e => hkl (e ▸ hj), .inr hj⟩
    · rintro (⟨-, next, hnext⟩ | ⟨hne, hj⟩)
      · exact nomatch hnext
      · exact hj.resolve_left hne

/-- Removal puts the slot it empties at the head of the list; a slot that is empty
already is not linked a second time. -/
theorem Complete.remove {A : Arena α} (h : A.Complete) (i : ℕ) : (A.remove i).1.Complete := by
  obtain ⟨l, hl, hnodup, hmem⟩ := h
  unfold Arena.remove
  split
  · next a ha =>
      have hil := not_mem_of_get hl (get_eq_some.mpr ha)
      have hlt := (List.getElem?_eq_some_iff.mp ha).1
      refine ⟨i :: l, ⟨rfl, A.freeHead, List.getElem?_set_self hlt, hl.set hil _⟩,
        nodup_cons.mpr ⟨hil, hnodup⟩, fun j => ?_⟩
      rw [empty_set_iff hlt, ← hmem j, mem_cons]
      constructor
      · rintro (rfl | hj)
        · exact .inl ⟨rfl, A.freeHead, rfl⟩
        · exact .inr ⟨fun e => hil (e ▸ hj), hj⟩
      · rintro (⟨rfl, -⟩ | ⟨-, hj⟩)
        · exact .inl rfl
        · exact .inr hj
  · exact ⟨l, hl, hnodup, hmem⟩

theorem Complete.modify {A : Arena α} (h : A.Complete) (i : ℕ) (f : α → α) :
    (A.modify i f).Complete := by
  obtain ⟨l, hl, hnodup, hmem⟩ := h
  unfold Arena.modify
  split
  · next a ha =>
      have hil := not_mem_of_get hl (get_eq_some.mpr ha)
      refine ⟨l, hl.set hil _, hnodup, fun j => ?_⟩
      rw [empty_set_iff (List.getElem?_eq_some_iff.mp ha).1, ← hmem j]
      constructor
      · exact fun hj => .inr ⟨fun e => hil (e ▸ hj), hj⟩
      · rintro (⟨-, next, hnext⟩ | ⟨-, hj⟩)
        · exact nomatch hnext
        · exact hj
  · exact ⟨l, hl, hnodup, hmem⟩

end Arena

/-! ### Maps with stable indices -/

/-- What a client asks of a store of values. -/
inductive MapCall (α : Type*) where
  | insert (a : α)
  | remove (i : ℕ)
  /-- through a reference to the value -/
  | modify (i : ℕ) (f : α → α)

/-- What the store answers. -/
inductive MapReply (α : Type*) where
  | index (i : ℕ)
  | value (a : Option α)

/-- **A map with stable indices.**  A value is stored under an index that holds none,
of the map's own choice; the other calls concern the index they name. -/
inductive MapStep (M : ℕ → Option α) : MapCall α → MapReply α → (ℕ → Option α) → Prop
  | insert {a : α} {i : ℕ} : M i = none →
      MapStep M (.insert a) (.index i) (Function.update M i (some a))
  | remove {i : ℕ} : MapStep M (.remove i) (.value (M i)) (Function.update M i none)
  | modify {i : ℕ} {f : α → α} :
      MapStep M (.modify i f) (.value (M i)) (Function.update M i ((M i).map f))

/-- The answers of a map to a list of calls. -/
inductive MapRun : (ℕ → Option α) → List (MapCall α) → List (MapReply α) → (ℕ → Option α) → Prop
  | nil {M : ℕ → Option α} : MapRun M [] [] M
  | cons {M M' M'' : ℕ → Option α} {c : MapCall α} {r : MapReply α} {cs : List (MapCall α)}
      {rs : List (MapReply α)} : MapStep M c r M' → MapRun M' cs rs M'' →
      MapRun M (c :: cs) (r :: rs) M''

end KernelR.Foundations
