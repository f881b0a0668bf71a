import Mathlib.Tactic
import Mathlib.Logic.Function.Basic
import Mathlib.Data.List.Nodup

/-!
# Intrusive linked lists

A free list threads its links through the free memory itself, so the list is not
a value but a *reading* of memory: which addresses one passes when following
`next` from a head pointer. This file says when a memory reads as a given list,
for a doubly linked and for a singly linked discipline, and what the three
in-place operations — push at the head, unlink anywhere, pop — do to the reading.

The address type is arbitrary with a distinguished `0`, the null pointer.

* `DChain mem prev head l` — from `head` (whose back link must be `prev`) the
  nodes visited are `l`, doubly linked and null terminated.
* `SChain next head l` — the singly linked version.
-/

namespace KernelR.Foundations

open List Function

/-- The two words of a doubly linked node. -/
structure Link (α : Type*) where
  next : α
  prev : α
deriving DecidableEq, Repr

variable {α : Type*} [Zero α]

/-- `mem` reads as the doubly linked list `l` from `head`, the first node's back
link being `prev`. -/
def DChain (mem : α → Link α) : α → α → List α → Prop
  | _, head, [] => head = 0
  | prev, head, a :: l => head = a ∧ a ≠ 0 ∧ (mem a).prev = prev ∧ DChain mem a (mem a).next l

theorem DChain.congr {mem mem' : α → Link α} {l : List α} :
    ∀ {prev head : α}, DChain mem prev head l → (∀ a ∈ l, mem' a = mem a) →
      DChain mem' prev head l := by
  induction l with
  | nil => intro _ _ h _; exact h
  | cons a l ih =>
    rintro prev head ⟨hhead, hne, hprev, hrest⟩ hsame
    have ha := hsame a mem_cons_self
    refine ⟨hhead, hne, by rw [ha]; exact hprev, ?_⟩
    rw [ha]
    exact ih hrest fun x hx => hsame x (mem_cons_of_mem _ hx)

theorem DChain.ne_zero {mem : α → Link α} {l : List α} :
    ∀ {prev head : α}, DChain mem prev head l → ∀ a ∈ l, a ≠ 0 := by
  induction l with
  | nil => intro _ _ _ a ha; cases ha
  | cons b l ih =>
    rintro prev head ⟨-, hne, -, hrest⟩ a ha
    rcases mem_cons.mp ha with rfl | hmem
    · exact hne
    · exact ih hrest a hmem

theorem DChain.unique {mem : α → Link α} {l : List α} :
    ∀ {prev prev' head : α} {m : List α}, DChain mem prev head l → DChain mem prev' head m →
      l = m := by
  induction l with
  | nil =>
    intro prev prev' head m hl hm
    cases m with
    | nil => rfl
    | cons b m => exact absurd (hm.1.symm.trans hl) hm.2.1
  | cons a l ih =>
    rintro prev prev' head m ⟨hhead, hne, -, hrest⟩ hm
    cases m with
    | nil => exact absurd (hhead.symm.trans hm) hne
    | cons b m =>
      obtain ⟨hb, -, -, hrest'⟩ := hm
      have hab : a = b := hhead.symm.trans hb
      subst hab
      rw [ih hrest hrest']

theorem DChain.nil_iff {mem : α → Link α} {prev head : α} {l : List α}
    (h : DChain mem prev head l) : l = [] ↔ head = 0 := by
  cases l with
  | nil => exact ⟨fun _ => h, fun _ => rfl⟩
  | cons a l =>
    refine ⟨fun hn => absurd hn (cons_ne_nil _ _), fun h0 => ?_⟩
    exact absurd (h.1.symm.trans h0) h.2.1

section Operations

variable [DecidableEq α]

/-- Write `b` as the new first node, in front of the node `head` (if any). -/
def linkPush (mem : α → Link α) (head b : α) : α → Link α :=
  let mem₁ := Function.update mem b ⟨head, 0⟩
  if head ≠ 0 then Function.update mem₁ head { mem₁ head with prev := b } else mem₁

/-- Bypass the node `b`: its neighbours are stitched together. -/
def linkBypass (mem : α → Link α) (b : α) : α → Link α :=
  let mem₁ :=
    if (mem b).prev ≠ 0 then
      Function.update mem (mem b).prev { mem (mem b).prev with next := (mem b).next }
    else mem
  if (mem₁ b).next ≠ 0 then
    Function.update mem₁ (mem₁ b).next { mem₁ (mem₁ b).next with prev := (mem₁ b).prev }
  else mem₁

/-- The head pointer after bypassing `b`. -/
def headAfterBypass (mem : α → Link α) (head b : α) : α :=
  if (mem b).prev ≠ 0 then head else (mem b).next

theorem linkPush_of_ne (mem : α → Link α) {head b a : α} (hb : a ≠ b) (hh : a ≠ head) :
    linkPush mem head b a = mem a := by
  unfold linkPush
  split_ifs <;> simp [update_of_ne, hb, hh]

/-- Pushing a node that is not on the list puts it in front. -/
theorem DChain.push {mem : α → Link α} {head b : α} {l : List α}
    (h : DChain mem 0 head l) (hb : b ≠ 0) (hfresh : b ∉ l) (hnodup : l.Nodup) :
    DChain (linkPush mem head b) 0 b (b :: l) := by
  cases l with
  | nil =>
    have hhead : head = 0 := h
    subst hhead
    simp [DChain, linkPush, hb]
  | cons a l =>
    obtain ⟨rfl, hne, hprev, hrest⟩ := h
    have hba : b ≠ head := fun e => hfresh (e ▸ mem_cons_self)
    have hself : linkPush mem head b b = ⟨head, 0⟩ := by
      simp [linkPush, hne, hba]
    have hhead : linkPush mem head b head = ⟨(mem head).next, b⟩ := by
      simp [linkPush, hne, hba.symm]
    refine ⟨rfl, hb, by rw [hself], ?_⟩
    rw [hself]
    refine ⟨rfl, hne, by rw [hhead], ?_⟩
    rw [hhead]
    refine hrest.congr fun x hx => linkPush_of_ne mem ?_ ?_
    · rintro rfl
      exact hfresh (mem_cons_of_mem _ hx)
    · rintro rfl
      exact (nodup_cons.mp hnodup).1 hx

/-- The first half of a bypass: the forward link of the node before `b`. -/
private theorem stitchNext_apply (mem : α → Link α) (b a : α) :
    (if (mem b).prev ≠ 0 then
        update mem (mem b).prev { mem (mem b).prev with next := (mem b).next }
      else mem) a =
      ⟨if a = (mem b).prev ∧ a ≠ 0 then (mem b).next else (mem a).next, (mem a).prev⟩ := by
  by_cases hp : (mem b).prev = 0
  · have hneg : ¬ (a = (mem b).prev ∧ a ≠ 0) := by
      rintro ⟨e, h0⟩
      exact h0 (e.trans hp)
    rw [if_neg (not_not_intro hp), if_neg hneg]
  · rw [if_pos hp]
    by_cases ha : a = (mem b).prev
    · subst ha
      simp [hp]
    · rw [update_of_ne ha]
      simp [ha]

private theorem stitchPrev_apply (mem : α → Link α) (b a : α) :
    (if (mem b).next ≠ 0 then
        update mem (mem b).next { mem (mem b).next with prev := (mem b).prev }
      else mem) a =
      ⟨(mem a).next, if a = (mem b).next ∧ a ≠ 0 then (mem b).prev else (mem a).prev⟩ := by
  by_cases hn : (mem b).next = 0
  · have hneg : ¬ (a = (mem b).next ∧ a ≠ 0) := by
      rintro ⟨e, h0⟩
      exact h0 (e.trans hn)
    rw [if_neg (not_not_intro hn), if_neg hneg]
  · rw [if_pos hn]
    by_cases ha : a = (mem b).next
    · subst ha
      simp [hn]
    · rw [update_of_ne ha]
      simp [ha]

theorem linkBypass_apply (mem : α → Link α) {b : α} (hprev : (mem b).prev ≠ b) (a : α) :
    linkBypass mem b a =
      ⟨if a = (mem b).prev ∧ a ≠ 0 then (mem b).next else (mem a).next,
        if a = (mem b).next ∧ a ≠ 0 then (mem b).prev else (mem a).prev⟩ := by
  unfold linkBypass
  dsimp only
  rw [stitchPrev_apply, stitchNext_apply, stitchNext_apply]
  simp [hprev.symm]

omit [DecidableEq α] in
/-- The back link of a node in the middle of a chain is the node before it. -/
theorem DChain.prev_eq {mem : α → Link α} {b : α} {l₂ : List α} (l₁ : List α) :
    ∀ {prev head : α}, DChain mem prev head (l₁ ++ b :: l₂) →
      (mem b).prev = (prev :: l₁).getLast (cons_ne_nil _ _) := by
  induction l₁ with
  | nil => intro prev head h; exact h.2.2.1
  | cons a l₁ ih =>
    rintro prev head ⟨-, -, -, hrest⟩
    rw [ih hrest]
    simp

omit [DecidableEq α] in
theorem DChain.suffix {mem : α → Link α} {b : α} {l₂ : List α} (l₁ : List α) :
    ∀ {prev head : α}, DChain mem prev head (l₁ ++ b :: l₂) → DChain mem b (mem b).next l₂ := by
  induction l₁ with
  | nil => intro prev head h; exact h.2.2.2
  | cons a l₁ ih =>
    rintro prev head ⟨-, -, -, hrest⟩
    exact ih hrest

/-- Bypassing the node after `l₁` removes exactly that node from the reading.
The induction is on `l₁`; the node before the hole is the one whose forward link
changes, and the first node after it the one whose back link does. -/
theorem DChain.bypass_append {mem : α → Link α} {b : α} {l₂ : List α} (l₁ : List α) :
    ∀ {prev head : α}, DChain mem prev head (l₁ ++ b :: l₂) →
      (l₁ ++ b :: l₂).Nodup → prev ∉ l₁ ++ b :: l₂ →
      DChain (linkBypass mem b) prev (if l₁ = [] then (mem b).next else head) (l₁ ++ l₂) := by
  induction l₁ with
  | nil =>
    intro prev head h hnodup hprev
    obtain ⟨-, -, hbprev, hrest⟩ := h
    have hpb : (mem b).prev ≠ b := by
      rw [hbprev]
      rintro rfl
      exact hprev mem_cons_self
    simp only [if_true, List.nil_append] at hnodup hprev ⊢
    cases l₂ with
    | nil => exact hrest
    | cons c l₂ =>
      obtain ⟨hnext, hc, -, htail⟩ := hrest
      have hcp : c ≠ (mem b).prev := by
        rw [hbprev]
        rintro rfl
        exact hprev (by simp)
      have hcell : linkBypass mem b c = ⟨(mem c).next, prev⟩ := by
        rw [linkBypass_apply mem hpb, if_neg fun e => hcp e.1, if_pos ⟨hnext.symm, hc⟩, hbprev]
      refine ⟨hnext, hc, by rw [hcell], ?_⟩
      rw [hcell]
      refine htail.congr fun x hx => ?_
      have hxp : x ≠ (mem b).prev := by
        rw [hbprev]
        rintro rfl
        exact hprev (by simp [hx])
      have hxc : x ≠ (mem b).next := by
        rw [hnext]
        rintro rfl
        exact (nodup_cons.mp (nodup_cons.mp hnodup).2).1 hx
      rw [linkBypass_apply mem hpb]
      simp [hxp, hxc]
  | cons a l₁ ih =>
    intro prev head h hnodup hprev
    have hpe := DChain.prev_eq (a :: l₁) h
    have hsuf := DChain.suffix (a :: l₁) h
    obtain ⟨hhead, ha, haprev, hrest⟩ := h
    obtain ⟨hanot, hnodup'⟩ := nodup_cons.mp hnodup
    have hlast : (mem b).prev = (a :: l₁).getLast (cons_ne_nil _ _) := by
      rw [hpe]
      simp
    have hlastmem : (mem b).prev ∈ a :: l₁ := by
      rw [hlast]
      exact getLast_mem _
    have hpb : (mem b).prev ≠ b := by
      intro e
      rw [e] at hlastmem
      have hdisj : List.Disjoint (a :: l₁) (b :: l₂) := disjoint_of_nodup_append hnodup
      exact hdisj hlastmem mem_cons_self
    -- `a` is not the node after `b`, so its back link is kept
    have han : a ≠ (mem b).next := by
      intro e
      cases l₂ with
      | nil => exact ha (e.trans hsuf)
      | cons c l₂ =>
        rw [hsuf.1] at e
        exact hanot (by simp [e])
    have hcell : linkBypass mem b a = ⟨if l₁ = [] then (mem b).next else (mem a).next, prev⟩ := by
      rw [linkBypass_apply mem hpb]
      have hiff : a = (mem b).prev ↔ l₁ = [] := by
        constructor
        · intro e
          by_contra hne
          rw [hlast, getLast_cons hne] at e
          exact hanot (mem_append_left _ (e ▸ getLast_mem hne))
        · rintro rfl
          simp [hlast]
      simp [hiff, ha, han, haprev]
    refine ⟨by simpa using hhead, ha, by rw [hcell], ?_⟩
    rw [hcell]
    exact ih hrest hnodup' hanot

/-- Bypassing a node of a chain erases it from the reading and nothing else. -/
theorem DChain.bypass {mem : α → Link α} {head b : α} {l : List α}
    (h : DChain mem 0 head l) (hnodup : l.Nodup) (hb : b ∈ l) :
    DChain (linkBypass mem b) 0 (headAfterBypass mem head b) (l.erase b) := by
  obtain ⟨l₁, l₂, rfl⟩ := append_of_mem hb
  have hzero : (0 : α) ∉ l₁ ++ b :: l₂ := fun hz => h.ne_zero 0 hz rfl
  have hnot : b ∉ l₁ := fun hmem =>
    disjoint_of_nodup_append hnodup hmem mem_cons_self
  have hhead : headAfterBypass mem head b = if l₁ = [] then (mem b).next else head := by
    have hpe := DChain.prev_eq l₁ h
    unfold headAfterBypass
    rcases l₁.eq_nil_or_concat with rfl | ⟨l₁', c, rfl⟩
    · simp [hpe]
    · have hc : c ≠ 0 := h.ne_zero c (by simp)
      simp [hpe, hc]
  rw [hhead, erase_append_right _ hnot, erase_cons_head]
  exact DChain.bypass_append l₁ h hnodup hzero

/-- Chains that share no node with a bypassed node's list are untouched. -/
theorem DChain.bypass_of_disjoint {mem : α → Link α} {head head' b : α} {l m : List α}
    (h : DChain mem 0 head l) (hb : b ∈ l) (hnodup : l.Nodup)
    (hm : DChain mem 0 head' m) (hdisj : ∀ a ∈ l, a ∉ m) :
    DChain (linkBypass mem b) 0 head' m := by
  obtain ⟨l₁, l₂, rfl⟩ := append_of_mem hb
  have hpe := DChain.prev_eq l₁ h
  have hsuf := DChain.suffix l₁ h
  have hpm : (mem b).prev = 0 ∨ (mem b).prev ∈ l₁ := by
    rcases l₁.eq_nil_or_concat with rfl | ⟨l₁', c, rfl⟩
    · exact Or.inl (by simpa using hpe)
    · exact Or.inr (by simp [hpe])
  have hpb : (mem b).prev ≠ b := by
    rcases hpm with h0 | hmem
    · rw [h0]
      exact (h.ne_zero b (by simp)).symm
    · rintro e
      rw [e] at hmem
      exact disjoint_of_nodup_append hnodup hmem mem_cons_self
  refine hm.congr fun x hx => ?_
  have hx0 : x ≠ 0 := hm.ne_zero x hx
  have hxl : x ∉ l₁ ++ b :: l₂ := fun hmem => hdisj x hmem hx
  have hxp : x ≠ (mem b).prev := by
    rintro rfl
    rcases hpm with h0 | hmem
    · exact hx0 h0
    · exact hxl (mem_append_left _ hmem)
  have hxn : x ≠ (mem b).next := by
    intro e
    cases l₂ with
    | nil => exact hx0 (e.trans hsuf)
    | cons c l₂ =>
      rw [hsuf.1] at e
      exact hxl (by simp [e])
  rw [linkBypass_apply mem hpb]
  simp [hxp, hxn]

end Operations

/-! ### Singly linked lists -/

/-- `next` reads as the null-terminated list `l` from `head`. -/
def SChain (next : α → α) : α → List α → Prop
  | head, [] => head = 0
  | head, a :: l => head = a ∧ a ≠ 0 ∧ SChain next (next a) l

/-- A singly linked chain only depends on the links of its own nodes. -/
theorem SChain.congr {next next' : α → α} {l : List α} :
    ∀ {head : α}, SChain next head l → (∀ a ∈ l, next' a = next a) → SChain next' head l := by
  induction l with
  | nil => intro _ h _; exact h
  | cons a l ih =>
    rintro head ⟨hhead, hne, hrest⟩ hsame
    refine ⟨hhead, hne, ?_⟩
    rw [hsame a mem_cons_self]
    exact ih hrest fun x hx => hsame x (mem_cons_of_mem _ hx)

/-- Writing the old head into a fresh node puts it in front. -/
theorem SChain.push [DecidableEq α] {next : α → α} {head b : α} {l : List α}
    (h : SChain next head l) (hb : b ≠ 0) (hfresh : b ∉ l) :
    SChain (update next b head) b (b :: l) := by
  refine ⟨rfl, hb, ?_⟩
  rw [update_self]
  refine h.congr fun x hx => update_of_ne ?_ _ _
  rintro rfl
  exact hfresh hx

/-! ### Families of lists

An allocator with several free lists concatenates them, each node tagged with the
list it is on. -/

section Families

variable {β γ : Type*}

/-- Putting nodes in front of one list of a family adds them to the concatenation. -/
theorem flatMap_update_append (tag : ℕ → β → γ) (L : ℕ → List β) {k n : ℕ} (l : List β)
    (hk : k < n) :
    ((List.range n).flatMap fun i => (update L k (l ++ L k) i).map (tag i)).Perm
      (l.map (tag k) ++ (List.range n).flatMap fun i => (L i).map (tag i)) := by
  have hother : ∀ os : List ℕ, k ∉ os →
      (os.flatMap fun i => (update L k (l ++ L k) i).map (tag i)) =
        os.flatMap fun i => (L i).map (tag i) := by
    intro os hnot
    refine flatMap_congr fun i hi => ?_
    rw [update_of_ne]
    rintro rfl
    exact hnot hi
  obtain ⟨l₁, l₂, hsplit⟩ := append_of_mem (mem_range.mpr hk)
  have hnodup : (l₁ ++ k :: l₂).Nodup := hsplit ▸ nodup_range
  obtain ⟨-, hnodup₂, hdisj⟩ := nodup_append.mp hnodup
  have hk₁ : k ∉ l₁ := fun hmem => hdisj k hmem k mem_cons_self rfl
  rw [hsplit]
  simp only [flatMap_append, flatMap_cons, update_self, map_append,
    hother l₁ hk₁, hother l₂ (nodup_cons.mp hnodup₂).1, append_assoc]
  exact perm_append_comm_assoc _ _ _

/-- Adding a node to one list of a family adds it to the concatenation. -/
theorem flatMap_update_cons (tag : ℕ → β → γ) (L : ℕ → List β) {k n : ℕ} (a : β) (hk : k < n) :
    ((List.range n).flatMap fun i => (update L k (a :: L k) i).map (tag i)).Perm
      (tag k a :: (List.range n).flatMap fun i => (L i).map (tag i)) :=
  flatMap_update_append tag L [a] hk

/-- A list of the family may be replaced before the node is added. -/
theorem flatMap_update_of_cons (tag : ℕ → β → γ) (L : ℕ → List β) {k n : ℕ} (a : β) (l : List β)
    (hk : k < n) :
    ((List.range n).flatMap fun i => (update L k (a :: l) i).map (tag i)).Perm
      (tag k a :: (List.range n).flatMap fun i => (update L k l i).map (tag i)) := by
  have h := flatMap_update_cons tag (update L k l) a hk
  rwa [update_self, update_idem] at h

end Families

end KernelR.Foundations
