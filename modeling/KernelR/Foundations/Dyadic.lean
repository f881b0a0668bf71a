import Mathlib.Tactic

/-!
# Dyadic blocks

A dyadic block of level `k` is a run of `2 ^ k` numbers that starts at a multiple of its
length; the blocks of level `k + 1` are the pairs of siblings of level `k`.

A family of blocks is `Canonical n` if its levels go up to `n`, no number is in two of
its blocks, and no block below level `n` is there together with its sibling. A block
that such a family covers is part of one block of the family (`Canonical.exists_up_mem`),
so the family consists of the largest blocks it covers (`Canonical.mem_iff`), and two
canonical families that cover the same numbers are equal (`Canonical.ext`).
-/

namespace KernelR.Foundations

/-- The numbers `x` with `x / 2 ^ level = index`. -/
structure DyadicBlock where
  level : ℕ
  index : ℕ
deriving DecidableEq, Repr

namespace DyadicBlock

/-- The number is in the block. -/
def Mem (d : DyadicBlock) (x : ℕ) : Prop := x / 2 ^ d.level = d.index

/-- The block `k` levels up. -/
def up (d : DyadicBlock) (k : ℕ) : DyadicBlock := ⟨d.level + k, d.index / 2 ^ k⟩

/-- The other half of the block one level up. -/
def sibling (d : DyadicBlock) : DyadicBlock :=
  ⟨d.level, if d.index % 2 = 0 then d.index + 1 else d.index - 1⟩

variable {d e : DyadicBlock} {x k n : ℕ} {F G : Set DyadicBlock}

theorem Mem.up (h : d.Mem x) (k : ℕ) : (d.up k).Mem x := by
  show x / 2 ^ (d.level + k) = d.index / 2 ^ k
  rw [pow_add, ← Nat.div_div_eq_div_mul, h]

theorem mem_first (d : DyadicBlock) : d.Mem (d.index * 2 ^ d.level) :=
  Nat.mul_div_cancel _ (Nat.two_pow_pos _)

theorem up_succ (l i k : ℕ) : up ⟨l, i⟩ (k + 1) = up ⟨l + 1, i / 2⟩ k := by
  show (⟨l + (k + 1), i / 2 ^ (k + 1)⟩ : DyadicBlock) = ⟨l + 1 + k, i / 2 / 2 ^ k⟩
  rw [Nat.div_div_eq_div_mul, pow_succ', Nat.add_comm k 1, Nat.add_assoc]

/-- Every number of the block is in a block of the family. -/
def Covered (F : Set DyadicBlock) (d : DyadicBlock) : Prop := ∀ x, d.Mem x → ∃ e ∈ F, e.Mem x

theorem Covered.half {l i j : ℕ} (h : Covered F ⟨l + 1, i⟩) (hj : j / 2 = i) :
    Covered F ⟨l, j⟩ := by
  intro x hx
  refine h x ?_
  rw [← hj]
  exact hx.up 1

/-- **Families without redundancy.** -/
structure Canonical (n : ℕ) (F : Set DyadicBlock) : Prop where
  level_le : ∀ d ∈ F, d.level ≤ n
  apart : ∀ d ∈ F, ∀ e ∈ F, ∀ x, d.Mem x → e.Mem x → d = e
  merged : ∀ d ∈ F, d.level < n → d.sibling ∉ F

namespace Canonical

/-- **A block that is covered is part of one block of the family.** -/
theorem exists_up_mem (h : Canonical n F) {l i : ℕ} (hl : l ≤ n) (hcover : Covered F ⟨l, i⟩) :
    ∃ k, up ⟨l, i⟩ k ∈ F := by
  -- on the level: the halves of the block are part of blocks of the family
  induction l generalizing i with
  | zero =>
    obtain ⟨e, he, hmem⟩ := hcover i (Nat.div_one i)
    refine ⟨e.level, ?_⟩
    have hup : up ⟨0, i⟩ e.level = e := by
      show (⟨0 + e.level, i / 2 ^ e.level⟩ : DyadicBlock) = e
      rw [hmem, Nat.zero_add]
    rw [hup]
    exact he
  | succ l ih =>
    obtain ⟨k₁, hlow⟩ := ih (Nat.le_of_succ_le hl) (hcover.half (j := 2 * i) (by omega))
    obtain ⟨k₂, hhigh⟩ := ih (Nat.le_of_succ_le hl) (hcover.half (j := 2 * i + 1) (by omega))
    cases k₁ with
    | succ k =>
      rw [up_succ, Nat.mul_div_cancel_left i (by decide)] at hlow
      exact ⟨k, hlow⟩
    | zero =>
      cases k₂ with
      | succ k =>
        rw [up_succ, show (2 * i + 1) / 2 = i by omega] at hhigh
        exact ⟨k, hhigh⟩
      | zero =>
        -- both halves are blocks of the family
        refine absurd hhigh ?_
        have hsibling : up ⟨l, 2 * i + 1⟩ 0 = (up ⟨l, 2 * i⟩ 0).sibling := by
          simp [up, sibling]
        rw [hsibling]
        exact h.merged _ hlow hl

/-- **The family consists of the largest blocks it covers.** -/
theorem mem_iff (h : Canonical n F) :
    d ∈ F ↔ d.level ≤ n ∧ Covered F d ∧ (d.level = n ∨ ¬ Covered F (d.up 1)) := by
  constructor
  · intro hd
    refine ⟨h.level_le d hd, fun x hx => ⟨d, hd, hx⟩, ?_⟩
    by_cases hn : d.level = n
    · exact Or.inl hn
    · refine Or.inr fun hcover => ?_
      have hlt : d.level + 1 ≤ n := lt_of_le_of_ne (h.level_le d hd) hn
      obtain ⟨k, hk⟩ := h.exists_up_mem (i := d.index / 2 ^ 1) hlt hcover
      have hmem : (up ⟨d.level + 1, d.index / 2 ^ 1⟩ k).Mem (d.index * 2 ^ d.level) :=
        (d.mem_first.up 1).up k
      have hlevel := congrArg DyadicBlock.level (h.apart d hd _ hk _ d.mem_first hmem)
      simp only [up] at hlevel
      omega
  · rintro ⟨hn, hcover, htop⟩
    obtain ⟨k, hk⟩ := h.exists_up_mem hn hcover
    cases k with
    | zero =>
      have hup : up ⟨d.level, d.index⟩ 0 = d := by simp [up]
      rwa [hup] at hk
    | succ k =>
      exfalso
      rcases htop with rfl | htop
      · have hle := h.level_le _ hk
        simp only [up] at hle
        omega
      · refine htop fun x hx => ⟨_, hk, ?_⟩
        have hup : up ⟨d.level, d.index⟩ (k + 1) = (d.up 1).up k := up_succ ..
        rw [hup]
        exact hx.up k

/-- **Canonical families that cover the same numbers are equal.** -/
theorem ext (h : Canonical n F) (h' : Canonical n G)
    (hcover : ∀ x, (∃ d ∈ F, d.Mem x) ↔ ∃ d ∈ G, d.Mem x) : F = G := by
  have hcovered : ∀ d, Covered F d ↔ Covered G d := fun d =>
    forall₂_congr fun x _ => hcover x
  ext d
  rw [h.mem_iff, h'.mem_iff, hcovered, hcovered]

end Canonical

end DyadicBlock

end KernelR.Foundations
