import Mathlib.Tactic
import Mathlib.Data.List.Perm.Basic
import Mathlib.Algebra.BigOperators.Group.List.Basic

/-!
# Extents and coverage

An allocator's bookkeeping is a list of address runs, and the two things one
wants to know about such a list — that no two runs overlap, and that together
they are exactly some other list of runs — are both statements about one
function: how many runs contain a given address.

* `Extent` — a half-open run of addresses `[base, base + size)`.
* `coverCount l x` — how many extents of `l` contain the address `x`.

Splitting a run in two, joining two neighbours and reordering the list all leave
`coverCount` alone, so an invariant phrased as an equality of coverages survives
those moves without any reasoning about pairs. `pairwise_apart_of_coverCount`
and `totalSize_eq_of_coverCount` read disjointness and byte totals back off.
-/

namespace KernelR.Foundations

open List

/-- A half-open run of addresses `[base, base + size)`. -/
structure Extent where
  base : ℕ
  size : ℕ
deriving DecidableEq, Repr

namespace Extent

/-- The address `x` lies in the extent. -/
def Mem (e : Extent) (x : ℕ) : Prop := e.base ≤ x ∧ x < e.base + e.size

instance decidableMem (e : Extent) (x : ℕ) : Decidable (e.Mem x) :=
  inferInstanceAs (Decidable (e.base ≤ x ∧ x < e.base + e.size))

/-- No address lies in both extents. -/
def Apart (e f : Extent) : Prop := ∀ x, e.Mem x → ¬ f.Mem x

theorem Apart.symm {e f : Extent} (h : e.Apart f) : f.Apart e := fun x hf he => h x he hf

theorem Apart.mono {e f e' f' : Extent} (h : e.Apart f)
    (he : ∀ x, e'.Mem x → e.Mem x) (hf : ∀ x, f'.Mem x → f.Mem x) : e'.Apart f' :=
  fun x hx hy => h x (he x hx) (hf x hy)

/-- One if the extent contains `x`, zero otherwise. -/
def hit (e : Extent) (x : ℕ) : ℕ := if e.base ≤ x ∧ x < e.base + e.size then 1 else 0

/-- Cutting an extent in two does not change what it contains. -/
theorem hit_split (b m n x : ℕ) : hit ⟨b, m + n⟩ x = hit ⟨b, m⟩ x + hit ⟨b + m, n⟩ x := by
  unfold hit
  dsimp only
  split_ifs <;> omega

theorem hit_eq_one {e : Extent} {x : ℕ} (h : e.Mem x) : e.hit x = 1 := if_pos h

theorem hit_pos_iff {e : Extent} {x : ℕ} : 0 < e.hit x ↔ e.Mem x := by
  unfold hit Mem
  split_ifs with h <;> simp [h]

end Extent

open Extent

/-- How many extents of the list contain `x`. -/
def coverCount (l : List Extent) (x : ℕ) : ℕ := (l.map fun e => e.hit x).sum

/-- The bytes the list accounts for, overlaps counted twice. -/
def totalSize (l : List Extent) : ℕ := (l.map Extent.size).sum

@[simp] theorem coverCount_nil (x : ℕ) : coverCount [] x = 0 := rfl

@[simp] theorem coverCount_cons (e : Extent) (l : List Extent) (x : ℕ) :
    coverCount (e :: l) x = e.hit x + coverCount l x := by
  simp [coverCount]

@[simp] theorem coverCount_append (l m : List Extent) (x : ℕ) :
    coverCount (l ++ m) x = coverCount l x + coverCount m x := by
  simp [coverCount]

theorem coverCount_perm {l m : List Extent} (h : l.Perm m) (x : ℕ) :
    coverCount l x = coverCount m x :=
  (h.map _).sum_eq

variable {l : List Extent} {x : ℕ}

theorem coverCount_pos_of_mem {e : Extent} (he : e ∈ l) (hx : e.Mem x) : 0 < coverCount l x := by
  obtain ⟨l₁, l₂, rfl⟩ := append_of_mem he
  simp only [coverCount_append, coverCount_cons, hit_eq_one hx]
  omega

theorem exists_mem_of_coverCount_pos (h : 0 < coverCount l x) : ∃ e ∈ l, e.Mem x := by
  induction l with
  | nil => simp at h
  | cons e l ih =>
    by_cases he : e.Mem x
    · exact ⟨e, mem_cons_self, he⟩
    · have hzero : e.hit x = 0 := if_neg he
      rw [coverCount_cons, hzero, Nat.zero_add] at h
      obtain ⟨f, hf, hx⟩ := ih h
      exact ⟨f, mem_cons_of_mem _ hf, hx⟩

theorem coverCount_pos_iff : 0 < coverCount l x ↔ ∃ e ∈ l, e.Mem x :=
  ⟨exists_mem_of_coverCount_pos, fun ⟨_, he, hx⟩ => coverCount_pos_of_mem he hx⟩

/-- Where no address is covered twice, the extents are pairwise apart. -/
theorem pairwise_apart_of_coverCount (h : ∀ x, coverCount l x ≤ 1) : l.Pairwise Apart := by
  induction l with
  | nil => exact List.Pairwise.nil
  | cons e l ih =>
    refine pairwise_cons.mpr ⟨?_, ih fun x => ?_⟩
    · intro f hf x he hfx
      have hx := h x
      rw [coverCount_cons, hit_eq_one he] at hx
      have := coverCount_pos_of_mem hf hfx
      omega
    · have hx := h x
      rw [coverCount_cons] at hx
      omega

theorem coverCount_le_one_of_pairwise (h : l.Pairwise Apart) (x : ℕ) : coverCount l x ≤ 1 := by
  induction l with
  | nil => simp
  | cons e l ih =>
    obtain ⟨hhead, htail⟩ := pairwise_cons.mp h
    rw [coverCount_cons]
    by_cases he : e.Mem x
    · have hzero : coverCount l x = 0 := by
        by_contra hne
        obtain ⟨f, hf, hx⟩ := exists_mem_of_coverCount_pos (Nat.pos_of_ne_zero hne)
        exact hhead f hf x he hx
      rw [hit_eq_one he, hzero]
    · have hzero : e.hit x = 0 := if_neg he
      have := ih htail
      omega

/-! ### Byte totals -/

theorem totalSize_cons (e : Extent) (l : List Extent) :
    totalSize (e :: l) = e.size + totalSize l := by
  simp [totalSize]

theorem totalSize_append (l m : List Extent) : totalSize (l ++ m) = totalSize l + totalSize m := by
  simp [totalSize]

/-- Summing the hits of one extent over a long enough prefix of the addresses
counts its bytes. -/
theorem sum_hit_range (e : Extent) (n : ℕ) :
    ((List.range n).map e.hit).sum = min n (e.base + e.size) - min n e.base := by
  induction n with
  | zero => simp
  | succ n ih =>
    rw [range_succ, map_append, sum_append, ih]
    simp only [map_cons, map_nil, sum_cons, sum_nil, hit]
    split_ifs <;> omega

/-- Summing coverage over all addresses counts the bytes of the whole list. -/
theorem sum_coverCount_range {n : ℕ} (hn : ∀ e ∈ l, e.base + e.size ≤ n) :
    ((List.range n).map (coverCount l)).sum = totalSize l := by
  induction l with
  | nil =>
    have hzero : coverCount [] = fun _ => 0 := rfl
    simp [totalSize, hzero]
  | cons e l ih =>
    have hsplit : ((List.range n).map (coverCount (e :: l))).sum =
        ((List.range n).map e.hit).sum + ((List.range n).map (coverCount l)).sum := by
      rw [← sum_map_add]
      exact congrArg List.sum (map_congr_left fun x _ => coverCount_cons e l x)
    have he := hn e mem_cons_self
    rw [hsplit, sum_hit_range, ih fun f hf => hn f (mem_cons_of_mem _ hf), totalSize_cons]
    omega

theorem exists_bound (l : List Extent) : ∃ n, ∀ e ∈ l, e.base + e.size ≤ n := by
  induction l with
  | nil => exact ⟨0, by simp⟩
  | cons e l ih =>
    obtain ⟨n, hn⟩ := ih
    refine ⟨max n (e.base + e.size), fun f hf => ?_⟩
    rcases mem_cons.mp hf with rfl | hmem
    · exact le_max_right _ _
    · exact (hn f hmem).trans (le_max_left _ _)

/-- Lists that cover the same addresses equally often account for the same
number of bytes. -/
theorem totalSize_eq_of_coverCount {l m : List Extent}
    (h : ∀ x, coverCount l x = coverCount m x) : totalSize l = totalSize m := by
  obtain ⟨n, hn⟩ := exists_bound (l ++ m)
  have hl : ∀ e ∈ l, e.base + e.size ≤ n := fun e he => hn e (mem_append_left _ he)
  have hm : ∀ e ∈ m, e.base + e.size ≤ n := fun e he => hn e (mem_append_right _ he)
  rw [← sum_coverCount_range hl, ← sum_coverCount_range hm, funext h]

end KernelR.Foundations
