import Mathlib.Tactic
import Mathlib.Data.List.Perm.Basic

/-!
# Red-black trees and their contexts

Red-black trees over an arbitrary element type, seen from a position inside: a
`Frame` is one step of the path from the root, with the colour and element of the
parent and the sibling subtree, and `plug k t` puts the subtree `t` back under the
path `k`. An algorithm that walks up a tree moves frames off the path, and what it
does at one position is a change of `t` and of the first frames of `k`.

The two mirror images of every case are handled at once: `bin d c s a t` is the
node with `s` on side `d` and `t` on the other side.

* `toList_plug` — the in-order sequence of `plug k t` is that of `t` between two
  lists that depend on `k` only.
* `toList_perm_plug` — its elements are those of `t` and of `k`.
* `isRedBlack_plug` — a plugged tree is red-black when the subtree is balanced, the
  path *fits* its black height, and no red meets red where they join.
-/

namespace KernelR.Foundations

open List

/-- A side of a node. -/
inductive Side where
  | left
  | right
deriving DecidableEq, Repr

/-- The opposite side. -/
def Side.other : Side → Side
  | left => right
  | right => left

@[simp] theorem Side.other_other (d : Side) : d.other.other = d := by
  cases d <;> rfl

/-- The colour of a node. -/
inductive Color where
  | red
  | black
deriving DecidableEq, Repr

/-- Binary trees with coloured nodes. -/
inductive CTree (α : Type*) where
  | nil
  | node (c : Color) (l : CTree α) (a : α) (r : CTree α)
deriving DecidableEq, Repr

variable {α : Type*}

namespace CTree

/-- The node with `s` on side `d` and `t` on the other side. -/
def bin (d : Side) (c : Color) (s : CTree α) (a : α) (t : CTree α) : CTree α :=
  match d with
  | .left => node c s a t
  | .right => node c t a s

theorem bin_other (d : Side) (c : Color) (s : CTree α) (a : α) (t : CTree α) :
    bin d.other c s a t = bin d c t a s := by
  cases d <;> rfl

/-- The in-order sequence. -/
def toList : CTree α → List α
  | nil => []
  | node _ l a r => l.toList ++ a :: r.toList

/-- The colour of the root; absent nodes are black. -/
def color : CTree α → Color
  | nil => .black
  | node c _ _ _ => c

@[simp] theorem color_bin (d : Side) (c : Color) (s : CTree α) (a : α) (t : CTree α) :
    (bin d c s a t).color = c := by
  cases d <;> rfl

theorem exists_of_color_red {t : CTree α} (h : t.color = .red) (d : Side) :
    ∃ s a u, t = bin d .red s a u := by
  cases t with
  | nil => cases h
  | node c l a r =>
    obtain rfl : c = .red := h
    cases d with
    | left => exact ⟨l, a, r, rfl⟩
    | right => exact ⟨r, a, l, rfl⟩

theorem toList_bin_perm (d : Side) (c : Color) (s : CTree α) (a : α) (t : CTree α) :
    (bin d c s a t).toList.Perm (a :: (s.toList ++ t.toList)) := by
  cases d with
  | left => exact perm_middle
  | right => exact perm_middle.trans (List.Perm.cons _ perm_append_comm)

theorem toList_rotate (d : Side) (cx cy cx' cy' : Color) (s : CTree α) (x : α) (t : CTree α)
    (y : α) (u : CTree α) :
    (bin d cy' (bin d cx' s x t) y u).toList = (bin d cx s x (bin d cy t y u)).toList := by
  cases d <;> simp [bin, toList]

/-! ### Balance -/

/-- Every path to an absent node passes `n` black nodes. -/
def HasBlackHeight : CTree α → ℕ → Prop
  | nil, n => n = 0
  | node .red l _ r, n => l.HasBlackHeight n ∧ r.HasBlackHeight n
  | node .black _ _ _, 0 => False
  | node .black l _ r, n + 1 => l.HasBlackHeight n ∧ r.HasBlackHeight n

/-- No red node has a red child. -/
def NoRedRed : CTree α → Prop
  | nil => True
  | node c l _ r =>
    (c = .red → l.color = .black ∧ r.color = .black) ∧ l.NoRedRed ∧ r.NoRedRed

/-- A subtree of a red-black tree, of black height `n`. -/
def Balanced (t : CTree α) (n : ℕ) : Prop := t.HasBlackHeight n ∧ t.NoRedRed

/-- A red-black tree. -/
def IsRedBlack (t : CTree α) : Prop := t.color = .black ∧ ∃ n, t.Balanced n

theorem balanced_nil {n : ℕ} : (nil : CTree α).Balanced n ↔ n = 0 := by
  simp [Balanced, HasBlackHeight, NoRedRed]

theorem balanced_red (d : Side) {s t : CTree α} {a : α} {n : ℕ} : (bin d .red s a t).Balanced n ↔
      s.Balanced n ∧ t.Balanced n ∧ s.color = .black ∧ t.color = .black := by
  cases d with
  | left =>
    simp only [bin, Balanced, HasBlackHeight, NoRedRed, true_implies]
    tauto
  | right =>
    simp only [bin, Balanced, HasBlackHeight, NoRedRed, true_implies]
    tauto

theorem balanced_black_succ (d : Side) {s t : CTree α} {a : α} {n : ℕ} :
    (bin d .black s a t).Balanced (n + 1) ↔ s.Balanced n ∧ t.Balanced n := by
  cases d with
  | left =>
    simp only [bin, Balanced, HasBlackHeight, NoRedRed, reduceCtorEq, false_implies]
    tauto
  | right =>
    simp only [bin, Balanced, HasBlackHeight, NoRedRed, reduceCtorEq, false_implies]
    tauto

theorem not_balanced_black_zero (d : Side) {s t : CTree α} {a : α} :
    ¬ (bin d .black s a t).Balanced 0 := by
  cases d <;> exact fun h => h.1

/-- The number of nodes on a longest path. -/
def height : CTree α → ℕ
  | nil => 0
  | node _ l _ r => max l.height r.height + 1

theorem Balanced.height_le {t : CTree α} {n : ℕ} (h : t.Balanced n) :
    t.height ≤ 2 * n + 1 ∧ (t.color = .black → t.height ≤ 2 * n) := by
  induction t generalizing n with
  | nil => exact ⟨Nat.zero_le _, fun _ => Nat.zero_le _⟩
  | node c l a r ihl ihr =>
    rw [height]
    cases c with
    | red =>
      obtain ⟨hl, hr, hlc, hrc⟩ := (balanced_red .left).mp h
      have hl' := (ihl hl).2 hlc
      have hr' := (ihr hr).2 hrc
      exact ⟨by omega, fun hc => by cases hc⟩
    | black =>
      cases n with
      | zero => exact absurd h (not_balanced_black_zero .left)
      | succ n =>
        obtain ⟨hl, hr⟩ := (balanced_black_succ .left).mp h
        have hl' := (ihl hl).1
        have hr' := (ihr hr).1
        exact ⟨by omega, fun _ => by omega⟩

theorem Balanced.two_pow_le {t : CTree α} {n : ℕ} (h : t.Balanced n) :
    2 ^ n ≤ t.toList.length + 1 := by
  induction t generalizing n with
  | nil => simp [balanced_nil.mp h, toList]
  | node c l a r ihl ihr =>
    rw [toList, length_append, length_cons]
    cases c with
    | red =>
      have hl := ihl ((balanced_red .left).mp h).1
      omega
    | black =>
      cases n with
      | zero => exact absurd h (not_balanced_black_zero .left)
      | succ n =>
        obtain ⟨hl, hr⟩ := (balanced_black_succ .left).mp h
        have hl' := ihl hl
        have hr' := ihr hr
        omega

/-- A red-black tree is at most twice as high as a perfect one. -/
theorem IsRedBlack.height_le {t : CTree α} (h : t.IsRedBlack) :
    t.height ≤ 2 * Nat.log2 (t.toList.length + 1) := by
  obtain ⟨hc, n, hn⟩ := h
  have hlog : n ≤ Nat.log2 (t.toList.length + 1) :=
    (Nat.le_log2 (Nat.succ_ne_zero _)).mpr hn.two_pow_le
  have hheight := hn.height_le.2 hc
  omega

theorem Balanced.exists_black {t : CTree α} {n : ℕ} (h : t.Balanced (n + 1))
    (hc : t.color = .black) (d : Side) :
    ∃ s a u, t = bin d .black s a u ∧ s.Balanced n ∧ u.Balanced n := by
  cases t with
  | nil => exact absurd (balanced_nil.mp h) (Nat.succ_ne_zero n)
  | node c l a r =>
    obtain rfl : c = .black := hc
    cases d with
    | left => exact ⟨l, a, r, rfl, (balanced_black_succ .left).mp h⟩
    | right => exact ⟨r, a, l, rfl, (balanced_black_succ .right).mp h⟩

/-- A tree with its root painted. -/
def paint (c : Color) : CTree α → CTree α
  | nil => nil
  | node _ l a r => node c l a r

@[simp] theorem paint_bin (c c' : Color) (d : Side) (s : CTree α) (a : α) (t : CTree α) :
    (bin d c s a t).paint c' = bin d c' s a t := by
  cases d <;> rfl

@[simp] theorem toList_paint (c : Color) (t : CTree α) : (t.paint c).toList = t.toList := by
  cases t <;> rfl

theorem Balanced.paint_black {t : CTree α} {n : ℕ} (h : t.Balanced n) (hc : t.color = .red) :
    (t.paint .black).Balanced (n + 1) := by
  obtain ⟨s, a, u, rfl⟩ := exists_of_color_red hc .left
  obtain ⟨hs, hu, -, -⟩ := (balanced_red .left).mp h
  rw [paint_bin]
  exact (balanced_black_succ .left).mpr ⟨hs, hu⟩

end CTree

/-! ### Contexts -/

open CTree

/-- One step of a path: the hole is on side `side` of a node with this colour and
element, whose other child is `sib`. -/
structure Frame (α : Type*) where
  side : Side
  color : Color
  elem : α
  sib : CTree α

/-- Put a subtree under a path, whose first frame is the innermost. -/
def plug : List (Frame α) → CTree α → CTree α
  | [], t => t
  | f :: k, t => plug k (bin f.side f.color t f.elem f.sib)

/-- The elements on the path and in its siblings. -/
def pathElems : List (Frame α) → List α
  | [] => []
  | f :: k => f.elem :: (f.sib.toList ++ pathElems k)

/-- The elements in order before the hole… -/
def pathBefore : List (Frame α) → List α
  | [] => []
  | f :: k =>
    match f.side with
    | .left => pathBefore k
    | .right => pathBefore k ++ (f.sib.toList ++ [f.elem])

/-- …and after it. -/
def pathAfter : List (Frame α) → List α
  | [] => []
  | f :: k =>
    match f.side with
    | .left => f.elem :: (f.sib.toList ++ pathAfter k)
    | .right => pathAfter k

theorem plug_append (k k' : List (Frame α)) (t : CTree α) :
    plug (k ++ k') t = plug k' (plug k t) := by
  induction k generalizing t with
  | nil => rfl
  | cons f k ih => exact ih _

theorem toList_plug (k : List (Frame α)) (t : CTree α) :
    (plug k t).toList = pathBefore k ++ t.toList ++ pathAfter k := by
  induction k generalizing t with
  | nil => simp [plug, pathBefore, pathAfter]
  | cons f k ih =>
    obtain ⟨d, c, a, sib⟩ := f
    rw [plug, ih]
    cases d <;> simp [bin, CTree.toList, pathBefore, pathAfter]

theorem toList_perm_plug (k : List (Frame α)) (t : CTree α) :
    (plug k t).toList.Perm (t.toList ++ pathElems k) := by
  induction k generalizing t with
  | nil => simp [plug, pathElems]
  | cons f k ih =>
    refine (ih _).trans (((toList_bin_perm _ _ _ _ _).append_right _).trans ?_)
    rw [cons_append, append_assoc]
    exact perm_middle.symm

theorem length_le_plug (k : List (Frame α)) (t : CTree α) :
    k.length + t.toList.length ≤ (plug k t).toList.length := by
  rw [(toList_perm_plug k t).length_eq, length_append, Nat.add_comm]
  refine Nat.add_le_add_left ?_ _
  induction k with
  | nil => exact Nat.zero_le _
  | cons f k ih =>
    simp only [pathElems, length_cons, length_append]
    omega

theorem exists_plug_of_mem {t : CTree α} {a : α} (h : a ∈ t.toList) :
    ∃ k c l r, t = plug k (node c l a r) := by
  induction t with
  | nil => cases h
  | node c l b r ihl ihr =>
    rw [CTree.toList, mem_append, mem_cons] at h
    rcases h with h | rfl | h
    · obtain ⟨k, c', l', r', rfl⟩ := ihl h
      exact ⟨k ++ [⟨.left, c, b, r⟩], c', l', r', by rw [plug_append]; rfl⟩
    · exact ⟨[], c, l, r, rfl⟩
    · obtain ⟨k, c', l', r', rfl⟩ := ihr h
      exact ⟨k ++ [⟨.right, c, b, l⟩], c', l', r', by rw [plug_append]; rfl⟩

/-- The colour just above the hole. Above the root it counts as red, so that the
root itself has to be black. -/
def outerColor : List (Frame α) → Color
  | [] => .red
  | f :: _ => f.color

/-- Plugging a balanced tree of black height `n` keeps the path balanced. -/
def Fits : List (Frame α) → ℕ → Prop
  | [], _ => True
  | f :: k, n =>
    f.sib.Balanced n ∧
      match f.color with
      | .red => f.sib.color = .black ∧ outerColor k = .black ∧ Fits k n
      | .black => Fits k (n + 1)

theorem isRedBlack_plug {k : List (Frame α)} {t : CTree α} : (plug k t).IsRedBlack ↔
      ∃ n, t.Balanced n ∧ Fits k n ∧ (outerColor k = .red → t.color = .black) := by
  induction k generalizing t with
  | nil => simp [plug, IsRedBlack, Fits, outerColor, and_comm]
  | cons f k ih =>
    obtain ⟨d, c, a, sib⟩ := f
    rw [plug, ih]
    cases c with
    | red =>
      simp only [balanced_red, color_bin, Fits, outerColor, true_implies]
      constructor
      · rintro ⟨n, ⟨ht, hs, htc, hsc⟩, hk, houter⟩
        have hblack : outerColor k = .black := by
          cases hc : outerColor k with
          | red => cases houter hc
          | black => rfl
        exact ⟨n, ht, ⟨hs, hsc, hblack, hk⟩, htc⟩
      · rintro ⟨n, ht, ⟨hs, hsc, hblack, hk⟩, htc⟩
        refine ⟨n, ⟨ht, hs, htc, hsc⟩, hk, fun hred => ?_⟩
        rw [hblack] at hred
        cases hred
    | black =>
      simp only [color_bin, Fits, outerColor, reduceCtorEq, false_implies, and_true]
      constructor
      · rintro ⟨n, hbin, hk, -⟩
        cases n with
        | zero => exact absurd hbin (not_balanced_black_zero d)
        | succ n =>
          obtain ⟨ht, hs⟩ := (balanced_black_succ d).mp hbin
          exact ⟨n, ht, hs, hk⟩
      · rintro ⟨n, ht, hs, hk⟩
        exact ⟨n + 1, (balanced_black_succ d).mpr ⟨ht, hs⟩, hk, fun _ => trivial⟩

/-- The root of a tree that fits below a path is black, the path being not empty. -/
theorem Fits.color_plug {k : List (Frame α)} {n : ℕ} (h : Fits k n) (hk : k ≠ []) (t : CTree α) :
    (plug k t).color = .black := by
  induction k generalizing t n with
  | nil => exact absurd rfl hk
  | cons f k ih =>
    obtain ⟨d, c, a, sib⟩ := f
    rw [plug]
    cases k with
    | nil =>
      cases c with
      | red => cases h.2.2.1
      | black => exact color_bin _ _ _ _ _
    | cons g k =>
      cases c with
      | red => exact ih h.2.2.2 (cons_ne_nil _ _) _
      | black => exact ih h.2 (cons_ne_nil _ _) _

/-! ### Taking out one node -/

/-- The element of a frame plays no part in the balance of a path. -/
theorem fits_elem {k k' : List (Frame α)} {d : Side} {c : Color} {sib : CTree α} (a b : α)
    {n : ℕ} : Fits (k ++ ⟨d, c, a, sib⟩ :: k') n → Fits (k ++ ⟨d, c, b, sib⟩ :: k') n := by
  induction k generalizing n with
  | nil => exact id
  | cons f k ih =>
    have houter : outerColor (k ++ ⟨d, c, a, sib⟩ :: k') =
        outerColor (k ++ ⟨d, c, b, sib⟩ :: k') := by
      cases k <;> rfl
    obtain ⟨d', c', e, t⟩ := f
    cases c' with
    | red => exact fun h => ⟨h.1, h.2.1, houter ▸ h.2.2.1, ih h.2.2.2⟩
    | black => exact fun h => ⟨h.1, ih h.2⟩

/-- The subtree in the hole lacks a node of colour `c`: nothing is wrong if that
node was red, and one black is missing on every path if it was black. -/
def Lacks (c : Color) (k : List (Frame α)) (t : CTree α) : Prop :=
  match c with
  | .red => (plug k t).IsRedBlack
  | .black => ∃ n, t.Balanced n ∧ Fits k (n + 1)

/-- A node with at most one child leaves that child in its place. -/
theorem lacks_of_isRedBlack {k : List (Frame α)} {d : Side} {c : Color} {a : α} {t : CTree α}
    (h : (plug k (bin d c .nil a t)).IsRedBlack) : Lacks c k t := by
  obtain ⟨n, hbal, hfits, -⟩ := isRedBlack_plug.mp h
  cases c with
  | red =>
    obtain ⟨-, ht, -, htc⟩ := (balanced_red d).mp hbal
    exact isRedBlack_plug.mpr ⟨n, ht, hfits, fun _ => htc⟩
  | black =>
    cases n with
    | zero => exact absurd hbal (not_balanced_black_zero d)
    | succ n => exact ⟨n, ((balanced_black_succ d).mp hbal).2, hfits⟩

/-- The gap stays what it is when a node above it is exchanged for another. -/
theorem Lacks.exchange {k k' : List (Frame α)} {d : Side} {c c' : Color} {sib t : CTree α} {a : α}
    (h : Lacks c (k ++ ⟨d, c', a, sib⟩ :: k') t) (b : α) :
    Lacks c (k ++ ⟨d, c', b, sib⟩ :: k') t := by
  cases c with
  | red =>
    obtain ⟨n, ht, hfits, houter⟩ := isRedBlack_plug.mp h
    refine isRedBlack_plug.mpr ⟨n, ht, fits_elem a b hfits, fun hred => houter ?_⟩
    cases k <;> exact hred
  | black =>
    obtain ⟨n, ht, hfits⟩ := h
    exact ⟨n, ht, fits_elem a b hfits⟩

end KernelR.Foundations
