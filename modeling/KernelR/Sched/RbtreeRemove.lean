import KernelR.Sched.RbtreeInsert

/-!
# Removal from the scheduler's tree

`rbtree_remove` unlinks the node, or its successor in its stead, and
`rb_remove_fixup` makes good for the black node that may now be missing on the way
to `x`. In the fixup the subtree in focus is balanced with one black node less
than its path wants: `x` has black height `n` and the path fits `n + 1`.
-/

namespace KernelR.Sched

open List Option Foundations CTree RbTree

/-! ### The rounds of the fixup -/

section Round

variable {s : RbTree} {k : List (Frame ℕ)} {d : Side} {c : Color} {x a b : CTree ℕ} {p w : ℕ}

/-- Case 1, a red sibling: it comes up, and its near child is the new sibling. -/
theorem removeFixupRound_redSibling (h : Focus s (⟨d, c, p, bin d .red a w b⟩ :: k) x) :
    ∃ s', s.removeFixupRound d (rootPtr x) p = some (s', rootPtr x, p) ∧
      Focus s' (⟨d, .red, p, a⟩ :: ⟨d, .black, w, b⟩ :: k) x ∧ SameData s s' := by
  have hp : p ≠ 0 := h.frame_valid.1
  have hw : (s.mem p).child d.other = w := by
    rw [h.up.cell.2.1, rootPtr_bin]
  have hcolor := h.across.colorSafe
  rw [rootPtr_bin, color_bin] at hcolor
  obtain ⟨s₁, hrun₁, hfocus₁, hdata₁⟩ := h.up.setColor .red
  obtain ⟨s₂, hrun₂, hfocus₂, hdata₂⟩ := hfocus₁.down.across.setColor .black
  have hback := hfocus₂.across.up
  simp only [Side.other_other] at hback
  obtain ⟨s₃, hrun₃, hfocus₃, hdata₃⟩ := hback.rotate
  refine ⟨s₃, ?_, hfocus₃.down.down, hdata₁.trans (hdata₂.trans hdata₃)⟩
  simp only [colorBit] at hrun₁ hrun₂ hcolor
  simp only [removeFixupRound, load_of_ne hp, bind_eq_bind, bind_some, hw, hcolor,
    if_true, hrun₁, hrun₂, hrun₃]

/-- What the other cases read: the sibling is black, and the colours of the
nephews. -/
theorem removeFixupRound_reads (h : Focus s (⟨d, c, p, bin d .black a w b⟩ :: k) x) :
    p ≠ 0 ∧ w ≠ 0 ∧ (s.mem p).child d.other = w ∧ s.rbColorSafe w = some rbBlack ∧
      (s.mem w).child d = rootPtr a ∧ (s.mem w).child d.other = rootPtr b ∧
      s.rbColorSafe (rootPtr a) = some (colorBit a.color) ∧
      s.rbColorSafe (rootPtr b) = some (colorBit b.color) := by
  have hsib := h.across
  have hw : (s.mem p).child d.other = w := by
    rw [h.up.cell.2.1, rootPtr_bin]
  have hcolor := hsib.colorSafe
  rw [rootPtr_bin, color_bin] at hcolor
  exact ⟨h.frame_valid.1, hsib.mem_valid.1, hw, hcolor, hsib.cell.1, hsib.cell.2.1,
    hsib.down.colorSafe, hsib.down.across.colorSafe⟩

/-- Case 2, two black nephews: the sibling becomes red and the parent is next. -/
theorem removeFixupRound_blackNephews (h : Focus s (⟨d, c, p, bin d .black a w b⟩ :: k) x)
    (ha : a.color = .black) (hb : b.color = .black) :
    ∃ s', s.removeFixupRound d (rootPtr x) p = some (s', p, pathPtr k) ∧
      Focus s' k (bin d c x p (bin d .red a w b)) ∧ SameData s s' := by
  obtain ⟨hp, hw, hchild, hcolor, hnear, hfar, hca, hcb⟩ := removeFixupRound_reads h
  obtain ⟨s₁, hrun₁, hfocus₁, hdata₁⟩ := h.across.setColor .red
  have hback := hfocus₁.across.up
  simp only [Side.other_other] at hback
  refine ⟨s₁, ?_, hback, hdata₁⟩
  have hparent : (s₁.mem p).rbParent = pathPtr k := hback.cell.2.2.1
  rw [ha] at hca
  rw [hb] at hcb
  have hnotred : ¬ rbBlack = rbRed := by decide
  simp only [colorBit] at hrun₁ hca hcb
  simp only [removeFixupRound, load_of_ne hp, load_of_ne hw, bind_eq_bind,
    bind_some, hchild, hcolor, hnotred, if_false, hnear, hfar, hca, hcb, and_self, if_true,
    hrun₁, hparent]

/-- Case 3, only the near nephew is red: it comes up over the sibling, which is red
then. -/
theorem removeFixupRound_nearRed {a₁ a₂ : CTree ℕ} {q : ℕ}
    (h : Focus s (⟨d, c, p, bin d .black (bin d .red a₁ q a₂) w b⟩ :: k) x)
    (hb : b.color = .black) :
    ∃ s', s.removeFixupRound d (rootPtr x) p = some (s', rootPtr x, p) ∧
      Focus s' (⟨d, c, p, bin d .black a₁ q (bin d .red a₂ w b)⟩ :: k) x ∧ SameData s s' := by
  obtain ⟨hp, hw, hchild, hcolor, hnear, hfar, hca, hcb⟩ := removeFixupRound_reads h
  obtain ⟨s₁, hrun₁, hfocus₁, hdata₁⟩ := h.across.down.setColor .black
  obtain ⟨s₂, hrun₂, hfocus₂, hdata₂⟩ := hfocus₁.up.setColor .red
  obtain ⟨s₃, hrun₃, hfocus₃, hdata₃⟩ := hfocus₂.rotate_other
  have hback := hfocus₃.across
  simp only [Side.other_other] at hback
  refine ⟨s₃, ?_, hback, hdata₁.trans (hdata₂.trans hdata₃)⟩
  rw [rootPtr_bin] at hca hnear
  rw [color_bin] at hca
  rw [hb] at hcb
  have hnotred : ¬ rbBlack = rbRed := by decide
  have hnotblack : ¬ rbRed = rbBlack := by decide
  simp only [colorBit] at hrun₁ hrun₂ hca hcb
  simp only [removeFixupRound, load_of_ne hp, load_of_ne hw, bind_eq_bind,
    bind_some, hchild, hcolor, hnotred, if_false, hnear, hfar, hca, hcb, hnotblack,
    false_and, and_self, if_true, hrun₁, hrun₂, hrun₃]

/-- Case 4, a red far nephew: the sibling comes up with the parent's colour, over
two black nodes, and the loop is left through the root. -/
theorem removeFixupRound_farRed {b₁ b₂ : CTree ℕ} {q : ℕ}
    (h : Focus s (⟨d, c, p, bin d .black a w (bin d .red b₁ q b₂)⟩ :: k) x) :
    ∃ s', s.removeFixupRound d (rootPtr x) p = some (s', s'.root, p) ∧
      Focus s' k (bin d c (bin d .black x p a) w (bin d .black b₁ q b₂)) ∧ SameData s s' := by
  obtain ⟨hp, hw, hchild, hcolor, hnear, hfar, hca, hcb⟩ := removeFixupRound_reads h
  have hpc : (s.mem p).rbColor = colorBit c := h.up.cell.2.2.2
  obtain ⟨s₁, hrun₁, hfocus₁, hdata₁⟩ := h.across.setColor c
  have hback₁ := hfocus₁.across.up
  simp only [Side.other_other] at hback₁
  obtain ⟨s₂, hrun₂, hfocus₂, hdata₂⟩ := hback₁.setColor .black
  have hfar₂ : (s₂.mem w).child d.other = q := by
    rw [hfocus₂.down.across.cell.2.1, rootPtr_bin]
  obtain ⟨s₃, hrun₃, hfocus₃, hdata₃⟩ := hfocus₂.down.across.down.across.setColor .black
  have hback₃ := hfocus₃.across.up.across.up
  simp only [Side.other_other] at hback₃
  obtain ⟨s₄, hrun₄, hfocus₄, hdata₄⟩ := hback₃.rotate
  refine ⟨s₄, ?_, hfocus₄, hdata₁.trans (hdata₂.trans (hdata₃.trans hdata₄))⟩
  rw [rootPtr_bin, color_bin] at hcb
  rw [rootPtr_bin] at hfar
  have hnotred : ¬ rbBlack = rbRed := by decide
  have hnotblack : ¬ rbRed = rbBlack := by decide
  have hrun₂' : s₁.rbSetColor p rbBlack = some s₂ := hrun₂
  have hrun₃' : s₂.rbSetColor q rbBlack = some s₃ := hrun₃
  have hcb' : s.rbColorSafe q = some rbRed := hcb
  simp only [removeFixupRound, load_of_ne hp, load_of_ne hw, bind_eq_bind,
    bind_some, hchild, hcolor, hnotred, if_false, hnear, hfar, hca, hcb', hnotblack,
    and_false, hpc, hrun₁, hrun₂', hfar₂, hrun₃', hrun₄]

end Round

/-! ### The fixup -/

variable {c : Color} {k : List (Frame ℕ)} {l r : CTree ℕ} {s : RbTree}

/-- As long as `x` is black and not the root, there is a round. -/
theorem rbRemoveFixup_round {s s' : RbTree} {f : Frame ℕ} {x : CTree ℕ}
    {x' xParent' : ℕ} (fuel : ℕ) (h : Focus s (f :: k) x) (hblack : x.color = .black)
    (hsib : rootPtr f.sib ≠ 0)
    (hrun : s.removeFixupRound f.side (rootPtr x) f.elem = some (s', x', xParent')) :
    rbRemoveFixup (fuel + 1) s (rootPtr x) f.elem = rbRemoveFixup fuel s' x' xParent' := by
  have hcolor := h.colorSafe
  rw [hblack] at hcolor
  have hcolor' : s.rbColorSafe (rootPtr x) = some rbBlack := hcolor
  simp only [rbRemoveFixup, hcolor', bind_eq_bind, bind_some, ne_eq,
    h.rootPtr_ne_root, not_false_eq_true, and_self, if_true, load_of_ne h.frame_valid.1,
    h.side_eq (Or.inr hsib), hrun]

theorem rbRemoveFixup_root {T : CTree ℕ} (fuel xParent : ℕ) (h : Represents s T)
    (hrb : (T.paint .black).IsRedBlack) :
    Repaired s (rbRemoveFixup (fuel + 1) s s.root xParent) T.toList := by
  have hcolor := (represents_plug (k := [])).mp h |>.colorSafe
  rw [← h.root] at hcolor
  have hstop : rbRemoveFixup (fuel + 1) s s.root xParent =
      if s.root ≠ 0 then s.rbSetColor s.root rbBlack else some s := by
    simp only [rbRemoveFixup, hcolor, bind_eq_bind, bind_some, ne_eq,
      not_true_eq_false, false_and, if_false]
  rw [hstop]
  by_cases hroot : s.root = 0
  · rw [if_neg (not_not_intro hroot)]
    cases T with
    | nil => exact ⟨s, .nil, rfl, h, hrb, rfl, SameData.refl s⟩
    | node c l p r =>
      have hp := h.valid p (by simp [CTree.toList])
      exact absurd (h.root.symm.trans hroot) hp.1
  · rw [if_pos hroot]
    exact paintRoot_repaired h hroot hrb

/-- The loop ends at a red node, which takes the missing black. -/
theorem rbRemoveFixup_red {d : Side} {p : ℕ} (fuel xParent : ℕ) (h : Focus s k (bin d .red l p r))
    (hrb : (plug k (bin d .black l p r)).IsRedBlack) :
    Repaired s (rbRemoveFixup (fuel + 1) s p xParent) (plug k (bin d .red l p r)).toList := by
  have hcolor := h.colorSafe
  rw [rootPtr_bin, color_bin] at hcolor
  have hcolor' : s.rbColorSafe p = some rbRed := hcolor
  have hnotblack : ¬ rbRed = rbBlack := by decide
  have hp : p ≠ 0 := h.mem_valid.1
  obtain ⟨s', hrun, hfocus, hdata⟩ := h.setColor .black
  refine ⟨s', _, ?_, hfocus.represents, hrb,
    toList_plug_congr k (toList_bin_congr d _ _ rfl rfl), hdata⟩
  have hrun' : s.rbSetColor p rbBlack = some s' := hrun
  simp only [rbRemoveFixup, hcolor', bind_eq_bind, bind_some, hnotblack, and_false,
    if_false, ne_eq, hp, not_false_eq_true, if_true, hrun']

section Cases

variable {s : RbTree} {k : List (Frame ℕ)} {d : Side} {c : Color} {x a b : CTree ℕ} {p w n : ℕ}

theorem fixup_farRed (fuel : ℕ) (h : Focus s (⟨d, c, p, bin d .black a w b⟩ :: k) x)
    (hblack : x.color = .black) (hx : x.Balanced n)
    (hfits : Fits (⟨d, c, p, bin d .black a w b⟩ :: k) (n + 1)) (hb : b.color = .red) :
    Repaired s (rbRemoveFixup (fuel + 2) s (rootPtr x) p)
      (plug (⟨d, c, p, bin d .black a w b⟩ :: k) x).toList := by
  obtain ⟨b₁, q, b₂, rfl⟩ := exists_of_color_red hb d
  obtain ⟨s', hrun, hfocus, hdata⟩ := removeFixupRound_farRed h
  have hw : rootPtr (bin d .black a w (bin d .red b₁ q b₂)) ≠ 0 := by
    rw [rootPtr_bin]
    exact h.across.mem_valid.1
  obtain ⟨hsib, hfits'⟩ := hfits
  obtain ⟨ha, hb'⟩ := (balanced_black_succ d).mp hsib
  have hpaint := hb'.paint_black hb
  rw [paint_bin] at hpaint
  have hnear : (bin d .black x p a).Balanced (n + 1) := (balanced_black_succ d).mpr ⟨hx, ha⟩
  have hrb : (plug k (bin d c (bin d .black x p a) w (bin d .black b₁ q b₂))).IsRedBlack := by
    cases c with
    | red =>
      obtain ⟨-, houter, hk⟩ := hfits'
      refine isRedBlack_plug.mpr ⟨n + 1, (balanced_red d).mpr ⟨hnear, hpaint, ?_, ?_⟩, hk, ?_⟩
      · exact color_bin _ _ _ _ _
      · exact color_bin _ _ _ _ _
      · intro hred
        rw [houter] at hred
        cases hred
    | black =>
      exact isRedBlack_plug.mpr
        ⟨n + 2, (balanced_black_succ d).mpr ⟨hnear, hpaint⟩, hfits', fun _ => color_bin _ _ _ _ _⟩
  have hlist : (bin d c (bin d .black x p a) w (bin d .black b₁ q b₂)).toList =
      (bin d c x p (bin d .black a w (bin d .red b₁ q b₂))).toList :=
    (toList_bin_congr d _ _ rfl (toList_bin_congr d _ _ rfl rfl)).trans
      (toList_rotate d c .black .black c x p a w (bin d .red b₁ q b₂))
  rw [rbRemoveFixup_round (fuel + 1) h hblack hw hrun]
  have hend := rbRemoveFixup_root fuel p hfocus.represents (by rw [paint_of_color hrb.1]; exact hrb)
  rw [toList_plug_congr k hlist] at hend
  exact hend.of_step hdata

theorem fixup_redNephew (fuel : ℕ) (h : Focus s (⟨d, c, p, bin d .black a w b⟩ :: k) x)
    (hblack : x.color = .black) (hx : x.Balanced n)
    (hfits : Fits (⟨d, c, p, bin d .black a w b⟩ :: k) (n + 1))
    (hred : a.color = .red ∨ b.color = .red) :
    Repaired s (rbRemoveFixup (fuel + 3) s (rootPtr x) p)
      (plug (⟨d, c, p, bin d .black a w b⟩ :: k) x).toList := by
  cases hb : b.color with
  | red => exact fixup_farRed (fuel + 1) h hblack hx hfits hb
  | black =>
    have ha : a.color = .red := by
      rcases hred with ha | hb'
      · exact ha
      · rw [hb] at hb'
        cases hb'
    obtain ⟨a₁, q, a₂, rfl⟩ := exists_of_color_red ha d
    obtain ⟨s', hrun, hfocus, hdata⟩ := removeFixupRound_nearRed h hb
    have hw : rootPtr (bin d .black (bin d .red a₁ q a₂) w b) ≠ 0 := by
      rw [rootPtr_bin]
      exact h.across.mem_valid.1
    have hfits' : Fits (⟨d, c, p, bin d .black a₁ q (bin d .red a₂ w b)⟩ :: k) (n + 1) := by
      obtain ⟨hsib, hrest⟩ := hfits
      obtain ⟨ha', hb'⟩ := (balanced_black_succ d).mp hsib
      obtain ⟨ha₁, ha₂, -, hac⟩ := (balanced_red d).mp ha'
      refine ⟨(balanced_black_succ d).mpr ⟨ha₁, (balanced_red d).mpr ⟨ha₂, hb', hac, hb⟩⟩, ?_⟩
      cases c with
      | red => exact ⟨color_bin _ _ _ _ _, hrest.2⟩
      | black => exact hrest
    have hlist : (bin d c x p (bin d .black a₁ q (bin d .red a₂ w b))).toList =
        (bin d c x p (bin d .black (bin d .red a₁ q a₂) w b)).toList :=
      toList_bin_congr d _ _ rfl (toList_rotate d _ _ _ _ _ _ _ _ _).symm
    rw [rbRemoveFixup_round (fuel + 2) h hblack hw hrun]
    have hend := fixup_farRed fuel hfocus hblack hx hfits' (color_bin _ _ _ _ _)
    rw [plug, toList_plug_congr k hlist] at hend
    exact hend.of_step hdata

/-- Two black nephews below a red parent: the parent takes the missing black. -/
theorem fixup_redParent (fuel : ℕ) (h : Focus s (⟨d, .red, p, bin d .black a w b⟩ :: k) x)
    (hblack : x.color = .black) (hx : x.Balanced n)
    (hfits : Fits (⟨d, .red, p, bin d .black a w b⟩ :: k) (n + 1)) (ha : a.color = .black)
    (hb : b.color = .black) :
    Repaired s (rbRemoveFixup (fuel + 2) s (rootPtr x) p)
      (plug (⟨d, .red, p, bin d .black a w b⟩ :: k) x).toList := by
  obtain ⟨s', hrun, hfocus, hdata⟩ := removeFixupRound_blackNephews h ha hb
  have hw : rootPtr (bin d .black a w b) ≠ 0 := by
    rw [rootPtr_bin]
    exact h.across.mem_valid.1
  obtain ⟨hsib, -, houter, hk⟩ := hfits
  obtain ⟨ha', hb'⟩ := (balanced_black_succ d).mp hsib
  have hrb : (plug k (bin d .black x p (bin d .red a w b))).IsRedBlack := by
    refine isRedBlack_plug.mpr ⟨n + 1, (balanced_black_succ d).mpr ⟨hx, ?_⟩, hk, ?_⟩
    · exact (balanced_red d).mpr ⟨ha', hb', ha, hb⟩
    · exact fun _ => color_bin _ _ _ _ _
  have hlist : (bin d .red x p (bin d .red a w b)).toList =
      (bin d .red x p (bin d .black a w b)).toList :=
    toList_bin_congr d _ _ rfl (toList_bin_congr d _ _ rfl rfl)
  rw [rbRemoveFixup_round (fuel + 1) h hblack hw hrun]
  have hend := rbRemoveFixup_red fuel (pathPtr k) hfocus hrb
  rw [toList_plug_congr k hlist] at hend
  exact hend.of_step hdata

/-- A black sibling below a red parent: at most two more rounds. -/
theorem fixup_underRed (fuel : ℕ) (h : Focus s (⟨d, .red, p, bin d .black a w b⟩ :: k) x)
    (hblack : x.color = .black) (hx : x.Balanced n)
    (hfits : Fits (⟨d, .red, p, bin d .black a w b⟩ :: k) (n + 1)) :
    Repaired s (rbRemoveFixup (fuel + 3) s (rootPtr x) p)
      (plug (⟨d, .red, p, bin d .black a w b⟩ :: k) x).toList := by
  cases ha : a.color with
  | red => exact fixup_redNephew fuel h hblack hx hfits (Or.inl ha)
  | black =>
    cases hb : b.color with
    | red => exact fixup_redNephew fuel h hblack hx hfits (Or.inr hb)
    | black => exact fixup_redParent (fuel + 1) h hblack hx hfits ha hb

end Cases

/-- **The removal fixup.**  `x` is balanced, one black node short of what its path
wants. The induction is on the length of the path: only a black parent with two
black nephews passes the defect on. -/
theorem rbRemoveFixup_spec :
    ∀ {fuel : ℕ} {s : RbTree} {x : CTree ℕ} {n : ℕ}, k.length + 4 ≤ fuel → Focus s k x →
      x.Balanced n → Fits k (n + 1) →
      Repaired s (rbRemoveFixup fuel s (rootPtr x) (pathPtr k)) (plug k x).toList := by
  induction k with
  | nil =>
    intro fuel s x n hfuel h hx _
    obtain ⟨m, rfl⟩ := Nat.exists_eq_add_of_le' (show 1 ≤ fuel by omega)
    have hroot : s.root = rootPtr x := h.path
    rw [← hroot]
    refine rbRemoveFixup_root m _ h.represents ?_
    cases hc : x.color with
    | red =>
      obtain ⟨l, p, r, rfl⟩ := exists_of_color_red hc .left
      exact ⟨rfl, n + 1, hx.paint_black hc⟩
    | black =>
      rw [plug, paint_of_color hc]
      exact ⟨hc, n, hx⟩
  | cons f k ih =>
    intro fuel s x n hfuel h hx hfits
    obtain ⟨d, c, p, sib⟩ := f
    obtain ⟨m, rfl⟩ := Nat.exists_eq_add_of_le' (show 4 ≤ fuel by omega)
    cases hc : x.color with
    | red =>
      obtain ⟨l, q, r, rfl⟩ := exists_of_color_red hc .left
      have hpaint := hx.paint_black hc
      rw [paint_bin] at hpaint
      rw [rootPtr_bin]
      refine rbRemoveFixup_red (m + 3) p h ?_
      exact isRedBlack_plug.mpr ⟨n + 1, hpaint, hfits, fun _ => color_bin _ _ _ _ _⟩
    | black =>
      cases hs : sib.color with
      | red =>
        obtain ⟨a, w, b, rfl⟩ := exists_of_color_red hs d
        obtain ⟨s', hrun, hfocus, hdata⟩ := removeFixupRound_redSibling h
        have hw : rootPtr (bin d .red a w b) ≠ 0 := by
          rw [rootPtr_bin]
          exact h.across.mem_valid.1
        obtain ⟨hsib, hrest⟩ := hfits
        obtain ⟨ha, hb, hac, hbc⟩ := (balanced_red d).mp hsib
        cases c with
        | red =>
          rw [hs] at hrest
          cases hrest.1
        | black =>
          obtain ⟨a₁, q, a₂, rfl, -, -⟩ := ha.exists_black hac d
          have hfits' : Fits (⟨d, .red, p, bin d .black a₁ q a₂⟩ ::
              ⟨d, .black, w, b⟩ :: k) (n + 1) := ⟨ha, hac, rfl, hb, hrest⟩
          have hend := fixup_underRed m hfocus hc hx hfits'
          have hlist : (bin d .black (bin d .red x p (bin d .black a₁ q a₂)) w b).toList =
              (bin d .black x p (bin d .red (bin d .black a₁ q a₂) w b)).toList :=
            toList_rotate d _ _ _ _ _ _ _ _ _
          rw [plug, plug, toList_plug_congr k hlist] at hend
          rw [pathPtr, rbRemoveFixup_round (m + 3) h hc hw hrun]
          exact hend.of_step hdata
      | black =>
        obtain ⟨a, w, b, rfl, ha, hb⟩ := hfits.1.exists_black hs d
        cases hac : a.color with
        | red => exact fixup_redNephew (m + 1) h hc hx hfits (Or.inl hac)
        | black =>
          cases hbc : b.color with
          | red => exact fixup_redNephew (m + 1) h hc hx hfits (Or.inr hbc)
          | black =>
            cases c with
            | red => exact fixup_redParent (m + 2) h hc hx hfits hac hbc
            | black =>
              -- the defect moves up
              obtain ⟨s', hrun, hfocus, hdata⟩ := removeFixupRound_blackNephews h hac hbc
              have hw : rootPtr (bin d .black a w b) ≠ 0 := by
                rw [rootPtr_bin]
                exact h.across.mem_valid.1
              have hbal : (bin d .black x p (bin d .red a w b)).Balanced (n + 1) :=
                (balanced_black_succ d).mpr ⟨hx, (balanced_red d).mpr ⟨ha, hb, hac, hbc⟩⟩
              have hlen : k.length + 4 ≤ m + 3 := by
                simp only [length_cons] at hfuel
                omega
              have hend := ih hlen hfocus hbal hfits.2
              have hlist : (bin d .black x p (bin d .red a w b)).toList =
                  (bin d .black x p (bin d .black a w b)).toList :=
                toList_bin_congr d _ _ rfl (toList_bin_congr d _ _ rfl rfl)
              rw [rootPtr_bin, toList_plug_congr k hlist] at hend
              rw [pathPtr, rbRemoveFixup_round (m + 3) h hc hw hrun]
              exact hend.of_step hdata

/-! ### Unlinking -/

/-- What `rb_transplant` writes: the place of `u` under the path is taken by `v`,
which may be null. -/
theorem rbTransplant_eq {u v : ℕ} (hu : u ≠ 0)
    (huk : u ∉ pathElems k) (hpath : PathLinks s.mem s.root k u)
    (hparent : (s.mem u).rbParent = pathPtr k) (hv : v ≠ 0 → v ≠ u ∧ v ∉ pathElems k) :
    ∃ s', s.rbTransplant u v = some s' ∧ (s'.root = if pathPtr k = 0 then v else s.root) ∧
      (pathPtr k ≠ 0 → s'.mem (pathPtr k) = (s.mem (pathPtr k)).withChild (pathSide k) v) ∧
      (v ≠ 0 → s'.mem v = (s.mem v).withParent (pathPtr k)) ∧
      (∀ q, (v ≠ 0 → q ≠ v) → (pathPtr k ≠ 0 → q ≠ pathPtr k) → s'.mem q = s.mem q) ∧
      SameData s s' := by
  have hP : ∀ {q}, q ≠ 0 → q ∉ pathElems k → pathPtr k ≠ q := by
    rintro q hq hnot rfl
    exact hnot (pathPtr_mem hq)
  obtain ⟨s₁, hrun₁, hroot₁, hP₁, hsame₁, hdata₁⟩ : ∃ s₁, s.replaceUnder (pathPtr k) u v = some s₁ ∧
      (s₁.root = if pathPtr k = 0 then v else s.root) ∧
      (pathPtr k ≠ 0 → s₁.mem (pathPtr k) = (s.mem (pathPtr k)).withChild (pathSide k) v) ∧
      (∀ q, (pathPtr k ≠ 0 → q ≠ pathPtr k) → s₁.mem q = s.mem q) ∧ SameData s s₁ := by
    by_cases hk : pathPtr k = 0
    · exact ⟨{ s with root := v }, by simp [replaceUnder, hk], by simp [hk],
        fun h => absurd hk h, fun _ _ => rfl, fun _ => rfl⟩
    · refine ⟨s.upd (pathPtr k) (.withChild (pathSide k) v), ?_, ?_, fun _ => upd_mem_self _ _ _,
        fun q hq => upd_mem_of_ne _ _ (hq hk), SameData.upd _ _ fun n => n.data_withChild _ _⟩
      · rw [replaceUnder, if_neg hk]
        exact replaceChild_eq hpath hu huk hk
      · rw [if_neg hk]
        rfl
  have hu₁ : s₁.mem u = s.mem u := hsame₁ u fun _ => (hP hu huk).symm
  obtain ⟨s₂, hrun₂, hroot₂, hv₂, hsame₂, hdata₂⟩ := s₁.setParentOf_eq v (pathPtr k)
  refine ⟨s₂, ?_, by rw [hroot₂, hroot₁], ?_, ?_, ?_, hdata₁.trans hdata₂⟩
  · simp only [rbTransplant, load_of_ne hu, bind_eq_bind, bind_some, hparent, hrun₁, hu₁, hrun₂]
  · intro hk
    rw [hsame₂ _ fun h => hP h (hv h).2, hP₁ hk]
  · intro h
    rw [hv₂ h, hsame₁ v fun _ => (hP h (hv h).2).symm]
  · intro q hqv hqP
    rw [hsame₂ q hqv, hsame₁ q hqP]

/-- **Transplanting** the only child of a node into its place. -/
theorem Focus.transplant {d : Side} {u : ℕ} (h : Focus s k (bin d c .nil u r)) :
    ∃ s', s.rbTransplant u (rootPtr r) = some s' ∧ Focus s' k r ∧ SameData s s' := by
  have hnodup : (u :: (r.toList ++ pathElems k)).Nodup := h.nodup_bin
  obtain ⟨hu, hrest⟩ := nodup_cons.mp hnodup
  obtain ⟨hrn, hkn, hdisj⟩ := nodup_append.mp hrest
  simp only [mem_append, not_or] at hu
  have hvalid : ∀ q ∈ r.toList ++ pathElems k, NodePtr q := fun q hq =>
    h.valid q ((bin_append_perm d c .nil u r _).mem_iff.mpr (mem_cons_of_mem _ hq))
  have hpath := h.path
  rw [rootPtr_bin] at hpath
  have hlinks := (links_bin d).mp h.links
  have hne : ∀ q ∈ pathElems k, rootPtr r ≠ 0 → q ≠ rootPtr r :=
    fun q hq hr e => hdisj _ (rootPtr_mem hr) q hq e.symm
  obtain ⟨s', hrun, hroot, hP, hv, hsame, hdata⟩ := rbTransplant_eq h.mem_valid.1 hu.2 hpath
    h.cell.2.2.1 fun hr => ⟨fun e => hu.1 (e ▸ rootPtr_mem hr), fun hmem => hne _ hmem hr rfl⟩
  refine ⟨s', hrun, ⟨?_, ?_, hrest, hvalid⟩, hdata⟩
  · refine hpath.relink hkn (fun q hq => hvalid q (mem_append_right _ hq)) hroot hP ?_
    exact fun q hq hqP => hsame q (hne q hq) fun _ => hqP
  · refine hlinks.2.2.2.2.2.reparent hrn (fun q hq => hvalid q (mem_append_left _ hq))
      h.path_dvd hv fun q hq hqr => ?_
    exact hsame q (fun _ => hqr) fun hk => hdisj q hq _ (pathPtr_mem hk)

/-- **Putting `y` in the place of `z`**, when the right subtree already hangs below
`y`: the tree keeps its shape and colours. -/
theorem replaceBy_spec {z y : ℕ}
    (hpath : PathLinks s.mem s.root k z) (hleft : (s.mem z).left = rootPtr l)
    (hparent : (s.mem z).rbParent = pathPtr k) (hcolor : (s.mem z).rbColor = colorBit c)
    (hl : Links s.mem z l) (hright : (s.mem y).right = rootPtr r) (hr : Links s.mem y r)
    (hnodup : (z :: y :: (l.toList ++ (r.toList ++ pathElems k))).Nodup)
    (hvalid : ∀ q ∈ z :: y :: (l.toList ++ (r.toList ++ pathElems k)), NodePtr q) :
    ∃ s', s.replaceBy z y = some s' ∧ Focus s' k (bin .left c l y r) ∧ SameData s s' := by
  obtain ⟨hz, hrest⟩ := nodup_cons.mp hnodup
  obtain ⟨hy, hrest'⟩ := nodup_cons.mp hrest
  simp only [mem_cons, mem_append, not_or] at hz hy
  obtain ⟨hzy, hzl, hzr, hzk⟩ := hz
  obtain ⟨hyl, hyr, hyk⟩ := hy
  obtain ⟨hln, hrest'', hdl⟩ := nodup_append.mp hrest'
  obtain ⟨hrn, hkn, hdr⟩ := nodup_append.mp hrest''
  have hzp : NodePtr z := hvalid z (by simp)
  have hyp : NodePtr y := hvalid y (by simp)
  have hPdvd : 8 ∣ pathPtr k := by
    by_cases hk : pathPtr k = 0
    · rw [hk]
      exact dvd_zero 8
    · exact (hvalid _ (by simp [pathPtr_mem hk])).2
  have hkeep : ∀ q ∉ pathElems k, pathPtr k ≠ 0 → q ≠ pathPtr k :=
    fun q hq hk e => hq (e ▸ pathPtr_mem hk)
  -- `rb_transplant(root, z, y)`
  obtain ⟨s₁, hrun₁, hroot₁, hP₁, hy₁, hsame₁, hdata₁⟩ :=
    rbTransplant_eq hzp.1 hzk hpath hparent fun _ => ⟨Ne.symm hzy, hyk⟩
  have hz₁ : s₁.mem z = s.mem z := hsame₁ z (fun _ => hzy) (hkeep z hzk)
  -- `y->left = z->left`, and the parent of that subtree
  let s₂ := s₁.upd y (.withChild .left (rootPtr l))
  have hy₂ : s₂.mem y = ((s.mem y).withParent (pathPtr k)).withChild .left (rootPtr l) := by
    simp only [s₂, upd_mem_self, hy₁ hyp.1]
  have hsame₂ : ∀ q, q ≠ y → s₂.mem q = s₁.mem q := fun q hq => upd_mem_of_ne _ _ hq
  obtain ⟨s₃, hrun₃, hroot₃, hl₃, hsame₃, hdata₃⟩ := s₂.setParentOf_eq (rootPtr l) y
  have hly : rootPtr l ≠ 0 → y ≠ rootPtr l := fun h e => hyl (e ▸ rootPtr_mem h)
  have hlz : rootPtr l ≠ 0 → z ≠ rootPtr l := fun h e => hzl (e ▸ rootPtr_mem h)
  have hz₃ : s₃.mem z = s.mem z := by rw [hsame₃ z hlz, hsame₂ z hzy, hz₁]
  -- what the whole sequence leaves in each node
  let s₄ := s₃.upd y (.withColor (colorBit c))
  have hy₄ : s₄.mem y = (((s.mem y).withParent (pathPtr k)).withChild .left
      (rootPtr l)).withColor (colorBit c) := by
    simp only [s₄, upd_mem_self, hsame₃ y hly, hy₂]
  have hframe : ∀ q, q ≠ y → (rootPtr l ≠ 0 → q ≠ rootPtr l) →
      (pathPtr k ≠ 0 → q ≠ pathPtr k) → s₄.mem q = s.mem q := by
    intro q hqy hql hqP
    simp only [s₄, upd_mem_of_ne _ _ hqy, hsame₃ q hql, hsame₂ q hqy, hsame₁ q (fun _ => hqy) hqP]
  refine ⟨s₄, ?_, ⟨?_, ?_, ?_, ?_⟩, ?_⟩
  · have hread : (s₂.mem y).left = rootPtr l := by
      rw [hy₂]
      rfl
    simp only [replaceBy, hrun₁, bind_eq_bind, bind_some, load_of_ne hzp.1, hz₁,
      hleft, setChild, store_of_ne hyp.1, load_of_ne hyp.1]
    show (s₂.setParentOf (s₂.mem y).left y).bind (fun s => s.rbSetColor y (s.mem z).rbColor) =
      some s₄
    rw [hread, hrun₃, bind_some, hz₃, hcolor]
    exact store_of_ne hyp.1
  · rw [rootPtr_bin]
    refine hpath.relink hkn (fun q hq => hvalid q (by simp [hq])) ?_ ?_ fun q hq hqP => ?_
    · show s₃.root = _
      rw [hroot₃]
      exact hroot₁
    · intro hk
      have hmem := pathPtr_mem hk
      have hPy : pathPtr k ≠ y := fun e => hyk (e ▸ hmem)
      have hPl : rootPtr l ≠ 0 → pathPtr k ≠ rootPtr l :=
        fun h e => hdl _ (rootPtr_mem h) _ (mem_append_right _ hmem) e.symm
      simp only [s₄, upd_mem_of_ne _ _ hPy, hsame₃ _ hPl, hsame₂ _ hPy, hP₁ hk]
    · refine hframe q (fun e => hyk (e ▸ hq)) (fun h e => ?_) fun _ => hqP
      exact hdl _ (rootPtr_mem h) q (mem_append_right _ hq) e.symm
  · refine (links_bin .left).mpr ⟨?_, ?_, ?_, ?_, ?_, ?_⟩
    · rw [hy₄, SchedNode.child_withColor, SchedNode.child_withChild]
    · rw [hy₄, SchedNode.child_withColor, SchedNode.child_withChild_other,
        SchedNode.child_withParent]
      exact hright
    · rw [hy₄, SchedNode.rbParent_withColor, SchedNode.rbParent_withChild,
        SchedNode.rbParent_withParent _ hPdvd]
    · rw [hy₄, SchedNode.rbColor_withColor]
    · refine hl.reparent hln (fun q hq => hvalid q (by simp [hq])) hyp.2 (fun h => ?_)
        fun q hq hql => ?_
      · have hmem := rootPtr_mem h
        simp only [s₄, upd_mem_of_ne _ _ (hly h).symm, hl₃ h, hsame₂ _ (hly h).symm]
        rw [hsame₁ _ (fun _ => (hly h).symm) fun hk =>
          hdl _ hmem _ (mem_append_right _ (pathPtr_mem hk))]
      · exact hframe q (fun e => hyl (e ▸ hq)) (fun _ => hql) fun hk =>
          hdl q hq _ (mem_append_right _ (pathPtr_mem hk))
    · refine hr.congr fun q hq => hframe q (fun e => hyr (e ▸ hq)) (fun h e => ?_) fun hk => ?_
      · exact hdl _ (rootPtr_mem h) q (mem_append_left _ hq) e.symm
      · exact hdr q hq _ (pathPtr_mem hk)
  · exact (bin_append_perm .left c l y r _).nodup_iff.mpr hrest
  · intro q hq
    have := (bin_append_perm .left c l y r _).mem_iff.mp hq
    exact hvalid q (mem_cons_of_mem _ this)
  · have hdata₂ : SameData s₁ s₂ := SameData.upd _ _ fun n => n.data_withChild _ _
    have hdata₄ : SameData s₃ s₄ := SameData.upd _ _ fun n => n.data_withColor _
    exact hdata₁.trans (hdata₂.trans (hdata₃.trans hdata₄))

/-! ### The successor -/

theorem pathBefore_of_left (h : ∀ f ∈ k, f.side = .left) : pathBefore k = [] := by
  induction k with
  | nil => rfl
  | cons f k ih =>
    rw [pathBefore, h f mem_cons_self]
    exact ih fun g hg => h g (mem_cons_of_mem _ hg)

theorem Focus.eq_nil {t : CTree ℕ} (h : Focus s k t) (ht : rootPtr t = 0) : t = .nil := by
  cases t with
  | nil => rfl
  | node c l p r => exact absurd ht (Focus.mem_valid (d := .left) h).1

/-- The leftmost node is reached through left children only and has none itself. -/
theorem leftmostLoop_spec {t : CTree ℕ} :
    ∀ {fuel : ℕ} {k : List (Frame ℕ)}, rootPtr t ≠ 0 → t.toList.length ≤ fuel → Focus s k t →
      ∃ k' c y r, t = plug k' (bin .left c .nil y r) ∧ (∀ f ∈ k', f.side = .left) ∧
        s.leftmostLoop fuel (rootPtr t) = some y := by
  induction t with
  | nil => intro fuel k hne; exact absurd rfl hne
  | node c l p r ihl _ =>
    intro fuel k hne hfuel h
    simp only [CTree.toList, length_append, length_cons] at hfuel
    obtain ⟨m, rfl⟩ := Nat.exists_eq_add_of_le' (show 1 ≤ fuel by omega)
    have hleft : (s.mem p).left = rootPtr l := (Focus.cell (d := .left) h).1
    have hp : p ≠ 0 := hne
    by_cases hl : rootPtr l = 0
    · refine ⟨[], c, p, r, ?_, by simp, ?_⟩
      · rw [(Focus.down (d := .left) h).eq_nil hl]
        rfl
      · show s.leftmostLoop (m + 1) p = some p
        simp only [leftmostLoop, load_of_ne hp, bind_eq_bind, bind_some, hleft, hl,
          ne_eq, not_true_eq_false, if_false]
    · have hlen : l.toList.length ≤ m := by omega
      obtain ⟨k', c', y, r', rfl, hside, hrun⟩ := ihl hl hlen (Focus.down (d := .left) h)
      refine ⟨k' ++ [⟨.left, c, p, r⟩], c', y, r', ?_, ?_, ?_⟩
      · rw [plug_append]
        rfl
      · intro f hf
        rcases mem_append.mp hf with hf | hf
        · exact hside f hf
        · obtain rfl := mem_singleton.mp hf
          rfl
      · show s.leftmostLoop (m + 1) p = some y
        simp only [leftmostLoop, load_of_ne hp, bind_eq_bind, bind_some, hleft, hl,
          ne_eq, not_false_eq_true, if_true]
        exact hrun

section Splice

variable {s : RbTree} {k : List (Frame ℕ)} {c cy : Color} {l yr : CTree ℕ} {z y : ℕ}

theorem splice_adjacent (h : Focus s k (bin .left c l z (bin .left cy .nil y yr))) :
    ∃ s', s.detachSuccessor z y = some (s, y) ∧ s.replaceBy z y = some s' ∧
      Focus s' (⟨.right, c, y, l⟩ :: k) yr ∧ SameData s s' := by
  obtain ⟨hleft, hright, hparent, hcolor, hl, hr⟩ := (links_bin .left).mp h.links
  obtain ⟨-, hyr, hyz, -, -, hlyr⟩ := (links_bin .left).mp hr
  have hyp : y ≠ 0 := (Focus.down (d := .right) h).mem_valid.1
  have hperm : ((bin .left c l z (bin .left cy .nil y yr)).toList ++ pathElems k).Perm
      (z :: y :: (l.toList ++ (yr.toList ++ pathElems k))) := by
    refine (bin_append_perm _ _ _ _ _ _).trans (List.Perm.cons _ ?_)
    exact ((bin_append_perm .left cy .nil y yr (pathElems k)).append_left _).trans perm_middle
  have hpath := h.path
  rw [rootPtr_bin] at hpath
  obtain ⟨s', hrun, hfocus, hdata⟩ := replaceBy_spec hpath hleft hparent hcolor hl hyr hlyr
    (hperm.nodup_iff.mp h.nodup) fun q hq => h.valid q (hperm.mem_iff.mpr hq)
  refine ⟨s', ?_, hrun, Focus.down (d := .right) hfocus, hdata⟩
  simp only [detachSuccessor, load_of_ne hyp, bind_eq_bind, bind_some, hyz, if_true]

/-- The successor is deeper: it is first taken out of the right subtree. -/
theorem splice_deep {f : Frame ℕ} {k' : List (Frame ℕ)}
    (h : Focus s (f :: k' ++ ⟨.right, c, z, l⟩ :: k) (bin .left cy .nil y yr)) :
    ∃ s₁ s', s.detachSuccessor z y = some (s₁, f.elem) ∧ s₁.replaceBy z y = some s' ∧
      Focus s' (f :: k' ++ ⟨.right, c, y, l⟩ :: k) yr ∧ SameData s s' := by
  obtain ⟨-, hyr, hyparent, -⟩ := h.cell
  have hyp : NodePtr y := h.mem_valid
  have hyfresh : y ∉ yr.toList ++ pathElems (f :: k' ++ ⟨.right, c, z, l⟩ :: k) :=
    (nodup_cons.mp h.nodup_bin).1
  obtain ⟨s₁, hrun₁, hfocus₁, hdata₁⟩ := h.transplant
  -- the tree without `y`, seen at `z`
  have hsplit : plug (f :: k' ++ ⟨.right, c, z, l⟩ :: k) yr =
      plug k (bin .left c l z (plug (f :: k') yr)) := by
    rw [plug_append]
    rfl
  have hz : Focus s₁ k (bin .left c l z (plug (f :: k') yr)) := by
    rw [← represents_plug, ← hsplit]
    exact hfocus₁.represents
  have hmem : ∀ q, q ∈ z :: (l.toList ++ ((plug (f :: k') yr).toList ++ pathElems k)) ↔
      q ∈ yr.toList ++ pathElems (f :: k' ++ ⟨.right, c, z, l⟩ :: k) := by
    intro q
    rw [← (toList_perm_plug _ yr).mem_iff, hsplit, (toList_perm_plug k _).mem_iff,
      (bin_append_perm _ _ _ _ _ _).mem_iff]
  have hyz : y ∉ z :: (l.toList ++ ((plug (f :: k') yr).toList ++ pathElems k)) :=
    fun hin => hyfresh ((hmem y).mp hin)
  obtain ⟨hzn, hrest⟩ := nodup_cons.mp hz.nodup_bin
  have hdisj := (nodup_append.mp (nodup_append.mp hrest).2.1).2.2
  have hdl := (nodup_append.mp hrest).2.2
  obtain ⟨hzl, hzright, hzparent, hzcolor, hlinksl, hlinksr⟩ := (links_bin .left).mp hz.links
  have hzp : NodePtr z := hz.mem_valid
  -- hang the right subtree below `y`
  let s₂ := s₁.upd y (.withChild .right (rootPtr (plug (f :: k') yr)))
  obtain ⟨s₃, hrun₃, hroot₃, hR₃, hsame₃, hdata₃⟩ :=
    s₂.setParentOf_eq (rootPtr (plug (f :: k') yr)) y
  have hRmem : rootPtr (plug (f :: k') yr) ≠ 0 →
      rootPtr (plug (f :: k') yr) ∈ (plug (f :: k') yr).toList := rootPtr_mem
  have hRy : rootPtr (plug (f :: k') yr) ≠ 0 → y ≠ rootPtr (plug (f :: k') yr) :=
    fun hR e => hyz (by simp [e, hRmem hR])
  have hkeep : ∀ q ∈ z :: (l.toList ++ ((plug (f :: k') yr).toList ++ pathElems k)),
      (rootPtr (plug (f :: k') yr) ≠ 0 → q ≠ rootPtr (plug (f :: k') yr)) →
        s₃.mem q = s₁.mem q := by
    intro q hq hqR
    rw [hsame₃ q hqR]
    refine upd_mem_of_ne _ _ ?_
    rintro rfl
    exact hyz hq
  have hz₃ : s₃.mem z = s₁.mem z := hkeep z mem_cons_self fun hR e => hzn (by simp [e, hRmem hR])
  have hpath := hz.path
  rw [rootPtr_bin] at hpath
  obtain ⟨s', hrun', hfocus', hdata'⟩ := replaceBy_spec (s := s₃) (k := k) (c := c) (l := l)
    (r := plug (f :: k') yr) (z := z) (y := y)
    (by
      rw [hroot₃]
      refine hpath.congr fun q hq => hkeep q (by simp [hq]) fun hR e => ?_
      exact hdisj _ (hRmem hR) q hq e.symm)
    (by rw [hz₃]; exact hzl) (by rw [hz₃, hzparent]) (by rw [hz₃, hzcolor])
    (hlinksl.congr fun q hq => hkeep q (by simp [hq]) fun hR =>
      hdl q hq _ (mem_append_left _ (hRmem hR)))
    (by
      rw [hsame₃ y hRy]
      simp only [s₂, upd_mem_self]
      rfl)
    (hlinksr.reparent (nodup_append.mp (nodup_append.mp hrest).2.1).1
      (fun q hq => hz.valid q ((bin_append_perm _ _ _ _ _ _).mem_iff.mpr (by simp [hq]))) hyp.2
      (fun hR => by
        rw [hR₃ hR]
        exact congrArg _ (upd_mem_of_ne _ _ (hRy hR).symm))
      fun q hq hqR => hkeep q (by simp [hq]) fun _ => hqR)
    (by
      refine nodup_cons.mpr ⟨?_, nodup_cons.mpr ⟨?_, hrest⟩⟩
      · intro hin
        rcases mem_cons.mp hin with rfl | hin
        · exact hyz mem_cons_self
        · exact hzn hin
      · exact fun hin => hyz (mem_cons_of_mem _ hin))
    (by
      intro q hq
      rcases mem_cons.mp hq with rfl | hq
      · exact hzp
      · rcases mem_cons.mp hq with rfl | hq
        · exact hyp
        · exact hz.valid q ((bin_append_perm _ _ _ _ _ _).mem_iff.mpr (mem_cons_of_mem _ hq)))
  have hdata₂ : SameData s₁ s₂ := SameData.upd _ _ fun n => n.data_withChild _ _
  refine ⟨s₃, s', ?_, hrun', ?_, hdata₁.trans (hdata₂.trans (hdata₃.trans hdata'))⟩
  · have hdeep : ¬ f.elem = z := by
      intro e
      have hin : f.elem ∈ (plug (f :: k') yr).toList := by
        rw [(toList_perm_plug _ yr).mem_iff]
        exact mem_append_right _ mem_cons_self
      exact hzn (e ▸ mem_append_right _ (mem_append_left _ hin))
    have hyparent' : (s.mem y).rbParent = f.elem := hyparent
    have hyr' : (s.mem y).right = rootPtr yr := hyr
    have hzright' : (s₁.mem z).right = rootPtr (plug (f :: k') yr) := hzright
    have hread : (s₂.mem y).right = rootPtr (plug (f :: k') yr) := by
      simp only [s₂, upd_mem_self]
      rfl
    simp only [detachSuccessor, load_of_ne hyp.1, load_of_ne hzp.1, bind_eq_bind,
      bind_some, hyparent', hdeep, if_false, hyr', hrun₁, hzright', setChild,
      store_of_ne hyp.1]
    show (s₂.setParentOf (s₂.mem y).right y).bind (fun s => some (s, f.elem)) = some (s₃, f.elem)
    rw [hread, hrun₃, bind_some]
  · rw [← represents_plug, plug_append]
    exact hfocus'.represents

/-- **The successor takes the place of `z`**, and its right subtree the place of the
successor. -/
theorem splice_spec {k' : List (Frame ℕ)}
    (h : Focus s (k' ++ ⟨.right, c, z, l⟩ :: k) (bin .left cy .nil y yr)) :
    ∃ s₁ s', s.detachSuccessor z y = some (s₁, pathPtr (k' ++ ⟨.right, c, y, l⟩ :: k)) ∧
      s₁.replaceBy z y = some s' ∧ Focus s' (k' ++ ⟨.right, c, y, l⟩ :: k) yr ∧ SameData s s' := by
  cases k' with
  | nil =>
    obtain ⟨s', hdetach, hreplace, hfocus, hdata⟩ := splice_adjacent (Focus.up h)
    exact ⟨s, s', hdetach, hreplace, hfocus, hdata⟩
  | cons f k' => exact splice_deep h

theorem toList_splice {k' : List (Frame ℕ)} (hside : ∀ f ∈ k', f.side = .left) :
    (plug (k' ++ ⟨.right, c, y, l⟩ :: k) yr).toList = pathBefore k ++
      (l.toList ++ (plug k' (bin .left cy .nil y yr)).toList) ++ pathAfter k := by
  have hr : (plug k' (bin .left cy .nil y yr)).toList = y :: (plug k' yr).toList := by
    rw [toList_plug, toList_plug, pathBefore_of_left hside]
    rfl
  rw [plug_append, plug, toList_plug, hr]
  rfl

end Splice

/-- **Unlinking** leaves a tree that lacks exactly `z`, and reports the gap: what is
in it, the node above it, and the colour that is missing there. -/
theorem unlinkNode_spec {z fuel : ℕ}
    (h : Focus s k (bin .left c l z r)) (hrb : (plug k (bin .left c l z r)).IsRedBlack)
    (hfuel : r.toList.length ≤ fuel) :
    ∃ s' K x c', unlinkNode fuel s z = some (s', rootPtr x, pathPtr K, colorBit c') ∧
      Focus s' K x ∧ Lacks c' K x ∧
      (plug K x).toList = pathBefore k ++ (l.toList ++ r.toList) ++ pathAfter k ∧
      SameData s s' := by
  obtain ⟨hleft, hright, hparent, hcolor⟩ := h.cell
  have hz : z ≠ 0 := h.mem_valid.1
  replace hleft : (s.mem z).left = rootPtr l := hleft
  replace hright : (s.mem z).right = rootPtr r := hright
  by_cases hl : rootPtr l = 0
  · -- no left child: the right one moves up
    obtain rfl : l = .nil := (Focus.down (d := .left) h).eq_nil hl
    obtain ⟨s', hrun, hfocus, hdata⟩ := h.transplant
    refine ⟨s', k, r, c, ?_, hfocus, lacks_of_isRedBlack hrb, ?_, hdata⟩
    · simp only [unlinkNode, load_of_ne hz, bind_eq_bind, bind_some, hleft, hl,
        if_true, hright, hrun, hparent, hcolor]
    · rw [toList_plug]
      rfl
  · by_cases hr : rootPtr r = 0
    · -- no right child: the left one moves up
      obtain rfl : r = .nil := (Focus.down (d := .right) h).eq_nil hr
      have h' : Focus s k (bin .right c .nil z l) := h
      obtain ⟨s', hrun, hfocus, hdata⟩ := h'.transplant
      refine ⟨s', k, l, c, ?_, hfocus, lacks_of_isRedBlack (d := .right) hrb, ?_, hdata⟩
      · simp only [unlinkNode, load_of_ne hz, bind_eq_bind, bind_some, hleft, hl,
          if_false, hright, hr, if_true, hrun, hparent, hcolor]
      · rw [toList_plug, CTree.toList, append_nil]
    · -- two children: the successor moves up
      obtain ⟨k', cy, y, yr, rfl, hside, hmost⟩ := leftmostLoop_spec hr hfuel
        (Focus.down (d := .right) h)
      have hy : Focus s (k' ++ ⟨.right, c, z, l⟩ :: k) (bin .left cy .nil y yr) := by
        rw [← represents_plug, plug_append]
        exact h.represents
      obtain ⟨-, hyright, -, hycolor⟩ := hy.cell
      replace hyright : (s.mem y).right = rootPtr yr := hyright
      obtain ⟨s₁, s', hdetach, hreplace, hfocus, hdata⟩ := splice_spec hy
      have hlacks : Lacks cy (k' ++ ⟨.right, c, z, l⟩ :: k) yr := by
        refine lacks_of_isRedBlack (d := .left) (a := y) ?_
        rw [plug_append]
        exact hrb
      refine ⟨s', k' ++ ⟨.right, c, y, l⟩ :: k, yr, cy, ?_, hfocus, hlacks.exchange y,
        toList_splice hside, hdata⟩
      simp only [unlinkNode, load_of_ne hz, bind_eq_bind, bind_some, hleft, hl,
        if_false, hright, hr, rbtreeLeftmost, hmost, load_of_ne hy.mem_valid.1, hdetach, hreplace,
        hyright, hycolor]

/-- **Removal**: the tree stays red-black and loses exactly `z`. -/
theorem rbtreeRemove_spec {T : CTree ℕ} {z fuel : ℕ} (h : Represents s T)
    (hrb : T.IsRedBlack) (hz : z ∈ T.toList) (hfuel : T.toList.length + 3 ≤ fuel) :
    ∃ l₁ l₂, T.toList = l₁ ++ z :: l₂ ∧ Repaired s (rbtreeRemove fuel s z) (l₁ ++ l₂) := by
  obtain ⟨k, c, l, r, rfl⟩ := exists_plug_of_mem hz
  have hlist : (plug k (.node c l z r)).toList =
      (pathBefore k ++ l.toList) ++ z :: (r.toList ++ pathAfter k) := by
    rw [toList_plug, CTree.toList]
    simp only [append_assoc, cons_append]
  have hlen := congrArg List.length hlist
  simp only [length_append, length_cons] at hlen
  obtain ⟨s', K, x, c', hrun, hfocus, hlacks, hresult, hdata⟩ :=
    unlinkNode_spec (represents_plug.mp h) hrb (show r.toList.length ≤ fuel by omega)
  have hresult' : (plug K x).toList = (pathBefore k ++ l.toList) ++ (r.toList ++ pathAfter k) := by
    rw [hresult]
    simp only [append_assoc]
  refine ⟨_, _, hlist, ?_⟩
  rw [← hresult']
  cases c' with
  | red =>
    refine ⟨s', plug K x, ?_, hfocus.represents, hlacks, rfl, hdata⟩
    simp only [rbtreeRemove, hrun, bind_eq_bind, bind_some]
    rfl
  | black =>
    obtain ⟨n, hx, hfits⟩ := hlacks
    have hK : K.length + 4 ≤ fuel := by
      have := length_le_plug K x
      rw [hresult'] at this
      simp only [length_append] at this
      omega
    have hend := rbRemoveFixup_spec hK hfocus hx hfits
    have hrest : rbtreeRemove fuel s z = rbRemoveFixup fuel s' (rootPtr x) (pathPtr K) := by
      simp only [rbtreeRemove, hrun, bind_eq_bind, bind_some]
      rfl
    rw [hrest]
    exact hend.of_step hdata

end KernelR.Sched
