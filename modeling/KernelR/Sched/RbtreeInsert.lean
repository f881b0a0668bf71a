import KernelR.Sched.RbtreeRep

/-!
# Insertion into the scheduler's tree

`rbtree_insert` puts the node, red, where the search for its key ends, and
`rb_insert_fixup` repairs the one place where red may meet red. The fixup is
followed along the path from the node to the root: a round either moves the red
node up by two frames or ends with a black node above it.
-/

namespace KernelR.Sched

open List Option Foundations CTree RbTree

/-! ### Sequences under changes of colour -/

theorem toList_bin_congr {s s' t t' : CTree ℕ} {a : ℕ} (d : Side) (c c' : Color)
    (hs : s.toList = s'.toList) (ht : t.toList = t'.toList) :
    (bin d c s a t).toList = (bin d c' s' a t').toList := by
  cases d <;> simp [bin, CTree.toList, hs, ht]

theorem toList_plug_congr {t t' : CTree ℕ} (k : List (Frame ℕ)) (h : t.toList = t'.toList) :
    (plug k t).toList = (plug k t').toList := by
  rw [toList_plug, toList_plug, h]

section Round

variable {s : RbTree} {k : List (Frame ℕ)} {d : Side} {cg : Color} {t sib : CTree ℕ}
  {par gp node : ℕ}

/-- Case 1, a red uncle: parent and uncle become black and the grandparent red. -/
theorem insertFixupRound_recolour {d' : Side} {ul ur : CTree ℕ} {u : ℕ}
    (h : Focus s (⟨d', .red, par, sib⟩ :: ⟨d, cg, gp, bin d .red ul u ur⟩ :: k) t) :
    ∃ s', s.insertFixupRound d node par gp = some (s', gp) ∧
      Focus s' k (bin d .red (bin d' .black t par sib) gp (bin d .black ul u ur)) ∧
      SameData s s' := by
  have hgp : gp ≠ 0 := h.up.frame_valid.1
  have huncle : (s.mem gp).child d.other = u := by
    rw [h.up.up.cell.2.1, rootPtr_bin]
  have hcolor := h.up.across.colorSafe
  rw [rootPtr_bin, color_bin] at hcolor
  obtain ⟨s₁, hrun₁, hfocus₁, hdata₁⟩ := h.up.setColor .black
  obtain ⟨s₂, hrun₂, hfocus₂, hdata₂⟩ := hfocus₁.across.setColor .black
  have hback := hfocus₂.across.up
  simp only [Side.other_other] at hback
  obtain ⟨s₃, hrun₃, hfocus₃, hdata₃⟩ := hback.setColor .red
  refine ⟨s₃, ?_, hfocus₃, hdata₁.trans (hdata₂.trans hdata₃)⟩
  simp only [colorBit] at hrun₁ hrun₂ hrun₃ hcolor
  simp only [insertFixupRound, load_of_ne hgp, bind_eq_bind, bind_some, huncle,
    hcolor, if_true, hrun₁, hrun₂, hrun₃]

/-- Case 3, in line: the parent becomes black and comes up over the grandparent. -/
theorem insertFixup_line {uncle : CTree ℕ}
    (h : Focus s (⟨d, .red, par, sib⟩ :: ⟨d, .black, gp, uncle⟩ :: k) t) :
    ∃ s' s'' s''', s.rbSetColor par rbBlack = some s' ∧ s'.rbSetColor gp rbRed = some s'' ∧
      s''.rbRotate d.other gp = some s''' ∧
      Focus s''' (⟨d, .black, par, bin d .red sib gp uncle⟩ :: k) t ∧ SameData s s''' := by
  obtain ⟨s₁, hrun₁, hfocus₁, hdata₁⟩ := h.up.setColor .black
  obtain ⟨s₂, hrun₂, hfocus₂, hdata₂⟩ := hfocus₁.up.setColor .red
  obtain ⟨s₃, hrun₃, hfocus₃, hdata₃⟩ := hfocus₂.rotate_other
  exact ⟨s₁, s₂, s₃, hrun₁, hrun₂, hrun₃, hfocus₃.down, hdata₁.trans (hdata₂.trans hdata₃)⟩

/-- Cases 2 and 3, a black uncle: after the round the node in focus is still red, and
the node above it is black. -/
theorem insertFixupRound_rotate {d' : Side} {a b uncle : CTree ℕ}
    (h : Focus s (⟨d', .red, par, sib⟩ :: ⟨d, .black, gp, uncle⟩ :: k) (bin d .red a node b))
    (hblack : uncle.color = .black) :
    ∃ s' t' par' sib', s.insertFixupRound d node par gp = some (s', rootPtr t') ∧
      Focus s' (⟨d, .black, par', bin d .red sib' gp uncle⟩ :: k) t' ∧ SameData s s' ∧
      ((t' = bin d .red a node b ∧ sib' = sib ∧ par' = par ∧ d' = d) ∨
        (t' = bin d .red sib par a ∧ sib' = b ∧ par' = node ∧ d' = d.other)) := by
  have hgp : gp ≠ 0 := h.up.frame_valid.1
  have hpar : par ≠ 0 := h.frame_valid.1
  have huncle : (s.mem gp).child d.other = rootPtr uncle := h.up.up.cell.2.1
  have hcolor := h.up.across.colorSafe
  rw [hblack] at hcolor
  have hnotred : ¬ colorBit .black = rbRed := by decide
  by_cases hside : d' = d
  · subst hside
    obtain ⟨s₁, s₂, s₃, hrun₁, hrun₂, hrun₃, hfocus, hdata⟩ := insertFixup_line h
    -- the node is the outer grandchild: case 2 does nothing
    have houter : ¬ node = (s.mem par).child d'.other := by
      rw [h.up.cell.2.1]
      have hne := h.rootPtr_ne_sib (Or.inl (by rw [rootPtr_bin]; exact h.mem_valid.1))
      rwa [rootPtr_bin] at hne
    have hstraight : s.straighten d' node par = some (s, node, par) := by
      simp only [straighten, load_of_ne hpar, bind_eq_bind, bind_some, houter, if_false]
    refine ⟨s₃, _, par, sib, ?_, hfocus, hdata, Or.inl ⟨rfl, rfl, rfl, rfl⟩⟩
    simp only [insertFixupRound, load_of_ne hgp, bind_eq_bind, bind_some, huncle,
      hcolor, hnotred, if_false, hstraight, hrun₁, hrun₂, hrun₃, rootPtr_bin]
  · have hother : d' = d.other := by
      cases d <;> cases d' <;> simp_all [Side.other]
    subst hother
    -- the node is the inner grandchild: it first comes up over the parent
    have hinner := h.up
    rw [bin_other] at hinner
    have hchild : node = (s.mem par).child d.other := by
      rw [hinner.cell.2.1, rootPtr_bin]
    obtain ⟨s₀, hrun₀, hfocus₀, hdata₀⟩ := hinner.rotate
    have hparent : (s₀.mem par).rbParent = node := hfocus₀.down.cell.2.2.1
    have hstraight : s.straighten d node par = some (s₀, par, node) := by
      simp only [straighten, load_of_ne hpar, bind_eq_bind, bind_some, ← hchild,
        if_true, hrun₀, hparent]
    obtain ⟨s₁, s₂, s₃, hrun₁, hrun₂, hrun₃, hfocus, hdata⟩ := insertFixup_line hfocus₀.down
    refine ⟨s₃, _, node, b, ?_, hfocus, hdata₀.trans hdata, Or.inr ⟨rfl, rfl, rfl, rfl⟩⟩
    simp only [insertFixupRound, load_of_ne hgp, bind_eq_bind, bind_some, huncle,
      hcolor, hnotred, if_false, hstraight, hrun₁, hrun₂, hrun₃, rootPtr_bin]

end Round

/-! ### The fixup -/

/-- The outcome of an operation that leaves a red-black tree with the sequence `l`. -/
def Repaired (s : RbTree) (run : Option RbTree) (l : List ℕ) : Prop :=
  ∃ s' T, run = some s' ∧ Represents s' T ∧ T.IsRedBlack ∧ T.toList = l ∧ SameData s s'

theorem Repaired.of_step {s s₁ : RbTree} {run : Option RbTree} {l : List ℕ}
    (h : Repaired s₁ run l) (hdata : SameData s s₁) : Repaired s run l := by
  obtain ⟨s', T, hrun, hrep, hrb, hlist, hdata'⟩ := h
  exact ⟨s', T, hrun, hrep, hrb, hlist, hdata.trans hdata'⟩

variable {T t : CTree ℕ} {fuel node : ℕ} {k : List (Frame ℕ)} {s : RbTree}

/-- The last line of the fixup, on a tree that is red-black up to the colour of its
root. -/
theorem paintRoot_repaired (h : Represents s T) (hroot : s.root ≠ 0)
    (hrb : (T.paint .black).IsRedBlack) : Repaired s (s.rbSetColor s.root rbBlack) T.toList := by
  obtain ⟨s', hrun, hrep, hdata⟩ := h.paintRoot hroot
  exact ⟨s', _, hrun, hrep, hrb, toList_paint _ _, hdata⟩

theorem paint_of_color {c : Color} (h : T.color = c) : T.paint c = T := by
  subst h
  cases T <;> rfl

theorem color_paint {c : Color} (h : rootPtr T ≠ 0) : (T.paint c).color = c := by
  cases T with
  | nil => exact absurd rfl h
  | node c' l p r => rfl

theorem Focus.root_ne_zero (h : Focus s k t) (hne : rootPtr t ≠ 0) : s.root ≠ 0 := by
  have hrep := h.represents
  have hmem : rootPtr t ∈ (plug k t).toList :=
    (toList_perm_plug k t).mem_iff.mpr (mem_append_left _ (rootPtr_mem hne))
  rw [hrep.root]
  cases hT : plug k t with
  | nil =>
    rw [hT] at hmem
    cases hmem
  | node c l p r =>
    rw [hT] at hrep
    exact (hrep.valid p (by simp [CTree.toList])).1

theorem Focus.parent_eq (h : Focus s k t)
    (hne : rootPtr t ≠ 0) : (s.mem (rootPtr t)).rbParent = pathPtr k := by
  cases t with
  | nil => exact absurd rfl hne
  | node c l p r => exact (Focus.cell (d := .left) h).2.2.1

theorem rbInsertFixup_stop {f : Frame ℕ}
    (fuel : ℕ) (h : Focus s (f :: k) t) (hne : rootPtr t ≠ 0) (hc : f.color = .black) :
    rbInsertFixup (fuel + 1) s (rootPtr t) = s.rbSetColor s.root rbBlack := by
  have hparent := h.parent_eq hne
  have hnotred : ¬ (s.mem f.elem).rbColor = rbRed := by
    rw [h.up.cell.2.2.2, hc]
    decide
  simp only [rbInsertFixup, h.rootPtr_ne_root, if_false, load_of_ne hne, bind_eq_bind,
    bind_some, hparent, pathPtr, load_of_ne h.frame_valid.1, hnotred]

theorem rbInsertFixup_round {s s' : RbTree} {f g : Frame ℕ}
    {node' : ℕ} (fuel : ℕ) (h : Focus s (f :: g :: k) t) (hne : rootPtr t ≠ 0)
    (hc : f.color = .red)
    (hrun : s.insertFixupRound g.side (rootPtr t) f.elem g.elem = some (s', node')) :
    rbInsertFixup (fuel + 1) s (rootPtr t) = rbInsertFixup fuel s' node' := by
  have hpar := h.frame_valid.1
  have hparent := h.parent_eq hne
  obtain ⟨-, -, hgrand, hcolor⟩ := h.up.cell
  rw [hc] at hcolor
  have hisred : (s.mem f.elem).rbColor = rbRed := hcolor
  have hside := h.up.side_eq (Or.inl (by rw [rootPtr_bin]; exact hpar))
  rw [rootPtr_bin] at hside
  simp only [rbInsertFixup, h.rootPtr_ne_root, if_false, load_of_ne hne, bind_eq_bind,
    bind_some, hparent, pathPtr, load_of_ne hpar, hisred, if_true, hgrand,
    load_of_ne h.up.frame_valid.1, hside, hrun]

/-- **The insertion fixup.**  The subtree in focus is balanced with a red root, and
fits its path except that the node above may be red as well. The induction is on
the length of the path. -/
theorem rbInsertFixup_spec :
    ∀ {s : RbTree} {k : List (Frame ℕ)} {t : CTree ℕ} {n : ℕ}, k.length < fuel → Focus s k t →
      t.color = .red → t.Balanced n → Fits k n →
      Repaired s (rbInsertFixup fuel s (rootPtr t)) (plug k t).toList := by
  induction fuel with
  | zero => intro s k t n hfuel; exact absurd hfuel (Nat.not_lt_zero _)
  | succ fuel ih =>
    intro s k t n hfuel h hred hbal hfits
    have hnode : rootPtr t ≠ 0 := by
      obtain ⟨a, p, b, rfl⟩ := exists_of_color_red hred .left
      rw [rootPtr_bin]
      exact h.mem_valid.1
    have hroot : s.root ≠ 0 := h.root_ne_zero hnode
    match k with
    | [] =>
      -- the red node is the root
      have heq : rootPtr t = s.root := h.path.symm
      rw [rbInsertFixup, if_pos heq]
      exact paintRoot_repaired h.represents hroot ⟨color_paint hnode, n + 1, hbal.paint_black hred⟩
    | ⟨d', .black, par, sib⟩ :: k =>
      rw [rbInsertFixup_stop fuel h hnode rfl]
      refine paintRoot_repaired h.represents hroot ?_
      rw [paint_of_color (hfits.color_plug (cons_ne_nil _ _) t)]
      exact isRedBlack_plug.mpr ⟨n, hbal, hfits, fun hr => by cases hr⟩
    | [⟨d', .red, par, sib⟩] => cases hfits.2.2.1
    | ⟨d', .red, par, sib⟩ :: ⟨d, .red, gp, uncle⟩ :: k => cases hfits.2.2.1
    | ⟨d', .red, par, sib⟩ :: ⟨d, .black, gp, uncle⟩ :: k =>
      obtain ⟨hsib, hsibc, -, huncle, hfits'⟩ := hfits
      cases hc : uncle.color with
      | red =>
        -- the red node moves up by two
        obtain ⟨ul, u, ur, rfl⟩ := exists_of_color_red hc d
        obtain ⟨s', hrun, hfocus, hdata⟩ := insertFixupRound_recolour h
        have hbal' : (bin d .red (bin d' .black t par sib) gp
            (bin d .black ul u ur)).Balanced (n + 1) := by
          have hpaint := huncle.paint_black hc
          rw [paint_bin] at hpaint
          exact (balanced_red d).mpr ⟨(balanced_black_succ d').mpr ⟨hbal, hsib⟩, hpaint,
            color_bin _ _ _ _ _, color_bin _ _ _ _ _⟩
        have hrest := ih (by simp at hfuel; omega) hfocus (color_bin _ _ _ _ _) hbal' hfits'
        rw [rootPtr_bin] at hrest
        rw [rbInsertFixup_round fuel h hnode rfl hrun]
        have hlist : (bin d .red (bin d' .black t par sib) gp (bin d .black ul u ur)).toList =
            (bin d .black (bin d' .red t par sib) gp (bin d .red ul u ur)).toList :=
          toList_bin_congr d _ _ (toList_bin_congr d' _ _ rfl rfl) (toList_bin_congr d _ _ rfl rfl)
        rw [toList_plug_congr k hlist] at hrest
        exact hrest.of_step hdata
      | black =>
        -- rotations, after which the next round stops
        obtain ⟨a, node, b, rfl⟩ := exists_of_color_red hred d
        obtain ⟨ha, hb, hac, hbc⟩ := (balanced_red d).mp hbal
        obtain ⟨s', t', par', sib', hrun, hfocus, hdata, hshape⟩ := insertFixupRound_rotate h hc
        rw [rbInsertFixup_round fuel h hnode rfl (by rw [rootPtr_bin]; exact hrun)]
        have hlen : (⟨d, .black, par', bin d .red sib' gp uncle⟩ :: k : List (Frame ℕ)).length
            < fuel := by
          simp at hfuel ⊢
          omega
        rcases hshape with ⟨rfl, rfl, rfl, rfl⟩ | ⟨rfl, rfl, rfl, rfl⟩
        · have hrest := ih hlen hfocus (color_bin _ _ _ _ _) hbal
            ⟨(balanced_red d').mpr ⟨hsib, huncle, hsibc, hc⟩, hfits'⟩
          have hlist : (bin d' .black (bin d' .red a node b) par'
              (bin d' .red sib' gp uncle)).toList =
              (bin d' .black (bin d' .red (bin d' .red a node b) par' sib') gp uncle).toList :=
            (toList_rotate d' _ _ _ _ _ _ _ _ _).symm
          rw [plug, toList_plug_congr k hlist] at hrest
          exact hrest.of_step hdata
        · have hrest := ih hlen hfocus (color_bin _ _ _ _ _)
            ((balanced_red d).mpr ⟨hsib, ha, hsibc, hac⟩)
            ⟨(balanced_red d).mpr ⟨hb, huncle, hbc, hc⟩, hfits'⟩
          have hlist : (bin d .black (bin d .red sib par a) par'
              (bin d .red sib' gp uncle)).toList =
              (bin d .black (bin d.other .red (bin d .red a par' sib') par sib) gp
                uncle).toList := by
            rw [bin_other]
            exact ((toList_rotate d _ _ .red .black _ _ _ _ _).symm).trans
              (toList_bin_congr d _ _ (toList_rotate d _ _ _ _ _ _ _ _ _) rfl)
          rw [plug, toList_plug_congr k hlist] at hrest
          exact hrest.of_step hdata

/-! ### The search -/

/-- The keys along a path: what comes before the hole is at most `key`, what comes
after it is larger. -/
def PathKeys (v : ℕ → ℕ) (key : ℕ) (k : List (Frame ℕ)) : Prop :=
  (∀ p ∈ pathBefore k, v p ≤ key) ∧ ∀ p ∈ pathAfter k, key < v p

/-- The tree is ordered by the keys `v`. -/
def Sorted (v : ℕ → ℕ) (T : CTree ℕ) : Prop := T.toList.Pairwise fun p q => v p ≤ v q

/-- The search ends below a node, on the side that the comparison with its key
tells, with everything up to the key before the place found. -/
theorem insertParent_spec (hnode : node ≠ 0) :
    ∀ {fuel : ℕ} {k : List (Frame ℕ)}, t.toList.length < fuel → Focus s k t →
      Sorted (fun p => (s.mem p).vruntime) (plug k t) →
      PathKeys (fun p => (s.mem p).vruntime) (s.mem node).vruntime k →
      (k ≠ [] → pathSide k =
        if (s.mem node).vruntime < (s.mem (pathPtr k)).vruntime then Side.left else Side.right) →
      ∃ k', insertParent s node fuel (pathPtr k) (rootPtr t) = some (pathPtr k') ∧
        plug k' .nil = plug k t ∧
        PathKeys (fun p => (s.mem p).vruntime) (s.mem node).vruntime k' ∧
        (k' ≠ [] → pathSide k' =
          if (s.mem node).vruntime < (s.mem (pathPtr k')).vruntime then Side.left
          else Side.right) := by
  induction t with
  | nil =>
    intro fuel k hfuel h _ hkeys hside
    cases fuel with
    | zero => exact absurd hfuel (Nat.not_lt_zero _)
    | succ fuel => exact ⟨k, by simp [insertParent, rootPtr], rfl, hkeys, hside⟩
  | node c l p r ihl ihr =>
    intro fuel k hfuel h hsorted hkeys hside
    cases fuel with
    | zero => exact absurd hfuel (Nat.not_lt_zero _)
    | succ fuel =>
      have hp : p ≠ 0 := (Focus.mem_valid (d := .left) h).1
      obtain ⟨hleft, hright, -⟩ := Focus.cell (d := .left) h
      simp only [CTree.toList, length_append, length_cons] at hfuel
      -- the node compares with its own subtrees by the order of the tree
      have hmid : (l.toList ++ p :: r.toList).Pairwise
          fun p q => (s.mem p).vruntime ≤ (s.mem q).vruntime := by
        have hall := hsorted
        rw [Sorted, toList_plug] at hall
        exact (pairwise_append.mp (pairwise_append.mp hall).1).2.1
      obtain ⟨-, hpr, hlp⟩ := pairwise_append.mp hmid
      by_cases hlt : (s.mem node).vruntime < (s.mem p).vruntime
      · have hkeys' : PathKeys (fun p => (s.mem p).vruntime) (s.mem node).vruntime
            (⟨.left, c, p, r⟩ :: k) := by
          refine ⟨hkeys.1, ?_⟩
          intro q hq
          rcases mem_cons.mp hq with rfl | hq
          · exact hlt
          · rcases mem_append.mp hq with hq | hq
            · exact hlt.trans_le ((pairwise_cons.mp hpr).1 q hq)
            · exact hkeys.2 q hq
        have hlen : l.toList.length < fuel := by omega
        obtain ⟨k', hrun, hplug, hrest⟩ := ihl hlen (Focus.down (d := .left) h)
          hsorted hkeys' (fun _ => by simp [pathSide, pathPtr, hlt])
        refine ⟨k', ?_, hplug, hrest⟩
        simp only [insertParent, rootPtr, hp, if_false, load_of_ne hnode, load_of_ne hp,
          bind_eq_bind, bind_some, hlt, if_true]
        rw [show (s.mem p).left = rootPtr l from hleft]
        exact hrun
      · have hle : (s.mem p).vruntime ≤ (s.mem node).vruntime := Nat.le_of_not_lt hlt
        have hkeys' : PathKeys (fun p => (s.mem p).vruntime) (s.mem node).vruntime
            (⟨.right, c, p, l⟩ :: k) := by
          refine ⟨?_, hkeys.2⟩
          intro q hq
          rcases mem_append.mp hq with hq | hq
          · exact hkeys.1 q hq
          · rcases mem_append.mp hq with hq | hq
            · exact (hlp q hq p mem_cons_self).trans hle
            · obtain rfl := mem_singleton.mp hq
              exact hle
        have hlen : r.toList.length < fuel := by omega
        obtain ⟨k', hrun, hplug, hrest⟩ := ihr hlen (Focus.down (d := .right) h)
          hsorted hkeys' (fun _ => by simp [pathSide, pathPtr, hlt])
        refine ⟨k', ?_, hplug, hrest⟩
        simp only [insertParent, rootPtr, hp, if_false, load_of_ne hnode, load_of_ne hp,
          bind_eq_bind, bind_some, hlt]
        rw [show (s.mem p).right = rootPtr r from hright]
        exact hrun

/-! ### Putting the node in place -/

theorem Represents.upd_fresh (h : Represents s T)
    (hnode : node ∉ T.toList) (f : SchedNode → SchedNode) : Represents (s.upd node f) T := by
  refine ⟨h.root, h.links.congr fun p hp => upd_mem_of_ne s f ?_, h.nodup, h.valid⟩
  rintro rfl
  exact hnode hp

/-- `attach` fills the hole with a red node that has no children. -/
theorem Focus.attach (h : Focus s k .nil) (hk : k ≠ [])
    (hnode : NodePtr node) (hfresh : node ∉ pathElems k)
    (hleft : (s.mem node).left = 0) (hright : (s.mem node).right = 0)
    (hparent : (s.mem node).rbParent = pathPtr k) (hcolor : (s.mem node).rbColor = rbRed)
    (hside : pathSide k =
      if (s.mem node).vruntime < (s.mem (pathPtr k)).vruntime then Side.left else Side.right) :
    ∃ s', s.attach node (pathPtr k) = some s' ∧ Focus s' k (bin .left .red .nil node .nil) ∧
      SameData s s' := by
  have hmem : pathPtr k ∈ pathElems k := by
    cases k with
    | nil => exact absurd rfl hk
    | cons f k => exact mem_cons_self
  have hP : NodePtr (pathPtr k) := h.valid _ (mem_append_right _ hmem)
  have hne : node ≠ pathPtr k := fun e => hfresh (e ▸ hmem)
  have hself : (s.upd (pathPtr k) (.withChild (pathSide k) node)).mem node = s.mem node :=
    upd_mem_of_ne _ _ hne
  refine ⟨s.upd (pathPtr k) (.withChild (pathSide k) node), ?_, ⟨?_, ?_, ?_, ?_⟩, ?_⟩
  · simp only [RbTree.attach, load_of_ne hnode.1, load_of_ne hP.1, bind_eq_bind,
      bind_some, setChild, store_of_ne hP.1]
    by_cases hlt : (s.mem node).vruntime < (s.mem (pathPtr k)).vruntime
    · rw [if_pos hlt] at hside ⊢
      rw [hside]
    · rw [if_neg hlt] at hside ⊢
      rw [hside]
  · rw [rootPtr_bin]
    refine h.path.relink h.nodup (fun p hp => h.valid p hp) (by rw [if_neg hP.1]; rfl)
      (fun _ => upd_mem_self _ _ _) fun p _ hp => upd_mem_of_ne _ _ hp
  · refine (links_bin .left).mpr ⟨?_, ?_, ?_, ?_, trivial, trivial⟩
    · rw [hself]
      exact hleft
    · rw [hself]
      exact hright
    · rw [hself, hparent]
    · rw [hself, hcolor]
      rfl
  · exact nodup_cons.mpr ⟨hfresh, h.nodup⟩
  · intro p hp
    rcases mem_cons.mp hp with rfl | hp
    · exact hnode
    · exact h.valid p hp
  · exact SameData.upd _ _ fun n => n.data_withChild _ _

theorem insert_first (hnode : NodePtr node)
    (hleft : (s.mem node).left = 0) (hright : (s.mem node).right = 0) :
    Repaired s (do
      let s ← rbSetParent { s with root := node } node 0
      s.rbSetColor node rbBlack) [node] := by
  let s₁ := upd { s with root := node } node (.withParent 0)
  let s₂ := s₁.upd node (.withColor (colorBit .black))
  have hcell : s₂.mem node = ((s.mem node).withParent 0).withColor (colorBit .black) := by
    simp only [s₂, s₁, upd_mem_self]
  refine ⟨s₂, bin .left .black .nil node .nil, ?_, ⟨?_, ?_, ?_, ?_⟩, ⟨rfl, 1, ?_⟩, rfl, ?_⟩
  · simp only [rbSetParent, rbSetColor, store_of_ne hnode.1, bind_eq_bind, bind_some]
    rfl
  · rfl
  · refine (links_bin .left).mpr ⟨?_, ?_, ?_, ?_, trivial, trivial⟩
    · rw [hcell, SchedNode.child_withColor, SchedNode.child_withParent]
      exact hleft
    · rw [hcell, SchedNode.child_withColor, SchedNode.child_withParent]
      exact hright
    · rw [hcell, SchedNode.rbParent_withColor, SchedNode.rbParent_withParent _ (dvd_zero 8)]
    · rw [hcell, SchedNode.rbColor_withColor]
  · exact nodup_singleton node
  · intro p hp
    obtain rfl := mem_singleton.mp hp
    exact hnode
  · exact (balanced_black_succ .left).mpr ⟨balanced_nil.mpr rfl, balanced_nil.mpr rfl⟩
  · have hdata₁ := SameData.upd { s with root := node } node fun n => n.data_withParent 0
    exact SameData.trans hdata₁ (SameData.upd _ _ fun n => n.data_withColor _)

theorem insert_below (h : Focus s k .nil)
    (hk : k ≠ []) (hrb : (plug k .nil).IsRedBlack) (hnode : NodePtr node)
    (hfresh : node ∉ pathElems k) (hleft : (s.mem node).left = 0)
    (hright : (s.mem node).right = 0)
    (hside : pathSide k =
      if (s.mem node).vruntime < (s.mem (pathPtr k)).vruntime then Side.left else Side.right)
    (hfuel : k.length < fuel) :
    Repaired s (do
      let s ← s.rbSetParent node (pathPtr k)
      let s ← s.rbSetColor node rbRed
      let s ← s.attach node (pathPtr k)
      rbInsertFixup fuel s node) (pathBefore k ++ node :: pathAfter k) := by
  let s₁ := s.upd node (.withParent (pathPtr k))
  let s₂ := s₁.upd node (.withColor (colorBit .red))
  have hdata₂ : SameData s s₂ := (SameData.upd _ _ fun n => n.data_withParent _).trans
      (SameData.upd _ _ fun n => n.data_withColor _)
  have hcell : s₂.mem node = ((s.mem node).withParent (pathPtr k)).withColor (colorBit .red) := by
    simp only [s₂, s₁, upd_mem_self]
  have hnot : node ∉ (plug k .nil).toList := by
    rw [(toList_perm_plug k .nil).mem_iff]
    exact hfresh
  have hfocus₂ : Focus s₂ k .nil :=
    represents_plug.mp ((h.represents.upd_fresh hnot _).upd_fresh hnot _)
  obtain ⟨s₃, hrun₃, hfocus₃, hdata₃⟩ := hfocus₂.attach hk hnode hfresh
    (by rw [hcell]; exact hleft) (by rw [hcell]; exact hright)
    (by rw [hcell, SchedNode.rbParent_withColor, SchedNode.rbParent_withParent _ h.path_dvd])
    (by rw [hcell]; exact SchedNode.rbColor_withColor _ .red)
    (by rw [hdata₂.vruntime, hdata₂.vruntime]; exact hside)
  obtain ⟨n, hbal, hfits, -⟩ := isRedBlack_plug.mp hrb
  have hn := balanced_nil.mp hbal
  subst hn
  have hbal' : (bin .left .red (.nil : CTree ℕ) node .nil).Balanced 0 :=
    (balanced_red .left).mpr ⟨balanced_nil.mpr rfl, balanced_nil.mpr rfl, rfl, rfl⟩
  have hfix := rbInsertFixup_spec hfuel hfocus₃ rfl hbal' hfits
  rw [rootPtr_bin, toList_plug] at hfix
  have hrun : (do
      let s ← s.rbSetParent node (pathPtr k)
      let s ← s.rbSetColor node rbRed
      let s ← s.attach node (pathPtr k)
      rbInsertFixup fuel s node) = rbInsertFixup fuel s₃ node := by
    have hrun₂ : s₁.rbSetColor node rbRed = some s₂ := store_of_ne hnode.1
    simp only [rbSetParent, store_of_ne hnode.1, bind_eq_bind, bind_some]
    rw [hrun₂, bind_some, hrun₃, bind_some]
  rw [hrun]
  simpa [bin, CTree.toList] using hfix.of_step (hdata₂.trans hdata₃)

/-- **Insertion**, in any tree with less than `fuel` nodes. -/
theorem rbtreeInsert_spec (h : Represents s T)
    (hrb : T.IsRedBlack) (hsorted : Sorted (fun p => (s.mem p).vruntime) T)
    (hnode : NodePtr node) (hfresh : node ∉ T.toList) (hfuel : T.toList.length < fuel) :
    ∃ l₁ l₂, T.toList = l₁ ++ l₂ ∧ (∀ p ∈ l₁, (s.mem p).vruntime ≤ (s.mem node).vruntime) ∧
      (∀ p ∈ l₂, (s.mem node).vruntime < (s.mem p).vruntime) ∧
      Repaired s (rbtreeInsert fuel s node) (l₁ ++ node :: l₂) := by
  -- clear the stale links of the node
  let s₁ := (s.upd node (.withChild .left 0)).upd node (.withChild .right 0)
  have hdata₁ : SameData s s₁ := (SameData.upd _ _ fun n => n.data_withChild _ _).trans
      (SameData.upd _ _ fun n => n.data_withChild _ _)
  have hrep₁ : Represents s₁ T := (h.upd_fresh hfresh _).upd_fresh hfresh _
  have hcell : s₁.mem node = ((s.mem node).withChild .left 0).withChild .right 0 := by
    simp only [s₁, upd_mem_self]
  have hleft : (s₁.mem node).left = 0 := by rw [hcell]; rfl
  have hright : (s₁.mem node).right = 0 := by rw [hcell]; rfl
  have hkeys : (fun p => (s₁.mem p).vruntime) = fun p => (s.mem p).vruntime :=
    funext hdata₁.vruntime
  have hstart : rbtreeInsert fuel s node =
      (if s₁.root = 0 then do
        let s ← rbSetParent { s₁ with root := node } node 0
        s.rbSetColor node rbBlack
      else do
        let parent ← s₁.insertParent node fuel 0 s₁.root
        let s ← s₁.rbSetParent node parent
        let s ← s.rbSetColor node rbRed
        let s ← s.attach node parent
        rbInsertFixup fuel s node) := by
    simp only [rbtreeInsert, setChild, store_of_ne hnode.1, bind_eq_bind, bind_some, s₁]
  cases T with
  | nil =>
    have hend := insert_first hnode hleft hright
    refine ⟨[], [], rfl, by simp, by simp, ?_⟩
    rw [hstart, if_pos (show s₁.root = 0 from hrep₁.root)]
    exact hend.of_step hdata₁
  | node c l p r =>
    have hfocus : Focus s₁ [] (.node c l p r) := (represents_plug (k := [])).mp hrep₁
    have hroot : s₁.root ≠ 0 := by
      rw [hrep₁.root]
      exact (Focus.mem_valid (d := .left) hfocus).1
    obtain ⟨k, hparent, hplug, hpath, hside⟩ := insertParent_spec hnode.1 hfuel hfocus
      (by rw [hkeys]; exact hsorted) ⟨by simp [pathBefore], by simp [pathAfter]⟩
      (fun hk => absurd rfl hk)
    rw [show plug [] (CTree.node c l p r) = .node c l p r from rfl] at hplug
    have hk : k ≠ [] := by
      rintro rfl
      cases hplug
    have hlist : (CTree.node c l p r).toList = pathBefore k ++ pathAfter k := by
      have := toList_plug k .nil
      rw [hplug] at this
      simpa [CTree.toList] using this
    have hfocus' : Focus s₁ k .nil := by
      rw [← represents_plug, hplug]
      exact hrep₁
    have hnot : node ∉ pathElems k := by
      intro hmem
      have := (toList_perm_plug k .nil).mem_iff.mpr hmem
      rw [hplug] at this
      exact hfresh this
    have hlen : k.length < fuel := by
      have := length_le_plug k .nil
      rw [hplug] at this
      exact Nat.lt_of_le_of_lt (Nat.le_of_add_right_le this) hfuel
    have hend := insert_below hfocus' hk (by rw [hplug]; exact hrb) hnode hnot hleft hright
      (hside hk) hlen
    refine ⟨_, _, hlist, fun q hq => ?_, fun q hq => ?_, ?_⟩
    · rw [← hdata₁.vruntime q, ← hdata₁.vruntime node]
      exact hpath.1 q hq
    · rw [← hdata₁.vruntime q, ← hdata₁.vruntime node]
      exact hpath.2 q hq
    · have hrun : s₁.insertParent node fuel 0 s₁.root = some (pathPtr k) := by
        rw [hrep₁.root]
        exact hparent
      rw [hstart, if_neg hroot, hrun]
      exact hend.of_step hdata₁

end KernelR.Sched
