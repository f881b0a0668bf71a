import KernelR.Sched.Rbtree

/-!
# What the memory of a tree represents

`Represents s T`: the pointers of `s` spell out the coloured tree `T`, whose
elements are the addresses of its nodes — child and parent pointers agree, colours
match, and no node occurs twice. `Focus s k t` says the same seen from a position:
the subtree `t` below the path `k`. The primitives of `rbtree.c` are then operations
on coloured trees at that position:

* `Focus.setColor` — painting the node there,
* `Focus.rotate` and `Focus.rotate_other` — rotating there,
* `Represents.paintRoot` — painting the root.

None of them touches the scheduling data of any node (`SameData`).
-/

namespace KernelR.Sched

open List Option Foundations CTree

/-- The bit a colour is stored as. -/
def colorBit : Color → ℕ
  | .red => rbRed
  | .black => rbBlack

theorem colorBit_lt (c : Color) : colorBit c < 2 := by
  cases c <;> decide

namespace SchedNode

/-- The fields the scheduler uses. -/
def data (n : SchedNode) : ℕ × ℕ × ℕ × ℕ := (n.vruntime, n.taskId, n.deadline, n.minDeadline)

/-! ### Reading back what was written -/

theorem andNot_one (x : ℕ) : andNot x 1 = 2 ^ 1 * (x / 2) := by
  rw [andNot, Nat.and_one_is_mod]
  omega

theorem andNot_three (x : ℕ) : andNot x 3 = x / 4 * 4 := andNot_low x 2

@[simp] theorem rbColor_withColor (n : SchedNode) (c : Color) :
    (n.withColor (colorBit c)).rbColor = colorBit c := by
  have hc := colorBit_lt c
  simp only [rbColor, withColor, andNot_one]
  rw [← Nat.two_pow_add_eq_or_of_lt hc, Nat.and_one_is_mod]
  omega

@[simp] theorem rbParent_withColor (n : SchedNode) (c : Color) :
    (n.withColor (colorBit c)).rbParent = n.rbParent := by
  have hc := colorBit_lt c
  simp only [rbParent, withColor, andNot_one, andNot_three]
  rw [← Nat.two_pow_add_eq_or_of_lt hc]
  omega

theorem withParent_word (n : SchedNode) {p : ℕ} (hp : 8 ∣ p) :
    (n.withParent p).parentAndColor = p + n.parentAndColor % 2 := by
  simp only [withParent, andNot_three]
  rw [Nat.and_one_is_mod, Nat.or_comm, show p / 4 * 4 = 2 ^ 1 * (p / 2) by omega,
    ← Nat.two_pow_add_eq_or_of_lt (show n.parentAndColor % 2 < 2 ^ 1 by omega)]
  omega

@[simp] theorem rbColor_withParent (n : SchedNode) {p : ℕ} (hp : 8 ∣ p) :
    (n.withParent p).rbColor = n.rbColor := by
  rw [rbColor, withParent_word n hp, rbColor, Nat.and_one_is_mod, Nat.and_one_is_mod]
  omega

@[simp] theorem rbParent_withParent (n : SchedNode) {p : ℕ} (hp : 8 ∣ p) :
    (n.withParent p).rbParent = p := by
  rw [rbParent, withParent_word n hp, andNot_three]
  omega

@[simp] theorem child_withChild (n : SchedNode) (d : Side) (v : ℕ) :
    (n.withChild d v).child d = v := by
  cases d <;> rfl

@[simp] theorem child_withChild_other (n : SchedNode) (d : Side) (v : ℕ) :
    (n.withChild d v).child d.other = n.child d.other := by
  cases d <;> rfl

@[simp] theorem child_withChild_other' (n : SchedNode) (d : Side) (v : ℕ) :
    (n.withChild d.other v).child d = n.child d := by
  cases d <;> rfl

@[simp] theorem rbColor_withChild (n : SchedNode) (d : Side) (v : ℕ) :
    (n.withChild d v).rbColor = n.rbColor := by
  cases d <;> rfl

@[simp] theorem rbParent_withChild (n : SchedNode) (d : Side) (v : ℕ) :
    (n.withChild d v).rbParent = n.rbParent := by
  cases d <;> rfl

@[simp] theorem child_withColor (n : SchedNode) (d : Side) (c : ℕ) :
    (n.withColor c).child d = n.child d := by
  cases d <;> rfl

@[simp] theorem child_withParent (n : SchedNode) (d : Side) (p : ℕ) :
    (n.withParent p).child d = n.child d := by
  cases d <;> rfl

@[simp] theorem data_withChild (n : SchedNode) (d : Side) (v : ℕ) :
    (n.withChild d v).data = n.data := by
  cases d <;> rfl

@[simp] theorem data_withColor (n : SchedNode) (c : ℕ) : (n.withColor c).data = n.data := rfl

@[simp] theorem data_withParent (n : SchedNode) (p : ℕ) : (n.withParent p).data = n.data := rfl

end SchedNode

namespace RbTree

@[simp] theorem load_of_ne {s : RbTree} {p : ℕ} (hp : p ≠ 0) : s.load p = some (s.mem p) :=
  if_neg hp

@[simp] theorem store_of_ne {s : RbTree} {p : ℕ} {f : SchedNode → SchedNode} (hp : p ≠ 0) :
    s.store p f = some (s.upd p f) :=
  if_neg hp

@[simp] theorem upd_root (s : RbTree) (p : ℕ) (f : SchedNode → SchedNode) :
    (s.upd p f).root = s.root := rfl

@[simp] theorem upd_mem_self (s : RbTree) (p : ℕ) (f : SchedNode → SchedNode) :
    (s.upd p f).mem p = f (s.mem p) :=
  Function.update_self _ _ _

theorem upd_mem_of_ne (s : RbTree) {p q : ℕ} (f : SchedNode → SchedNode) (h : q ≠ p) :
    (s.upd p f).mem q = s.mem q :=
  Function.update_of_ne h _ _

end RbTree

/-- The scheduling data of all nodes is the same in both states. -/
def SameData (s s' : RbTree) : Prop := ∀ p, (s'.mem p).data = (s.mem p).data

theorem SameData.refl (s : RbTree) : SameData s s := fun _ => rfl

theorem SameData.trans {s s' s'' : RbTree} (h : SameData s s') (h' : SameData s' s'') :
    SameData s s'' := fun p => (h' p).trans (h p)

theorem SameData.upd (s : RbTree) (p : ℕ) {f : SchedNode → SchedNode}
    (hf : ∀ n, (f n).data = n.data) : SameData s (s.upd p f) := by
  intro q
  by_cases hq : q = p
  · subst hq
    rw [RbTree.upd_mem_self, hf]
  · rw [RbTree.upd_mem_of_ne s f hq]

variable {k : List (Frame ℕ)} {mem mem' : ℕ → SchedNode} {s s' : RbTree} {t : CTree ℕ}

theorem SameData.vruntime (h : SameData s s') (p : ℕ) : (s'.mem p).vruntime = (s.mem p).vruntime :=
  congrArg Prod.fst (h p)

theorem SameData.taskId (h : SameData s s') (p : ℕ) : (s'.mem p).taskId = (s.mem p).taskId :=
  congrArg (fun d => d.2.1) (h p)

theorem SameData.deadline (h : SameData s s') (p : ℕ) : (s'.mem p).deadline = (s.mem p).deadline :=
  congrArg (fun d => d.2.2.1) (h p)

theorem SameData.minDeadline (h : SameData s s') (p : ℕ) :
    (s'.mem p).minDeadline = (s.mem p).minDeadline :=
  congrArg (fun d => d.2.2.2) (h p)

/-! ### Representation -/

/-- The pointer to the root of a tree of addresses. -/
def rootPtr : CTree ℕ → ℕ
  | .nil => 0
  | .node _ _ p _ => p

@[simp] theorem rootPtr_bin (d : Side) (c : Color) (l : CTree ℕ) (p : ℕ) (r : CTree ℕ) :
    rootPtr (bin d c l p r) = p := by
  cases d <;> rfl

/-- The nodes of the tree, the root having the parent `parent`, are linked as the
tree says. -/
def Links (mem : ℕ → SchedNode) : ℕ → CTree ℕ → Prop
  | _, .nil => True
  | parent, .node c l p r =>
    (mem p).left = rootPtr l ∧ (mem p).right = rootPtr r ∧ (mem p).rbParent = parent ∧
      (mem p).rbColor = colorBit c ∧ Links mem p l ∧ Links mem p r

theorem links_bin {parent : ℕ} (d : Side) {c : Color} {l r : CTree ℕ}
    {p : ℕ} :
    Links mem parent (bin d c l p r) ↔
      (mem p).child d = rootPtr l ∧ (mem p).child d.other = rootPtr r ∧
        (mem p).rbParent = parent ∧ (mem p).rbColor = colorBit c ∧
        Links mem p l ∧ Links mem p r := by
  cases d with
  | left => rfl
  | right =>
    simp only [bin, Links, SchedNode.child, Side.other]
    tauto

/-- The address of the node above the hole. -/
def pathPtr : List (Frame ℕ) → ℕ
  | [] => 0
  | f :: _ => f.elem

/-- The nodes of the path are linked as it says, with `hole` in its hole. -/
def PathLinks (mem : ℕ → SchedNode) (root : ℕ) : List (Frame ℕ) → ℕ → Prop
  | [], hole => root = hole
  | f :: k, hole =>
    (mem f.elem).child f.side = hole ∧ (mem f.elem).child f.side.other = rootPtr f.sib ∧
      (mem f.elem).rbParent = pathPtr k ∧ (mem f.elem).rbColor = colorBit f.color ∧
      Links mem f.elem f.sib ∧ PathLinks mem root k f.elem

theorem links_plug {root : ℕ} : (root = rootPtr (plug k t) ∧ Links mem 0 (plug k t)) ↔
      PathLinks mem root k (rootPtr t) ∧ Links mem (pathPtr k) t := by
  induction k generalizing t with
  | nil => rfl
  | cons f k ih =>
    rw [plug, ih, links_bin, rootPtr_bin]
    simp only [PathLinks, pathPtr]
    tauto

/-- An address a node can have. -/
def NodePtr (p : ℕ) : Prop := p ≠ 0 ∧ 8 ∣ p

instance : DecidablePred NodePtr := fun p => inferInstanceAs (Decidable (p ≠ 0 ∧ 8 ∣ p))

/-- The state represents the tree. -/
structure Represents (s : RbTree) (T : CTree ℕ) : Prop where
  root : s.root = rootPtr T
  links : Links s.mem 0 T
  nodup : T.toList.Nodup
  valid : ∀ p ∈ T.toList, NodePtr p

/-- The same, seen from a position in the tree. -/
structure Focus (s : RbTree) (k : List (Frame ℕ)) (t : CTree ℕ) : Prop where
  path : PathLinks s.mem s.root k (rootPtr t)
  links : Links s.mem (pathPtr k) t
  nodup : (t.toList ++ pathElems k).Nodup
  valid : ∀ p ∈ t.toList ++ pathElems k, NodePtr p

theorem represents_plug : Represents s (plug k t) ↔ Focus s k t := by
  have hperm := toList_perm_plug k t
  constructor
  · rintro ⟨hroot, hlinks, hnodup, hvalid⟩
    obtain ⟨hpath, hlinks'⟩ := links_plug.mp ⟨hroot, hlinks⟩
    exact ⟨hpath, hlinks', hperm.nodup_iff.mp hnodup, fun p hp => hvalid p (hperm.mem_iff.mpr hp)⟩
  · rintro ⟨hpath, hlinks, hnodup, hvalid⟩
    obtain ⟨hroot, hlinks'⟩ := links_plug.mpr ⟨hpath, hlinks⟩
    exact ⟨hroot, hlinks', hperm.nodup_iff.mpr hnodup, fun p hp => hvalid p (hperm.mem_iff.mp hp)⟩

/-! ### Frames -/

theorem Links.congr :
    ∀ {parent : ℕ}, Links mem parent t → (∀ p ∈ t.toList, mem' p = mem p) →
      Links mem' parent t := by
  induction t with
  | nil => intro _ _ _; trivial
  | node c l p r ihl ihr =>
    rintro parent ⟨hleft, hright, hparent, hcolor, hl, hr⟩ hsame
    have hp : mem' p = mem p := hsame p (by simp [CTree.toList])
    refine ⟨by rw [hp, hleft], by rw [hp, hright], by rw [hp, hparent], by rw [hp, hcolor],
      ihl hl fun q hq => hsame q ?_, ihr hr fun q hq => hsame q ?_⟩
    · exact mem_append_left _ hq
    · exact mem_append_right _ (mem_cons_of_mem _ hq)

theorem PathLinks.congr {root : ℕ} :
    ∀ {hole : ℕ}, PathLinks mem root k hole → (∀ p ∈ pathElems k, mem' p = mem p) →
      PathLinks mem' root k hole := by
  induction k with
  | nil => intro _ h _; exact h
  | cons f k ih =>
    rintro hole ⟨hchild, hsib, hparent, hcolor, hlinks, hrest⟩ hsame
    have hp : mem' f.elem = mem f.elem := hsame _ mem_cons_self
    refine ⟨by rw [hp, hchild], by rw [hp, hsib], by rw [hp, hparent], by rw [hp, hcolor],
      hlinks.congr fun q hq => hsame q ?_, ih hrest fun q hq => hsame q ?_⟩
    · exact mem_cons_of_mem _ (mem_append_left _ hq)
    · exact mem_cons_of_mem _ (mem_append_right _ hq)

theorem rootPtr_mem (h : rootPtr t ≠ 0) : rootPtr t ∈ t.toList := by
  cases t with
  | nil => exact absurd rfl h
  | node c l p r => simp [rootPtr, CTree.toList]

theorem pathPtr_mem (h : pathPtr k ≠ 0) : pathPtr k ∈ pathElems k := by
  cases k with
  | nil => exact absurd rfl h
  | cons f k => exact mem_cons_self

theorem Links.reparent {parent parent' : ℕ}
    (h : Links mem parent t) (hnodup : t.toList.Nodup) (hvalid : ∀ p ∈ t.toList, NodePtr p)
    (hp : 8 ∣ parent')
    (hroot : rootPtr t ≠ 0 → mem' (rootPtr t) = (mem (rootPtr t)).withParent parent')
    (hsame : ∀ p ∈ t.toList, p ≠ rootPtr t → mem' p = mem p) :
    Links mem' parent' t := by
  cases t with
  | nil => trivial
  | node c l p r =>
    have hmem : p ∈ (CTree.node c l p r).toList := by simp [CTree.toList]
    have hcell : mem' p = (mem p).withParent parent' := hroot (hvalid p hmem).1
    obtain ⟨hl, hr, hdisj⟩ := nodup_append.mp hnodup
    obtain ⟨hpr, -⟩ := nodup_cons.mp hr
    obtain ⟨hleft, hright, -, hcolor, hlinks, hlinks'⟩ := h
    refine ⟨?_, ?_, ?_, ?_, hlinks.congr fun q hq => hsame q ?_ ?_,
      hlinks'.congr fun q hq => hsame q ?_ ?_⟩
    · rw [hcell]
      exact hleft
    · rw [hcell]
      exact hright
    · rw [hcell, SchedNode.rbParent_withParent _ hp]
    · rw [hcell, SchedNode.rbColor_withParent _ hp, hcolor]
    · exact mem_append_left _ hq
    · exact hdisj q hq p mem_cons_self
    · exact mem_append_right _ (mem_cons_of_mem _ hq)
    · rintro rfl
      exact hpr hq

/-- The side on which the hole of a path is. -/
def pathSide : List (Frame ℕ) → Side
  | [] => .left
  | f :: _ => f.side

theorem PathLinks.relink {root root' : ℕ}
    {hole hole' : ℕ} (h : PathLinks mem root k hole) (hnodup : (pathElems k).Nodup)
    (hvalid : ∀ p ∈ pathElems k, NodePtr p)
    (hroot : root' = if pathPtr k = 0 then hole' else root)
    (hhead : pathPtr k ≠ 0 → mem' (pathPtr k) = (mem (pathPtr k)).withChild (pathSide k) hole')
    (hsame : ∀ p ∈ pathElems k, p ≠ pathPtr k → mem' p = mem p) :
    PathLinks mem' root' k hole' := by
  cases k with
  | nil => exact hroot
  | cons f k =>
    have hne : f.elem ≠ 0 := (hvalid f.elem mem_cons_self).1
    have hcell : mem' f.elem = (mem f.elem).withChild f.side hole' := hhead hne
    obtain ⟨-, hsib, hparent, hcolor, hlinks, hrest⟩ := h
    obtain ⟨hnot, -⟩ := nodup_cons.mp hnodup
    have hother : ∀ q ∈ f.sib.toList ++ pathElems k, mem' q = mem q := by
      intro q hq
      refine hsame q (mem_cons_of_mem _ hq) ?_
      rintro rfl
      exact hnot hq
    have hkeep : root' = root := by rw [hroot, pathPtr, if_neg hne]
    rw [hkeep]
    refine ⟨?_, ?_, ?_, ?_, hlinks.congr fun q hq => hother q (mem_append_left _ hq),
      hrest.congr fun q hq => hother q (mem_append_right _ hq)⟩
    · rw [hcell, SchedNode.child_withChild]
    · rw [hcell, SchedNode.child_withChild_other, hsib]
    · rw [hcell, SchedNode.rbParent_withChild, hparent]
    · rw [hcell, SchedNode.rbColor_withChild, hcolor]

/-! ### The primitives -/

namespace RbTree

variable {k : List (Frame ℕ)} {s : RbTree}

theorem replaceChild_eq {u v : ℕ}
    (h : PathLinks s.mem s.root k u) (hu : u ≠ 0) (hfresh : u ∉ pathElems k)
    (hne : pathPtr k ≠ 0) :
    s.replaceChild (pathPtr k) u v = some (s.upd (pathPtr k) (.withChild (pathSide k) v)) := by
  cases k with
  | nil => exact absurd rfl hne
  | cons f k =>
    obtain ⟨d, c, p, sib⟩ := f
    obtain ⟨hchild, hsib, -⟩ := h
    have hp : p ≠ 0 := hne
    have hus : u ≠ rootPtr sib := by
      rintro rfl
      exact hfresh (mem_cons_of_mem _ (mem_append_left _ (rootPtr_mem hu)))
    simp only [replaceChild, pathPtr, pathSide, load_of_ne hp, bind_eq_bind,
      bind_some, setChild, store_of_ne hp]
    cases d with
    | left =>
      have heq : u = (s.mem p).left := hchild.symm
      rw [if_pos heq]
    | right =>
      have hneq : ¬ u = (s.mem p).left := fun e => hus (e.trans hsib)
      rw [if_neg hneq]

theorem setParentOf_eq (s : RbTree) (v p : ℕ) :
    ∃ s', s.setParentOf v p = some s' ∧ s'.root = s.root ∧
      (v ≠ 0 → s'.mem v = (s.mem v).withParent p) ∧
      (∀ q, (v ≠ 0 → q ≠ v) → s'.mem q = s.mem q) ∧ SameData s s' := by
  by_cases hv : v = 0
  · exact ⟨s, by simp [setParentOf, hv], rfl, fun h => absurd hv h, fun _ _ => rfl, SameData.refl s⟩
  · refine ⟨s.upd v (.withParent p), by simp [setParentOf, hv, rbSetParent], rfl,
      fun _ => upd_mem_self _ _ _, fun q hq => upd_mem_of_ne s _ (hq hv),
      SameData.upd _ _ fun n => n.data_withParent p⟩

theorem linkUp_eq {x y : ℕ} (hy : y ≠ 0)
    (hPy : pathPtr k ≠ y) (hpath : PathLinks s.mem s.root k x) (hx : x ≠ 0)
    (hxk : x ∉ pathElems k) (hyk : y ∉ pathElems k) :
    ∃ s', s.linkUp (pathPtr k) x y = some s' ∧ (s'.root = if pathPtr k = 0 then y else s.root) ∧
      s'.mem y = (s.mem y).withParent (pathPtr k) ∧
      (pathPtr k ≠ 0 → s'.mem (pathPtr k) = (s.mem (pathPtr k)).withChild (pathSide k) y) ∧
      (∀ q, q ≠ y → (pathPtr k ≠ 0 → q ≠ pathPtr k) → s'.mem q = s.mem q) ∧
      SameData s s' := by
  by_cases hP : pathPtr k = 0
  · refine ⟨upd { s with root := y } y (.withParent 0), ?_, ?_, ?_, fun h => absurd hP h, ?_, ?_⟩
    · simp [linkUp, hP, rbSetParent, hy]
    · simp [hP]
    · simp [hP]
    · intro q hq _
      exact upd_mem_of_ne _ _ hq
    · exact SameData.upd { s with root := y } y fun n => n.data_withParent 0
  · have hpath' : PathLinks (s.upd y (.withParent (pathPtr k))).mem
        (s.upd y (.withParent (pathPtr k))).root k x := by
      refine hpath.congr fun p hp => upd_mem_of_ne s _ ?_
      rintro rfl
      exact hyk hp
    refine ⟨(s.upd y (.withParent (pathPtr k))).upd (pathPtr k) (.withChild (pathSide k) y),
      ?_, ?_, ?_, ?_, ?_, ?_⟩
    · simp only [linkUp, hP, if_false, rbSetParent, store_of_ne hy, bind_eq_bind, bind_some]
      exact replaceChild_eq hpath' hx hxk hP
    · simp [hP]
    · rw [upd_mem_of_ne _ _ hPy.symm, upd_mem_self]
    · intro _
      rw [upd_mem_self, upd_mem_of_ne _ _ hPy]
    · intro q hq hqP
      rw [upd_mem_of_ne _ _ (hqP hP), upd_mem_of_ne _ _ hq]
    · exact (SameData.upd _ _ fun n => n.data_withParent _).trans
        (SameData.upd _ _ fun n => n.data_withChild _ _)

/-- What a rotation at `x` under the path `k` writes: `y` is the child that comes
up and `b`, possibly null, the subtree that changes sides. -/
theorem rbRotate_eq {d : Side} {x y b : ℕ} (hx : x ≠ 0)
    (hy : y ≠ 0) (hxy : x ≠ y) (hb : b ≠ 0 → b ≠ x ∧ b ≠ y ∧ b ∉ pathElems k)
    (hxk : x ∉ pathElems k) (hyk : y ∉ pathElems k) (hpath : PathLinks s.mem s.root k x)
    (hchild : (s.mem x).child d.other = y) (hnear : (s.mem y).child d = b)
    (hparent : (s.mem x).rbParent = pathPtr k) :
    ∃ s', s.rbRotate d x = some s' ∧ (s'.root = if pathPtr k = 0 then y else s.root) ∧
      s'.mem x = ((s.mem x).withChild d.other b).withParent y ∧
      s'.mem y = ((s.mem y).withParent (pathPtr k)).withChild d x ∧
      (b ≠ 0 → s'.mem b = (s.mem b).withParent x) ∧
      (pathPtr k ≠ 0 → s'.mem (pathPtr k) = (s.mem (pathPtr k)).withChild (pathSide k) y) ∧
      (∀ q, q ≠ x → q ≠ y → (b ≠ 0 → q ≠ b) → (pathPtr k ≠ 0 → q ≠ pathPtr k) →
        s'.mem q = s.mem q) ∧
      SameData s s' := by
  -- neither `x` nor `y` nor `b` is the parent
  have hP : ∀ {q}, q ≠ 0 → q ∉ pathElems k → pathPtr k ≠ q := by
    rintro q hq hnot rfl
    exact hnot (pathPtr_mem hq)
  obtain ⟨s₂, hrun₂, hroot₂, hb₂, hsame₂, hdata₂⟩ :=
    (s.upd x (.withChild d.other b)).setParentOf_eq b x
  have hx₂ : s₂.mem x = (s.mem x).withChild d.other b := by
    rw [hsame₂ x fun h => (hb h).1.symm, upd_mem_self]
  have hframe₂ : ∀ q, q ≠ x → (b ≠ 0 → q ≠ b) → s₂.mem q = s.mem q := by
    intro q hqx hqb
    rw [hsame₂ q hqb, upd_mem_of_ne _ _ hqx]
  have hpath₂ : PathLinks s₂.mem s₂.root k x := by
    rw [hroot₂]
    refine hpath.congr fun q hq => hframe₂ q ?_ fun h => ?_
    · rintro rfl
      exact hxk hq
    · rintro rfl
      exact (hb h).2.2 hq
  obtain ⟨s₃, hrun₃, hroot₃, hy₃, hP₃, hsame₃, hdata₃⟩ := linkUp_eq hy (hP hy hyk) hpath₂ hx hxk hyk
  have hx₃ : s₃.mem x = s₂.mem x := hsame₃ x hxy fun _ => (hP hx hxk).symm
  have hparent₂ : (s₂.mem x).rbParent = pathPtr k := by
    rw [hx₂, SchedNode.rbParent_withChild, hparent]
  refine ⟨(s₃.upd y (.withChild d x)).upd x (.withParent y), ?_, ?_, ?_, ?_, ?_, ?_, ?_, ?_⟩
  · have hyx : (s.upd x (.withChild d.other b)).mem y = s.mem y := upd_mem_of_ne _ _ hxy.symm
    simp only [rbRotate, load_of_ne hx, load_of_ne hy, bind_eq_bind, bind_some,
      hchild, hy, if_false, setChild, store_of_ne hx, hnear, hyx, hrun₂, hparent₂, rbSetParent,
      store_of_ne hy, hrun₃]
  · rw [upd_root, upd_root, hroot₃, hroot₂, upd_root]
  · rw [upd_mem_self, upd_mem_of_ne _ _ hxy, hx₃, hx₂]
  · rw [upd_mem_of_ne _ _ hxy.symm, upd_mem_self, hy₃, hframe₂ y hxy.symm fun h => (hb h).2.1.symm]
  · intro h
    obtain ⟨hbx, hby, hbk⟩ := hb h
    rw [upd_mem_of_ne _ _ hbx, upd_mem_of_ne _ _ hby, hsame₃ b hby fun _ => (hP h hbk).symm, hb₂ h,
      upd_mem_of_ne _ _ hbx]
  · intro h
    rw [upd_mem_of_ne _ _ (hP hx hxk), upd_mem_of_ne _ _ (hP hy hyk), hP₃ h,
      hframe₂ _ (hP hx hxk) fun h' => hP h' (hb h').2.2]
  · intro q hqx hqy hqb hqP
    rw [upd_mem_of_ne _ _ hqx, upd_mem_of_ne _ _ hqy, hsame₃ q hqy hqP, hframe₂ q hqx hqb]
  · have hdata₁ : SameData s (s.upd x (.withChild d.other b)) :=
      SameData.upd _ _ fun n => n.data_withChild _ _
    have hdata₄ : SameData s₃ (s₃.upd y (.withChild d x)) :=
      SameData.upd _ _ fun n => n.data_withChild _ _
    have hdata₅ := SameData.upd (s₃.upd y (.withChild d x)) x fun n => n.data_withParent y
    exact hdata₁.trans (hdata₂.trans (hdata₃.trans (hdata₄.trans hdata₅)))

end RbTree

/-! ### Operations on a represented tree -/

theorem bin_append_perm (d : Side) (c : Color) (l : CTree ℕ) (p : ℕ) (r : CTree ℕ) (es : List ℕ) :
    ((bin d c l p r).toList ++ es).Perm (p :: (l.toList ++ (r.toList ++ es))) := by
  rw [← append_assoc]
  exact (toList_bin_perm d c l p r).append_right es

namespace Focus

variable {s : RbTree} {k : List (Frame ℕ)} {d : Side} {c : Color} {l r t : CTree ℕ} {p : ℕ}

theorem nodup_bin (h : Focus s k (bin d c l p r)) :
    (p :: (l.toList ++ (r.toList ++ pathElems k))).Nodup :=
  (bin_append_perm d c l p r _).nodup_iff.mp h.nodup

theorem of_perm {s' : RbTree} {k' : List (Frame ℕ)} {t' : CTree ℕ} (h : Focus s k t)
    (hpath : PathLinks s'.mem s'.root k' (rootPtr t')) (hlinks : Links s'.mem (pathPtr k') t')
    (hperm : (t'.toList ++ pathElems k').Perm (t.toList ++ pathElems k)) : Focus s' k' t' :=
  ⟨hpath, hlinks, hperm.nodup_iff.mpr h.nodup, fun q hq => h.valid q (hperm.mem_iff.mp hq)⟩

theorem mem_valid (h : Focus s k (bin d c l p r)) : NodePtr p :=
  h.valid p ((bin_append_perm d c l p r _).mem_iff.mpr mem_cons_self)

theorem path_dvd (h : Focus s k t) : 8 ∣ pathPtr k := by
  cases k with
  | nil => exact dvd_zero 8
  | cons f k => exact (h.valid f.elem (mem_append_right _ mem_cons_self)).2

theorem cell (h : Focus s k (bin d c l p r)) :
    (s.mem p).child d = rootPtr l ∧ (s.mem p).child d.other = rootPtr r ∧
      (s.mem p).rbParent = pathPtr k ∧ (s.mem p).rbColor = colorBit c := by
  obtain ⟨hl, hr, hparent, hcolor, -⟩ := (links_bin d).mp h.links
  exact ⟨hl, hr, hparent, hcolor⟩

theorem colorSafe (h : Focus s k t) : s.rbColorSafe (rootPtr t) = some (colorBit t.color) := by
  cases t with
  | nil => rfl
  | node c l p r =>
    have hp : p ≠ 0 := (mem_valid (d := .left) h).1
    obtain ⟨-, -, -, hcolor⟩ := cell (d := .left) h
    simp only [RbTree.rbColorSafe, rootPtr, ne_eq, hp, not_false_eq_true, if_true,
      RbTree.load_of_ne hp, bind_eq_bind, bind_some, hcolor, CTree.color]

/-- **Painting** the node at the position. -/
theorem setColor (h : Focus s k (bin d c l p r)) (c' : Color) :
    ∃ s', s.rbSetColor p (colorBit c') = some s' ∧ Focus s' k (bin d c' l p r) ∧ SameData s s' := by
  have hp : p ≠ 0 := h.mem_valid.1
  obtain ⟨hnot, -⟩ := nodup_cons.mp h.nodup_bin
  have hsame : ∀ q ∈ l.toList ++ (r.toList ++ pathElems k),
      (s.upd p (.withColor (colorBit c'))).mem q = s.mem q := by
    intro q hq
    refine RbTree.upd_mem_of_ne s _ ?_
    rintro rfl
    exact hnot hq
  obtain ⟨hl, hr, hparent, -, hlinksl, hlinksr⟩ := (links_bin d).mp h.links
  refine ⟨s.upd p (.withColor (colorBit c')), RbTree.store_of_ne hp, h.of_perm ?_ ?_ ?_,
    SameData.upd _ _ fun n => n.data_withColor _⟩
  · have hpath := h.path
    rw [rootPtr_bin] at hpath ⊢
    exact hpath.congr fun q hq =>
      hsame q (mem_append_right _ (mem_append_right _ hq))
  · refine (links_bin d).mpr ⟨?_, ?_, ?_, ?_, ?_, ?_⟩
    · rw [RbTree.upd_mem_self, SchedNode.child_withColor, hl]
    · rw [RbTree.upd_mem_self, SchedNode.child_withColor, hr]
    · rw [RbTree.upd_mem_self, SchedNode.rbParent_withColor, hparent]
    · rw [RbTree.upd_mem_self, SchedNode.rbColor_withColor]
    · exact hlinksl.congr fun q hq => hsame q (mem_append_left _ hq)
    · exact hlinksr.congr fun q hq =>
        hsame q (mem_append_right _ (mem_append_left _ hq))
  · exact (bin_append_perm d c' l p r _).trans (bin_append_perm d c l p r _).symm

/-- **Rotating** at the position: the far child `y` comes up and its near subtree
`b` changes sides. -/
theorem rotate {cx cy : Color} {a b u : CTree ℕ} {x y : ℕ}
    (h : Focus s k (bin d cx a x (bin d cy b y u))) :
    ∃ s', s.rbRotate d x = some s' ∧ Focus s' k (bin d cy (bin d cx a x b) y u) ∧
      SameData s s' := by
  -- the nodes before and after, `x` and `y` first
  have hbefore : ((bin d cx a x (bin d cy b y u)).toList ++ pathElems k).Perm
      (x :: y :: (a.toList ++ (b.toList ++ (u.toList ++ pathElems k)))) := by
    refine (bin_append_perm _ _ _ _ _ _).trans (List.Perm.cons _ ?_)
    exact ((bin_append_perm d cy b y u (pathElems k)).append_left _).trans perm_middle
  have hafter : ((bin d cy (bin d cx a x b) y u).toList ++ pathElems k).Perm
      (x :: y :: (a.toList ++ (b.toList ++ (u.toList ++ pathElems k)))) := by
    refine (bin_append_perm _ _ _ _ _ _).trans (List.Perm.trans ?_ (List.Perm.swap _ _ _))
    exact List.Perm.cons _ (bin_append_perm d cx a x b _)
  have hnodup := hbefore.nodup_iff.mp h.nodup
  have hvalid : ∀ q ∈ x :: y :: (a.toList ++ (b.toList ++ (u.toList ++ pathElems k))), NodePtr q :=
    fun q hq => h.valid q (hbefore.mem_iff.mpr hq)
  obtain ⟨hxn, hrest⟩ := nodup_cons.mp hnodup
  obtain ⟨hyn, hrest⟩ := nodup_cons.mp hrest
  simp only [mem_cons, mem_append, not_or] at hxn hyn
  obtain ⟨hxy, hxa, hxb, hxu, hxk⟩ := hxn
  obtain ⟨hya, hyb, hyu, hyk⟩ := hyn
  obtain ⟨-, hrest, hda⟩ := nodup_append.mp hrest
  obtain ⟨hbn, hrest, hdb⟩ := nodup_append.mp hrest
  obtain ⟨-, hkn, hdu⟩ := nodup_append.mp hrest
  have hx : NodePtr x := hvalid x (by simp)
  have hy : NodePtr y := hvalid y (by simp)
  obtain ⟨hxa', hxy', hxp, hxc, hla, hly⟩ := (links_bin d).mp h.links
  obtain ⟨hyb', hyu', -, hyc, hlb, hlu⟩ := (links_bin d).mp hly
  have hpath := h.path
  rw [rootPtr_bin] at hpath hxy'
  have hbmem : rootPtr b ≠ 0 → rootPtr b ∈ b.toList := rootPtr_mem
  have hPmem : pathPtr k ≠ 0 → pathPtr k ∈ pathElems k := pathPtr_mem
  obtain ⟨s', hrun, hroot, hcx, hcy, hcb, hcP, hsame, hdata⟩ :=
    RbTree.rbRotate_eq (b := rootPtr b) hx.1 hy.1 hxy
      (fun hb => ⟨fun e => hxb (e ▸ hbmem hb), fun e => hyb (e ▸ hbmem hb),
        fun hk => hdb _ (hbmem hb) _ (mem_append_right _ hk) rfl⟩)
      hxk hyk hpath hxy' hyb' hxp
  -- the nodes of `a` and `u` are not written at all
  have hkeep : ∀ q ∈ a.toList ++ u.toList, s'.mem q = s.mem q := by
    intro q hq
    rcases mem_append.mp hq with hqa | hqu
    · exact hsame q (fun e => hxa (e ▸ hqa)) (fun e => hya (e ▸ hqa))
        (fun hb => hda q hqa _ (mem_append_left _ (hbmem hb)))
        (fun hP => hda q hqa _ (mem_append_right _ (mem_append_right _ (hPmem hP))))
    · exact hsame q (fun e => hxu (e ▸ hqu)) (fun e => hyu (e ▸ hqu))
        (fun hb e => hdb _ (hbmem hb) q (mem_append_left _ hqu) e.symm)
        (fun hP => hdu q hqu _ (hPmem hP))
  refine ⟨s', hrun, h.of_perm ?_ ?_ (hafter.trans hbefore.symm), hdata⟩
  · rw [rootPtr_bin]
    refine hpath.relink hkn (fun q hq => hvalid q (by simp [hq])) hroot hcP fun q hq hne => ?_
    exact hsame q (fun e => hxk (e ▸ hq)) (fun e => hyk (e ▸ hq))
      (fun hb e => hdb _ (hbmem hb) q (mem_append_right _ hq) e.symm) (fun _ => hne)
  · refine (links_bin d).mpr ⟨?_, ?_, ?_, ?_, (links_bin d).mpr ⟨?_, ?_, ?_, ?_, ?_, ?_⟩, ?_⟩
    · rw [hcy, SchedNode.child_withChild, rootPtr_bin]
    · rw [hcy, SchedNode.child_withChild_other, SchedNode.child_withParent, hyu']
    · rw [hcy, SchedNode.rbParent_withChild, SchedNode.rbParent_withParent _ h.path_dvd]
    · rw [hcy, SchedNode.rbColor_withChild, SchedNode.rbColor_withParent _ h.path_dvd, hyc]
    · rw [hcx, SchedNode.child_withParent, SchedNode.child_withChild_other', hxa']
    · rw [hcx, SchedNode.child_withParent, SchedNode.child_withChild]
    · rw [hcx, SchedNode.rbParent_withParent _ hy.2]
    · rw [hcx, SchedNode.rbColor_withParent _ hy.2, SchedNode.rbColor_withChild, hxc]
    · exact hla.congr fun q hq => hkeep q (mem_append_left _ hq)
    · refine hlb.reparent hbn (fun q hq => hvalid q (by simp [hq])) hx.2 hcb fun q hq hne => ?_
      exact hsame q (fun e => hxb (e ▸ hq)) (fun e => hyb (e ▸ hq)) (fun _ => hne)
        (fun hP => hdb q hq _ (mem_append_right _ (hPmem hP)))
    · exact hlu.congr fun q hq => hkeep q (mem_append_right _ hq)

/-- The same rotation seen from the other side: the near child comes up. -/
theorem rotate_other {cx cy : Color} {a b u : CTree ℕ} {x y : ℕ}
    (h : Focus s k (bin d cx (bin d cy u y b) x a)) :
    ∃ s', s.rbRotate d.other x = some s' ∧ Focus s' k (bin d cy u y (bin d cx b x a)) ∧
      SameData s s' := by
  rw [← bin_other d cx, ← bin_other d cy] at h
  obtain ⟨s', hrun, hfocus, hdata⟩ := h.rotate
  rw [bin_other, bin_other] at hfocus
  exact ⟨s', hrun, hfocus, hdata⟩

end Focus

/-! ### Moving around -/

namespace Focus

variable {s : RbTree} {k : List (Frame ℕ)} {f : Frame ℕ} {d : Side} {c : Color}
  {l r t : CTree ℕ} {p : ℕ}

theorem represents (h : Focus s k t) : Represents s (plug k t) := represents_plug.mpr h

theorem up (h : Focus s (f :: k) t) : Focus s k (bin f.side f.color t f.elem f.sib) :=
  (represents_plug (k := k)).mp h.represents

theorem down (h : Focus s k (bin d c l p r)) : Focus s (⟨d, c, p, r⟩ :: k) l :=
  (represents_plug (k := ⟨d, c, p, r⟩ :: k)).mp h.represents

theorem across (h : Focus s (f :: k) t) :
    Focus s (⟨f.side.other, f.color, f.elem, t⟩ :: k) f.sib := by
  have hup := h.up
  rw [← bin_other] at hup
  exact hup.down

theorem frame_valid (h : Focus s (f :: k) t) : NodePtr f.elem := h.up.mem_valid

/-- The two children of a node are different, unless both are absent. -/
theorem rootPtr_ne_sib (h : Focus s (f :: k) t) (hne : rootPtr t ≠ 0 ∨ rootPtr f.sib ≠ 0) :
    rootPtr t ≠ rootPtr f.sib := by
  intro heq
  have ht : rootPtr t ≠ 0 := by
    rcases hne with h' | h'
    · exact h'
    · rwa [heq]
  have hdisj := (nodup_append.mp h.nodup).2.2
  have hsib : rootPtr f.sib ∈ f.sib.toList := rootPtr_mem (heq ▸ ht)
  exact hdisj _ (rootPtr_mem ht) _ (mem_cons_of_mem _ (mem_append_left _ hsib)) heq

theorem side_eq (h : Focus s (f :: k) t) (hne : rootPtr t ≠ 0 ∨ rootPtr f.sib ≠ 0) :
    (if rootPtr t = (s.mem f.elem).left then Side.left else Side.right) = f.side := by
  have hdiff := h.rootPtr_ne_sib hne
  obtain ⟨d, c, p, sib⟩ := f
  obtain ⟨hchild, hsib, -⟩ := h.path
  cases d with
  | left =>
    have heq : rootPtr t = (s.mem p).left := hchild.symm
    rw [if_pos heq]
  | right =>
    have hneq : ¬ rootPtr t = (s.mem p).left := fun e => hdiff (e.trans hsib)
    rw [if_neg hneq]

theorem rootPtr_ne_root (h : Focus s (f :: k) t) : rootPtr t ≠ s.root := by
  have hroot : ∀ {k : List (Frame ℕ)} {hole : ℕ}, PathLinks s.mem s.root k hole → k ≠ [] →
      s.root ∈ pathElems k := by
    intro k
    induction k with
    | nil => intro _ _ hk; exact absurd rfl hk
    | cons g k ih =>
      intro hole hlinks _
      cases k with
      | nil =>
        obtain ⟨-, -, -, -, -, hlast⟩ := hlinks
        rw [show s.root = g.elem from hlast]
        exact mem_cons_self
      | cons g' k =>
        have := ih hlinks.2.2.2.2.2 (cons_ne_nil _ _)
        exact mem_cons_of_mem _ (mem_append_right _ this)
  have hmem := hroot h.path (cons_ne_nil _ _)
  intro heq
  have hne : rootPtr t ≠ 0 := by
    rw [heq]
    exact (h.valid _ (mem_append_right _ hmem)).1
  exact (nodup_append.mp h.nodup).2.2 _ (rootPtr_mem hne) _ hmem heq

end Focus

theorem Represents.paintRoot {T : CTree ℕ} (h : Represents s T) (hT : s.root ≠ 0) :
    ∃ s', s.rbSetColor s.root rbBlack = some s' ∧ Represents s' (T.paint .black) ∧
      SameData s s' := by
  cases T with
  | nil => exact absurd h.root hT
  | node c l p r =>
    have hfocus : Focus s [] (bin .left c l p r) := represents_plug.mp h
    obtain ⟨s', hrun, hfocus', hdata⟩ := hfocus.setColor .black
    refine ⟨s', ?_, represents_plug.mpr hfocus', hdata⟩
    rw [h.root]
    exact hrun

end KernelR.Sched
