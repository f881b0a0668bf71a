import KernelR.Sched.RbtreeInsert

/-!
# The search for the earliest eligible deadline

`rbtree_pick_eevdf` descends from the root once and never comes back. `descend` is
that descent on the tree instead of the pointers, and `pickLoop_eq` says that the loop
computes it.

At a node that is not eligible the descent loses nothing, since nothing to the right
of it is eligible either. At an eligible node it looks at the `min_deadline` of the
two subtrees, left first. If the left one promises an improvement, the right one is
given up, whatever it holds. So a node can be hidden from the search: by an ancestor that
has it on the right, and on the left a node that is due before all eligible nodes from the
root down to that ancestor. The search finds the least deadline exactly if some node that
has it is not hidden.
-/

namespace KernelR.Sched

open List Foundations CTree RbTree

variable {mem : ℕ → SchedNode} {v : ℕ}

/-- The node may run: `vruntime <= system_vruntime`. -/
def Eligible (mem : ℕ → SchedNode) (v p : ℕ) : Prop := (mem p).vruntime ≤ v

instance (mem : ℕ → SchedNode) (v p : ℕ) : Decidable (Eligible mem v p) :=
  inferInstanceAs (Decidable (_ ≤ _))

/-- The deadlines in a tree. -/
def deadlines (mem : ℕ → SchedNode) (t : CTree ℕ) : Set ℕ :=
  (fun p => (mem p).deadline) '' {p | p ∈ t.toList}

/-- The `min_deadline` of every node is the least deadline in the subtree below it. -/
def Augmented (mem : ℕ → SchedNode) : CTree ℕ → Prop
  | .nil => True
  | .node c l p r =>
    IsLeast (deadlines mem (.node c l p r)) (mem p).minDeadline ∧
      Augmented mem l ∧ Augmented mem r

/-! ### The descent -/

/-- `if (!best || current->deadline < best->deadline) best = current` -/
def better (mem : ℕ → SchedNode) (best q : ℕ) : ℕ :=
  if best = 0 ∨ (mem q).deadline < (mem best).deadline then q else best

/-- The subtree has a `min_deadline` before the deadline of `b`. -/
def Promises (mem : ℕ → SchedNode) (t : CTree ℕ) (b : ℕ) : Prop :=
  t ≠ .nil ∧ (mem (rootPtr t)).minDeadline < (mem b).deadline

instance (mem : ℕ → SchedNode) (t : CTree ℕ) (b : ℕ) : Decidable (Promises mem t b) :=
  inferInstanceAs (Decidable (_ ∧ _))

/-- The loop of `rbtree_pick_eevdf`, on the tree. -/
def descend (mem : ℕ → SchedNode) (v : ℕ) : CTree ℕ → ℕ → ℕ
  | .nil, best => best
  | .node _ l q r, best =>
    if Eligible mem v q then
      if Promises mem l (better mem best q) then descend mem v l (better mem best q)
      else if Promises mem r (better mem best q) then descend mem v r (better mem best q)
      else better mem best q
    else descend mem v l best

/-- `p` is not hidden: no ancestor `q` of it that has it on the right has a node on the left that
is due before all eligible nodes from the root down to `q`. The nodes above the tree are
`path`. -/
def Unhidden (mem : ℕ → SchedNode) (v p : ℕ) : List ℕ → CTree ℕ → Prop
  | _, .nil => True
  | path, .node _ l q r =>
    (p ∈ l.toList → Unhidden mem v p (q :: path) l) ∧
      (p ∈ r.toList → (∀ m ∈ l.toList, ∃ a ∈ q :: path, Eligible mem v a ∧
          (mem a).deadline ≤ (mem m).deadline) ∧ Unhidden mem v p (q :: path) r)

/-- No eligible node of the tree is due before this one. -/
def Earliest (mem : ℕ → SchedNode) (v : ℕ) (t : CTree ℕ) (p : ℕ) : Prop :=
  ∀ q ∈ t.toList, Eligible mem v q → (mem p).deadline ≤ (mem q).deadline

theorem better_cases (mem : ℕ → SchedNode) (best q : ℕ) :
    (better mem best q = best ∧ best ≠ 0) ∨ better mem best q = q := by
  unfold better
  split_ifs with h
  · exact Or.inr rfl
  · exact Or.inl ⟨rfl, fun h0 => h (Or.inl h0)⟩

theorem better_ne_zero (mem : ℕ → SchedNode) (best : ℕ) {q : ℕ} (hq : q ≠ 0) :
    better mem best q ≠ 0 := by
  rcases better_cases mem best q with ⟨heq, hbest⟩ | heq
  · rwa [heq]
  · rwa [heq]

theorem deadline_better_le (mem : ℕ → SchedNode) (best q : ℕ) :
    (mem (better mem best q)).deadline ≤ (mem q).deadline := by
  unfold better
  split_ifs with h
  · exact le_rfl
  · exact not_lt.mp fun hlt => h (Or.inr hlt)

theorem deadline_better_le_best {best q : ℕ} (hbest : best ≠ 0) :
    (mem (better mem best q)).deadline ≤ (mem best).deadline := by
  unfold better
  split_ifs with h
  · exact (h.resolve_left hbest).le
  · exact le_rfl

theorem betterOf_eq (s : RbTree) (best q : ℕ) :
    s.betterOf best q (s.mem q).deadline = some (better s.mem best q) := by
  by_cases h0 : best = 0
  · rw [betterOf, if_pos h0, better, if_pos (Or.inl h0)]
  · rw [betterOf, if_neg h0, load_of_ne h0, better]
    simp [h0]

variable {b : ℕ} {t : CTree ℕ}

theorem promises_eq (s : RbTree) {b bound : ℕ} (h0 : 0 ∉ t.toList)
    (hbound : bound = (s.mem b).deadline) :
    s.promises (rootPtr t) bound = some (decide (Promises s.mem t b)) := by
  subst hbound
  cases t with
  | nil => simp [promises, rootPtr, Promises]
  | node c l p r =>
    have hp : p ≠ 0 := by
      rintro rfl
      exact h0 (by simp [CTree.toList])
    simp [promises, rootPtr, Promises, hp]

theorem Focus.zero_notMem {s : RbTree} {k : List (Frame ℕ)} (h : Focus s k t) :
    0 ∉ t.toList := fun h0 => (h.valid 0 (mem_append_left _ h0)).1 rfl

/-- **The loop computes the descent.** -/
theorem pickLoop_eq {s : RbTree} (systemVruntime : ℕ) :
    ∀ (best : ℕ) {fuel : ℕ} {k : List (Frame ℕ)}, t.toList.length < fuel → Focus s k t →
      s.pickLoop systemVruntime fuel (rootPtr t) best =
        some (descend s.mem systemVruntime t best) := by
  induction t with
  | nil =>
    intro best fuel k hfuel _
    obtain ⟨m, rfl⟩ := Nat.exists_eq_add_of_le' hfuel
    rfl
  | node c l q r ihl ihr =>
    intro best fuel k hfuel h
    simp only [CTree.toList, length_append, length_cons] at hfuel
    obtain ⟨m, rfl⟩ := Nat.exists_eq_add_of_le' (show 1 ≤ fuel by omega)
    have hlenl : l.toList.length < m := by omega
    have hlenr : r.toList.length < m := by omega
    have hq : q ≠ 0 := (Focus.mem_valid (d := .left) h).1
    have hleft : (s.mem q).left = rootPtr l := (Focus.cell (d := .left) h).1
    have hright : (s.mem q).right = rootPtr r := (Focus.cell (d := .left) h).2.1
    have hfl : Focus s _ l := Focus.down (d := .left) h
    have hfr : Focus s _ r := Focus.down (d := .right) h
    have hb := better_ne_zero s.mem best hq
    have hpl := promises_eq s hfl.zero_notMem (b := better s.mem best q) rfl
    have hpr := promises_eq s hfr.zero_notMem (b := better s.mem best q) rfl
    show s.pickLoop systemVruntime (m + 1) q best = _
    simp only [pickLoop, hq, if_false, load_of_ne hq, Option.bind_eq_bind, Option.bind_some,
      hleft, hright, betterOf_eq, load_of_ne hb, hpl, hpr, decide_eq_true_eq, descend, Eligible]
    by_cases helig : (s.mem q).vruntime ≤ systemVruntime
    · simp only [helig, if_true]
      split_ifs with hl hr
      · exact ihl _ hlenl hfl
      · exact ihr _ hlenr hfr
      · rfl
    · simp only [helig, if_false]
      exact ihl _ hlenl hfl

/-- The descent ends at the node it started with or at an eligible one below. -/
theorem descend_cases (mem : ℕ → SchedNode) (v : ℕ) (t : CTree ℕ) (best : ℕ) :
    descend mem v t best = best ∨
      (descend mem v t best ∈ t.toList ∧ Eligible mem v (descend mem v t best)) := by
  induction t generalizing best with
  | nil => exact Or.inl rfl
  | node c l q r ihl ihr =>
    have hself : q ∈ (CTree.node c l q r).toList := by simp [CTree.toList]
    have hl : ∀ {p}, p ∈ l.toList → p ∈ (CTree.node c l q r).toList := fun hp =>
      mem_append_left _ hp
    have hr : ∀ {p}, p ∈ r.toList → p ∈ (CTree.node c l q r).toList := fun hp =>
      mem_append_right _ (mem_cons_of_mem _ hp)
    by_cases helig : Eligible mem v q
    · have hbest : better mem best q = best ∨
          (better mem best q ∈ (CTree.node c l q r).toList ∧
            Eligible mem v (better mem best q)) := by
        rcases better_cases mem best q with ⟨heq, -⟩ | heq
        · exact Or.inl heq
        · exact Or.inr ⟨heq.symm ▸ hself, heq.symm ▸ helig⟩
      simp only [descend, helig, if_true]
      split_ifs
      · rcases ihl (better mem best q) with heq | ⟨hmem, hp⟩
        · rwa [heq]
        · exact Or.inr ⟨hl hmem, hp⟩
      · rcases ihr (better mem best q) with heq | ⟨hmem, hp⟩
        · rwa [heq]
        · exact Or.inr ⟨hr hmem, hp⟩
      · exact hbest
    · simp only [descend, helig, if_false]
      exact (ihl best).imp_right fun h => ⟨hl h.1, h.2⟩

/-! ### What the subtree minima say -/

theorem Augmented.isLeast (h : Augmented mem t) (ht : t ≠ .nil) :
    IsLeast (deadlines mem t) (mem (rootPtr t)).minDeadline := by
  cases t with
  | nil => exact absurd rfl ht
  | node c l p r => exact h.1

theorem Augmented.le_of_not_promises (h : Augmented mem t) {b p : ℕ}
    (hnot : ¬ Promises mem t b) (hp : p ∈ t.toList) :
    (mem b).deadline ≤ (mem p).deadline := by
  have ht : t ≠ .nil := by
    rintro rfl
    cases hp
  have hmin : (mem b).deadline ≤ (mem (rootPtr t)).minDeadline :=
    not_lt.mp fun hlt => hnot ⟨ht, hlt⟩
  exact hmin.trans ((h.isLeast ht).2 ⟨p, hp, rfl⟩)

/-! ### When the descent finds the earliest deadline -/

/-- The best node so far, if there is one, is eligible and on the path, and no eligible node of
the path is due before it. -/
structure BestOn (mem : ℕ → SchedNode) (v : ℕ) (path : List ℕ) (best : ℕ) : Prop where
  mem_path : best ≠ 0 → best ∈ path ∧ Eligible mem v best
  le : ∀ a ∈ path, Eligible mem v a → best ≠ 0 ∧ (mem best).deadline ≤ (mem a).deadline

section Node

variable {c : Color} {l r : CTree ℕ} {q : ℕ}

/-- Nothing behind a node that is not eligible is eligible. -/
theorem not_eligible_right
    (hsorted : Sorted (fun p => (mem p).vruntime) (.node c l q r)) (hq : ¬ Eligible mem v q)
    {p : ℕ} (hp : p ∈ r.toList) : ¬ Eligible mem v p := by
  intro helig
  have hqr := (pairwise_append.mp hsorted).2.1
  exact hq (((pairwise_cons.mp hqr).1 p hp).trans helig)

theorem eligible_left
    (hsorted : Sorted (fun p => (mem p).vruntime) (.node c l q r)) (hq : Eligible mem v q)
    {p : ℕ} (hp : p ∈ l.toList) : Eligible mem v p :=
  ((pairwise_append.mp hsorted).2.2 p hp q mem_cons_self).trans hq

/-- The eligible nodes at a node that is not eligible are those on its left. -/
theorem mem_left_of_not_eligible
    (hsorted : Sorted (fun p => (mem p).vruntime) (.node c l q r)) (hq : ¬ Eligible mem v q)
    {p : ℕ} (hp : p ∈ (CTree.node c l q r).toList) (helig : Eligible mem v p) : p ∈ l.toList := by
  rcases mem_append.mp hp with hp | hp
  · exact hp
  · rcases mem_cons.mp hp with rfl | hp
    · exact absurd helig hq
    · exact absurd helig (not_eligible_right hsorted hq hp)

end Node

section BestOn

variable {path : List ℕ} {best q : ℕ}

theorem BestOn.nil : BestOn mem v [] 0 := ⟨fun h => absurd rfl h, fun _ ha => absurd ha not_mem_nil⟩

theorem BestOn.skip (h : BestOn mem v path best) (hq : ¬ Eligible mem v q) :
    BestOn mem v (q :: path) best where
  mem_path hbest := (h.mem_path hbest).imp_left (mem_cons_of_mem q)
  le a ha helig := by
    rcases mem_cons.mp ha with rfl | ha
    · exact absurd helig hq
    · exact h.le a ha helig

theorem BestOn.better (h : BestOn mem v path best) (hq0 : q ≠ 0) (hq : Eligible mem v q) :
    BestOn mem v (q :: path) (better mem best q) where
  mem_path _ := by
    rcases better_cases mem best q with ⟨heq, hbest⟩ | heq
    · rw [heq]
      exact (h.mem_path hbest).imp_left (mem_cons_of_mem q)
    · rw [heq]
      exact ⟨mem_cons_self, hq⟩
  le a ha helig := by
    refine ⟨better_ne_zero mem best hq0, ?_⟩
    rcases mem_cons.mp ha with rfl | ha
    · exact deadline_better_le mem best a
    · obtain ⟨hbest, hle⟩ := h.le a ha helig
      exact (deadline_better_le_best hbest).trans hle

end BestOn

/-- A descent that starts with a node ends at one that is due no later. -/
theorem deadline_descend_le (hb : b ≠ 0) (h0 : 0 ∉ t.toList) :
    (mem (descend mem v t b)).deadline ≤ (mem b).deadline := by
  induction t generalizing b with
  | nil => exact le_rfl
  | node c l q r ihl ihr =>
    have h0l : 0 ∉ l.toList := fun h => h0 (mem_append_left _ h)
    have h0r : 0 ∉ r.toList := fun h => h0 (mem_append_right _ (mem_cons_of_mem _ h))
    have hq0 : q ≠ 0 := by
      rintro rfl
      exact h0 (by simp [CTree.toList])
    have hbetter := better_ne_zero mem b hq0
    have hle : (mem (better mem b q)).deadline ≤ (mem b).deadline := deadline_better_le_best hb
    unfold descend
    split_ifs
    · exact (ihl hbetter h0l).trans hle
    · exact (ihr hbetter h0r).trans hle
    · exact hle
    · exact ihl hb h0l

/-- **A node that is not hidden is found**, or one that is due no later. -/
theorem deadline_descend_le_of_unhidden {path : List ℕ} {best p : ℕ}
    (hsorted : Sorted (fun p => (mem p).vruntime) t) (haug : Augmented mem t) (h0 : 0 ∉ t.toList)
    (hbest : BestOn mem v path best) (hp : p ∈ t.toList) (helig : Eligible mem v p)
    (hunhidden : Unhidden mem v p path t) :
    (mem (descend mem v t best)).deadline ≤ (mem p).deadline := by
  induction t generalizing path best with
  | nil => cases hp
  | node c l q r ihl ihr =>
    obtain ⟨-, haugl, haugr⟩ := haug
    have hsl : Sorted (fun p => (mem p).vruntime) l := (pairwise_append.mp hsorted).1
    have hsr : Sorted (fun p => (mem p).vruntime) r :=
      (pairwise_cons.mp (pairwise_append.mp hsorted).2.1).2
    have h0l : 0 ∉ l.toList := fun h => h0 (mem_append_left _ h)
    have h0r : 0 ∉ r.toList := fun h => h0 (mem_append_right _ (mem_cons_of_mem _ h))
    have hq0 : q ≠ 0 := by
      rintro rfl
      exact h0 (by simp [CTree.toList])
    by_cases hq : Eligible mem v q
    · have hbetter := hbest.better hq0 hq
      have hb0 := better_ne_zero mem best hq0
      by_cases hlate : (mem (better mem best q)).deadline ≤ (mem p).deadline
      · -- the search only gets better
        simp only [descend, hq, if_true]
        split_ifs
        · exact (deadline_descend_le hb0 h0l).trans hlate
        · exact (deadline_descend_le hb0 h0r).trans hlate
        · exact hlate
      have hpromises : ∀ {t}, Augmented mem t → p ∈ t.toList → Promises mem t (better mem best q) :=
        fun haug hp => by_contra fun hnot => hlate (haug.le_of_not_promises hnot hp)
      have hside : p ∈ l.toList ∨ p ∈ r.toList := by
        refine (mem_append.mp hp).imp_right fun hp => (mem_cons.mp hp).resolve_left ?_
        rintro rfl
        exact hlate (deadline_better_le mem best p)
      rcases hside with hp | hp
      · simp only [descend, hq, if_true, hpromises haugl hp]
        exact ihl hsl haugl h0l hbetter hp (hunhidden.1 hp)
      · -- what is on the left is due no earlier than the best node of the path
        obtain ⟨hleft, hunhidden⟩ := hunhidden.2 hp
        have hnot : ¬ Promises mem l (better mem best q) := by
          rintro ⟨hne, hlt⟩
          obtain ⟨m, hm, hmin⟩ := (haugl.isLeast hne).1
          obtain ⟨a, ha, hae, hle⟩ := hleft m hm
          have hmin : (mem m).deadline = _ := hmin
          have hfirst := (hbetter.le a ha hae).2
          omega
        simp only [descend, hq, if_true, hnot, if_false, hpromises haugr hp]
        exact ihr hsr haugr h0r hbetter hp hunhidden
    · have hp := mem_left_of_not_eligible hsorted hq hp helig
      simp only [descend, hq, if_false]
      exact ihl hsl haugl h0l (hbest.skip hq) hp (hunhidden.1 hp)

/-- **What the descent finds is not hidden.** -/
theorem unhidden_descend {path : List ℕ} {best : ℕ} (haug : Augmented mem t) (h0 : 0 ∉ t.toList)
    (hnodup : t.toList.Nodup) (hbest : BestOn mem v path best) :
    descend mem v t best = best ∨ Unhidden mem v (descend mem v t best) path t := by
  induction t generalizing path best with
  | nil => exact Or.inl rfl
  | node c l q r ihl ihr =>
    obtain ⟨-, haugl, haugr⟩ := haug
    obtain ⟨hnodupl, hnodupr, hdisjoint⟩ := nodup_append.mp hnodup
    obtain ⟨hqr, hnodupr⟩ := nodup_cons.mp hnodupr
    have hlr : ∀ {p}, p ∈ l.toList → p ∉ r.toList := fun hl hr =>
      hdisjoint _ hl _ (mem_cons_of_mem _ hr) rfl
    have h0l : 0 ∉ l.toList := fun h => h0 (mem_append_left _ h)
    have h0r : 0 ∉ r.toList := fun h => h0 (mem_append_right _ (mem_cons_of_mem _ h))
    -- a node found on the left is not on the right, and the root itself is on neither side
    have hleft : ∀ {b}, BestOn mem v (q :: path) b → descend mem v l b ≠ b →
        Unhidden mem v (descend mem v l b) path (.node c l q r) := fun hb hne =>
      have hl := ((descend_cases mem v l _).resolve_left hne).1
      ⟨fun _ => (ihl haugl h0l hnodupl hb).resolve_left hne, fun hr => absurd hr (hlr hl)⟩
    by_cases hq : Eligible mem v q
    · have hq0 : q ≠ 0 := by
        rintro rfl
        exact h0 (by simp [CTree.toList])
      have hbetter := hbest.better hq0 hq
      have hstay : better mem best q = best ∨
          Unhidden mem v (better mem best q) path (.node c l q r) := by
        refine (better_cases mem best q).imp And.left fun heq => ?_
        rw [heq]
        exact ⟨fun hl => absurd rfl (hdisjoint q hl q mem_cons_self), fun hr => absurd hr hqr⟩
      simp only [descend, hq, if_true]
      split_ifs with hl hr
      · by_cases heq : descend mem v l (better mem best q) = better mem best q
        · rwa [heq]
        · exact Or.inr (hleft hbetter heq)
      · by_cases heq : descend mem v r (better mem best q) = better mem best q
        · rwa [heq]
        · have hr := ((descend_cases mem v r _).resolve_left heq).1
          obtain ⟨hon, helig⟩ := hbetter.mem_path (better_ne_zero mem best hq0)
          exact Or.inr ⟨fun hl => absurd hr (hlr hl), fun _ => ⟨fun m hm =>
            ⟨_, hon, helig, haugl.le_of_not_promises hl hm⟩,
            (ihr haugr h0r hnodupr hbetter).resolve_left heq⟩⟩
      · exact hstay
    · simp only [descend, hq, if_false]
      by_cases heq : descend mem v l best = best
      · exact Or.inl heq
      · exact Or.inr (hleft (hbest.skip hq) heq)

theorem descend_ne_zero_of_best (hb : b ≠ 0) (h0 : 0 ∉ t.toList) : descend mem v t b ≠ 0 := by
  intro hzero
  rcases descend_cases mem v t b with heq | ⟨hmem, -⟩
  · exact hb (heq.symm.trans hzero)
  · exact h0 (hzero ▸ hmem)

theorem descend_ne_zero (best : ℕ)
    (hsorted : Sorted (fun p => (mem p).vruntime) t) (h0 : 0 ∉ t.toList)
    (h : ∃ p ∈ t.toList, Eligible mem v p) : descend mem v t best ≠ 0 := by
  induction t generalizing best with
  | nil =>
    obtain ⟨p, hp, -⟩ := h
    cases hp
  | node c l q r ihl _ =>
    have h0l : 0 ∉ l.toList := fun h => h0 (mem_append_left _ h)
    have h0r : 0 ∉ r.toList := fun h =>
      h0 (mem_append_right _ (mem_cons_of_mem _ h))
    have hq0 : q ≠ 0 := by
      rintro rfl
      exact h0 (by simp [CTree.toList])
    have hb := better_ne_zero mem best hq0
    by_cases helig : Eligible mem v q
    · simp only [descend, helig, if_true]
      split_ifs
      · exact descend_ne_zero_of_best hb h0l
      · exact descend_ne_zero_of_best hb h0r
      · exact hb
    · simp only [descend, helig, if_false]
      refine ihl best (pairwise_append.mp hsorted).1 h0l ?_
      obtain ⟨p, hp, hpe⟩ := h
      exact ⟨p, mem_left_of_not_eligible hsorted helig hp hpe, hpe⟩

/-- **`rbtree_pick_eevdf` on a tree ordered by `vruntime`, with correct subtree
minima.**  When some node is eligible it returns an eligible node; that node has the
least deadline among the eligible ones if and only if one that has it is not hidden. -/
theorem rbtree_pick_eevdf_least_iff {s : RbTree} {T : CTree ℕ} (h : Represents s T)
    (hsorted : Sorted (fun p => (s.mem p).vruntime) T) (haug : Augmented s.mem T)
    {systemVruntime : ℕ} (helig : ∃ p ∈ T.toList, Eligible s.mem systemVruntime p) {fuel : ℕ}
    (hfuel : T.toList.length < fuel) :
    ∃ p, rbtreePickEevdf fuel s s.root systemVruntime = some p ∧ p ∈ T.toList ∧
      Eligible s.mem systemVruntime p ∧
      (Earliest s.mem systemVruntime T p ↔ ∃ q ∈ T.toList, Eligible s.mem systemVruntime q ∧
        Earliest s.mem systemVruntime T q ∧ Unhidden s.mem systemVruntime q [] T) := by
  have hfocus : Focus s [] T := (represents_plug (k := [])).mp h
  have h0 := hfocus.zero_notMem
  have hne := descend_ne_zero 0 hsorted h0 helig
  have hfound := (descend_cases s.mem systemVruntime T 0).resolve_left hne
  refine ⟨descend s.mem systemVruntime T 0, ?_, hfound.1, hfound.2, fun hleast => ?_, ?_⟩
  · rw [rbtreePickEevdf, h.root, pickLoop_eq systemVruntime 0 hfuel hfocus]
    simp [hne]
  · exact ⟨_, hfound.1, hfound.2, hleast,
      (unhidden_descend haug h0 h.nodup .nil).resolve_left hne⟩
  · rintro ⟨q, hq, hqe, hleast, hunhidden⟩ p hp hpe
    exact (deadline_descend_le_of_unhidden hsorted haug h0 .nil hq hqe hunhidden).trans
      (hleast p hp hpe)

/-- A root with deadline 10 and two children: 5 on the left, 3 on the right. -/
def splitTree : RbTree where
  root := 8
  mem p :=
    if p = 8 then ⟨2, 1, 10, 3, 16, 24, 0⟩
    else if p = 16 then ⟨1, 2, 5, 5, 0, 0, 8⟩
    else ⟨3, 3, 3, 3, 0, 0, 8⟩

theorem splitTree_represents :
    Represents splitTree (.node .black (.node .black .nil 16 .nil) 8 (.node .black .nil 24 .nil)) :=
  ⟨rfl, ⟨rfl, rfl, rfl, rfl, ⟨rfl, rfl, rfl, rfl, trivial, trivial⟩,
    rfl, rfl, rfl, rfl, trivial, trivial⟩, by decide, by decide⟩

theorem splitTree_augmented : Augmented splitTree.mem
      (.node .black (.node .black .nil 16 .nil) 8 (.node .black .nil 24 .nil)) := by
  have hleast : ∀ {t : CTree ℕ} {p : ℕ}, p ∈ t.toList →
      (∀ q ∈ t.toList, (splitTree.mem p).deadline ≤ (splitTree.mem q).deadline) →
      IsLeast (deadlines splitTree.mem t) (splitTree.mem p).deadline := by
    intro t p hp hle
    refine ⟨⟨p, hp, rfl⟩, ?_⟩
    rintro _ ⟨q, hq, rfl⟩
    exact hle q hq
  exact ⟨hleast (p := 24) (by decide) (by decide),
    ⟨hleast (p := 16) (by decide) (by decide), trivial, trivial⟩,
    ⟨hleast (p := 24) (by decide) (by decide), trivial, trivial⟩⟩

/-- With all three nodes eligible the search settles on the left child, and misses the
earlier deadline on the right. -/
theorem pick_eevdf_misses_right :
    ∃ T : CTree ℕ, Represents splitTree T ∧ T.IsRedBlack ∧
      Sorted (fun p => (splitTree.mem p).vruntime) T ∧ Augmented splitTree.mem T ∧
      rbtreePickEevdf 4 splitTree splitTree.root 10 = some 16 ∧
      24 ∈ T.toList ∧ Eligible splitTree.mem 10 24 ∧
      (splitTree.mem 24).deadline < (splitTree.mem 16).deadline := by
  refine ⟨_, splitTree_represents, ⟨rfl, 2, ?_⟩, ?_, splitTree_augmented, by decide, by decide,
    by decide, by decide⟩
  · have hleaf : ∀ p, (CTree.node .black .nil p .nil : CTree ℕ).Balanced 1 := fun p =>
      (balanced_black_succ .left).mpr ⟨balanced_nil.mpr rfl, balanced_nil.mpr rfl⟩
    exact (balanced_black_succ .left).mpr ⟨hleaf 16, hleaf 24⟩
  · unfold Sorted
    decide

/-- At an earlier time the right child is not eligible yet, and the left one is not hidden. -/
theorem rbtree_pick_eevdf_least_iff_splitTree :
    ∃ p, rbtreePickEevdf 4 splitTree splitTree.root 2 = some p ∧ p ∈ [16, 8, 24] ∧
      Eligible splitTree.mem 2 p ∧ ∀ q ∈ [16, 8, 24], Eligible splitTree.mem 2 q →
        (splitTree.mem p).deadline ≤ (splitTree.mem q).deadline := by
  obtain ⟨p, hpick, hp, helig, hiff⟩ := @rbtree_pick_eevdf_least_iff splitTree _
    splitTree_represents (by unfold Sorted; decide) splitTree_augmented 2
    ⟨16, by decide, by decide⟩ 4 (by decide)
  refine ⟨p, hpick, hp, helig, hiff.mpr ⟨16, by decide, by decide, ?_, ?_⟩⟩
  · unfold Earliest
    decide
  · exact ⟨fun _ => ⟨fun h => absurd h (by decide), fun h => absurd h (by decide)⟩,
      fun h => absurd h (by decide)⟩

end KernelR.Sched
