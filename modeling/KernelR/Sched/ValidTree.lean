import KernelR.Sched.PickEevdf
import KernelR.Sched.RbtreeRemove

/-!
# The contract of the run queue's tree

`ValidTree s T` is the condition every function of `rbtree.c` expects and
re-establishes: the memory represents `T`, `T` is red-black, and its nodes are in
the order of their `vruntime`. This module assembles, from the specifications of
the two fixup loops, what a caller has to know:

* `ValidTree.insert` and `ValidTree.remove` keep the tree valid and change its
  contents by exactly one node;
* `ValidTree.pick` finds a node whenever there is one.

None of them runs out of fuel once the fuel exceeds the size of the tree, and none
follows a null pointer.
-/

namespace KernelR.Sched

open List Foundations CTree RbTree

theorem rbtreeLeftmost_spec {s : RbTree} {T : CTree ℕ} (h : Represents s T) (hne : T ≠ .nil)
    {fuel : ℕ} (hfuel : T.toList.length ≤ fuel) :
    ∃ y rest, rbtreeLeftmost fuel s (rootPtr T) = some y ∧ T.toList = y :: rest := by
  have hfocus : Focus s [] T := (represents_plug (k := [])).mp h
  have hroot : rootPtr T ≠ 0 := fun hzero => hne (hfocus.eq_nil hzero)
  obtain ⟨k, c, y, r, rfl, hside, hmost⟩ := leftmostLoop_spec hroot hfuel hfocus
  refine ⟨y, r.toList ++ pathAfter k, ?_, ?_⟩
  · rw [rbtreeLeftmost, if_neg hroot, hmost]
  · rw [toList_plug, pathBefore_of_left hside]
    rfl

/-- The memory holds a red-black tree of nodes ordered by `vruntime`. -/
structure ValidTree (s : RbTree) (T : CTree ℕ) : Prop where
  rep : Represents s T
  redBlack : T.IsRedBlack
  sorted : Sorted (fun p => (s.mem p).vruntime) T

namespace ValidTree

variable {s : RbTree} {T : CTree ℕ}

theorem empty {s : RbTree} (h : s.root = 0) : ValidTree s .nil where
  rep := ⟨h, trivial, nodup_nil, by simp [CTree.toList]⟩
  redBlack := ⟨rfl, 0, balanced_nil.mpr rfl⟩
  sorted := List.Pairwise.nil

/-- The order of the nodes is a matter of their scheduling data. -/
theorem sorted_of_sameData {s' : RbTree} {l : List ℕ} (hdata : SameData s s')
    (h : l.Pairwise fun p q => (s.mem p).vruntime ≤ (s.mem q).vruntime) :
    l.Pairwise fun p q => (s'.mem p).vruntime ≤ (s'.mem q).vruntime := by
  simp only [hdata.vruntime]
  exact h

theorem upd (h : ValidTree s T) {p : ℕ} (hp : p ∉ T.toList) (f : SchedNode → SchedNode) :
    ValidTree (s.upd p f) T where
  rep := h.rep.upd_fresh hp f
  redBlack := h.redBlack
  sorted := by
    refine List.Pairwise.imp_of_mem ?_ h.sorted
    intro a b ha hb hab
    dsimp only at hab ⊢
    rw [upd_mem_of_ne s f (ne_of_mem_of_not_mem ha hp),
      upd_mem_of_ne s f (ne_of_mem_of_not_mem hb hp)]
    exact hab

/-- **Insertion** puts the node behind all nodes that are not later than it. -/
theorem insert (h : ValidTree s T) {node fuel : ℕ} (hnode : NodePtr node)
    (hfresh : node ∉ T.toList) (hfuel : T.toList.length < fuel) :
    ∃ s' T' l₁ l₂, rbtreeInsert fuel s node = some s' ∧ ValidTree s' T' ∧
      T.toList = l₁ ++ l₂ ∧ T'.toList = l₁ ++ node :: l₂ ∧
      (∀ p ∈ l₁, (s.mem p).vruntime ≤ (s.mem node).vruntime) ∧
      (∀ p ∈ l₂, (s.mem node).vruntime < (s.mem p).vruntime) ∧ SameData s s' := by
  obtain ⟨l₁, l₂, hsplit, hbefore, hafter, s', T', hrun, hrep, hrb, hlist, hdata⟩ :=
    rbtreeInsert_spec h.rep h.redBlack h.sorted hnode hfresh hfuel
  refine ⟨s', T', l₁, l₂, hrun, ⟨hrep, hrb, ?_⟩, hsplit, hlist, hbefore, hafter, hdata⟩
  rw [Sorted, hlist]
  refine sorted_of_sameData hdata ?_
  have hold := h.sorted
  rw [Sorted, hsplit] at hold
  obtain ⟨h₁, h₂, h₁₂⟩ := pairwise_append.mp hold
  refine pairwise_append.mpr ⟨h₁, pairwise_cons.mpr ⟨?_, h₂⟩, ?_⟩
  · exact fun p hp => (hafter p hp).le
  · intro p hp q hq
    rcases mem_cons.mp hq with rfl | hq
    · exact hbefore p hp
    · exact h₁₂ p hp q hq

/-- **Removal** takes out exactly the given node. -/
theorem remove (h : ValidTree s T) {z fuel : ℕ} (hz : z ∈ T.toList)
    (hfuel : T.toList.length + 3 ≤ fuel) :
    ∃ s' T', rbtreeRemove fuel s z = some s' ∧ ValidTree s' T' ∧
      T'.toList = T.toList.erase z ∧ SameData s s' := by
  obtain ⟨l₁, l₂, hsplit, s', T', hrun, hrep, hrb, hlist, hdata⟩ :=
    rbtreeRemove_spec h.rep h.redBlack hz hfuel
  have herase : T'.toList = T.toList.erase z := by
    have hnot : z ∉ l₁ := by
      intro hmem
      have hnodup := h.rep.nodup
      rw [hsplit] at hnodup
      exact (nodup_append.mp hnodup).2.2 z hmem z mem_cons_self rfl
    rw [hlist, hsplit, erase_append_right _ hnot, erase_cons_head]
  refine ⟨s', T', hrun, ⟨hrep, hrb, ?_⟩, herase, hdata⟩
  rw [Sorted, herase]
  exact sorted_of_sameData hdata (h.sorted.sublist erase_sublist)

/-! ### Picking -/

/-- **Picking** finds a node of the tree, and null only in the empty tree. -/
theorem pick (h : ValidTree s T) (systemVruntime : ℕ) {fuel : ℕ} (hfuel : T.toList.length < fuel) :
    ∃ p, rbtreePickEevdf fuel s s.root systemVruntime = some p ∧
      ((p = 0 ∧ T = .nil) ∨ (p ≠ 0 ∧ p ∈ T.toList)) := by
  have hfocus : Focus s [] T := (represents_plug (k := [])).mp h.rep
  rw [rbtreePickEevdf, h.rep.root, pickLoop_eq systemVruntime 0 hfuel hfocus]
  by_cases hp0 : descend s.mem systemVruntime T 0 = 0
  · -- no eligible node: the leftmost one
    rw [hp0]
    by_cases hT : T = .nil
    · subst hT
      exact ⟨0, by simp [rbtreeLeftmost, rootPtr], Or.inl ⟨rfl, rfl⟩⟩
    · obtain ⟨y, rest, hmost, hlist⟩ := rbtreeLeftmost_spec h.rep hT hfuel.le
      have hy : y ∈ T.toList := hlist ▸ mem_cons_self
      refine ⟨y, ?_, Or.inr ⟨(h.rep.valid y hy).1, hy⟩⟩
      simp only [Option.bind_eq_bind, Option.bind_some, ne_eq, not_true_eq_false, if_false, hmost]
  · refine ⟨_, by simp [hp0], Or.inr ⟨hp0, ?_⟩⟩
    exact ((descend_cases s.mem systemVruntime T 0).resolve_left hp0).1

end ValidTree

/-- **`rbtree_pick_eevdf` is work-conserving.**  In every tree that is not empty and ordered by
`vruntime`, of whatever shape and with whatever subtree minima, it ends and returns a node of
the tree. The node is eligible if some node is, and has the least `vruntime` if none is. -/
theorem rbtree_pick_eevdf_work_conserving {s : RbTree} {T : CTree ℕ} (h : Represents s T)
    (hsorted : Sorted (fun p => (s.mem p).vruntime) T) (hne : T ≠ .nil) (systemVruntime : ℕ)
    {fuel : ℕ} (hfuel : T.toList.length < fuel) :
    ∃ p, rbtreePickEevdf fuel s s.root systemVruntime = some p ∧ p ∈ T.toList ∧
      ((∃ q ∈ T.toList, Eligible s.mem systemVruntime q) → Eligible s.mem systemVruntime p) ∧
      ((∀ q ∈ T.toList, ¬ Eligible s.mem systemVruntime q) →
        ∀ q ∈ T.toList, (s.mem p).vruntime ≤ (s.mem q).vruntime) := by
  have hfocus : Focus s [] T := (represents_plug (k := [])).mp h
  rw [rbtreePickEevdf, h.root, pickLoop_eq systemVruntime 0 hfuel hfocus]
  by_cases hp0 : descend s.mem systemVruntime T 0 = 0
  · -- the descent found nothing, so there was nothing to be found
    have hnone : ¬ ∃ q ∈ T.toList, Eligible s.mem systemVruntime q := fun hsome =>
      descend_ne_zero 0 hsorted hfocus.zero_notMem hsome hp0
    obtain ⟨y, rest, hmost, hlist⟩ := rbtreeLeftmost_spec h hne hfuel.le
    refine ⟨y, by simp [hp0, hmost], hlist ▸ List.mem_cons_self, fun hsome => absurd hsome hnone,
      fun _ q hq => ?_⟩
    rw [Sorted, hlist] at hsorted
    rw [hlist] at hq
    rcases List.mem_cons.mp hq with rfl | hq
    · exact le_rfl
    · exact (List.pairwise_cons.mp hsorted).1 q hq
  · obtain ⟨hmem, helig⟩ := (descend_cases s.mem systemVruntime T 0).resolve_left hp0
    refine ⟨_, by simp [hp0], hmem, fun _ => helig, fun hnone => ?_⟩
    exact absurd helig (hnone _ hmem)

/-- Two nodes with the same `vruntime`, the second one on the left after a rotation, and subtree
minima that are not minima of anything. -/
def staleTree : RbTree where
  root := 8
  mem p :=
    if p = 8 then ⟨5, 1, 10, 99, 16, 0, 0⟩
    else ⟨5, 2, 20, 0, 0, 0, 8 ||| 1⟩

theorem rbtree_pick_eevdf_work_conserving_stale :
    ∃ p, rbtreePickEevdf 3 staleTree staleTree.root 5 = some p ∧ p ∈ [16, 8] ∧
      ((∃ q ∈ [16, 8], Eligible staleTree.mem 5 q) → Eligible staleTree.mem 5 p) ∧
      ((∀ q ∈ [16, 8], ¬ Eligible staleTree.mem 5 q) →
        ∀ q ∈ [16, 8], (staleTree.mem p).vruntime ≤ (staleTree.mem q).vruntime) :=
  have hrep : Represents staleTree (.node .black (.node .red .nil 16 .nil) 8 .nil) :=
    ⟨rfl, ⟨rfl, rfl, rfl, rfl, ⟨rfl, rfl, rfl, rfl, trivial, trivial⟩, trivial⟩, by decide,
      by decide⟩
  rbtree_pick_eevdf_work_conserving hrep (by unfold Sorted; decide) (by simp) 5 (by decide)

/-! ### The two operations -/

/-- **`rbtree_insert` is correct.**  On a valid tree, and whatever the node carries
in its link fields, it returns a valid tree in which the node stands behind the
nodes with `vruntime` at most its own and before all others. -/
theorem rbtree_insert_correct {s : RbTree} {T : CTree ℕ} (h : ValidTree s T) {node : ℕ}
    (hnode : NodePtr node) (hfresh : node ∉ T.toList) {fuel : ℕ}
    (hfuel : T.toList.length < fuel) :
    ∃ s' T' l₁ l₂, rbtreeInsert fuel s node = some s' ∧ ValidTree s' T' ∧
      T.toList = l₁ ++ l₂ ∧ T'.toList = l₁ ++ node :: l₂ ∧
      (∀ p ∈ l₁, (s.mem p).vruntime ≤ (s.mem node).vruntime) ∧
      (∀ p ∈ l₂, (s.mem node).vruntime < (s.mem p).vruntime) ∧ SameData s s' :=
  h.insert hnode hfresh hfuel

/-- **`rbtree_remove` is correct.**  On a valid tree it takes out the given node and
leaves a valid tree with all others in their order. -/
theorem rbtree_remove_correct {s : RbTree} {T : CTree ℕ} (h : ValidTree s T) {z : ℕ}
    (hz : z ∈ T.toList) {fuel : ℕ} (hfuel : T.toList.length + 3 ≤ fuel) :
    ∃ s' T', rbtreeRemove fuel s z = some s' ∧ ValidTree s' T' ∧
      T'.toList = T.toList.erase z ∧ SameData s s' :=
  h.remove hz hfuel

/-- A black root at 8 with a red right child at 16, and at 24 a node that is in no
tree and carries links into this one. -/
def sampleTree : RbTree where
  root := 8
  mem p :=
    if p = 8 then ⟨5, 1, 50, 50, 0, 16, 0⟩
    else if p = 16 then ⟨7, 2, 70, 70, 0, 0, 8 ||| 1⟩
    else ⟨5, 3, 55, 55, 8, 16, 16 ||| 1⟩

theorem sampleTree_valid :
    ValidTree sampleTree (.node .black .nil 8 (.node .red .nil 16 .nil)) where
  rep := ⟨rfl, ⟨rfl, rfl, rfl, rfl, trivial, rfl, rfl, rfl, rfl, trivial, trivial⟩, by decide,
    by decide⟩
  redBlack := ⟨rfl, 1, (balanced_black_succ .left).mpr ⟨balanced_nil.mpr rfl,
    (balanced_red .left).mpr ⟨balanced_nil.mpr rfl, balanced_nil.mpr rfl, rfl, rfl⟩⟩⟩
  sorted := by unfold Sorted; decide

theorem rbtree_insert_correct_sample :
    ∃ s' T' l₁ l₂, rbtreeInsert 3 sampleTree 24 = some s' ∧ ValidTree s' T' ∧
      [8, 16] = l₁ ++ l₂ ∧ T'.toList = l₁ ++ 24 :: l₂ ∧
      (∀ p ∈ l₁, (sampleTree.mem p).vruntime ≤ 5) ∧
      (∀ p ∈ l₂, 5 < (sampleTree.mem p).vruntime) ∧ SameData sampleTree s' :=
  rbtree_insert_correct sampleTree_valid (by decide) (by decide) (by decide)

theorem rbtree_remove_correct_sample :
    ∃ s' T', rbtreeRemove 5 sampleTree 8 = some s' ∧ ValidTree s' T' ∧ T'.toList = [16] ∧
      SameData sampleTree s' :=
  rbtree_remove_correct sampleTree_valid (by decide) (by decide)

end KernelR.Sched
