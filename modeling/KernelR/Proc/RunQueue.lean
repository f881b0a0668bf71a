import KernelR.Proc.Scheduler

/-!
# What the run queue holds

`QueueInv Q tasks tree T` ties the tree to the arena: the nodes of the tree are the
nodes of the threads with an index in `Q`, each once, and carry the `vruntime` and
`deadline` of their thread. The moves of the scheduler are moves of `Q`:

* `QueueInv.insertNode` and `QueueInv.enqueue` add an index,
* `QueueInv.dequeue` takes one out,
* `QueueInv.modify`, `QueueInv.remove` and `QueueInv.add` change the arena around it.

`SchedInv` then says which set it is: the threads in state `Ready` that are neither
the current task nor the idle task.
-/

namespace KernelR.Proc

open Function Option Foundations Sched Sched.RbTree

/-- The tree holds the nodes of the threads in `Q`. -/
structure QueueInv (Q : Set ℕ) (tasks : ThreadArena) (tree : RbTree) (T : CTree ℕ) : Prop where
  arena : tasks.Wf
  valid : ValidTree tree T
  tid : ∀ {i t}, tasks.get i = some t → t.tid = i
  /-- the node of a thread carries its index -/
  owner : ∀ {i t}, tasks.get i = some t → t.rbNode ≠ 0 →
    NodePtr t.rbNode ∧ (tree.mem t.rbNode).taskId = i
  node : ∀ p ∈ T.toList, (tree.mem p).taskId ∈ Q ∧ ∃ t, tasks.get (tree.mem p).taskId = some t ∧
    t.rbNode = p ∧ (tree.mem p).vruntime = t.vruntime ∧ (tree.mem p).deadline = t.deadline
  thread : ∀ i ∈ Q, ∃ t, tasks.get i = some t ∧ t.rbNode ∈ T.toList

namespace QueueInv

variable {Q : Set ℕ} {tasks : ThreadArena} {tree : RbTree} {T : CTree ℕ} {i : ℕ} {t : Thread}

theorem taskId_inj (h : QueueInv Q tasks tree T) {p q : ℕ} (hp : p ∈ T.toList) (hq : q ∈ T.toList)
    (heq : (tree.mem p).taskId = (tree.mem q).taskId) : p = q := by
  obtain ⟨-, t, ht, hpt, -⟩ := h.node p hp
  obtain ⟨-, t', ht', hqt, -⟩ := h.node q hq
  rw [heq, ht'] at ht
  rw [← hpt, ← hqt, some.inj ht]

theorem nodup_taskId (h : QueueInv Q tasks tree T) :
    (T.toList.map fun p => (tree.mem p).taskId).Nodup :=
  h.valid.rep.nodup.map_on fun _ hp _ hq heq => h.taskId_inj hp hq heq

theorem length_le (h : QueueInv Q tasks tree T) : T.toList.length ≤ tasks.slots.length := by
  have hsub : (T.toList.map fun p => (tree.mem p).taskId) ⊆ List.range tasks.slots.length := by
    intro i hi
    obtain ⟨p, hp, rfl⟩ := List.mem_map.mp hi
    obtain ⟨-, t, ht, -⟩ := h.node p hp
    exact List.mem_range.mpr (Arena.lt_length_of_get ht)
  have hlen := (h.nodup_taskId.subperm hsub).length_le
  rwa [List.length_map, List.length_range] at hlen

theorem not_mem (h : QueueInv Q tasks tree T) (hi : tasks.get i = some t) (hQ : i ∉ Q) :
    t.rbNode ∉ T.toList := by
  intro hp
  have hown := h.owner hi (h.valid.rep.valid _ hp).1
  exact hQ (hown.2 ▸ (h.node _ hp).1)

theorem keys (h : QueueInv Q tasks tree T) (hi : tasks.get i = some t) (hQ : i ∈ Q) :
    (tree.mem t.rbNode).vruntime = t.vruntime ∧ (tree.mem t.rbNode).deadline = t.deadline := by
  obtain ⟨t', ht', hp⟩ := h.thread i hQ
  obtain rfl := some.inj (ht'.symm.trans hi)
  have hown := (h.owner hi (h.valid.rep.valid _ hp).1).2
  obtain ⟨-, u, hu, -, hkeys⟩ := h.node _ hp
  rw [hown, hi] at hu
  cases hu
  exact hkeys

/-- Change a thread. One in the tree keeps its keys and its node; one outside may
also give its node up. -/
theorem modify (h : QueueInv Q tasks tree T) (hi : tasks.get i = some t) {f : Thread → Thread}
    (htid : (f t).tid = t.tid) (hnode : (f t).rbNode = t.rbNode ∨ (i ∉ Q ∧ (f t).rbNode = 0))
    (hdata : i ∈ Q → (f t).vruntime = t.vruntime ∧ (f t).deadline = t.deadline) :
    QueueInv Q (tasks.modify i f) tree T := by
  have hget : (tasks.modify i f).get = update tasks.get i (some (f t)) := by
    rw [Arena.get_modify, hi, map_some]
  refine ⟨h.arena.modify i f, h.valid, ?_, ?_, ?_, ?_⟩
  · intro j t' hj
    rw [hget] at hj
    by_cases hji : j = i
    · subst hji
      rw [update_self] at hj
      cases hj
      rw [htid, h.tid hi]
    · rw [update_of_ne hji] at hj
      exact h.tid hj
  · intro j t' hj h0
    rw [hget] at hj
    by_cases hji : j = i
    · subst hji
      rw [update_self] at hj
      cases hj
      rcases hnode with hnode | ⟨-, hnode⟩
      · rw [hnode] at h0 ⊢
        exact h.owner hi h0
      · exact absurd hnode h0
    · rw [update_of_ne hji] at hj
      exact h.owner hj h0
  · intro p hp
    obtain ⟨hQ, t', ht', hpt, hv, hd⟩ := h.node p hp
    refine ⟨hQ, ?_⟩
    rw [hget]
    by_cases hji : (tree.mem p).taskId = i
    · rw [hji] at ht' hQ ⊢
      rw [hi] at ht'
      cases ht'
      have hsame : (f t).rbNode = t.rbNode := hnode.resolve_right fun hout => hout.1 hQ
      obtain ⟨hv', hd'⟩ := hdata hQ
      exact ⟨f t, update_self .., hsame.trans hpt, hv.trans hv'.symm, hd.trans hd'.symm⟩
    · exact ⟨t', by rw [update_of_ne hji]; exact ht', hpt, hv, hd⟩
  · intro j hj
    obtain ⟨t', ht', hmem⟩ := h.thread j hj
    rw [hget]
    by_cases hji : j = i
    · subst hji
      rw [hi] at ht'
      cases ht'
      have hsame : (f t).rbNode = t.rbNode := hnode.resolve_right fun hout => hout.1 hj
      exact ⟨f t, update_self .., hsame ▸ hmem⟩
    · exact ⟨t', by rw [update_of_ne hji]; exact ht', hmem⟩

/-- Take a thread out of the arena that has no node in the tree. -/
theorem remove (h : QueueInv Q tasks tree T) (hQ : i ∉ Q) :
    QueueInv Q (tasks.remove i).1 tree T := by
  have hne : ∀ {j t'}, (tasks.remove i).1.get j = some t' → tasks.get j = some t' := by
    intro j t' hj
    rw [Arena.get_remove] at hj
    by_cases hji : j = i
    · subst hji
      rw [update_self] at hj
      cases hj
    · rwa [update_of_ne hji] at hj
  have hkeep : ∀ {j}, j ∈ Q → (tasks.remove i).1.get j = tasks.get j := by
    intro j hj
    rw [Arena.get_remove, update_of_ne (ne_of_mem_of_not_mem hj hQ)]
  refine ⟨h.arena.remove i, h.valid, fun hj => h.tid (hne hj), fun hj => h.owner (hne hj), ?_, ?_⟩
  · intro p hp
    obtain ⟨hmem, t', ht', hrest⟩ := h.node p hp
    exact ⟨hmem, t', (hkeep hmem).trans ht', hrest⟩
  · intro j hj
    obtain ⟨t', ht', hmem⟩ := h.thread j hj
    exact ⟨t', (hkeep hj).trans ht', hmem⟩

/-! ### Nodes in and out of the tree -/

theorem writeNode (h : QueueInv Q tasks tree T) (hi : tasks.get i = some t) (hQ : i ∉ Q)
    {f : SchedNode → SchedNode} (hf : ∀ n, (f n).taskId = n.taskId) :
    QueueInv Q tasks (tree.upd t.rbNode f) T := by
  have hout := h.not_mem hi hQ
  have htask : ∀ p, ((tree.upd t.rbNode f).mem p).taskId = (tree.mem p).taskId := by
    intro p
    by_cases hp : p = t.rbNode
    · rw [hp, upd_mem_self, hf]
    · rw [upd_mem_of_ne _ _ hp]
  refine ⟨h.arena, h.valid.upd hout f, h.tid, fun hj h0 => ?_, fun p hp => ?_, h.thread⟩
  · rw [htask]
    exact h.owner hj h0
  · rw [upd_mem_of_ne _ _ (ne_of_mem_of_not_mem hp hout)]
    exact h.node p hp

/-- **A thread enters the queue**: its node, which carries its keys, is inserted. -/
theorem insertNode (h : QueueInv Q tasks tree T) (hi : tasks.get i = some t) (hQ : i ∉ Q)
    (h0 : t.rbNode ≠ 0) (hv : (tree.mem t.rbNode).vruntime = t.vruntime)
    (hd : (tree.mem t.rbNode).deadline = t.deadline) {fuel : ℕ}
    (hfuel : tasks.slots.length < fuel) :
    ∃ tree' T', rbtreeInsert fuel tree t.rbNode = some tree' ∧
      QueueInv (insert i Q) tasks tree' T' := by
  obtain ⟨hptr, htask⟩ := h.owner hi h0
  obtain ⟨tree', T', l₁, l₂, hrun, hvalid, hsplit, hlist, -, -, hdata⟩ :=
    h.valid.insert hptr (h.not_mem hi hQ) (h.length_le.trans_lt hfuel)
  have hmem : ∀ p, p ∈ T'.toList ↔ p = t.rbNode ∨ p ∈ T.toList := by
    intro p
    rw [hlist, hsplit, List.perm_middle.mem_iff, List.mem_cons]
  refine ⟨tree', T', hrun, h.arena, hvalid, h.tid, ?_, ?_, ?_⟩
  · intro j t' hj h0'
    rw [hdata.taskId]
    exact h.owner hj h0'
  · intro p hp
    rw [hdata.taskId, hdata.vruntime, hdata.deadline]
    rcases (hmem p).mp hp with rfl | hp
    · exact ⟨htask ▸ Set.mem_insert _ _, t, htask ▸ hi, rfl, hv, hd⟩
    · obtain ⟨hin, hrest⟩ := h.node p hp
      exact ⟨Set.mem_insert_of_mem _ hin, hrest⟩
  · intro j hj
    rcases hj with rfl | hj
    · exact ⟨t, hi, (hmem _).mpr (Or.inl rfl)⟩
    · obtain ⟨t', ht', hin⟩ := h.thread j hj
      exact ⟨t', ht', (hmem _).mpr (Or.inr hin)⟩

/-- **A thread leaves the queue**: its node is removed. -/
theorem dequeue (h : QueueInv Q tasks tree T) {p fuel : ℕ} (hp : p ∈ T.toList)
    (hfuel : tasks.slots.length + 3 ≤ fuel) :
    ∃ tree' T', rbtreeRemove fuel tree p = some tree' ∧ SameData tree tree' ∧
      QueueInv (Q \ {(tree.mem p).taskId}) tasks tree' T' := by
  obtain ⟨tree', T', hrun, hvalid, hlist, hdata⟩ :=
    h.valid.remove hp ((Nat.add_le_add_right h.length_le 3).trans hfuel)
  have hmem : ∀ q, q ∈ T'.toList ↔ q ≠ p ∧ q ∈ T.toList := by
    intro q
    rw [hlist, h.valid.rep.nodup.mem_erase_iff]
  refine ⟨tree', T', hrun, hdata, h.arena, hvalid, h.tid, ?_, ?_, ?_⟩
  · intro j t' hj h0
    rw [hdata.taskId]
    exact h.owner hj h0
  · intro q hq
    obtain ⟨hqp, hq⟩ := (hmem q).mp hq
    rw [hdata.taskId, hdata.vruntime, hdata.deadline]
    obtain ⟨hin, hrest⟩ := h.node q hq
    exact ⟨⟨hin, fun heq => hqp (h.taskId_inj hq hp heq)⟩, hrest⟩
  · rintro j ⟨hj, hjp⟩
    obtain ⟨t', ht', hin⟩ := h.thread j hj
    refine ⟨t', ht', (hmem _).mpr ⟨fun heq => hjp ?_, hin⟩⟩
    rw [Set.mem_singleton_iff, ← heq]
    exact (h.owner ht' (h.valid.rep.valid _ hin).1).2.symm

theorem enqueue {s : Scheduler} (h : QueueInv Q s.tasks s.tree T) (hi : s.tasks.get i = some t)
    (hQ : i ∉ Q) (h0 : t.rbNode ≠ 0) :
    ∃ tree' T', s.enqueue t = some { s with tree := tree' } ∧
      QueueInv (insert i Q) s.tasks tree' T' := by
  let tree₁ := s.tree.upd t.rbNode fun n =>
    { n with vruntime := t.vruntime, deadline := t.deadline }
  have h₁ : QueueInv Q s.tasks tree₁ T := h.writeNode hi hQ fun _ => rfl
  have hself : tree₁.mem t.rbNode =
      { s.tree.mem t.rbNode with vruntime := t.vruntime, deadline := t.deadline } :=
    upd_mem_self _ _ _
  obtain ⟨tree', T', hrun, h'⟩ := h₁.insertNode hi hQ h0 (by rw [hself]) (by rw [hself])
    (show s.tasks.slots.length < s.fuel from Nat.lt_add_of_pos_right (by decide))
  refine ⟨tree', T', ?_, h'⟩
  rw [Scheduler.enqueue, store_of_ne h0]
  show (rbtreeInsert s.fuel tree₁ t.rbNode).bind _ = _
  rw [hrun, bind_some]

/-- **A new thread** gets a fresh slot and a fresh node. -/
theorem add (h : QueueInv Q tasks tree T) (task : Thread) {node : ℕ} (hptr : NodePtr node)
    (hfresh : ∀ t ∈ tasks.values, t.rbNode ≠ node) :
    ∃ tasks' i, tasks.insert task = some (tasks', i) ∧ tasks.get i = none ∧ i ∉ Q ∧
      (tasks'.modify i fun t => { t with tid := i, rbNode := node }).get =
        update tasks.get i (some { task with tid := i, rbNode := node }) ∧
      QueueInv Q (tasks'.modify i fun t => { t with tid := i, rbNode := node })
        (tree.upd node fun _ => ⟨task.vruntime, i, task.deadline, task.deadline, 0, 0, 0⟩) T := by
  obtain ⟨tasks', i, hrun, hwf, hnone, hget, -⟩ := Arena.insert_spec h.arena task
  have hQ : i ∉ Q := by
    intro hi
    obtain ⟨t, ht, -⟩ := h.thread i hi
    rw [hnone] at ht
    cases ht
  have hget' : (tasks'.modify i fun t => { t with tid := i, rbNode := node }).get =
      update tasks.get i (some { task with tid := i, rbNode := node }) := by
    rw [Arena.get_modify, hget, update_self, map_some, update_idem]
  have hother : ∀ {j t}, tasks.get j = some t → t.rbNode ≠ node :=
    fun ht => hfresh _ (Arena.mem_values.mpr ⟨_, ht⟩)
  have hout : node ∉ T.toList := by
    intro hp
    obtain ⟨-, t, ht, hpt, -⟩ := h.node node hp
    exact hother ht hpt
  refine ⟨tasks', i, hrun, hnone, hQ, hget', hwf.modify _ _, h.valid.upd hout _, ?_, ?_, ?_, ?_⟩
  · intro j t hj
    rw [hget'] at hj
    by_cases hji : j = i
    · subst hji
      rw [update_self] at hj
      rw [← some.inj hj]
    · rw [update_of_ne hji] at hj
      exact h.tid hj
  · intro j t hj h0
    rw [hget'] at hj
    by_cases hji : j = i
    · subst hji
      rw [update_self] at hj
      rw [← some.inj hj, upd_mem_self]
      exact ⟨hptr, rfl⟩
    · rw [update_of_ne hji] at hj
      rw [upd_mem_of_ne _ _ (hother hj)]
      exact h.owner hj h0
  · intro p hp
    rw [upd_mem_of_ne _ _ (ne_of_mem_of_not_mem hp hout), hget']
    obtain ⟨hin, hrest⟩ := h.node p hp
    rw [update_of_ne (ne_of_mem_of_not_mem hin hQ)]
    exact ⟨hin, hrest⟩
  · intro j hj
    rw [hget', update_of_ne (ne_of_mem_of_not_mem hj hQ)]
    exact h.thread j hj

end QueueInv

end KernelR.Proc
