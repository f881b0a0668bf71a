import KernelR.Foundations.Run
import KernelR.Sched.ValidTree

/-!
# The minima that nobody keeps

The scheduler uses the tree in three ways: `add_task` makes a node and inserts it,
`schedule` and `wake_task` give a node outside of the tree new keys and insert it
again, and `schedule` removes the node it picked. `TreeCall` lists them, and
`QueueTree` is the tree together with the nodes that are in it.

Neither `rbtree_insert` nor `rbtree_remove` writes `min_deadline`: a node carries for
good the deadline it was created with. So the field is the minimum of the subtree only
as long as there is nothing to minimise, and `augmented_of_uniform_calls` is about
those runs: every insertion brings a node that was created with the deadline all
others in the tree have.
-/

namespace KernelR.Sched

open Foundations RbTree

/-- How the scheduler uses the tree. -/
inductive TreeCall where
  /-- `add_task`: insert a new node -/
  | create (node vruntime taskId deadline : ℕ)
  /-- `schedule` and `wake_task`: set the keys of a node and insert it again -/
  | enqueue (node vruntime deadline : ℕ)
  /-- `schedule`: remove the node that was picked -/
  | remove (node : ℕ)
deriving DecidableEq, Repr

namespace TreeCall

/-- The effect on the tree. -/
def run (fuel : ℕ) (tree : RbTree) : TreeCall → Option RbTree
  | create node vruntime taskId deadline =>
    rbtreeInsert fuel (tree.upd node fun _ => ⟨vruntime, taskId, deadline, deadline, 0, 0, 0⟩)
      node
  | enqueue node vruntime deadline => do
      let tree ← tree.store node fun n => { n with vruntime, deadline }
      rbtreeInsert fuel tree node
  | remove node => rbtreeRemove fuel tree node

/-- The node a call is about. -/
def target : TreeCall → ℕ
  | create node _ _ _ => node
  | enqueue node _ _ => node
  | remove node => node

/-- What a call writes into its node beforehand. -/
def prepare : TreeCall → SchedNode → SchedNode
  | create _ vruntime taskId deadline, _ => ⟨vruntime, taskId, deadline, deadline, 0, 0, 0⟩
  | enqueue _ vruntime deadline, n => { n with vruntime, deadline }
  | remove _, n => n

/-- The call inserts its node. -/
def inserts : TreeCall → Bool
  | remove _ => false
  | _ => true

theorem prepare_of_not_inserts {call : TreeCall} (h : ¬ call.inserts = true) (n : SchedNode) :
    call.prepare n = n := by
  cases call with
  | create node vruntime taskId deadline => exact absurd rfl h
  | enqueue node vruntime deadline => exact absurd rfl h
  | remove node => rfl

/-- Every call prepares its node and then inserts or removes it. -/
theorem run_eq {call : TreeCall} (hnode : call.target ≠ 0) (fuel : ℕ) (tree : RbTree) :
    call.run fuel tree =
      if call.inserts then rbtreeInsert fuel (tree.upd call.target call.prepare) call.target
      else rbtreeRemove fuel tree call.target := by
  cases call with
  | create node vruntime taskId deadline => rfl
  | enqueue node vruntime deadline =>
    have hnode' : node ≠ 0 := hnode
    rw [run, store_of_ne hnode']
    rfl
  | remove node => rfl

end TreeCall

/-- A tree with the nodes that are in it. -/
structure QueueTree where
  tree : RbTree
  nodes : List ℕ

namespace QueueTree

/-- A call with some fuel. Only a node outside of the tree is inserted, and only one
inside of it removed. -/
def step (q : QueueTree) (call : ℕ × TreeCall) : Option QueueTree :=
  if call.2.inserts then
    if NodePtr call.2.target ∧ call.2.target ∉ q.nodes then
      (call.2.run call.1 q.tree).map fun tree => ⟨tree, call.2.target :: q.nodes⟩
    else none
  else
    if call.2.target ∈ q.nodes then
      (call.2.run call.1 q.tree).map fun tree => ⟨tree, q.nodes.erase call.2.target⟩
    else none

/-- The empty tree, whatever the memory holds. -/
def Empty (q : QueueTree) : Prop := q.tree.root = 0 ∧ q.nodes = []

/-- The tree is valid and has these nodes. -/
def Holds (q : QueueTree) (T : CTree ℕ) : Prop := ValidTree q.tree T ∧ T.toList.Perm q.nodes

variable {q q' : QueueTree} {T : CTree ℕ} {call : ℕ × TreeCall}

/-! ### What a call does -/

theorem Holds.insert (h : q.Holds T) {node fuel : ℕ} (hnode : NodePtr node)
    (hfresh : node ∉ q.nodes) (hfuel : q.nodes.length + 3 ≤ fuel) (f : SchedNode → SchedNode) :
    ∃ tree T', rbtreeInsert fuel (q.tree.upd node f) node = some tree ∧
      Holds ⟨tree, node :: q.nodes⟩ T' ∧ SameData (q.tree.upd node f) tree := by
  obtain ⟨hvalid, hperm⟩ := h
  have hout : node ∉ T.toList := fun hmem => hfresh (hperm.mem_iff.mp hmem)
  have hlen : T.toList.length < fuel := by
    rw [hperm.length_eq]
    omega
  obtain ⟨tree, T', l₁, l₂, hrun, hvalid', hsplit, hlist, -, -, hdata⟩ :=
    (hvalid.upd hout f).insert hnode hout hlen
  refine ⟨tree, T', hrun, ⟨hvalid', ?_⟩, hdata⟩
  rw [hlist]
  exact List.perm_middle.trans ((hsplit ▸ hperm).cons node)

theorem Holds.remove (h : q.Holds T) {node fuel : ℕ} (hmem : node ∈ q.nodes)
    (hfuel : q.nodes.length + 3 ≤ fuel) :
    ∃ tree T', rbtreeRemove fuel q.tree node = some tree ∧
      Holds ⟨tree, q.nodes.erase node⟩ T' ∧ SameData q.tree tree := by
  obtain ⟨hvalid, hperm⟩ := h
  have hlen : T.toList.length + 3 ≤ fuel := hperm.length_eq ▸ hfuel
  obtain ⟨tree, T', hrun, hvalid', hlist, hdata⟩ := hvalid.remove (hperm.mem_iff.mpr hmem) hlen
  refine ⟨tree, T', hrun, ⟨hvalid', ?_⟩, hdata⟩
  rw [hlist]
  exact hperm.erase node

/-- **A call** leaves a valid tree, adds its node or takes it out, and changes no
scheduling data but what it wrote into that node. -/
theorem Holds.step (h : q.Holds T) (hfuel : q.nodes.length + 3 ≤ call.1)
    (hstep : q.step call = some q') :
    (∃ T', q'.Holds T') ∧ SameData (q.tree.upd call.2.target call.2.prepare) q'.tree ∧
      ∀ p ∈ q'.nodes, p ∈ q.nodes ∨ (p = call.2.target ∧ call.2.inserts = true) := by
  obtain ⟨fuel, call⟩ := call
  simp only [QueueTree.step] at hstep
  split at hstep
  · next hins =>
    obtain ⟨⟨hnode, hfresh⟩, hstep⟩ := Option.ite_none_right_eq_some.mp hstep
    obtain ⟨tree, T', hrun, hholds, hdata⟩ := h.insert hnode hfresh hfuel call.prepare
    rw [TreeCall.run_eq hnode.1, if_pos hins, hrun] at hstep
    cases hstep
    refine ⟨⟨T', hholds⟩, hdata, fun p hp => ?_⟩
    exact (List.mem_cons.mp hp).symm.imp_right fun hp => ⟨hp, hins⟩
  · next hins =>
    obtain ⟨hmem, hstep⟩ := Option.ite_none_right_eq_some.mp hstep
    have hnode := h.1.rep.valid _ (h.2.mem_iff.mpr hmem)
    obtain ⟨tree, T', hrun, hholds, hdata⟩ := h.remove hmem hfuel
    rw [TreeCall.run_eq hnode.1, if_neg hins, hrun] at hstep
    cases hstep
    refine ⟨⟨T', hholds⟩, ?_, fun p hp => Or.inl (List.mem_of_mem_erase hp)⟩
    have hid : SameData q.tree (q.tree.upd call.target call.prepare) :=
      SameData.upd _ _ fun n => congrArg SchedNode.data (TreeCall.prepare_of_not_inserts hins n)
    exact fun p => (hdata p).trans (hid p).symm

/-! ### Runs -/

/-- The call comes with enough fuel for the loops of `rbtree.c` to end. -/
def Fueled (q : QueueTree) (call : ℕ × TreeCall) (_ : QueueTree) : Prop :=
  q.nodes.length + 3 ≤ call.1

instance (q : QueueTree) (call : ℕ × TreeCall) (q' : QueueTree) : Decidable (q.Fueled call q') :=
  inferInstanceAs (Decidable (_ ≤ _))

/-- If the call inserts a node, that node carries, in both fields, the deadline that all
nodes of the tree have. -/
def Uniform (q : QueueTree) (call : ℕ × TreeCall) : Prop :=
  call.2.inserts = true →
    let n := call.2.prepare (q.tree.mem call.2.target)
    n.minDeadline = n.deadline ∧ ∀ p ∈ q.nodes, (q.tree.mem p).deadline = n.deadline

instance (q : QueueTree) (call : ℕ × TreeCall) : Decidable (q.Uniform call) :=
  inferInstanceAs (Decidable (_ → _ ∧ ∀ p ∈ q.nodes, (q.tree.mem p).deadline = _))

theorem exists_holds (h : Run Empty step Fueled q) : ∃ T, q.Holds T := by
  refine h.invariant (I := fun q => ∃ T, q.Holds T) ?_ ?_
  · rintro q ⟨hroot, hnodes⟩
    exact ⟨.nil, .empty hroot, hnodes ▸ List.Perm.nil⟩
  · rintro q call q' - ⟨T, hT⟩ hstep hfuel
    exact (hT.step hfuel hstep).1

/-- All nodes have this deadline, and were created with it. -/
def AllDue (q : QueueTree) (d : ℕ) : Prop :=
  ∀ p ∈ q.nodes, (q.tree.mem p).deadline = d ∧ (q.tree.mem p).minDeadline = d

theorem AllDue.step {d : ℕ} (h : q.AllDue d) (hholds : q.Holds T)
    (hfuel : q.nodes.length + 3 ≤ call.1) (huniform : q.Uniform call)
    (hstep : q.step call = some q') : ∃ d', q'.AllDue d' := by
  obtain ⟨-, hdata, hnodes⟩ := hholds.step hfuel hstep
  -- a node that was there keeps its data, up to what the call wrote into it
  have hold : ∀ p ∈ q.nodes, p ≠ call.2.target ∨ ¬ call.2.inserts = true →
      (q'.tree.mem p).deadline = (q.tree.mem p).deadline ∧ (q'.tree.mem p).minDeadline = d := by
    intro p hp hcase
    have hsame : (q.tree.upd call.2.target call.2.prepare).mem p = q.tree.mem p := by
      by_cases heq : p = call.2.target
      · rw [heq, upd_mem_self, TreeCall.prepare_of_not_inserts (hcase.resolve_left (· heq))]
      · exact upd_mem_of_ne _ _ heq
    rw [hdata.deadline, hdata.minDeadline, hsame]
    exact ⟨rfl, (h p hp).2⟩
  by_cases hins : call.2.inserts = true
  · obtain ⟨hmin, hall⟩ := huniform hins
    refine ⟨(call.2.prepare (q.tree.mem call.2.target)).deadline, fun p hp => ?_⟩
    by_cases heq : p = call.2.target
    · rw [hdata.deadline, hdata.minDeadline, heq, upd_mem_self]
      exact ⟨rfl, hmin⟩
    · have hmem := (hnodes p hp).resolve_right fun hnew => heq hnew.1
      obtain ⟨hdead, hmin'⟩ := hold p hmem (Or.inl heq)
      have hd : d = _ := (h p hmem).1.symm.trans (hall p hmem)
      exact ⟨hdead.trans (hall p hmem), hmin'.trans hd⟩
  · refine ⟨d, fun p hp => ?_⟩
    have hmem := (hnodes p hp).resolve_right fun hnew => hins hnew.2
    obtain ⟨hdead, hmin⟩ := hold p hmem (Or.inr hins)
    exact ⟨hdead.trans (h p hmem).1, hmin⟩

/-- Where all deadlines are the same, each node has the minimum of its subtree. -/
theorem augmented_of_eq {mem : ℕ → SchedNode} {d : ℕ} {t : CTree ℕ}
    (h : ∀ p ∈ t.toList, (mem p).deadline = d ∧ (mem p).minDeadline = d) : Augmented mem t := by
  induction t with
  | nil => trivial
  | node c l p r ihl ihr =>
    have hp : p ∈ (CTree.node c l p r).toList := by simp [CTree.toList]
    refine ⟨⟨⟨p, hp, (h p hp).1.trans (h p hp).2.symm⟩, ?_⟩, ihl ?_, ihr ?_⟩
    · rintro _ ⟨p', hp', rfl⟩
      exact ((h p hp).2.trans (h p' hp').1.symm).le
    · exact fun p' hp' => h p' (List.mem_append_left _ hp')
    · exact fun p' hp' => h p' (List.mem_append_right _ (List.mem_cons_of_mem _ hp'))

end QueueTree

open QueueTree

/-- **The minima of uniform runs.**  In every run in which each inserted node carries,
as `deadline` and as `min_deadline`, the deadline of all nodes in the tree, every node of
the tree has the least deadline of its subtree as its `min_deadline`. -/
theorem augmented_of_uniform_calls {q : QueueTree}
    (h : Run Empty step (fun q call q' => q.Fueled call q' ∧ q.Uniform call) q) :
    ∃ T, q.Holds T ∧ Augmented q.tree.mem T := by
  have hdue : ∃ d, q.AllDue d := by
    refine h.invariant (I := fun q => ∃ d, q.AllDue d) ?_ ?_
    · rintro q ⟨-, hnodes⟩
      refine ⟨0, fun p hp => ?_⟩
      rw [hnodes] at hp
      cases hp
    · rintro q call q' hrun ⟨d, hd⟩ hstep ⟨hfuel, huniform⟩
      obtain ⟨T, hT⟩ := exists_holds (hrun.mono fun _ _ _ hok => hok.1)
      exact hd.step hT hfuel huniform hstep
  obtain ⟨T, hT⟩ := exists_holds (h.mono fun _ _ _ hok => hok.1)
  obtain ⟨d, hd⟩ := hdue
  exact ⟨T, hT, augmented_of_eq fun p hp => hd p (hT.2.mem_iff.mp hp)⟩

/-- An empty tree. -/
def emptyQueue : QueueTree := ⟨⟨0, fun _ => ⟨0, 0, 0, 0, 0, 0, 0⟩⟩, []⟩

/-- The keys that `add_task` writes for the first three threads of weight 1024. -/
def threeThreads : List (ℕ × TreeCall) :=
  [(8, .create 8 0 1 6291456000000), (8, .create 16 0 2 6291456000000),
    (8, .create 24 0 3 4194304000000)]

/-- After three insertions the root promises a later deadline than its right child has. -/
theorem min_deadline_not_kept :
    ∃ q T, Run Empty step Fueled q ∧ q.Holds T ∧ ¬ Augmented q.tree.mem T := by
  have hexec : (exec step Fueled emptyQueue threeThreads).any (fun q =>
      decide (q.tree.root = 16 ∧ 24 ∈ q.nodes ∧
        (q.tree.mem 24).deadline < (q.tree.mem 16).minDeadline)) = true := by
    decide
  obtain ⟨q, hq, hprop⟩ := (Option.any_eq_true _ _).mp hexec
  obtain ⟨hroot, hmem, hlt⟩ := of_decide_eq_true hprop
  have hempty : Empty emptyQueue := ⟨rfl, rfl⟩
  have hrun := Run.exec (.start hempty) hq
  obtain ⟨T, hT⟩ := exists_holds hrun
  refine ⟨q, T, hrun, hT, fun haug => ?_⟩
  have hmemT : 24 ∈ T.toList := hT.2.mem_iff.mpr hmem
  have hne : T ≠ .nil := by
    rintro rfl
    cases hmemT
  have hleast := (haug.isLeast hne).2 ⟨24, hmemT, rfl⟩
  rw [← hT.1.rep.root, hroot] at hleast
  exact absurd hlt (not_lt.mpr hleast)

/-- Two threads with the same deadline, one of which runs and comes back. -/
theorem augmented_of_uniform_calls_sample :
    ∃ q, Run Empty step (fun q call q' => q.Fueled call q' ∧ q.Uniform call) q ∧
      q.nodes = [8, 16] ∧ ∃ T, q.Holds T ∧ Augmented q.tree.mem T := by
  have hexec : (exec step (fun q call q' => q.Fueled call q' ∧ q.Uniform call) emptyQueue
      [(8, .create 8 0 1 50), (8, .create 16 0 2 50), (8, .remove 8), (8, .enqueue 8 7 50)]).any
      (fun q => decide (q.nodes = [8, 16])) = true := by
    decide
  obtain ⟨q, hq, hnodes⟩ := (Option.any_eq_true _ _).mp hexec
  have hempty : Empty emptyQueue := ⟨rfl, rfl⟩
  have hrun := Run.exec (.start hempty) hq
  exact ⟨q, hrun, of_decide_eq_true hnodes, augmented_of_uniform_calls hrun⟩

end KernelR.Sched
