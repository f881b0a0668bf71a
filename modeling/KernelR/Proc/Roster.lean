import KernelR.Foundations.Enrolment
import KernelR.Proc.WaitProtocol
import Mathlib.Logic.Relation

/-!
# Who is in which wait queue

A thread waits in the queue of a mutex, of a semaphore, of a thread it joins, or of its
own process. A `Roster` shows the threads and all queues; `Roster.Move` lists what
can happen to it, and `Roster.Orderly` is kept by every move: the threads in state
`Blocked` are those in the queues, each in one place, a queue of a process holds threads
of that process, and nobody waits for a thread that is dead or gone.

The next module shows that the calls of the kernel are sequences of moves.
-/

namespace KernelR.Proc

open Function Option Foundations

/-- Where a thread can wait. -/
inductive Place where
  | mutex (m : ℕ)
  | semaphore (i : ℕ)
  /-- the `join_queue` of a thread -/
  | thread (tid : ℕ)
  /-- the `wait_queue` of a process -/
  | process (pid : ℕ)
deriving DecidableEq, Repr

/-- The threads and the wait queues. -/
structure Roster where
  threads : ℕ → Option TaskView
  queue : Place → List ℕ

namespace Roster

/-- The threads in state `Blocked`. -/
def blocked (s : Roster) : Set ℕ := {i | ∃ v, s.threads i = some v ∧ v.state = .blocked}

/-- What can happen to a roster. -/
inductive Move : Roster → Roster → Prop
  /-- a thread changes in other ways -/
  | touch {s : Roster} {i : ℕ} {v v' : TaskView} : s.threads i = some v →
      v'.state = v.state → v'.pid = v.pid →
      Move s { s with threads := Function.update s.threads i (some v') }
  | sleep {s : Roster} {c : ℕ} {v : TaskView} : s.threads c = some v → v.state = .ready →
      Move s { s with threads := Function.update s.threads c (some { v with state := .sleeping }) }
  /-- a thread marks itself `Blocked` and joins a queue -/
  | block {s : Roster} {c : ℕ} {v v' : TaskView} (place : Place) : s.threads c = some v →
      v.state = .ready → v'.state = .blocked → v'.pid = v.pid →
      (∀ target, place = .thread target →
        target ≠ c ∧ ∃ u, s.threads target = some u ∧ u.state ≠ .zombie) →
      (∀ pid, place = .process pid → v.pid = pid) →
      Move s ⟨Function.update s.threads c (some v'),
        Function.update s.queue place (s.queue place ++ [c])⟩
  /-- the first ones of a queue are taken out and woken -/
  | wake {s : Roster} (place : Place) {l rest : List ℕ} : s.queue place = l ++ rest →
      Move s ⟨wakeThreads l s.threads, Function.update s.queue place rest⟩
  /-- a thread dies that nobody waits for -/
  | die {s : Roster} {c : ℕ} {v : TaskView} : s.threads c = some v → v.state = .ready →
      s.queue (.thread c) = [] →
      Move s { s with threads := Function.update s.threads c (some { v with state := .zombie }) }
  /-- a dead thread leaves the arena -/
  | reap {s : Roster} {i : ℕ} {v : TaskView} : s.threads i = some v → v.state = .zombie →
      Move s ⟨Function.update s.threads i none, Function.update s.queue (.thread i) []⟩
  | spawn {s : Roster} {i : ℕ} {v : TaskView} : s.threads i = none → v.state = .ready →
      Move s { s with threads := Function.update s.threads i (some v) }
  /-- the record of a process goes that has no living thread -/
  | remove {s : Roster} {pid : ℕ} :
      (∀ i v, s.threads i = some v → v.pid = pid → v.state = .zombie) →
      Move s { s with queue := Function.update s.queue (.process pid) [] }

/-- **The threads that are `Blocked` are those in the queues.** -/
structure Orderly (s : Roster) : Prop where
  enrolled : Enrolled s.queue s.blocked
  own : ∀ {i pid}, i ∈ s.queue (.process pid) → ∃ v, s.threads i = some v ∧ v.pid = pid
  joined : ∀ {i target}, i ∈ s.queue (.thread target) →
    ∃ u, s.threads target = some u ∧ u.state ≠ .zombie

variable {s s' : Roster}

theorem Orderly.blocked_of_mem (h : s.Orderly) {place : Place} {i : ℕ} (hi : i ∈ s.queue place) :
    ∃ v, s.threads i = some v ∧ v.state = .blocked :=
  h.enrolled.mem hi

theorem Orderly.queue_thread_nil (h : s.Orderly) {i : ℕ}
    (hi : ∀ u, s.threads i = some u → u.state = .zombie) : s.queue (.thread i) = [] := by
  refine List.eq_nil_iff_forall_not_mem.mpr fun j hj => ?_
  obtain ⟨u, hu, hlive⟩ := h.joined hj
  exact hlive (hi u hu)

/-- A change of one thread that does not wait, before or after, and that keeps its pid
and its life. -/
theorem Orderly.update (h : s.Orderly) {i : ℕ} {v : TaskView} {w : TaskView}
    (hi : s.threads i = some v) (hpid : w.pid = v.pid)
    (hstate : w.state = .blocked ↔ v.state = .blocked)
    (hlive : v.state ≠ .zombie → w.state = .zombie → s.queue (.thread i) = []) :
    Orderly { s with threads := Function.update s.threads i (some w) } := by
  have hblocked : ({ s with threads := Function.update s.threads i (some w) } : Roster).blocked =
      s.blocked := by
    ext j
    by_cases hj : j = i
    · subst hj
      simp [blocked, hi, hstate]
    · simp [blocked, update_of_ne hj]
  refine ⟨hblocked ▸ h.enrolled, ?_, ?_⟩
  · intro j pid hj
    obtain ⟨u, hu, rfl⟩ := h.own hj
    by_cases hji : j = i
    · subst hji
      obtain rfl := some.inj (hi.symm.trans hu)
      exact ⟨w, update_self .., hpid⟩
    · exact ⟨u, (update_of_ne hji _ _).trans hu, rfl⟩
  · intro j target hj
    obtain ⟨u, hu, hu'⟩ := h.joined hj
    by_cases hji : target = i
    · subst hji
      obtain rfl := some.inj (hi.symm.trans hu)
      refine ⟨w, update_self .., fun hz => ?_⟩
      have hnil := hlive hu' hz
      rw [hnil] at hj
      cases hj
    · exact ⟨u, (update_of_ne hji _ _).trans hu, hu'⟩

/-- A thread that leaves the arena, or enters it, without anybody waiting for it. -/
theorem Orderly.replace (h : s.Orderly) {i : ℕ} {o : Option TaskView}
    (hold : ∀ v, s.threads i = some v → v.state ≠ .blocked)
    (hnew : ∀ v, o = some v → v.state ≠ .blocked) (hnil : s.queue (.thread i) = []) :
    Orderly { s with threads := Function.update s.threads i o } := by
  have hblocked : ({ s with threads := Function.update s.threads i o } : Roster).blocked =
      s.blocked := by
    ext j
    by_cases hj : j = i
    · subst hj
      refine iff_of_false ?_ ?_
      · rintro ⟨v, hv, hstate⟩
        have hnew' : Function.update s.threads j o j = some v := hv
        rw [update_self] at hnew'
        exact hnew v hnew' hstate
      · rintro ⟨v, hv, hstate⟩
        exact hold v hv hstate
    · simp only [blocked, Set.mem_ofPred_eq, update_of_ne hj]
  refine ⟨hblocked ▸ h.enrolled, ?_, ?_⟩
  · intro j pid hj
    obtain ⟨v, hv, hstate⟩ := h.blocked_of_mem hj
    have hji : j ≠ i := by
      rintro rfl
      exact hold v hv hstate
    obtain ⟨u, hu, rfl⟩ := h.own hj
    exact ⟨u, (update_of_ne hji _ _).trans hu, rfl⟩
  · intro j target hj
    have hti : target ≠ i := by
      rintro rfl
      rw [hnil] at hj
      cases hj
    obtain ⟨u, hu, hlive⟩ := h.joined hj
    exact ⟨u, (update_of_ne hti _ _).trans hu, hlive⟩

theorem Orderly.block (h : s.Orderly) {c : ℕ} {v v' : TaskView} {place : Place}
    (hc : s.threads c = some v) (hready : v.state = .ready) (hstate : v'.state = .blocked)
    (hsame : v'.pid = v.pid)
    (hjoin : ∀ target, place = .thread target →
      target ≠ c ∧ ∃ u, s.threads target = some u ∧ u.state ≠ .zombie)
    (hpid : ∀ pid, place = .process pid → v.pid = pid) :
    Orderly ⟨Function.update s.threads c (some v'),
      Function.update s.queue place (s.queue place ++ [c])⟩ := by
  have hnot : c ∉ s.blocked := by
    rintro ⟨u, hu, hblocked⟩
    rw [← some.inj (hc.symm.trans hu), hready] at hblocked
    cases hblocked
  have hblocked : (Roster.mk (Function.update s.threads c (some v'))
      (Function.update s.queue place (s.queue place ++ [c]))).blocked = insert c s.blocked := by
    ext j
    by_cases hj : j = c
    · subst hj
      exact iff_of_true ⟨v', update_self .., hstate⟩ (Set.mem_insert _ _)
    · simp only [blocked, Set.mem_ofPred_eq, update_of_ne hj, Set.mem_insert_iff, hj, false_or]
  have hmem : ∀ {j place'}, j ∈ Function.update s.queue place (s.queue place ++ [c]) place' →
      j ∈ s.queue place' ∨ (place = place' ∧ j = c) := by
    intro j place' hj
    by_cases hp : place' = place
    · subst hp
      rw [update_self, List.mem_append, List.mem_singleton] at hj
      exact hj.imp_right fun hj => ⟨rfl, hj⟩
    · rw [update_of_ne hp] at hj
      exact Or.inl hj
  -- a thread that was there keeps its pid and is alive if it was
  have hkeep : ∀ {j u}, s.threads j = some u → ∃ w,
      Function.update s.threads c (some v') j = some w ∧ w.pid = u.pid ∧
        (u.state ≠ .zombie → w.state ≠ .zombie) := by
    intro j u hu
    by_cases hj : j = c
    · subst hj
      obtain rfl := some.inj (hc.symm.trans hu)
      exact ⟨v', update_self .., hsame, fun _ => by rw [hstate]; nofun⟩
    · exact ⟨u, (update_of_ne hj _ _).trans hu, rfl, id⟩
  refine ⟨hblocked ▸ h.enrolled.push hnot place, ?_, ?_⟩
  · intro j pid hj
    have hold : ∃ u, s.threads j = some u ∧ u.pid = pid := by
      rcases hmem hj with hj | ⟨rfl, rfl⟩
      · exact h.own hj
      · exact ⟨v, hc, hpid pid rfl⟩
    obtain ⟨u, hu, rfl⟩ := hold
    obtain ⟨w, hw, hpid', -⟩ := hkeep hu
    exact ⟨w, hw, hpid'⟩
  · intro j target hj
    have hold : ∃ u, s.threads target = some u ∧ u.state ≠ .zombie := by
      rcases hmem hj with hj | ⟨rfl, rfl⟩
      · exact h.joined hj
      · exact (hjoin target rfl).2
    obtain ⟨u, hu, hlive⟩ := hold
    obtain ⟨w, hw, -, hlive'⟩ := hkeep hu
    exact ⟨w, hw, hlive' hlive⟩

theorem Orderly.wake (h : s.Orderly) {place : Place} {l rest : List ℕ}
    (hplace : s.queue place = l ++ rest) :
    Orderly ⟨wakeThreads l s.threads, Function.update s.queue place rest⟩ := by
  have hblocked : (Roster.mk (wakeThreads l s.threads)
      (Function.update s.queue place rest)).blocked = {i | i ∈ s.blocked ∧ i ∉ l} := by
    ext j
    constructor
    · rintro ⟨v, hv, hstate⟩
      obtain ⟨hv, hj⟩ := wakeThreads_blocked hv hstate
      exact ⟨⟨v, hv, hstate⟩, hj⟩
    · rintro ⟨⟨v, hv, hstate⟩, hj⟩
      exact ⟨v, (if_neg hj).trans hv, hstate⟩
  have hsub : ∀ {j place'}, j ∈ Function.update s.queue place rest place' → j ∈ s.queue place' := by
    intro j place' hj
    by_cases hp : place' = place
    · subst hp
      rw [update_self] at hj
      rw [hplace]
      exact List.mem_append_right _ hj
    · rwa [update_of_ne hp] at hj
  have hkeep : ∀ {j u}, s.threads j = some u → ∃ w, wakeThreads l s.threads j = some w ∧
      w.pid = u.pid ∧ (u.state ≠ .zombie → w.state ≠ .zombie) := by
    intro j u hu
    unfold wakeThreads
    split
    · refine ⟨u.wake, by rw [hu, map_some], ?_, ?_⟩
      · unfold TaskView.wake
        split <;> rfl
      · unfold TaskView.wake
        split
        · exact fun _ => nofun
        · exact id
    · exact ⟨u, hu, rfl, id⟩
  refine ⟨hblocked ▸ h.enrolled.release hplace, ?_, ?_⟩
  · intro j pid hj
    obtain ⟨u, hu, rfl⟩ := h.own (hsub hj)
    obtain ⟨w, hw, hpid, -⟩ := hkeep hu
    exact ⟨w, hw, hpid⟩
  · intro j target hj
    obtain ⟨u, hu, hlive⟩ := h.joined (hsub hj)
    obtain ⟨w, hw, -, hlive'⟩ := hkeep hu
    exact ⟨w, hw, hlive' hlive⟩

/-- **Every move** keeps the queues in order. -/
theorem Orderly.move (h : s.Orderly) (hm : Move s s') : s'.Orderly := by
  cases hm with
  | touch hi hstate hpid =>
    refine h.update hi hpid (by rw [hstate]) fun hlive hz => ?_
    exact absurd (hstate.symm.trans hz) hlive
  | sleep hc hready =>
    refine h.update hc rfl (by simp [hready]) fun _ hz => ?_
    cases hz
  | block place hc hready hstate hsame hjoin hpid =>
    exact h.block hc hready hstate hsame hjoin hpid
  | wake place hplace => exact h.wake hplace
  | die hc hready hnil => exact h.update hc rfl (by simp [hready]) fun _ _ => hnil
  | @reap i v hi hz =>
    have hnil := h.queue_thread_nil fun u hu => some.inj (hi.symm.trans hu) ▸ hz
    have hqueue : Function.update s.queue (.thread i) [] = s.queue :=
      update_eq_self_iff.mpr hnil.symm
    rw [hqueue]
    refine h.replace (fun v hv => ?_) nofun hnil
    rw [← some.inj (hi.symm.trans hv), hz]
    nofun
  | spawn hi hready =>
    refine h.replace (fun v hv => ?_) (fun v hv => ?_) (h.queue_thread_nil fun u hu => ?_)
    · exact nomatch hi.symm.trans hv
    · rw [← some.inj hv, hready]
      nofun
    · exact nomatch hi.symm.trans hu
  | @remove pid hdead =>
    have hnil : s.queue (.process pid) = [] := by
      refine List.eq_nil_iff_forall_not_mem.mpr fun j hj => ?_
      obtain ⟨v, hv, hstate⟩ := h.blocked_of_mem hj
      obtain ⟨u, hu, hpid⟩ := h.own hj
      obtain rfl := some.inj (hv.symm.trans hu)
      exact nomatch hstate.symm.trans (hdead j v hv hpid)
    rw [update_eq_self_iff.mpr hnil.symm]
    exact h

/-- **Every sequence of moves** keeps the queues in order. -/
theorem Orderly.moves (h : s.Orderly) (hm : Relation.ReflTransGen Move s s') : s'.Orderly := by
  induction hm with
  | refl => exact h
  | tail _ hmove ih => exact ih.move hmove

end Roster

end KernelR.Proc
